import AppleMCX.Netif.Ethernet

/-! # Lifetime of the Ethernet DMA memory

A queue of the firmware outlives neither its buffers, nor their mappings, nor its doorbell
slot: what a field keeps is released only when the queue that may use it has no number.
A creation that times out leaves a queue without a number, and its memory is released.
-/
namespace AppleMCX.Ethernet
open Interaction Prog

/-- The queues with a number have all their resources. -/
abbrev KnownSafe (s : State) : Prop := s.dma.KnownSafe

/-- The state of the resources between two steps of the driver. -/
structure Kept (dma : Dma) : Prop where
  inv : Custody.Inv Field.owner Queue.kind dma
  lost : dma.Lost

/-- Only these queues have changed their numbers. -/
def Others (qs : List Queue) (dma dma' : Dma) : Prop := ∀ q, q ∉ qs → dma'.number q = dma.number q

variable {α β : Type} {s t : State} {dma : Dma} {op : Opcode} {n : ℕ} {refs : List (Field × ℕ)}

theorem knownSafe_of_eq (he : t.dma = dma) (h : dma.KnownSafe) : KnownSafe t := by
  rw [KnownSafe, he]
  exact h

theorem Others.refl (qs : List Queue) (dma : Dma) : Others qs dma dma := fun _ _ => rfl

theorem Others.trans {qs : List Queue} {dma₁ dma₂ dma₃ : Dma} (h₁ : Others qs dma₁ dma₂)
    (h₂ : Others qs dma₂ dma₃) :
    Others qs dma₁ dma₃ := fun q hq => (h₂ q hq).trans (h₁ q hq)

theorem Others.mono {qs qs' : List Queue} {dma' : Dma} (h : Others qs dma dma') (hqs : ∀ q ∈ qs, q ∈ qs') :
    Others qs' dma dma' := fun q hq => h q (fun hm => hq (hqs q hm))

theorem Kept.safe (h : Kept dma) : dma.KnownSafe := h.inv.known

/-! ## Programs that leave the resources alone -/

def Quiet (p : Eth α) : Prop := ∀ s, KnownSafe s → Always env KnownSafe p (fun _ t => t.dma = s.dma) s

theorem quiet_done (a : α) : Quiet (.done a) := fun _ h => ⟨h,rfl⟩

theorem Quiet.bind {p : Eth α} {f : α → Eth β} (hp : Quiet p) (hf : ∀ a, Quiet (f a)) : Quiet (p.bind f) := by
  intro s h
  refine Always.bind (hp s h) (fun a t ht he => ?_)
  exact (hf a t ht).mono (fun _ _ _ hd => hd.trans he)

theorem quiet_get {f : State → Eth α} (hf : ∀ s, Quiet (f s)) : Quiet (Prog.get.bind f) := fun s h => hf s s h

theorem quiet_update {f : State → State} (hf : ∀ s, (f s).dma = s.dma) : Quiet (update f) := by
  intro s h
  exact ⟨h,knownSafe_of_eq (hf s) h,hf s⟩

theorem quiet_ite {c : Prop} [Decidable c] {p q : Eth α} (hp : Quiet p) (hq : Quiet q) :
    Quiet (if c then p else q) := by
  split <;> assumption

theorem quiet_allocBfreg : Quiet allocBfreg := fun _ h => ⟨h,fun _ _ => ⟨h,rfl⟩⟩
theorem quiet_getEQ : Quiet getEQ := fun _ h => ⟨h,fun _ _ => ⟨h,rfl⟩⟩

theorem fwEffect_other {reply : Reply} (hc : creates op = none) (hd : destroys op = none) :
    fwEffect op n refs reply dma = dma := by simp [fwEffect, hc, hd]

theorem quiet_exec (hc : creates op = none) (hd : destroys op = none) : Quiet (exec op n refs) := by
  refine quiet_get (fun s => quiet_ite (quiet_done _) (fun s h => ⟨h,fun reply _ => ?_⟩))
  have he : (env.effect s (.exec op n refs) reply).dma = s.dma := fwEffect_other hc hd
  exact ⟨knownSafe_of_eq he h,he⟩

theorem quiet_onSuccess {kr : IOReturn} {f : State → State} (hf : ∀ s, (f s).dma = s.dma) : Quiet (onSuccess kr f) :=
  quiet_ite (quiet_update hf) (quiet_done _)

theorem quiet_andThen {kr : IOReturn} {rest : Eth IOReturn} (hr : Quiet rest) : Quiet (andThen kr rest) :=
  quiet_ite hr (quiet_done _)

theorem quiet_orElse {kr : IOReturn} {cleanup rest : Eth IOReturn} (hc : Quiet cleanup) (hr : Quiet rest) :
    Quiet (orElse kr cleanup rest) :=
  quiet_ite (hc.bind (fun _ => quiet_done _)) hr

theorem quiet_createObject {store : Option ℕ → State → State} (hc : creates op = none)
    (hd : destroys op = none) (hs : ∀ n s, (store n s).dma = s.dma) :
    Quiet (createObject op store) :=
  (quiet_exec hc hd).bind (fun _ => (quiet_onSuccess (hs _)).bind (fun _ => quiet_done _))

theorem quiet_destroyObject {number : State → Option ℕ} {store : Option ℕ → State → State}
    (hc : creates op = none) (hd : destroys op = none)
    (hs : ∀ n s, (store n s).dma = s.dma) : Quiet (destroyObject op number store) := by
  refine quiet_get (fun s => ?_)
  split
  · exact quiet_done _
  · exact (quiet_exec hc hd).bind (fun _ => (quiet_onSuccess (hs _)).bind (fun _ => quiet_done _))

theorem quiet_destroyRxFlowSteering : Quiet destroyRxFlowSteering := by
  unfold destroyRxFlowSteering
  refine Quiet.bind (quiet_destroyObject rfl rfl (fun _ _ => rfl)) (fun _ => quiet_andThen ?_)
  refine Quiet.bind (quiet_destroyObject rfl rfl (fun _ _ => rfl)) (fun _ => quiet_andThen ?_)
  exact Quiet.bind (quiet_destroyObject rfl rfl (fun _ _ => rfl))
    (fun _ => quiet_andThen (quiet_destroyObject rfl rfl (fun _ _ => rfl)))

theorem quiet_createRxFlowSteering : Quiet createRxFlowSteering := by
  have hclean := quiet_destroyRxFlowSteering
  unfold createRxFlowSteering
  refine Quiet.bind (quiet_createObject rfl rfl (fun _ _ => rfl)) (fun _ => quiet_andThen ?_)
  refine Quiet.bind (quiet_createObject rfl rfl (fun _ _ => rfl)) (fun _ => quiet_orElse hclean ?_)
  refine Quiet.bind (quiet_createObject rfl rfl (fun _ _ => rfl)) (fun _ => quiet_orElse hclean ?_)
  exact Quiet.bind (quiet_createObject rfl rfl (fun _ _ => rfl)) (fun _ => quiet_orElse hclean (quiet_done _))

theorem quiet_deallocGlobalResources : Quiet deallocGlobalResources := by
  unfold deallocGlobalResources
  refine Quiet.bind (quiet_destroyObject rfl rfl (fun _ _ => rfl)) (fun _ => quiet_andThen ?_)
  exact Quiet.bind (quiet_destroyObject rfl rfl (fun _ _ => rfl))
    (fun _ => quiet_andThen (quiet_destroyObject rfl rfl (fun _ _ => rfl)))

theorem quiet_allocGlobalResources : Quiet allocGlobalResources := by
  have hclean := quiet_deallocGlobalResources
  unfold allocGlobalResources
  refine Quiet.bind (quiet_createObject rfl rfl (fun _ _ => rfl)) (fun _ => quiet_andThen ?_)
  refine Quiet.bind (quiet_createObject rfl rfl (fun _ _ => rfl)) (fun _ => quiet_orElse hclean ?_)
  exact Quiet.bind (quiet_createObject rfl rfl (fun _ _ => rfl)) (fun _ => quiet_orElse hclean (quiet_done _))

theorem quiet_unregisterNotifier : Quiet unregisterNotifier := by
  refine quiet_get (fun _ => quiet_ite ?_ (quiet_done _))
  exact quiet_getEQ.bind (fun _ => quiet_ite (quiet_update (fun _ => rfl)) (quiet_done _))

theorem quiet_queryLinkState : Quiet queryLinkState := (quiet_exec rfl rfl).bind (fun _ => quiet_done _)

theorem quiet_modify (q : Queue) (hc : creates op = none) (hd : destroys op = none) :
    Quiet (do let s ← Prog.get; let reply ← exec op ((s.dma.number q).getD 0) []; pure reply.kr) :=
  quiet_get (fun _ => (quiet_exec hc hd).bind (fun _ => quiet_done _))

theorem quiet_failed (kr : IOReturn) : Quiet (failed kr) := by
  unfold failed
  refine Quiet.bind (quiet_update ?_) (fun _ => quiet_done _)
  intro s
  rfl

/-! ## Commands that create or destroy queues -/

theorem always_exec {R : Reply → State → Prop} (h : KnownSafe s) (hskip : R ⟨.notReady,0⟩ s)
    (hask : ∀ reply t, t.dma = fwEffect op n refs reply s.dma → t.dma.KnownSafe ∧ R reply t) :
    Always env KnownSafe (exec op n refs) R s := by
  unfold exec
  simp only [bind_eq, pure_eq]
  refine always_bind.mpr ⟨h,always_ite.mpr ⟨fun _ => ⟨h,hskip⟩,fun _ => ⟨h,fun reply _ => ?_⟩⟩⟩
  exact hask reply _ rfl

theorem exec_create {kind : ObjKind} (hc : creates op = some kind) (h : KnownSafe s) (hrefs : ∀ r ∈ refs, r ∈ s.dma.live) :
    Always env KnownSafe (exec op n refs) (fun reply t =>
      (reply.kr = .success → t.dma = s.dma.create ⟨kind,some reply.number,refs⟩) ∧
      (reply.kr ≠ .success → t.dma = s.dma ∨ t.dma = s.dma.create ⟨kind,none,refs⟩)) s := by
  have hknown : ∀ number, (s.dma.create ⟨kind,number,refs⟩).KnownSafe := by
    intro number o ho m hm r hr
    rcases List.mem_cons.mp ho with rfl | ho
    · exact hrefs r hr
    · exact h o ho m hm r hr
  refine always_exec h ⟨fun hk => (by cases hk),fun _ => Or.inl rfl⟩ (fun reply t ht => ?_)
  simp only [fwEffect, hc] at ht
  rw [ht]
  split_ifs with hok htimeout
  · exact ⟨hknown _,fun _ => rfl,fun hk => absurd hok hk⟩
  · exact ⟨hknown _,fun hk => absurd hk hok,fun _ => Or.inr rfl⟩
  · exact ⟨h,fun hk => absurd hk hok,fun _ => Or.inl rfl⟩

theorem exec_destroy {kind : ObjKind} (hc : creates op = none) (hd : destroys op = some kind) (h : KnownSafe s) :
    Always env KnownSafe (exec op n refs) (fun reply t =>
      (reply.kr = .success → t.dma = s.dma.destroy kind n) ∧ (reply.kr ≠ .success → t.dma = s.dma)) s := by
  refine always_exec h ⟨fun hk => (by cases hk),fun _ => rfl⟩ (fun reply t ht => ?_)
  simp only [fwEffect, hc, hd] at ht
  rw [ht]
  split_ifs with hok
  · exact ⟨fun o ho m hm r hr => h o (List.mem_of_mem_filter ho) m hm r hr,fun _ => rfl,fun hk => absurd hok hk⟩
  · exact ⟨h,fun hk => absurd hk hok,fun _ => rfl⟩

/-! ## Steps that keep the resources in order -/

theorem Kept.acquire (h : Kept dma) (f : Field) : Kept (dma.acquire f) := ⟨h.inv.acquire f,h.lost.acquire h.inv f⟩

theorem Kept.release {r : Field × ℕ} (h : Kept dma) (hr : dma.Spare r) : Kept (dma.release r) :=
  ⟨h.inv.release hr.unused hr.apart,h.lost.fewer (fun _ hx => (Custody.mem_release.mp hx).1) (fun _ ho _ => ho)⟩

theorem Kept.clear (h : Kept dma) (f : Field) : Kept (dma.clear f) := ⟨h.inv.clear f,h.lost⟩

theorem Kept.drop {f : Field} (h : Kept dma) (hnone : dma.number f.owner = none) : Kept (dma.drop f) :=
  ⟨h.inv.drop hnone,h.lost.fewer Custody.drop_live_subset (fun _ ho _ => Custody.drop_objects (c := dma) ▸ ho)⟩

theorem Kept.hold {f : Field} {k : ℕ} (h : Kept dma) (hr : dma.Spare (f,k)) : Kept (dma.hold f k) :=
  ⟨h.inv.hold hr.live (fun o ho n hn hm => absurd hm (hr.unused o ho n hn)),h.lost⟩

section Steps
variable {R : β → State → Prop}

theorem always_updateDma {f : Dma → Dma} {g : Unit → Eth β} (h : KnownSafe s) (hg : ∀ t : State, t.dma = f s.dma →
    Always env KnownSafe (g ()) R t) : Always env KnownSafe ((updateDma f).bind g) R s := ⟨h,hg _ rfl⟩

theorem always_allocate {g : Bool → Eth β} (h : KnownSafe s) (hg : ∀ ok, Always env KnownSafe (g ok) R s) :
    Always env KnownSafe (allocate.bind g) R s := ⟨h,fun ok _ => hg ok⟩

theorem always_mapDMAContiguous {g : IOReturn → Eth β} (h : KnownSafe s) (hg : ∀ kr, Always env KnownSafe (g kr) R s) :
    Always env KnownSafe (mapDMAContiguous.bind g) R s := ⟨h,fun kr _ => hg kr⟩

theorem always_allocDbSlots {g : IOReturn → Eth β} (h : KnownSafe s) (hg : ∀ kr, Always env KnownSafe (g kr) R s) :
    Always env KnownSafe (allocDbSlots.bind g) R s := ⟨h,fun kr _ => hg kr⟩

theorem always_acquire {f : Field} {g : ℕ → Eth β} (h : Kept s.dma) (hg : ∀ t : State, t.dma = s.dma.acquire f →
    Always env KnownSafe (g s.dma.next) R t) : Always env KnownSafe ((acquire f).bind g) R s := ⟨h.safe,hg _ rfl⟩

end Steps

theorem acquireInto_kept (f : Field) (a : α) (h : Kept s.dma) :
    Always env KnownSafe ((acquire f).bind (fun k => (updateDma (Custody.hold f k)).bind (fun _ => .done a)))
      (fun _ t => Kept t.dma ∧ t.dma.number = s.dma.number) s := by
  refine always_acquire h (fun t ht => ?_)
  have hk : Kept (t.dma.hold f s.dma.next) := by
    rw [ht]
    exact (h.acquire f).hold (h.inv.spare f)
  have hnumber : (t.dma.hold f s.dma.next).number = s.dma.number := by
    rw [ht]
    rfl
  refine always_updateDma (knownSafe_of_eq ht (h.acquire f).safe) (fun u hu => ?_)
  rw [← hu] at hk hnumber
  exact ⟨hk.safe,hk,hnumber⟩

theorem allocateInto_kept (f : Field) (h : Kept s.dma) :
    Always env KnownSafe (allocateInto f) (fun _ t => Kept t.dma ∧ t.dma.number = s.dma.number) s := by
  unfold allocateInto
  refine always_allocate h.safe (fun ok => ?_)
  cases ok with
  | true => exact acquireInto_kept f true h
  | false =>
    refine always_updateDma h.safe (fun t ht => ?_)
    have hk : Kept t.dma := ht ▸ h.clear f
    refine ⟨hk.safe,hk,?_⟩
    rw [ht]
    rfl

theorem mapInto_kept (f : Field) (h : Kept s.dma) :
    Always env KnownSafe (mapInto f) (fun _ t => Kept t.dma ∧ t.dma.number = s.dma.number) s := by
  unfold mapInto
  refine always_mapDMAContiguous h.safe (fun kr => ?_)
  by_cases hkr : kr = .success
  · rw [if_pos hkr]
    exact acquireInto_kept f IOReturn.success h
  · rw [if_neg hkr]
    exact ⟨h.safe,h,rfl⟩

theorem drop_kept {f : Field} (h : Kept s.dma) (hnone : s.dma.number f.owner = none) :
    Always env KnownSafe (drop f) (fun _ t => Kept t.dma ∧ t.dma.number = s.dma.number) s :=
  ⟨h.safe,(h.drop hnone).safe,h.drop hnone,Custody.drop_number⟩

theorem dropBuffer_kept {desc map : Field} (h : Kept s.dma) (hdesc : s.dma.number desc.owner = none)
    (hmap : s.dma.number map.owner = none) :
    Always env KnownSafe (dropBuffer desc map) (fun _ t => Kept t.dma ∧ t.dma.number = s.dma.number) s := by
  unfold dropBuffer
  refine always_bind.mpr ⟨h.safe,always_ite.mpr ⟨fun _ => ?_,fun _ => ⟨h.safe,h,rfl⟩⟩⟩
  refine Always.bind (drop_kept h hmap) ?_
  rintro _ t _ ⟨ht,hnumber⟩
  exact (drop_kept ht (by rw [hnumber]; exact hdesc)).mono (fun _ _ _ hu => ⟨hu.1,hu.2.trans hnumber⟩)

/-! ## Creating queues -/

theorem Others.of_eq {qs : List Queue} {dma' : Dma} (h : dma'.number = dma.number) : Others qs dma dma' :=
  fun q _ => congrFun h q

theorem always_release {r : Field × ℕ} {R : β → State → Prop} {g : Unit → Eth β} (h : Kept s.dma) (hr : s.dma.Spare r)
    (hg : ∀ t : State, t.dma = s.dma.release r → Kept t.dma → Always env KnownSafe (g ()) R t) :
    Always env KnownSafe ((updateDma (Custody.release r)).bind g) R s :=
  always_updateDma h.safe (fun t ht => hg t ht (ht ▸ h.release hr))

/-- The first release after a creation that failed, or that timed out. -/
theorem Kept.retract {kind : ObjKind} {dma' : Dma} {r : Field × ℕ} (h : Kept dma) (hr : r ∈ refs) (hspare : dma.Spare r)
    (hrefs : ∀ x ∈ refs, x ∈ dma.live) (hd : dma' = dma ∨ dma' = dma.create ⟨kind,none,refs⟩) :
    Kept (dma'.release r) := by
  rcases hd with rfl | rfl
  · exact h.release hspare
  · have hinv : Custody.Inv Field.owner Queue.kind (dma.create ⟨kind,none,refs⟩) :=
      h.inv.createUnknown rfl (fun x hx => h.inv.below x (hrefs x hx))
    have hcreated := hspare.createUnknown (o := ⟨kind,none,refs⟩) rfl
    exact ⟨hinv.release hcreated.unused hcreated.apart,h.lost.createRelease hr⟩

theorem retract_spare {kind : ObjKind} {dma' : Dma} {r x : Field × ℕ} (hspare : dma.Spare x) (hne : x ≠ r)
    (hd : dma' = dma ∨ dma' = dma.create ⟨kind,none,refs⟩) : (dma'.release r).Spare x := by
  rcases hd with rfl | rfl
  · exact hspare.release hne
  · exact (hspare.createUnknown rfl).release hne

theorem retract_number {kind : ObjKind} {dma' : Dma} (hd : dma' = dma ∨ dma' = dma.create ⟨kind,none,refs⟩) :
    dma'.number = dma.number := by
  rcases hd with rfl | rfl <;> rfl

theorem lost_created {o : Obj Field ObjKind} (h : dma.Lost) (hnumber : o.number ≠ none) : (dma.create o).Lost := by
  refine h.fewer (fun _ hr => hr) (fun p hp hn => ?_)
  rcases List.mem_cons.mp hp with rfl | hp
  · exact absurd hn hnumber
  · exact hp

/-- Three different fields are all that belongs to the queue. -/
structure CqFields.Ok (cq : CqFields) : Prop where
  kind : cq.queue.kind = .cq
  desc : cq.desc.owner = cq.queue
  map : cq.map.owner = cq.queue
  dbOffset : cq.dbOffset.owner = cq.queue
  only : ∀ f : Field, f.owner = cq.queue → f = cq.desc ∨ f = cq.map ∨ f = cq.dbOffset
  distinct : cq.desc ≠ cq.map ∧ cq.desc ≠ cq.dbOffset ∧ cq.map ≠ cq.dbOffset

theorem txCq_ok : txCq.Ok := ⟨rfl,rfl,rfl,rfl,fun f => by cases f <;> decide,by decide⟩
theorem rxCq_ok : rxCq.Ok := ⟨rfl,rfl,rfl,rfl,fun f => by cases f <;> decide,by decide⟩

theorem store_kept {cq : CqFields} (hcq : cq.Ok) (h : Kept dma) {desc map dbOff : ℕ} (hdesc : dma.Spare (cq.desc,desc))
    (hmap : dma.Spare (cq.map,map)) (hdb : dma.Spare (cq.dbOffset,dbOff)) (n : ℕ) :
    Kept (cq.store n desc map dbOff (dma.create ⟨.cq,some n,[(cq.desc,desc),(cq.map,map),(cq.dbOffset,dbOff)]⟩)) := by
  have hrefs : ∀ r ∈ [(cq.desc,desc),(cq.map,map),(cq.dbOffset,dbOff)], r ∈ dma.live ∧ r.1.owner = cq.queue ∧
      dma.Unused r := by
    intro r hr
    simp only [List.mem_cons, List.not_mem_nil, or_false] at hr
    rcases hr with rfl | rfl | rfl
    · exact ⟨hdesc.live,hcq.desc,hdesc.unused⟩
    · exact ⟨hmap.live,hcq.map,hmap.unused⟩
    · exact ⟨hdb.live,hcq.dbOffset,hdb.unused⟩
  obtain ⟨hdm,hdd,hmd⟩ := hcq.distinct
  have hinv := h.inv.replaced (f := (cq.store n desc map dbOff dma).held) hrefs ?_ ?_ n
  · rw [hcq.kind] at hinv
    exact ⟨hinv,lost_created h.lost (by simp)⟩
  · intro g hg
    have hgd : g ≠ cq.desc := fun he => hg (he ▸ hcq.desc)
    have hgm : g ≠ cq.map := fun he => hg (he ▸ hcq.map)
    have hgb : g ≠ cq.dbOffset := fun he => hg (he ▸ hcq.dbOffset)
    simp only [CqFields.store, Custody.hold, Custody.setNumber, Function.update_of_ne hgd, Function.update_of_ne hgm,
      Function.update_of_ne hgb]
  · intro g k hg hk
    simp only [CqFields.store, Custody.hold, Custody.setNumber] at hk
    rcases hcq.only g hg with rfl | rfl | rfl
    · rw [Function.update_of_ne hdd, Function.update_of_ne hdm, Function.update_self] at hk
      rw [Option.some.inj hk]
      exact List.mem_cons_self
    · rw [Function.update_of_ne hmd, Function.update_self] at hk
      rw [Option.some.inj hk]
      exact List.mem_cons_of_mem _ List.mem_cons_self
    · rw [Function.update_self] at hk
      rw [Option.some.inj hk]
      exact List.mem_cons_of_mem _ (List.mem_cons_of_mem _ List.mem_cons_self)

theorem cmdCreateCq_kept {cq : CqFields} (hcq : cq.Ok) (h : Kept s.dma) :
    Always env KnownSafe (cmdCreateCq cq) (fun _ t => Kept t.dma ∧ Others [cq.queue] s.dma t.dma) s := by
  obtain ⟨hdm,hdd,hmd⟩ := hcq.distinct
  unfold cmdCreateCq
  refine always_allocate h.safe (fun ok => always_ite.mpr ⟨fun _ => ⟨h.safe,h,Others.refl _ _⟩,fun _ => ?_⟩)
  refine always_acquire h (fun t₁ ht₁ => ?_)
  have h₁ : Kept t₁.dma := ht₁ ▸ h.acquire cq.desc
  have hdesc : t₁.dma.Spare (cq.desc,s.dma.next) := ht₁ ▸ h.inv.spare cq.desc
  have hn₁ : t₁.dma.number = s.dma.number := ht₁ ▸ rfl
  refine always_mapDMAContiguous h₁.safe (fun kr => always_ite.mpr ⟨fun _ => ?_,fun _ => ?_⟩)
  · exact always_release h₁ hdesc (fun u hu hk => ⟨hk.safe,hk,Others.of_eq (hu ▸ hn₁)⟩)
  refine always_acquire h₁ (fun t₂ ht₂ => ?_)
  have h₂ : Kept t₂.dma := ht₂ ▸ h₁.acquire cq.map
  have hdesc₂ : t₂.dma.Spare (cq.desc,s.dma.next) := ht₂ ▸ hdesc.acquire cq.map
  have hmap : t₂.dma.Spare (cq.map,t₁.dma.next) := ht₂ ▸ h₁.inv.spare cq.map
  have hn₂ : t₂.dma.number = s.dma.number := ht₂ ▸ hn₁
  refine always_allocDbSlots h₂.safe (fun kr => always_ite.mpr ⟨fun _ => ?_,fun _ => ?_⟩)
  · refine always_release h₂ hmap (fun u hu hk => ?_)
    have hdescu : u.dma.Spare (cq.desc,s.dma.next) := hu ▸ hdesc₂.release (by simp [hdm])
    exact always_release hk hdescu (fun v hv hk => ⟨hk.safe,hk,Others.of_eq (hv ▸ hu ▸ hn₂)⟩)
  refine always_acquire h₂ (fun t₃ ht₃ => ?_)
  have h₃ : Kept t₃.dma := ht₃ ▸ h₂.acquire cq.dbOffset
  have hdesc₃ : t₃.dma.Spare (cq.desc,s.dma.next) := ht₃ ▸ hdesc₂.acquire cq.dbOffset
  have hmap₃ : t₃.dma.Spare (cq.map,t₁.dma.next) := ht₃ ▸ hmap.acquire cq.dbOffset
  have hdb : t₃.dma.Spare (cq.dbOffset,t₂.dma.next) := ht₃ ▸ h₂.inv.spare cq.dbOffset
  have hn₃ : t₃.dma.number = s.dma.number := ht₃ ▸ hn₂
  have hlive : ∀ r ∈ [(cq.desc,s.dma.next),(cq.map,t₁.dma.next),(cq.dbOffset,t₂.dma.next)], r ∈ t₃.dma.live := by
    intro r hr
    simp only [List.mem_cons, List.not_mem_nil, or_false] at hr
    rcases hr with rfl | rfl | rfl
    · exact hdesc₃.live
    · exact hmap₃.live
    · exact hdb.live
  refine Always.bind (exec_create (show creates .createCq = some .cq from rfl) h₃.safe hlive)
    (fun reply t₄ hsafe ⟨hok,hfail⟩ => ?_)
  refine always_ite.mpr ⟨fun hkr => ?_,fun hkr => ?_⟩
  · -- the doorbell slot goes first: from here on a timed-out CQ has lost something
    have hd := hfail hkr
    have hdbr : (cq.dbOffset,t₂.dma.next) ∈ [(cq.desc,s.dma.next),
      (cq.map,t₁.dma.next),(cq.dbOffset,t₂.dma.next)] := by simp
    refine always_updateDma hsafe (fun u hu => ?_)
    have hk : Kept u.dma := hu ▸ h₃.retract hdbr hdb hlive hd
    have hnu : u.dma.number = s.dma.number := hu ▸ (retract_number hd).trans hn₃
    have hmapu : u.dma.Spare (cq.map,t₁.dma.next) := hu ▸ retract_spare hmap₃ (by simp [hmd]) hd
    have hdescu : u.dma.Spare (cq.desc,s.dma.next) := hu ▸ retract_spare hdesc₃ (by simp [hdd]) hd
    refine always_release hk hmapu (fun v hv hk => ?_)
    have hdescv : v.dma.Spare (cq.desc,s.dma.next) := hv ▸ hdescu.release (by simp [hdm])
    exact always_release hk hdescv (fun w hw hk => ⟨hk.safe,hk,Others.of_eq (hw ▸ hv ▸ hnu)⟩)
  · have hkr : reply.kr = .success := not_not.mp hkr
    refine always_updateDma hsafe (fun u hu => ?_)
    rw [hok hkr] at hu
    have hk : Kept u.dma := hu ▸ store_kept hcq h₃ hdesc₃ hmap₃ hdb reply.number
    refine ⟨hk.safe,hk,fun q hq => ?_⟩
    have hne : q ≠ cq.queue := fun he => hq (List.mem_singleton.mpr he)
    rw [hu, ← hn₃]
    exact Function.update_of_ne hne _ _

structure WqFields.Ok (wq : WqFields) : Prop where
  wqDesc : wq.wqDesc.owner = wq.queue
  wqDmaMap : wq.wqDmaMap.owner = wq.queue
  bufDesc : wq.bufDesc.owner = wq.queue
  bufMap : wq.bufMap.owner = wq.queue
  dbOffset : wq.dbOffset.owner = wq.queue

theorem txWq_ok : txWq.Ok := ⟨rfl,rfl,rfl,rfl,rfl⟩
theorem rxWq_ok : rxWq.Ok := ⟨rfl,rfl,rfl,rfl,rfl⟩

theorem WqFields.Ok.memory {wq : WqFields} (hwq : wq.Ok) (h : Kept dma) {r : Field × ℕ} (hr : r ∈ wq.memory dma) :
    r ∈ dma.live ∧ r.1.owner = wq.queue := by
  simp only [WqFields.memory, List.mem_filterMap, Option.map_eq_some_iff] at hr
  obtain ⟨f,hf,k,hk,rfl⟩ := hr
  refine ⟨h.inv.held f k hk,?_⟩
  simp only [List.mem_cons, List.not_mem_nil, or_false] at hf
  rcases hf with rfl | rfl | rfl | rfl
  · exact hwq.wqDesc
  · exact hwq.wqDmaMap
  · exact hwq.bufDesc
  · exact hwq.bufMap

theorem cmdCreateWq_kept {wq : WqFields} (hwq : wq.Ok) (hop : creates op = some wq.queue.kind) (h : Kept s.dma)
    (hnone : s.dma.number wq.queue = none) :
    Always env KnownSafe (cmdCreateWq op wq) (fun _ t => Kept t.dma ∧ Others [wq.queue] s.dma t.dma) s := by
  unfold cmdCreateWq
  refine always_bind.mpr ⟨h.safe,always_ite.mpr ⟨fun _ => ⟨h.safe,h,Others.refl _ _⟩,fun _ => ?_⟩⟩
  refine always_allocDbSlots h.safe (fun kr => always_ite.mpr ⟨fun _ => ⟨h.safe,h,Others.refl _ _⟩,fun _ => ?_⟩)
  refine always_acquire h (fun t₁ ht₁ => ?_)
  have h₁ : Kept t₁.dma := ht₁ ▸ h.acquire wq.dbOffset
  have hdb : t₁.dma.Spare (wq.dbOffset,s.dma.next) := ht₁ ▸ h.inv.spare wq.dbOffset
  have hn₁ : t₁.dma.number = s.dma.number := ht₁ ▸ rfl
  have hrefs : ∀ r ∈ (wq.dbOffset,s.dma.next) :: wq.memory s.dma, r ∈ t₁.dma.live ∧ r.1.owner = wq.queue := by
    intro r hr
    rcases List.mem_cons.mp hr with rfl | hr
    · exact ⟨hdb.live,hwq.dbOffset⟩
    · obtain ⟨hlive,howner⟩ := hwq.memory h hr
      exact ⟨ht₁ ▸ List.mem_cons_of_mem _ hlive,howner⟩
  have hlive := fun r hr => (hrefs r hr).1
  refine Always.bind (exec_create hop h₁.safe hlive) (fun reply t₂ hsafe ⟨hok,hfail⟩ => ?_)
  refine always_ite.mpr ⟨fun hkr => ?_,fun hkr => ?_⟩
  · have hd := hfail hkr
    refine always_updateDma hsafe (fun u hu => ?_)
    have hk : Kept u.dma := hu ▸ h₁.retract List.mem_cons_self hdb hlive hd
    exact ⟨hk.safe,hk,Others.of_eq (hu ▸ (retract_number hd).trans hn₁)⟩
  · have hkr : reply.kr = .success := not_not.mp hkr
    refine always_updateDma hsafe (fun u hu => ?_)
    rw [hok hkr] at hu
    have hcreated := h₁.inv.created (q := wq.queue) ((congrFun hn₁ _).trans hnone) hrefs reply.number
    have hk : Kept u.dma := by
      rw [hu]
      refine ⟨hcreated.hold hdb.live (fun o ho m hm hr => ?_),lost_created h₁.lost (by simp)⟩
      rcases List.mem_cons.mp ho with rfl | ho
      · rw [hwq.dbOffset]
        exact ⟨(Function.update_self ..).trans hm,rfl⟩
      · exact absurd hr (hdb.unused o ho m hm)
    refine ⟨hk.safe,hk,fun q hq => ?_⟩
    have hne : q ≠ wq.queue := fun he => hq (List.mem_singleton.mpr he)
    rw [hu, ← hn₁]
    exact Function.update_of_ne hne _ _

/-! ## Destroying queues -/

theorem destroyQueue_kept {q : Queue} (hc : creates op = none) (hd : destroys op = some q.kind) (h : Kept s.dma) :
    Always env KnownSafe (destroyQueue op q) (fun kr t =>
      Kept t.dma ∧ (kr = .success → t.dma.number q = none) ∧ Others [q] s.dma t.dma) s := by
  refine always_bind.mpr ⟨h.safe,?_⟩
  dsimp only
  cases hq : s.dma.number q with
  | none => exact ⟨h.safe,h,fun _ => hq,Others.refl _ _⟩
  | some n =>
    dsimp only
    refine Always.bind (exec_destroy (n := n) hc hd h.safe) (fun reply t hsafe ⟨hok,hfail⟩ => ?_)
    by_cases hkr : reply.kr = .success
    · have hk : Kept (t.dma.setNumber q none) := by
        rw [hok hkr]
        exact ⟨h.inv.destroyed hq,h.lost.fewer (fun _ hr => hr) (fun o ho _ => List.mem_of_mem_filter ho)⟩
      simp only [onSuccess, hkr, if_true]
      refine ⟨hsafe,hk.safe,hk,fun _ => Function.update_self ..,fun q' hq' => ?_⟩
      have hne : q' ≠ q := fun he => hq' (List.mem_singleton.mpr he)
      refine (Function.update_of_ne hne _ _).trans ?_
      rw [hok hkr]
      rfl
    · have he := hfail hkr
      simp only [onSuccess, hkr, if_false]
      exact ⟨hsafe,he ▸ h,fun hs => absurd hs hkr,Others.of_eq (by rw [he])⟩

theorem Quiet.kept {p : Eth α} (hp : Quiet p) (h : Kept s.dma) (qs : List Queue) :
    Always env KnownSafe p (fun _ t => Kept t.dma ∧ Others qs s.dma t.dma) s :=
  (hp s h.safe).mono (fun _ _ _ he => ⟨he ▸ h,Others.of_eq (by rw [he])⟩)

theorem destroyTxResources_kept (h : Kept s.dma) :
    Always env KnownSafe destroyTxResources (fun _ t => Kept t.dma ∧ Others [.fSqn,.fTxCqn] s.dma t.dma) s := by
  unfold destroyTxResources
  refine Always.bind (destroyQueue_kept rfl rfl h) (fun kr t₁ hsafe ⟨h₁,hsq,ho₁⟩ => ?_)
  have ho₁ : Others [.fSqn,.fTxCqn] s.dma t₁.dma := ho₁.mono (by simp)
  refine always_ite.mpr ⟨fun hkr => ?_,fun _ => ⟨hsafe,h₁,ho₁⟩⟩
  have hsq := hsq hkr
  refine Always.bind ((quiet_update (by intro s; rfl)).kept h₁ []) (fun _ t₁' _ ⟨h₁',ho₁'⟩ => ?_)
  have hsq : t₁'.dma.number .fSqn = none := (ho₁' .fSqn (by simp)).trans hsq
  refine Always.bind (dropBuffer_kept h₁' hsq hsq) (fun _ t₂ _ ⟨h₂,hn₂⟩ => ?_)
  refine Always.bind (drop_kept h₂ (hn₂ ▸ hsq)) (fun _ t₃ _ ⟨h₃,hn₃⟩ => ?_)
  refine Always.bind ((quiet_update (by intro s; rfl)).kept h₃ []) (fun _ t₄ _ ⟨h₄,ho₄⟩ => ?_)
  have hn₄ : Others [.fSqn,.fTxCqn] s.dma t₄.dma :=
    ho₁.trans ((ho₁'.mono (by simp)).trans ((Others.of_eq (hn₃.trans hn₂)).trans (ho₄.mono (by simp))))
  refine Always.bind (destroyQueue_kept rfl rfl h₄) (fun kr t₅ hsafe ⟨h₅,hcq,ho₅⟩ => ?_)
  have ho₅ := hn₄.trans (ho₅.mono (by simp))
  refine always_ite.mpr ⟨fun hkr => ?_,fun _ => ⟨hsafe,h₅,ho₅⟩⟩
  have hcq := hcq hkr
  refine Always.bind (dropBuffer_kept h₅ hcq hcq) (fun _ t₆ _ ⟨h₆,hn₆⟩ => ?_)
  refine Always.bind (drop_kept h₆ (hn₆ ▸ hcq)) (fun _ t₇ _ ⟨h₇,hn₇⟩ => ?_)
  refine (Quiet.kept (quiet_destroyObject (by rfl) (by rfl) (by intros; rfl)) h₇ [.fSqn,.fTxCqn]).mono
    (fun _ _ _ ⟨hk,ho⟩ => ⟨hk,?_⟩)
  exact ho₅.trans ((Others.of_eq (hn₇.trans hn₆)).trans ho)

theorem destroyRxResources_kept (h : Kept s.dma) :
    Always env KnownSafe destroyRxResources (fun _ t => Kept t.dma ∧ Others [.fRqn,.fRxCqn] s.dma t.dma) s := by
  unfold destroyRxResources
  refine Always.bind (Quiet.kept (quiet_destroyObject (by rfl) (by rfl) (by intros; rfl)) h [.fRqn,.fRxCqn])
    (fun kr t₀ hsafe ⟨h₀,ho₀⟩ => ?_)
  refine always_ite.mpr ⟨fun hkr => ?_,fun _ => ⟨hsafe,h₀,ho₀⟩⟩
  refine Always.bind (destroyQueue_kept rfl rfl h₀) (fun kr t₁ hsafe ⟨h₁,hrq,ho₁⟩ => ?_)
  have ho₁ := ho₀.trans (ho₁.mono (by simp))
  refine always_ite.mpr ⟨fun hkr => ?_,fun _ => ⟨hsafe,h₁,ho₁⟩⟩
  have hrq := hrq hkr
  refine Always.bind (dropBuffer_kept h₁ hrq hrq) (fun _ t₂ _ ⟨h₂,hn₂⟩ => ?_)
  refine Always.bind (drop_kept h₂ (hn₂ ▸ hrq)) (fun _ t₃ _ ⟨h₃,hn₃⟩ => ?_)
  have ho₃ := ho₁.trans (Others.of_eq (hn₃.trans hn₂))
  refine Always.bind (destroyQueue_kept rfl rfl h₃) (fun kr t₄ hsafe ⟨h₄,hcq,ho₄⟩ => ?_)
  have ho₄ := ho₃.trans (ho₄.mono (by simp))
  refine always_ite.mpr ⟨fun hkr => ?_,fun _ => ⟨hsafe,h₄,ho₄⟩⟩
  have hcq := hcq hkr
  refine Always.bind (dropBuffer_kept h₄ hcq hcq) (fun _ t₅ _ ⟨h₅,hn₅⟩ => ?_)
  refine Always.bind (drop_kept h₅ (hn₅ ▸ hcq)) (fun _ t₆ _ ⟨h₆,hn₆⟩ => ?_)
  exact ⟨h₆.safe,h₆,ho₄.trans (Others.of_eq (hn₆.trans hn₅))⟩

/-! ## Bringing the interface up and down -/

/-- The program keeps the resources in order and renumbers only these queues, where it starts with
one of them unused. -/
def Keeps (first : List Queue) (qs : List Queue) (p : Eth α) : Prop := ∀ s : State, Kept s.dma →
  (∀ q ∈ first, s.dma.number q = none) → Always env KnownSafe p (fun _ t => Kept t.dma ∧ Others qs s.dma t.dma) s

section Keeps
variable {first qs qs' : List Queue}

theorem keeps_done (a : α) : Keeps first qs (.done a) := fun _ h _ => ⟨h.safe,h,Others.refl _ _⟩

theorem Quiet.keeps {p : Eth α} (hp : Quiet p) : Keeps first qs p := fun _ h _ => hp.kept h qs

theorem Keeps.mono {p : Eth α} (hp : Keeps first qs p) (hqs : ∀ q ∈ qs, q ∈ qs') : Keeps first qs' p :=
  fun s h hf => (hp s h hf).mono (fun _ _ _ ht => ⟨ht.1,ht.2.mono hqs⟩)

/-- The first part leaves the queues alone that the second needs unused. -/
theorem Keeps.seq {k l : List Queue} {p : Eth α} {f : α → Eth β} (hp : Keeps k qs p)
    (hf : ∀ a, Keeps l qs' (f a)) (hqs : ∀ q ∈ qs, q ∈ qs') (h₁ : ∀ q ∈ k, q ∈ first)
    (h₂ : ∀ q ∈ l, q ∈ first ∧ q ∉ qs) : Keeps first qs' (p.bind f) := by
  intro s h hnone
  refine Always.bind (hp s h (fun q hq => hnone q (h₁ q hq))) (fun a t _ ⟨ht,ho⟩ => ?_)
  have hnone' : ∀ q ∈ l, t.dma.number q = none := fun q hq => (ho q (h₂ q hq).2).trans (hnone q (h₂ q hq).1)
  exact (hf a t ht hnone').mono (fun _ _ _ hu => ⟨hu.1,(ho.mono hqs).trans hu.2⟩)

theorem Keeps.bind {p : Eth α} {f : α → Eth β} (hp : Keeps [] qs p) (hf : ∀ a, Keeps first qs' (f a))
    (hqs : ∀ q ∈ qs, q ∈ qs') (hfirst : ∀ q ∈ first, q ∉ qs) : Keeps first qs' (p.bind f) :=
  hp.seq hf hqs (by simp) (fun q hq => ⟨hq,hfirst q hq⟩)

theorem Keeps.then {p : Eth α} {f : α → Eth β} (hp : Keeps first qs p) (hf : ∀ a, Keeps [] qs (f a)) :
    Keeps first qs (p.bind f) :=
  hp.seq hf (fun _ hq => hq) (fun _ hq => hq) (by simp)

theorem Quiet.andKeeps {p : Eth α} {f : α → Eth β} (hp : Quiet p) (hf : ∀ a, Keeps first qs (f a)) :
    Keeps first qs (p.bind f) :=
  Keeps.bind (hp.keeps : Keeps [] [] p) hf (by simp) (by simp)

theorem keeps_ite {c : Prop} [Decidable c] {p q : Eth α} (hp : Keeps first qs p) (hq : Keeps first qs q) :
    Keeps first qs (if c then p else q) := by split <;> assumption

theorem keeps_andThen {kr : IOReturn} {rest : Eth IOReturn} (hr : Keeps first qs rest) :
    Keeps first qs (andThen kr rest) :=
  keeps_ite hr (keeps_done _)

theorem keeps_orElse {kr : IOReturn} {cleanup rest : Eth IOReturn} (hc : Keeps [] qs cleanup) (hr : Keeps first qs rest) :
    Keeps first qs (orElse kr cleanup rest) := by
  refine keeps_ite ?_ hr
  exact fun s h _ => hc.then (fun _ => keeps_done _) s h (by simp)

theorem keeps_allocateInto (f : Field) : Keeps [] [] (allocateInto f) :=
  fun _ h _ => (allocateInto_kept f h).mono (fun _ _ _ ht => ⟨ht.1,Others.of_eq ht.2⟩)

theorem keeps_mapInto (f : Field) : Keeps [] [] (mapInto f) :=
  fun _ h _ => (mapInto_kept f h).mono (fun _ _ _ ht => ⟨ht.1,Others.of_eq ht.2⟩)

end Keeps

theorem keeps_destroyTxResources : Keeps [] [.fSqn,.fTxCqn] destroyTxResources := fun _ h _ => destroyTxResources_kept h

theorem keeps_destroyRxResources : Keeps [] [.fRqn,.fRxCqn] destroyRxResources := fun _ h _ => destroyRxResources_kept h

theorem keeps_createTxResources : Keeps [.fSqn] [.fSqn,.fTxCqn] createTxResources := by
  have hclean := keeps_destroyTxResources
  have hcq : Keeps [] [.fTxCqn] (cmdCreateCq txCq) := fun _ h _ => cmdCreateCq_kept txCq_ok h
  have hsq : Keeps [.fSqn] [.fSqn] cmdCreateSq := fun _ h hnone => cmdCreateWq_kept txWq_ok rfl h (hnone _ (by simp [txWq]))
  have hbf : Quiet (update (fun s => { s with fTxBfValid := true })) := quiet_update (fun _ => rfl)
  have hrest : Keeps [] [.fSqn,.fTxCqn] (allocBfreg.bind (fun kr => orElse kr destroyTxResources
      ((update (fun s => { s with fTxBfValid := true })).bind (fun _ => cmdModifySqReady.bind
        (fun kr => orElse kr destroyTxResources (.done .success)))))) := by
    refine quiet_allocBfreg.andKeeps (fun _ => keeps_orElse hclean (hbf.andKeeps (fun _ => ?_)))
    exact (quiet_modify .fSqn rfl rfl).andKeeps (fun _ => keeps_orElse hclean (keeps_done _))
  have hclear : Quiet (update clearWqeMbufs) := quiet_update (fun _ => rfl)
  unfold createTxResources
  refine hclear.andKeeps (fun _ => ?_)
  refine Keeps.bind (keeps_allocateInto _) (fun _ => keeps_ite (keeps_done _) ?_) (by simp) (by simp)
  refine Keeps.bind (keeps_mapInto _) (fun _ => keeps_orElse hclean ?_) (by simp) (by simp)
  refine Quiet.andKeeps (quiet_createObject rfl rfl (fun _ _ => rfl)) (fun _ => keeps_orElse hclean ?_)
  refine Keeps.bind hcq (fun _ => keeps_orElse hclean ?_) (by simp) (by simp)
  exact (hsq.mono (by simp)).then (fun _ => keeps_orElse hclean hrest)

theorem keeps_createRxResources : Keeps [.fRqn] [.fRqn,.fRxCqn] createRxResources := by
  have hclean := keeps_destroyRxResources
  have hcq : Keeps [] [.fRxCqn] (cmdCreateCq rxCq) := fun _ h _ => cmdCreateCq_kept rxCq_ok h
  have hrq : Keeps [.fRqn] [.fRqn] cmdCreateRq := fun _ h hnone => cmdCreateWq_kept rxWq_ok rfl h (hnone _ (by simp [rxWq]))
  have hrest : Keeps [] [.fRqn,.fRxCqn] (cmdCreateTir.bind (fun kr => orElse kr destroyRxResources
      (cmdModifyRqReady.bind (fun kr => orElse kr destroyRxResources (.done .success))))) := by
    refine Quiet.andKeeps (quiet_createObject rfl rfl (fun _ _ => rfl)) (fun _ => keeps_orElse hclean ?_)
    exact (quiet_modify .fRqn rfl rfl).andKeeps (fun _ => keeps_orElse hclean (keeps_done _))
  unfold createRxResources
  refine Keeps.bind (keeps_allocateInto _) (fun _ => keeps_ite (keeps_done _) ?_) (by simp) (by simp)
  refine Keeps.bind (keeps_mapInto _) (fun _ => keeps_orElse hclean ?_) (by simp) (by simp)
  refine Keeps.bind hcq (fun _ => keeps_orElse hclean ?_) (by simp) (by simp)
  exact (hrq.mono (by simp)).then (fun _ => keeps_orElse hclean hrest)

def allQueues : List Queue := [.fSqn,.fRqn,.fTxCqn,.fRxCqn]

theorem mem_allQueues (q : Queue) : q ∈ allQueues := by cases q <;> simp [allQueues]

theorem keeps_teardown {γ : Type} {rest : IOReturn → IOReturn → IOReturn → Eth γ}
    (hrest : ∀ a b c, Quiet (rest a b c)) :
    Keeps [] allQueues (unregisterNotifier.bind (fun _ => destroyRxFlowSteering.bind (fun flowKr =>
      (andThen flowKr destroyRxResources).bind (fun rxKr => destroyTxResources.bind (fun txKr =>
        rest flowKr rxKr txKr))))) := by
  refine quiet_unregisterNotifier.andKeeps (fun _ => quiet_destroyRxFlowSteering.andKeeps (fun _ => ?_))
  refine ((keeps_andThen keeps_destroyRxResources).mono (fun q _ => mem_allQueues q)).then (fun _ => ?_)
  exact (keeps_destroyTxResources.mono (fun q _ => mem_allQueues q)).then (fun _ => (hrest _ _ _).keeps)

theorem keeps_failAll (kr : IOReturn) : Keeps [] allQueues (failAll kr) := by
  unfold failAll
  refine keeps_teardown (fun _ _ _ => quiet_ite ?_ (quiet_failed kr))
  exact quiet_deallocGlobalResources.bind (fun _ => quiet_failed kr)

theorem keeps_enable : Keeps [] allQueues enable := by
  have hfail := keeps_failAll
  have hall : ∀ {q : Queue} {qs : List Queue}, q ∈ qs → q ∈ allQueues := fun _ => mem_allQueues _
  intro s h _
  unfold enable
  refine always_bind.mpr ⟨h.safe,?_⟩
  refine always_ite.mpr ⟨fun _ => ⟨h.safe,h,Others.refl _ _⟩,fun _ => ?_⟩
  refine always_ite.mpr ⟨fun _ => ⟨h.safe,h,Others.refl _ _⟩,fun _ => ?_⟩
  refine always_ite.mpr ⟨fun _ => ⟨h.safe,h,Others.refl _ _⟩,fun hguard => ?_⟩
  -- the guard leaves no SQ and no RQ, and nothing before their creation numbers one
  have hnone : ∀ q ∈ [Queue.fSqn,Queue.fRqn], s.dma.number q = none := by
    simp only [not_or, Bool.not_eq_true, Option.isSome_eq_false_iff, Option.isNone_iff_eq_none] at hguard
    intro q hq
    simp only [List.mem_cons, List.not_mem_nil, or_false] at hq
    rcases hq with rfl | rfl
    · exact hguard.2.2.2.1
    · exact hguard.2.2.2.2.1
  refine (?_ : Keeps [.fSqn,.fRqn] allQueues _) s h hnone
  have hstart : Quiet (update (fun s => { s with fEnabling := true })) := quiet_update (fun _ => rfl)
  have hreg : Quiet (update (fun s => { s with fNotifierRegistered := true })) := quiet_update (fun _ => rfl)
  have hend : Quiet (update (fun s => { s with fEnabled := true, fEnabling := false })) := quiet_update (fun _ => rfl)
  refine hstart.andKeeps (fun _ => quiet_allocGlobalResources.andKeeps (fun kr => keeps_ite (quiet_failed kr).keeps ?_))
  refine keeps_createTxResources.seq (l := [.fRqn]) (fun kr => keeps_ite (fun s h _ => hfail kr s h (by simp)) ?_)
    (fun q _ => mem_allQueues q) (by simp) (by simp)
  refine keeps_createRxResources.seq (l := []) (fun kr => keeps_ite (hfail kr) ?_)
    (fun q _ => mem_allQueues q) (by simp) (by simp)
  refine quiet_getEQ.andKeeps (fun eq => keeps_ite (hfail _) ?_)
  refine hreg.andKeeps (fun _ => quiet_createRxFlowSteering.andKeeps (fun kr => keeps_ite (hfail kr) ?_))
  exact (hend.bind (fun _ => quiet_queryLinkState.bind (fun _ => quiet_done _))).keeps

theorem keeps_disable : Keeps [] allQueues disable := by
  have hstart : Quiet (update (fun s => { s with fDisabling := true, fEnabled := false })) :=
    quiet_update (fun _ => rfl)
  have hend : Quiet (update (fun s => { s with fDisabling := false })) := quiet_update (fun _ => rfl)
  intro s h _
  unfold disable
  refine always_bind.mpr ⟨h.safe,?_⟩
  refine always_ite.mpr ⟨fun _ => ⟨h.safe,h,Others.refl _ _⟩,fun _ => ?_⟩
  refine (?_ : Keeps [] allQueues _) s h (by simp)
  refine hstart.andKeeps (fun _ => keeps_teardown (fun _ _ _ => ?_))
  exact (quiet_andThen (quiet_andThen (quiet_andThen quiet_deallocGlobalResources))).bind
    (fun _ => hend.bind (fun _ => quiet_done _))

theorem keeps_releaseResources : Keeps [] allQueues releaseResources := by
  unfold releaseResources
  refine quiet_unregisterNotifier.andKeeps (fun _ s h _ => ?_)
  refine always_bind.mpr ⟨h.safe,always_ite.mpr ⟨fun _ => ⟨h.safe,h,Others.refl _ _⟩,fun hguard => ?_⟩⟩
  simp only [not_or, Bool.not_eq_true, Option.isSome_eq_false_iff, Option.isNone_iff_eq_none] at hguard
  refine Always.bind (dropBuffer_kept h hguard.1 hguard.1) (fun _ t₁ _ ⟨h₁,hn₁⟩ => ?_)
  have hrq : t₁.dma.number .fRqn = none := by
    rw [hn₁]
    exact hguard.2.1
  refine Always.bind (dropBuffer_kept h₁ hrq hrq) (fun _ t₂ hsafe ⟨h₂,hn₂⟩ => ?_)
  exact ⟨hsafe,hsafe,h₂,Others.of_eq (hn₂.trans hn₁)⟩

theorem Operation.keeps (o : Operation) : Keeps [] allQueues o.run := by
  cases o with
  | enable => exact keeps_enable.then (fun _ => keeps_done _)
  | disable => exact keeps_disable.then (fun _ => keeps_done _)
  | stop => exact keeps_disable.then (fun _ => keeps_releaseResources)

theorem kept_initial : Kept initial.dma := by
  refine ⟨⟨?_,?_,?_,?_,?_⟩,?_⟩
  · intro r hr
    simp only [initial, List.mem_cons, List.not_mem_nil, or_false] at hr
    rcases hr with rfl | rfl | rfl | rfl <;> decide
  · intro o ho
    cases ho
  · intro f k hk
    cases f <;> cases hk <;> decide
  · intro o ho
    cases ho
  · intro o ho
    cases ho
  · intro o ho
    cases ho

/-- No creation of a queue has timed out so far. -/
def NoneTimedOut (s : State) : Prop := s.dma.AllKnown

/-- In every state of every run, the memory of a queue that may exist is intact as long as no creation of
a queue has timed out; between two calls, it is not intact once one has. -/
theorem dmaLifetime_run (s : State) :
    (Passes env Operation.run Operation.Enabled initial s → NoneTimedOut s → s.dma.Safe) ∧
    (Settled env Operation.run Operation.Enabled initial s → ¬ NoneTimedOut s → ¬ s.dma.Safe) := by
  have hop : ∀ (o : Operation) (s : State), Kept s.dma →
      Always env KnownSafe o.run (fun _ t => Kept t.dma) s :=
    fun o s h => (o.keeps s h (by simp)).mono (fun _ _ _ ht => ht.1)
  constructor
  · intro hs hknown
    have hsafe : KnownSafe s := hs.invariant (J := fun s => Kept s.dma)
      kept_initial (fun _ h => h.safe) (fun o s h _ => hop o s h)
    exact hsafe.safe hknown
  · intro hs htimeout
    have hkept : Kept s.dma := hs.invariant (J := fun s => Kept s.dma) kept_initial
      (fun o s h _ a t hr => (hop o s h).returns hr)
    exact hkept.lost.not_safe htimeout

def cqTimesOut : (q : Question) → Answer q
  | .allocate => true
  | .mapDMAContiguous => IOReturn.success
  | .allocDbSlots => IOReturn.success
  | .allocBfreg => IOReturn.success
  | .getEQ => true
  | .exec op _ _ => (⟨if op = .createCq then .timeout else .success,7⟩ : Reply)

theorem cq_loses_buffer : ¬ ∀ s, Passes env Operation.run Operation.Enabled initial s → s.dma.Safe := by
  intro h
  have hs := h _ (.inl (.next (o := .enable) .start rfl
    (Prog.run_returns (fun _ => cqTimesOut) (fun _ _ _ => trivial) Operation.enable.run 0 initial)))
  revert hs
  decide

end AppleMCX.Ethernet
