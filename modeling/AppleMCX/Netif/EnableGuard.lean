import AppleMCX.Netif.Resources

/-! # What the guard of enable stands for

`enable` looks at seven of the fields that keep something. `fPd` alone decides: it is filled
first and cleared last, after everything else has been destroyed, so that where it is
empty nothing is left but the rings.
-/
namespace AppleMCX.Ethernet
open Interaction Prog

/-! ## The packets in between -/

/-- `setWqeMbuf` in `xmitPacket`, for whatever slot comes next. -/
def outputPacket (pi : ℕ) : Eth Unit := do
  let s ← Prog.get
  if s.fEnabled ∧ (s.dma.number .fSqn).isSome ∧ (s.dma.held .fTxBufDesc).isSome ∧ s.fTxBfValid then
    update (fun s => { s with fWqeMbuf := Function.update s.fWqeMbuf pi true })
  else pure ()

def pollTxCq (completed : ℕ → Bool) : Eth Unit :=
  update (fun s => { s with fWqeMbuf := fun i => s.fWqeMbuf i && !completed i })

inductive Request
  | enable | disable
  | outputPacket (pi : ℕ)
  | pollTxCq (completed : ℕ → Bool)

def Request.run : Request → Eth Unit
  | .enable => do let _ ← Ethernet.enable
  | .disable => do let _ ← Ethernet.disable
  | .outputPacket pi => Ethernet.outputPacket pi
  | .pollTxCq completed => Ethernet.pollTxCq completed

variable {β : Type} {s t : State} {X : Set Item}

/-! ## The global resources -/

theorem clears_destroyMkey : Clears Success {.fMkeyIndex} (destroyObject .destroyMkey State.fMkeyIndex
    (fun n s => { s with fMkeyIndex := n })) :=
  clears_destroyObject (stores_fMkeyIndex none) (fun _ hhas => hhas rfl) (fun _ hnone hhas => hhas hnone)

theorem clears_deallocTd : Clears Success {.fTd}
    (destroyObject .deallocTransportDomain State.fTd (fun n s => { s with fTd := n })) :=
  clears_destroyObject (stores_fTd none) (fun _ hhas => hhas rfl) (fun _ hnone hhas => hhas hnone)

theorem clears_deallocPd : Clears Success {.fPd} (destroyObject .deallocPd State.fPd (fun n s => { s with fPd := n })) :=
  clears_destroyObject (stores_fPd none) (fun _ hhas => hhas rfl) (fun _ hnone hhas => hhas hnone)

/-- Only the global resources are left. -/
def GlobalOnly (s : State) : Prop := ∀ x, x ∉ part .ring → x ∉ part .global → ¬ s.Has x

theorem GlobalOnly.fewer (h : GlobalOnly s) (hf : Fewer s t) : GlobalOnly t := fun x hr hg ht => h x hr hg (hf x ht)

theorem deallocGlobalResources_closed (hs : Busy s) (ht : Tidy s) (hclosed : Closed s) (honly : GlobalOnly s) :
    Always env Guarded deallocGlobalResources (fun _ t => Tidy t ∧ Agree (part .global) s t ∧ Closed t) s := by
  have hglobal : ∀ {x : Item}, x.part = .global → {x} ⊆ part .global := by
    intro x hx y hy
    rw [Set.mem_singleton_iff.mp hy]
    exact hx
  unfold deallocGlobalResources
  refine Always.bind (clears_destroyMkey s hs ht) ?_
  rintro kr t _ ⟨htt,ha,hf,hmkey⟩
  have hat := ha.mono (hglobal (x := .fMkeyIndex) rfl)
  have hct := hclosed.fewer (by simp) ha hf
  have hbt := ha.busy hs
  show Always env Guarded (if kr = .success then _ else _) _ t
  split
  · rename_i hkr
    refine Always.bind (clears_deallocTd t hbt htt) ?_
    rintro kr' u _ ⟨htu,ha',hf',htd⟩
    have hau := hat.trans (ha'.mono (hglobal (x := .fTd) rfl))
    rw [Set.union_self] at hau
    have hcu := hct.fewer (by simp) ha' hf'
    have hbu := ha'.busy hbt
    show Always env Guarded (if kr' = .success then _ else _) _ u
    split
    · rename_i hkr'
      refine (clears_deallocPd u hbu htu).mono ?_
      rintro kr'' v _ ⟨htv,ha'',hf'',-⟩
      have hav := hau.trans (ha''.mono (hglobal (x := .fPd) rfl))
      rw [Set.union_self] at hav
      refine ⟨htv,hav,?_⟩
      by_cases hpd : v.Has .fPd
      · exact .inl hpd
      · refine .inr (fun x hx hhas => ?_)
        have hglob : x ∈ part .global := by
          by_contra hg
          exact honly x hx hg (hf x (hf' x (hf'' x hhas)))
        cases x with
        | fPd => exact hpd hhas
        | fMkeyIndex => exact hmkey hkr _ rfl (hf' _ (hf'' _ hhas))
        | fTd => exact htd hkr' _ rfl (hf'' _ hhas)
        | number q => cases q <;> cases hglob
        | held f => cases f <;> cases hglob
        | _ => cases hglob
    · exact ⟨hbu.guarded,htu,hau,hcu⟩
  · exact ⟨hbt.guarded,htt,hat,hct⟩

theorem allocGlobalResources_closed (hs : Busy s) (ht : Tidy s) (hclear : Clear s) :
    Always env Guarded allocGlobalResources (fun kr t => Tidy t ∧ Agree (part .global) s t ∧ Closed t ∧
      (kr = .success → t.Has .fPd)) s := by
  have htd : Adds ∅ {.fTd} cmdAllocTd := adds_createObject stores_fTd (fun n s hhas => by cases hhas)
  have hmkey : Adds ∅ {.fMkeyIndex} cmdCreateMkey := adds_createObject stores_fMkeyIndex (fun n s hhas => by cases hhas)
  have honly : ∀ {t : State}, Agree (part .global) s t → GlobalOnly t :=
    fun ha x hr hg hhas => hclear x hr ((ha.has x hg).mp hhas)
  have hclean : ∀ {t : State} {kr : IOReturn}, kr ≠ .success → Busy t →
    Tidy t → Agree (part .global) s t → t.Has .fPd →
      Always env Guarded (deallocGlobalResources.bind (fun _ => .done kr)) (fun kr t => Tidy t ∧ Agree (part .global) s t ∧
        Closed t ∧ (kr = .success → t.Has .fPd)) t := by
    intro t kr hkr hb htt ha hpd
    refine Always.bind (deallocGlobalResources_closed hb htt (.inl hpd) (honly ha)) ?_
    rintro _ u hg ⟨htu,ha',hcu⟩
    have hau := ha.trans ha'
    rw [Set.union_self] at hau
    exact ⟨hg,htu,hau,hcu,fun he => absurd he hkr⟩
  have hsub : ∀ {x : Item} {t u : State}, x.part = .global → Agree (part .global) s t →
    Agree {x} t u → Agree (part .global) s u := by
    intro x t u hx h₁ h₂
    have h := h₁.trans h₂
    rw [Set.union_eq_left.mpr (by intro y hy; rw [Set.mem_singleton_iff.mp hy]; exact hx)] at h
    exact h
  unfold allocGlobalResources
  refine Always.bind (createObject_spec stores_fPd (fun n s hhas => by cases hhas) hs ht) ?_
  rintro kr t _ ⟨htt,ha,hok,hfail⟩
  have hat := hsub rfl (Agree.refl _ s) ha
  have hbt := ha.busy hs
  show Always env Guarded (if kr = .success then _ else _) _ t
  split
  · rename_i hkr
    have hpd := hok hkr
    refine Always.bind (htd t hbt htt (fun x hx => absurd hx (Set.notMem_empty x))) ?_
    rintro kr u _ ⟨htu,ha'⟩
    have hau := hsub rfl hat ha'
    have hbu := ha'.busy hbt
    have hpdu : u.Has .fPd := (ha'.has _ (by simp)).mpr hpd
    show Always env Guarded (if kr ≠ .success then _ else _) _ u
    split
    · rename_i hne
      exact hclean hne hbu htu hau hpdu
    · refine Always.bind (hmkey u hbu htu (fun x hx => absurd hx (Set.notMem_empty x))) ?_
      rintro kr v _ ⟨htv,ha''⟩
      have hav := hsub rfl hau ha''
      have hpdv : v.Has .fPd := (ha''.has _ (by simp)).mpr hpdu
      show Always env Guarded (if kr ≠ .success then _ else _) _ v
      split
      · rename_i hne
        exact hclean hne (ha''.busy hbu) htv hav hpdv
      · exact ⟨(ha''.busy hbu).guarded,htv,hav,.inl hpdv,fun _ => hpdv⟩
  · rename_i hkr
    refine ⟨hbt.guarded,htt,hat,.inr (fun x hx hhas => hclear x hx ?_),fun he => absurd he hkr⟩
    by_cases he : x = .fPd
    · rw [he] at hhas ⊢
      exact (hfail hkr).mp hhas
    · exact (ha.has x he).mp hhas

/-! ## Bringing the interface up and down -/

theorem Same.rest (h : Same s t) (hs : Rest s) : Rest t := by
  have ha := h.agree
  refine ⟨h.tidy hs.tidy,?_,ha.enabling.trans hs.enabling,ha.disabling.trans hs.disabling⟩
  exact hs.closed.fewer (Set.notMem_empty _) ha (fun x hx => (ha.has x (Set.notMem_empty x)).mp hx)

theorem clears_unregisterNotifier : Clears Any ∅ unregisterNotifier := by
  intro s hs ht
  have hdone : ∀ {t : State}, Same s t ∨ t = { s with fNotifierRegistered := false } →
      Guarded t ∧ Tidy t ∧ Agree ∅ s t ∧ Fewer s t ∧ (Any () → ∀ x ∈ (∅ : Set Item), ¬ t.Has x) := by
    intro t h
    have ha : Agree ∅ s t := by
      rcases h with h | rfl
      · exact h.agree
      · refine ⟨rfl,rfl,fun x _ => ?_⟩
        cases x <;> exact Iff.rfl
    have htidy : Tidy t := by
      rcases h with h | rfl
      · exact h.tidy ht
      · exact ht.of_eq rfl rfl rfl rfl
    exact ⟨(ha.busy hs).guarded,htidy,ha,fun x hx => (ha.has x (Set.notMem_empty x)).mp hx,
      fun _ x hx => absurd hx (Set.notMem_empty x)⟩
  have hself : Same s s := ⟨_,_,rfl⟩
  unfold unregisterNotifier
  refine always_bind.mpr ⟨hs.guarded,always_ite.mpr ⟨fun _ => ?_,fun _ => hdone (.inl hself)⟩⟩
  refine always_query_bind.mpr ⟨hs.guarded,fun (eq : Bool) _ => always_ite.mpr ⟨fun _ => ?_,fun _ => hdone (.inl hself)⟩⟩
  exact ⟨hs.guarded,hdone (.inr rfl)⟩

/-- Everything but the protection domain is destroyed, or there is an error. -/
theorem teardown_closed {rest : IOReturn → IOReturn → IOReturn → Eth β}
    {R : β → State → Prop} (hs : Busy s) (ht : Tidy s)
    (hc : Closed s) (hrest : ∀ a b c t, Tidy t → Closed t → Agree Set.univ s t →
      (a = .success ∧ b = .success ∧ c = .success → GlobalOnly t) → Always env Guarded (rest a b c) R t) :
    Always env Guarded (unregisterNotifier.bind (fun _ => destroyRxFlowSteering.bind (fun flowKr =>
      (andThen flowKr destroyRxResources).bind (fun rxKr => destroyTxResources.bind (fun txKr =>
        rest flowKr rxKr txKr))))) R s := by
  have huniv : ∀ {X Y : Set Item} {t u : State}, Agree X s t → Agree Y t u → Agree Set.univ s u :=
    fun h₁ h₂ => (h₁.trans h₂).mono (Set.subset_univ _)
  refine Always.bind (clears_unregisterNotifier s hs ht) ?_
  rintro _ t _ ⟨htt,ha,hf,-⟩
  have hbt := ha.busy hs
  refine Always.bind (clears_destroyRxFlowSteering t hbt htt) ?_
  rintro flowKr u _ ⟨htu,ha',hf',hflow⟩
  have hau := huniv ha ha'
  have hbu := hau.busy hs
  have hcu := (hc.fewer (Set.notMem_empty _) ha hf).fewer (X := part .flow) (by simp [part, Item.part]) ha' hf'
  have hrx : Always env Guarded (andThen flowKr destroyRxResources) (fun kr v => Tidy v ∧ Agree (part .rx) u v ∧
      Fewer u v ∧ (kr = .success → flowKr = .success ∧ ∀ x ∈ part .rx, ¬ v.Has x)) u := by
    show Always env Guarded (if flowKr = .success then _ else _) _ u
    split
    · rename_i hkr
      refine (clears_destroyRxResources u hbu htu).mono ?_
      rintro kr v _ ⟨htv,ha'',hf'',hcleared⟩
      exact ⟨htv,ha'',hf'',fun hk => ⟨hkr,hcleared hk⟩⟩
    · rename_i hkr
      exact ⟨hbu.guarded,htu,Agree.refl _ u,fun _ hx => hx,fun he => absurd he hkr⟩
  refine Always.bind hrx ?_
  rintro rxKr v _ ⟨htv,ha'',hf'',hrx⟩
  have hav := huniv hau ha''
  have hcv := hcu.fewer (X := part .rx) (by simp [part, Item.part]) ha'' hf''
  refine Always.bind (clears_destroyTxResources v (hav.busy hs) htv) ?_
  rintro txKr w _ ⟨htw,ha₃,hf₃,htx⟩
  refine hrest flowKr rxKr txKr w htw (hcv.fewer (X := part .tx) (by simp [part, Item.part]) ha₃ hf₃) (huniv hav ha₃) ?_
  rintro ⟨hk₁,hk₂,hk₃⟩ x hring hglobal hhas
  have hpart : x.part = .flow ∨ x.part = .rx ∨ x.part = .tx := by
    cases hp : x.part with
    | ring => exact absurd hp hring
    | global => exact absurd hp hglobal
    | flow => exact .inl rfl
    | rx => exact .inr (.inl rfl)
    | tx => exact .inr (.inr rfl)
  rcases hpart with hp | hp | hp
  · exact hflow hk₁ x hp (hf'' x (hf₃ x hhas))
  · exact (hrx hk₂).2 x hp (hf₃ x hhas)
  · exact htx hk₃ x hp hhas

theorem failed_rest (kr : IOReturn) (ht : Tidy s) (hc : Closed s) (hs : Busy s) (hd : s.fDisabling = false) :
    Always env Guarded (failed kr) (fun _ t => Rest t) s := by
  have hrest : Rest { s with fEnabled := false, fEnabling := false } := by
    refine ⟨ht.of_eq rfl rfl rfl rfl,?_,rfl,hd⟩
    rcases hc with hc | hc
    · exact .inl hc
    · refine .inr (fun x hx hhas => hc x hx ?_)
      cases x <;> exact hhas
  exact ⟨hs.guarded,.inr hrest,hrest⟩

theorem failAll_rest (kr : IOReturn) (ht : Tidy s) (hc : Closed s) (hs : Busy s) (hd : s.fDisabling = false) :
    Always env Guarded (failAll kr) (fun _ t => Rest t) s := by
  unfold failAll
  apply teardown_closed hs ht hc
  intro a b c t htt hct hat hall
  have hbt := hat.busy hs
  have hdt := hat.disabling.trans hd
  refine always_ite.mpr ⟨fun hkr => ?_,fun _ => failed_rest kr htt hct hbt hdt⟩
  refine Always.bind (deallocGlobalResources_closed hbt htt hct (hall hkr)) ?_
  rintro _ u _ ⟨htu,ha,hcu⟩
  exact failed_rest kr htu hcu (ha.busy hbt) (ha.disabling.trans hdt)

theorem queryLinkState_rest (h : Rest s) : Always env Guarded queryLinkState (fun _ t => Rest t) s := by
  refine Always.bind (exec_guarded (fun t ht => .inr (ht.rest h))) ?_
  intro reply t hg ht
  exact ⟨hg,ht.rest h⟩

/-- Nothing is left of what is created by one of the functions. -/
theorem Clear.vacant (h : Clear s) {p : Part} (hp : p ≠ .ring) (ha : Agree X s t) (hX : ∀ x ∈ X, x.part ≠ p) :
    ∀ x ∈ part p, ¬ t.Has x := by
  intro x hx hhas
  refine h x (fun hr => hp (hx.symm.trans hr)) ((ha.has x (fun hm => hX x hm hx)).mp hhas)

theorem enable_rest (h : Rest s) : Always env Guarded enable (fun _ t => Rest t) s := by
  unfold enable
  refine always_bind.mpr ⟨.inr h,always_ite.mpr ⟨fun _ => ⟨.inr h,h⟩,fun _ => ?_⟩⟩
  refine always_ite.mpr ⟨fun _ => ⟨.inr h,h⟩,fun _ => always_ite.mpr ⟨fun _ => ⟨.inr h,h⟩,fun hguard => ?_⟩⟩
  have hpd : s.fPd = none := by
    by_contra hhas
    exact hguard (.inl (Option.isSome_iff_ne_none.mpr hhas))
  have hclear : Clear s := h.closed.resolve_left (fun hhas => hhas hpd)
  refine ⟨.inr h,?_⟩
  have hs : Busy { s with fEnabling := true } := .inl rfl
  have ht : Tidy { s with fEnabling := true } := h.tidy.of_eq rfl rfl rfl rfl
  have hc : Clear { s with fEnabling := true } := by
    intro x hx hhas
    apply hclear x hx
    cases x <;> exact hhas
  have hd : ({ s with fEnabling := true } : State).fDisabling = false := h.disabling
  show Always env Guarded (Prog.bind allocGlobalResources _) _ { s with fEnabling := true }
  generalize ({ s with fEnabling := true } : State) = s₀ at hs ht hc hd ⊢
  refine Always.bind (allocGlobalResources_closed hs ht hc) ?_
  rintro kr t _ ⟨htt,ha,hct,hpd⟩
  have hbt := ha.busy hs
  have hdt := ha.disabling.trans hd
  refine always_ite.mpr ⟨fun _ => failed_rest kr htt hct hbt hdt,fun hkr => ?_⟩
  have hpdt := hpd (not_not.mp hkr)
  have htx := hc.vacant (p := .tx) (by decide) ha (fun x hx => by rw [show x.part = .global from hx]; decide)
  refine Always.bind (adds_createTxResources t hbt htt (fun x hx => htx x hx.1)) ?_
  rintro kr u _ ⟨htu,ha'⟩
  have hpdu : u.Has .fPd := (ha'.has _ (by simp [part, Item.part])).mpr hpdt
  have hbu := ha'.busy hbt
  have hdu := ha'.disabling.trans hdt
  refine always_ite.mpr ⟨fun _ => failAll_rest kr htu (.inl hpdu) hbu hdu,fun _ => ?_⟩
  have hrx := hc.vacant (p := .rx) (by decide) (ha.trans ha') (by
    rintro x (hx | hx) <;> rw [show x.part = _ from hx] <;> decide)
  refine Always.bind (adds_createRxResources u hbu htu hrx) ?_
  rintro kr v _ ⟨htv,ha''⟩
  have hpdv : v.Has .fPd := (ha''.has _ (by simp [part, Item.part])).mpr hpdu
  have hbv := ha''.busy hbu
  have hdv := ha''.disabling.trans hdu
  refine always_ite.mpr ⟨fun _ => failAll_rest kr htv (.inl hpdv) hbv hdv,fun _ => ?_⟩
  refine always_query_bind.mpr ⟨hbv.guarded,fun (eq : Bool) _ => ?_⟩
  refine always_ite.mpr ⟨fun _ => failAll_rest _ htv (.inl hpdv) hbv hdv,fun _ => ⟨hbv.guarded,?_⟩⟩
  have hbw : Busy { v with fNotifierRegistered := true } := hbv
  have htw : Tidy { v with fNotifierRegistered := true } := htv.of_eq rfl rfl rfl rfl
  show Always env Guarded (Prog.bind createRxFlowSteering _) _ { v with fNotifierRegistered := true }
  refine Always.bind (adds_createRxFlowSteering _ hbw htw (fun x hx => absurd hx (Set.notMem_empty x))) ?_
  rintro kr y hg ⟨hty,ha₃⟩
  have hpdy : y.Has .fPd := (ha₃.has _ (by simp [part, Item.part])).mpr hpdv
  have hdy : y.fDisabling = false := ha₃.disabling.trans hdv
  refine always_ite.mpr ⟨fun _ => failAll_rest kr hty (.inl hpdy) (ha₃.busy hbw) hdy,fun _ => ⟨hg,?_⟩⟩
  have hup : Rest { y with fEnabled := true, fEnabling := false } := ⟨hty.of_eq rfl rfl rfl rfl,.inl hpdy,rfl,hdy⟩
  show Always env Guarded (Prog.bind queryLinkState _) _ { y with fEnabled := true, fEnabling := false }
  refine Always.bind (queryLinkState_rest hup) ?_
  exact fun _ z hg hz => ⟨hg,hz⟩

theorem disable_rest (h : Rest s) : Always env Guarded disable (fun _ t => Rest t) s := by
  unfold disable
  refine always_bind.mpr ⟨.inr h,always_ite.mpr ⟨fun _ => ⟨.inr h,h⟩,fun _ => ⟨.inr h,?_⟩⟩⟩
  have hs : Busy { s with fDisabling := true, fEnabled := false } := .inr rfl
  have ht : Tidy { s with fDisabling := true, fEnabled := false } := h.tidy.of_eq rfl rfl rfl rfl
  have hc : Closed { s with fDisabling := true, fEnabled := false } := by
    rcases h.closed with hc | hc
    · exact .inl hc
    · refine .inr (fun x hx hhas => hc x hx ?_)
      cases x <;> exact hhas
  have he : ({ s with fDisabling := true, fEnabled := false } : State).fEnabling = false := h.enabling
  show Always env Guarded _ _ { s with fDisabling := true, fEnabled := false }
  generalize ({ s with fDisabling := true, fEnabled := false } : State) = s₀ at hs ht hc he ⊢
  apply teardown_closed hs ht hc
  intro a b c t htt hct hat hall
  have hbt := hat.busy hs
  have hend : ∀ {u : State} (kr : IOReturn), Busy u → Tidy u → Closed u → u.fEnabling = false →
      Always env Guarded ((update (fun s => { s with fDisabling := false })).bind (fun _ => .done kr)) (fun _ t => Rest t) u := by
    intro u kr hb htu hcu heu
    have hrest : Rest { u with fDisabling := false } := by
      refine ⟨htu.of_eq rfl rfl rfl rfl,?_,heu,rfl⟩
      rcases hcu with hcu | hcu
      · exact .inl hcu
      · refine .inr (fun x hx hhas => hcu x hx ?_)
        cases x <;> exact hhas
    exact ⟨hb.guarded,.inr hrest,hrest⟩
  have hresult : Always env Guarded (andThen a (andThen b (andThen c deallocGlobalResources)))
      (fun _ u => Busy u ∧ Tidy u ∧ Closed u ∧ u.fEnabling = false) t := by
    have het := hat.enabling.trans he
    have hstay : ∀ kr : IOReturn, Always env Guarded (.done kr)
      (fun _ u => Busy u ∧ Tidy u ∧ Closed u ∧ u.fEnabling = false) t :=
      fun kr => ⟨hbt.guarded,hbt,htt,hct,het⟩
    refine always_ite.mpr ⟨fun ha => always_ite.mpr ⟨fun hb => always_ite.mpr ⟨fun hc => ?_,fun _ => hstay c⟩,
      fun _ => hstay b⟩,fun _ => hstay a⟩
    refine (deallocGlobalResources_closed hbt htt hct (hall ⟨ha,hb,hc⟩)).mono ?_
    rintro _ u _ ⟨htu,hau,hcu⟩
    exact ⟨hau.busy hbt,htu,hcu,hau.enabling.trans het⟩
  refine Always.bind hresult ?_
  rintro kr u _ ⟨hbu,htu,hcu,heu⟩
  exact hend kr hbu htu hcu heu

theorem outputPacket_rest (pi : ℕ) (h : Rest s) : Always env Guarded (outputPacket pi) (fun _ t => Rest t) s := by
  unfold outputPacket
  refine always_bind.mpr ⟨.inr h,always_ite.mpr ⟨fun hup => ?_,fun _ => ⟨.inr h,h⟩⟩⟩
  have hsq : s.Has (.number .fSqn) := Option.isSome_iff_ne_none.mp hup.2.1
  have hpd : s.Has .fPd := h.closed.resolve_right (fun hc => hc _ (by simp [part, Item.part, Queue.part]) hsq)
  have hrest : Rest { s with fWqeMbuf := Function.update s.fWqeMbuf pi true } :=
    ⟨h.tidy.of_eq rfl rfl rfl rfl,.inl hpd,h.enabling,h.disabling⟩
  exact ⟨.inr h,.inr hrest,hrest⟩

theorem pollTxCq_rest (completed : ℕ → Bool) (h : Rest s) :
    Always env Guarded (pollTxCq completed) (fun _ t => Rest t) s := by
  have hrest : Rest { s with fWqeMbuf := fun i => s.fWqeMbuf i && !completed i } := by
    refine ⟨h.tidy.of_eq rfl rfl rfl rfl,?_,h.enabling,h.disabling⟩
    rcases h.closed with hc | hc
    · exact .inl hc
    · refine .inr (fun x hx hhas => hc x hx ?_)
      cases x with
      | fWqeMbuf i => exact (Bool.and_eq_true_iff.mp hhas).1
      | _ => exact hhas
  exact ⟨.inr h,.inr hrest,hrest⟩

theorem Request.rest (o : Request) (h : Rest s) : Always env Guarded o.run (fun _ t => Rest t) s := by
  cases o with
  | enable => exact Always.bind (enable_rest h) (fun _ _ hg ht => ⟨hg,ht⟩)
  | disable => exact Always.bind (disable_rest h) (fun _ _ hg ht => ⟨hg,ht⟩)
  | outputPacket pi => exact outputPacket_rest pi h
  | pollTxCq completed => exact pollTxCq_rest completed h

theorem rest_initial : Rest initial := by
  refine ⟨⟨?_,?_,rfl⟩,.inr ?_,rfl,rfl⟩
  · intro r hr
    simp only [initial, List.mem_cons, List.not_mem_nil, or_false] at hr
    rcases hr with rfl | rfl | rfl | rfl <;> rfl
  · intro f
    cases f <;> simp [initial, Field.buffer]
  · intro x hx hhas
    cases x with
    | held f => cases f <;> first | exact hhas rfl | exact hx rfl
    | number q => exact hhas rfl
    | fWqeMbuf i => cases hhas
    | fFlowEntryValid => cases hhas
    | fFlowRootActive => cases hhas
    | fTxBf => cases hhas
    | _ => exact hhas rfl

/-! ## The guard -/

/-- What `enable` checks before it begins. -/
structure Guard (s : State) : Prop where
  fPd : s.fPd = none
  fTd : s.fTd = none
  fTisn : s.fTisn = none
  fSqn : s.dma.number .fSqn = none
  fRqn : s.dma.number .fRqn = none
  fTirn : s.fTirn = none
  fFlowTableId : s.fFlowTableId = none

/-- The fields of the two rings, which live as long as the controller. -/
def ringFields : List Field := [.txWqDesc,.txWqDmaMap,.rxWqDesc,.rxWqDmaMap]

/-- Nothing is left but the rings. -/
structure Vacated (s : State) : Prop where
  fTxCqn : s.dma.number .fTxCqn = none
  fRxCqn : s.dma.number .fRxCqn = none
  fMkeyIndex : s.fMkeyIndex = none
  fFlowGroupId : s.fFlowGroupId = none
  fFlowEntryValid : s.fFlowEntryValid = false
  fFlowRootActive : s.fFlowRootActive = false
  held : ∀ f, f ∉ ringFields → s.dma.held f = none
  live : ∀ r ∈ s.dma.live, r.1 ∈ ringFields
  bfreg : s.fTxBfValid = false ∧ s.bfregs = 0
  mbufs : ∀ i, s.fWqeMbuf i = false

theorem mem_ringFields {f : Field} (hf : f.part = .ring) : f ∈ ringFields := by
  revert hf
  cases f <;> decide

theorem Clear.vacated (h : Clear s) (ht : Tidy s) : Vacated s := by
  have hheld : ∀ f, f ∉ ringFields → s.dma.held f = none := by
    intro f hf
    by_contra hhas
    exact h (.held f) (fun hring => hf (mem_ringFields hring)) hhas
  have hflag : ∀ {b : Bool}, ¬ b = true → b = false := fun hb => by simpa using hb
  have hbf : s.fTxBfValid = false := hflag (h .fTxBf (by simp [part, Item.part]))
  constructor
  · exact not_not.mp (h (.number .fTxCqn) (by simp [part, Item.part, Queue.part]))
  · exact not_not.mp (h (.number .fRxCqn) (by simp [part, Item.part, Queue.part]))
  · exact not_not.mp (h .fMkeyIndex (by simp [part, Item.part]))
  · exact not_not.mp (h .fFlowGroupId (by simp [part, Item.part]))
  · exact hflag (h .fFlowEntryValid (by simp [part, Item.part]))
  · exact hflag (h .fFlowRootActive (by simp [part, Item.part]))
  · exact hheld
  · intro r hr
    by_contra hring
    have hlive := ht.live r hr
    rw [hheld r.1 hring] at hlive
    cases hlive
  · refine ⟨hbf,?_⟩
    rw [ht.bfregs, hbf]
    rfl
  · exact fun i => hflag (h (.fWqeMbuf i) (by simp [part, Item.part]))

/-- In every state of every run in which no call is under way, nothing is allocated that is not in its field, and where
the guard lets `enable` pass, nothing is left. -/
theorem enableGuard_run (s : State) (hs : Passes env Request.run (fun _ _ => True) initial s) (hidle : ¬ Busy s) :
    Tidy s ∧ (Guard s → Vacated s) := by
  have hguarded : Guarded s := hs.invariant (J := Rest) rest_initial (fun _ h => .inr h) (fun o _ h _ => o.rest h)
  have hrest := hguarded.resolve_left hidle
  refine ⟨hrest.tidy,fun hguard => ?_⟩
  exact (hrest.closed.resolve_left (fun hhas => hhas hguard.fPd)).vacated hrest.tidy

def sqFails : (q : Question) → Answer q
  | .allocate => true
  | .mapDMAContiguous => IOReturn.success
  | .allocDbSlots => IOReturn.success
  | .allocBfreg => IOReturn.success
  | .getEQ => true
  | .exec op _ _ => (⟨if op = .createSq then .ioError else .success,7⟩ : Reply)

theorem enableGuard_run_sqFails : Vacated (Prog.run env (fun _ => sqFails) Request.enable.run 0 initial).2 := by
  refine (enableGuard_run _ (.inl (.next (o := .enable) .start trivial
    (Prog.run_returns (fun _ => sqFails) (fun _ _ _ => trivial) Request.enable.run 0 initial))) ?_).2 ?_
  · rintro (h | h) <;> cases h
  · exact ⟨rfl,rfl,rfl,rfl,rfl,rfl,rfl⟩

end AppleMCX.Ethernet
