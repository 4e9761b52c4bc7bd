import AppleMCX.Core.DriverInvariant

/-! # The event queues of the driver

A queue of the log is known to a valid entry of `fEQ`: from the command that creates it until
the command that destroys it has succeeded.
-/
namespace AppleMCX.PciDriver
open Interaction Prog

variable {s t : State} {n : ℕ}

theorem entry_modifyEntry_self (slot : EqId) (f : EqEntry → EqEntry) (s : State) :
    (s.modifyEntry slot f).entry slot = (s.entry slot).map f := by
  cases heq : s.fEQ <;> cases slot <;> simp [State.modifyEntry, State.entry, heq]

theorem entry_modifyEntry_other {slot slot' : EqId} (f : EqEntry → EqEntry) (s : State) (hne : slot' ≠ slot) :
    (s.modifyEntry slot f).entry slot' = s.entry slot' := by
  cases heq : s.fEQ with
  | none => cases slot <;> simp [State.modifyEntry, State.entry, heq]
  | some eq =>
    cases slot <;> cases slot' <;> simp only [State.modifyEntry, State.entry, heq, Option.map_some, Option.bind_some]
    all_goals rw [List.getElem?_modify_ne]
    all_goals exact fun hi => hne (by rw [hi])

/-- Only the entry of a queue that is not in use changes in what the log says. -/
theorem Tracked.modifyEntry (h : Tracked s) (slot : EqId) {f : EqEntry → EqEntry}
    (hf : ∀ e, s.entry slot = some e → e.valid = true → (f e).valid = true ∧ (f e).eqNumber = e.eqNumber) :
    Tracked (s.modifyEntry slot f) := by
  refine ⟨⟨⟨h.phase,h.before⟩,h.timedOut,h.quarantined,h.pci,fun m hm => ?_⟩,h.initialized,h.enabled,h.up⟩
  obtain ⟨slot',e,he,hv,hn⟩ := h.eqs m hm
  by_cases hslot : slot' = slot
  · subst hslot
    obtain ⟨hv',hn'⟩ := hf e he hv
    exact ⟨slot',f e,by rw [entry_modifyEntry_self, he]; rfl,hv',hn'.trans hn⟩
  · exact ⟨slot',e,(entry_modifyEntry_other f s hslot).trans he,hv,hn⟩

theorem Tracked.createdEq (h : Tracked s) (slot : EqId) {f : EqEntry → EqEntry} (hup : s.isUp = true)
    (hslot : ∃ e, s.entry slot = some e ∧ e.valid = false) (hf : ∀ e, (f e).valid = true ∧ (f e).eqNumber = n) :
    Tracked ((s.submitted .createEq n .success).modifyEntry slot f) where
  phase := h.phase
  before := (h.toBefore.submitted .success).before
  timedOut := by
    intro op m hm
    have hq : ((s.submitted .createEq n .success).modifyEntry slot f).isQuarantined = s.isQuarantined := by
      have hs : (s.submitted .createEq n .success).isQuarantined = _ := submitted_isQuarantined .success hup
      exact hs.trans (by simp)
    rcases List.mem_cons.mp hm with heq | hm
    · cases heq
    · exact hq.trans (h.timedOut op m hm)
  quarantined := by
    intro hm
    rcases List.mem_cons.mp hm with heq | hm
    · cases heq
    · exact h.quarantined hm
  pci := fun _ => h.pci hup
  eqs := by
    obtain ⟨e₀,he₀,hv₀⟩ := hslot
    intro m hm
    rcases List.mem_cons.mp (show m ∈ n :: eqsOf s.log from hm) with rfl | hm
    · refine ⟨slot,f e₀,?_,hf e₀⟩
      rw [entry_modifyEntry_self]
      exact congrArg (Option.map f) he₀
    · obtain ⟨slot',e,he,hv,hn⟩ := h.eqs m hm
      have hne : slot' ≠ slot := by
        rintro rfl
        rw [he₀] at he
        cases he
        rw [hv₀] at hv
        cases hv
      exact ⟨slot',e,(entry_modifyEntry_other f _ hne).trans he,hv,hn⟩
  initialized := fun hs => (h.initialized (succeeded_cons (fun _ => by decide) hs)).imp id (fun ht => ht.cons _)
  enabled := fun hs => (h.enabled (succeeded_cons (fun _ => by decide) hs)).imp id (fun hd => hd.cons _)
  up := fun _ => (submitted_isUp .createEq n .success).trans hup

theorem Tracked.destroyedEq (h : Tracked s) (slot : EqId) {f : EqEntry → EqEntry} {e : EqEntry} (hup : s.isUp = true)
    (hslot : s.entry slot = some e) : Tracked ((s.submitted .destroyEq e.eqNumber .success).modifyEntry slot f) := by
  have hs := h.submitted (n := e.eqNumber) .success (fun _ => (by decide : Opcode.destroyEq ≠ _ ∧ _)) hup
  refine ⟨⟨⟨hs.phase,hs.before⟩,hs.timedOut,hs.quarantined,hs.pci,fun m hm => ?_⟩,hs.initialized,hs.enabled,hs.up⟩
  obtain ⟨hm,hne⟩ := List.mem_filter.mp (show m ∈ (eqsOf s.log).filter (fun m => m ≠ e.eqNumber) from hm)
  obtain ⟨slot',e',he',hv,hn⟩ := h.eqs m hm
  have hslot' : slot' ≠ slot := by
    rintro rfl
    rw [hslot] at he'
    cases he'
    exact of_decide_eq_true hne hn.symm
  exact ⟨slot',e',(entry_modifyEntry_other f _ hslot').trans he',hv,hn⟩

def Unused (slots : List EqId) (s : State) : Prop := ∀ slot ∈ slots, ∃ e, s.entry slot = some e ∧ e.valid = false

def NoEqs (s : State) : Prop := ∀ slot e, s.entry slot = some e → e.valid = false

theorem eqs_none (h : Known s) (hno : NoEqs s) : eqsOf s.log = [] := by
  refine List.eq_nil_iff_forall_not_mem.mpr (fun m hm => ?_)
  obtain ⟨slot,e,he,hv,-⟩ := h.eqs m hm
  rw [hno slot e he] at hv
  cases hv

section Calculus
variable {M : State → (q : Question) → Answer q → Prop} {I : State → Prop}

theorem Unused.entries {slots : List EqId} (h : Unused slots s) (ht : ∀ slot ∈ slots, t.entry slot = s.entry slot) :
    Unused slots t := by
  intro slot hslot
  obtain ⟨e,he,hv⟩ := h slot hslot
  exact ⟨e,(ht slot hslot).trans he,hv⟩

theorem Unused.modifyEntry {slot : EqId} {f : EqEntry → EqEntry} (h : Unused [slot] s) (hf : ∀ e, (f e).valid = e.valid) :
    Unused [slot] (s.modifyEntry slot f) := by
  intro slot' hslot'
  obtain ⟨e,he,hv⟩ := h slot' hslot'
  rw [List.mem_singleton.mp hslot'] at he ⊢
  exact ⟨f e,by rw [entry_modifyEntry_self, he]; rfl,(hf e).trans hv⟩

/-- The entry gets a queue or stays unused, and the other entries stay what they are. -/
theorem always_createEq (hI : Suited I) (h : Tracked s) {slot : EqId} (hslot : Unused [slot] s) :
    Always (env.restrict M) I (createEq slot) (fun _ t => Tracked t ∧ ∀ slot' ≠ slot, t.entry slot' = s.entry slot') s := by
  have hother : ∀ (u : State) (f : EqEntry → EqEntry), (∀ slot' ≠ slot, u.entry slot' = s.entry slot') →
      ∀ slot' ≠ slot, (u.modifyEntry slot f).entry slot' = s.entry slot' :=
    fun u f hu slot' hne => (entry_modifyEntry_other f u hne).trans (hu slot' hne)
  unfold createEq
  simp only [bind_eq, pure_eq]
  refine ⟨hI s h.toBefore,fun ok _ => always_ite.mpr ⟨fun _ => ⟨hI s h.toBefore,h,fun _ _ => rfl⟩,fun _ => ?_⟩⟩
  let s₁ := s.modifyEntry slot (fun e => { e with fDesc := true })
  have h₁ : Tracked s₁ := h.modifyEntry slot (fun e _ hv => ⟨hv,rfl⟩)
  have hslot₁ : Unused [slot] s₁ := hslot.modifyEntry (fun _ => rfl)
  have hother₁ := hother s (fun e => { e with fDesc := true }) (fun _ _ => rfl)
  have hexec : Always (env.restrict M) I (exec .createEq 0) (fun reply t =>
      (reply.kr ≠ .success → Tracked t ∧ ∀ slot', t.entry slot' = s₁.entry slot') ∧
      (reply.kr = .success → s₁.isUp = true ∧ t = s₁.submitted .createEq reply.value .success)) s₁ := by
    refine always_exec (hI s₁ h₁.toBefore) (fun reply hk => ⟨fun _ => ⟨h₁,fun _ => rfl⟩,fun hs => absurd hs hk⟩)
      (fun _ kr _ => hI _ (h₁.toBefore.submitted kr)) (fun reply hup => ?_)
    refine ⟨fun hk => ⟨h₁.submitted reply.kr (fun hs => absurd hs hk) hup,fun _ => rfl⟩,fun hk => ⟨hup,?_⟩⟩
    rw [hk]
    rfl
  refine always_modify_bind.mpr ⟨hI s h.toBefore,Always.bind hexec ?_⟩
  rintro reply t hIt ⟨hfail,hok⟩
  refine always_ite.mpr ⟨fun hk => ?_,fun hk => ?_⟩
  · obtain ⟨ht,heq⟩ := hfail hk
    have hothert : ∀ slot' ≠ slot, t.entry slot' = s.entry slot' :=
      fun slot' hne => (heq slot').trans (hother₁ slot' hne)
    by_cases htime : reply.kr = .timeout
    · simp only [if_pos htime]
      exact ⟨hIt,hIt,ht,hothert⟩
    · simp only [if_neg htime]
      have hfree := ht.modifyEntry slot (f := freeEqEntry) (fun e _ hv => ⟨hv,rfl⟩)
      exact ⟨hIt,hI _ hfree.toBefore,hfree,hother t freeEqEntry hothert⟩
  · obtain ⟨hup,rfl⟩ := hok (not_not.mp hk)
    have hset := h₁.createdEq slot hup (hslot₁ slot List.mem_cons_self)
      (f := fun e => { e with eqNumber := reply.value, valid := true }) (fun _ => ⟨rfl,rfl⟩)
    exact ⟨hIt,hI _ hset.toBefore,hset,hother _ _ (fun slot' hne => hother₁ slot' hne)⟩

theorem always_createEqs (hI : Suited I) (slots : List EqId) (hnodup : slots.Nodup) {s : State} (h : Tracked s)
    (hslots : Unused slots s) : Always (env.restrict M) I (createEqs slots)
      (fun _ t => Tracked t ∧ ∀ slot ∉ slots, t.entry slot = s.entry slot) s := by
  induction slots generalizing s with
  | nil => exact ⟨hI s h.toBefore,h,fun _ _ => rfl⟩
  | cons slot slots ih =>
    obtain ⟨hnew,hnodup⟩ := List.nodup_cons.mp hnodup
    have hone : Unused [slot] s := fun slot' hm => hslots slot' (by simp_all)
    refine Always.bind (always_createEq hI h hone) ?_
    rintro kr t hIt ⟨ht,hother⟩
    refine always_ite.mpr ⟨fun _ => ⟨hIt,ht,fun slot' hn => hother slot' (by simp_all)⟩,fun _ => ?_⟩
    have hrest : Unused slots t := by
      refine Unused.entries (fun slot' hm => hslots slot' (List.mem_cons_of_mem slot hm)) (fun slot' hm => hother slot' ?_)
      rintro rfl
      exact hnew hm
    refine (ih hnodup ht hrest).mono ?_
    rintro kr' u - ⟨hu,hother'⟩
    exact ⟨hu,fun slot' hn => (hother' slot' (by simp_all)).trans (hother slot' (by simp_all))⟩

theorem Tracked.newEqs (h : Tracked s) (hlog : eqsOf s.log = []) (eq : EventQueues) :
    Tracked { s with fEQ := some eq } := by
  refine ⟨⟨⟨h.phase,h.before⟩,h.timedOut,h.quarantined,h.pci,fun m hm => ?_⟩,h.initialized,h.enabled,h.up⟩
  rw [show eqsOf _ = [] from hlog] at hm
  cases hm

theorem always_startEqs (hI : Suited I) (h : Tracked s) (hnone : s.fEQ = none) :
    Always (env.restrict M) I startEqs (fun _ t => Tracked t) s := by
  have hlog : eqsOf s.log = [] := eqs_none h.toKnown (fun slot e he => by cases slot <;> simp [State.entry, hnone] at he)
  have h₁ := h.newEqs hlog ⟨[],[]⟩
  have h₂ : Tracked (initEq { s with fEQ := some ⟨[],[]⟩ }) := h₁.newEqs hlog _
  have hasync : Unused [.async 0,.async 1,.async 2] (initEq { s with fEQ := some ⟨[],[]⟩ }) := by
    intro slot hslot
    simp only [List.mem_cons, List.not_mem_nil, or_false] at hslot
    rcases hslot with rfl | rfl | rfl <;> exact ⟨newEqEntry,rfl,rfl⟩
  have hcomp : Unused [.comp 0] (initEq { s with fEQ := some ⟨[],[]⟩ }) := by
    intro slot hslot
    rw [List.mem_singleton.mp hslot]
    exact ⟨newEqEntry,rfl,rfl⟩
  have hinit : Always (env.restrict M) I (allocInit (fun s => { s with fEQ := some ⟨[],[]⟩ }) initEq)
      (fun ok t => Tracked t ∧ (ok = true → t = initEq { s with fEQ := some ⟨[],[]⟩ })) s := by
    refine always_allocInit ⟨hI s h.toBefore,h,?_⟩ ⟨hI _ h₁.toBefore,h₁,?_⟩ ⟨hI _ h₂.toBefore,h₂,fun _ => rfl⟩
    · exact fun hf => by cases hf
    · exact fun hf => by cases hf
  unfold startEqs
  simp only [bind_eq, pure_eq]
  refine Always.bind hinit ?_
  rintro ok t hIt ⟨ht,hok⟩
  refine always_ite.mpr ⟨fun _ => ⟨hIt,ht⟩,fun hk => ?_⟩
  obtain rfl := hok (by simpa using hk)
  refine Always.bind (always_createEqs hI [.async 0,.async 1,.async 2] (by decide) ht hasync) ?_
  rintro async u hIu ⟨hu,hother⟩
  refine always_ite.mpr ⟨fun _ => ⟨hIu,hu⟩,fun _ => ?_⟩
  have hcompu : Unused [.comp 0] u := hcomp.entries (fun slot hs => hother slot (by simp_all))
  exact Always.bind (always_createEqs hI [.comp 0] (by decide) hu hcompu) (fun _ _ hIv hv => ⟨hIv,hv.1⟩)

/-! ## Shutting down -/

/-- The valid entries of the second state are entries of the first. -/
def Fewer (s t : State) : Prop := ∀ slot e, t.entry slot = some e → e.valid = true → s.entry slot = some e

theorem Fewer.noEqs (hf : Fewer s t) (h : NoEqs s) : NoEqs t := by
  intro slot e he
  cases hv : e.valid with
  | false => rfl
  | true => rw [← h slot e (hf slot e he hv), hv]

theorem fewer_modifyEntry (slot : EqId) {f : EqEntry → EqEntry} (hf : ∀ e, (f e).valid = false) (s : State) :
    Fewer s (s.modifyEntry slot f) := by
  intro slot' e he hv
  by_cases hs : slot' = slot
  · subst hs
    rw [entry_modifyEntry_self] at he
    obtain ⟨e',-,rfl⟩ := Option.map_eq_some_iff.mp he
    rw [hf e'] at hv
    cases hv
  · rwa [entry_modifyEntry_other f s hs] at he

/-- What destroying the queues of some entries leaves. -/
structure Destroyed (slots : List EqId) (ok : Bool) (s t : State) : Prop where
  tracked : Tracked t
  fStopping : t.fStopping = s.fStopping
  fewer : Fewer s t
  none : ok = true → ∀ slot ∈ slots, ∀ e, t.entry slot = some e → e.valid = false

/-- One entry, and then the others. -/
theorem Destroyed.cons {slot : EqId} {slots : List EqId} {ok : Bool}
    {u : State} (h₁ : Fewer s t) (hstop : t.fStopping = s.fStopping)
    (hone : ok = true → ∀ e, t.entry slot = some e → e.valid = false) (h₂ : Destroyed slots ok t u) :
    Destroyed (slot :: slots) ok s u := by
  refine ⟨h₂.tracked,h₂.fStopping.trans hstop,fun slot' e he hv => h₁ slot' e (h₂.fewer slot' e he hv) hv,?_⟩
  intro hok slot' hm e he
  rcases List.mem_cons.mp hm with rfl | hm
  · cases hv : e.valid with
    | false => rfl
    | true => rw [← hone hok e (h₂.fewer slot' e he hv), hv]
  · exact h₂.none hok slot' hm e he

theorem always_destroyEqs (hI : Suited I) (slots : List EqId) (b : Bool) {s : State} (h : Tracked s) :
    Always (env.restrict M) I (destroyEqs slots b) (fun ok t => Destroyed slots ok s t ∧ (ok = true → b = true)) s := by
  induction slots generalizing b s with
  | nil => exact ⟨hI s h.toBefore,⟨h,rfl,fun _ _ he _ => he,fun _ _ hm => by cases hm⟩,id⟩
  | cons slot slots ih =>
    have hsame : Fewer s s := fun _ _ he _ => he
    have hskip : ∀ (t : State), Tracked t → Fewer s t → t.fStopping = s.fStopping →
      Always (env.restrict M) I (destroyEqs slots false)
        (fun ok t => Destroyed (slot :: slots) ok s t ∧ (ok = true → b = true)) t := by
      intro t ht hfewer hstop
      refine (ih false ht).mono ?_
      rintro ok u - ⟨hd,hb⟩
      exact ⟨Destroyed.cons hfewer hstop (fun hok => by cases hb hok) hd,fun hok => by cases hb hok⟩
    have hgo : ∀ (t : State), Tracked t → Fewer s t → t.fStopping = s.fStopping →
      (∀ e, t.entry slot = some e → e.valid = false) →
        Always (env.restrict M) I (destroyEqs slots b)
        (fun ok t => Destroyed (slot :: slots) ok s t ∧ (ok = true → b = true)) t := by
      intro t ht hfewer hstop hone
      refine (ih b ht).mono ?_
      rintro ok u - ⟨hd,hb⟩
      exact ⟨Destroyed.cons hfewer hstop (fun _ => hone) hd,hb⟩
    unfold destroyEqs
    simp only [bind_eq]
    refine always_bind.mpr ⟨hI s h.toBefore,?_⟩
    beta_reduce
    split
    · rename_i hnone
      exact hgo s h hsame rfl (fun e he => by rw [hnone] at he; cases he)
    · rename_i e he
      refine always_ite.mpr ⟨fun hv => ?_,fun hv => ?_⟩
      · have hexec : Always (env.restrict M) I (exec .destroyEq e.eqNumber) (fun reply t =>
            (reply.kr ≠ .success → Tracked t ∧ t.fEQ = s.fEQ ∧ t.fStopping = s.fStopping) ∧
            (reply.kr = .success → s.isUp = true ∧ t = s.submitted .destroyEq e.eqNumber .success)) s := by
          refine always_exec (hI s h.toBefore) (fun reply hk => ⟨fun _ => ⟨h,rfl,rfl⟩,fun hs => absurd hs hk⟩)
            (fun _ kr _ => hI _ (h.toBefore.submitted kr)) (fun reply hup => ?_)
          refine ⟨fun hk => ⟨h.submitted reply.kr (fun hs => absurd hs hk) hup,rfl,rfl⟩,fun hk => ⟨hup,?_⟩⟩
          rw [hk]
          rfl
        refine Always.bind hexec ?_
        rintro reply t hIt ⟨hfail,hok⟩
        refine always_ite.mpr ⟨fun hk => ?_,fun hk => ?_⟩
        · obtain ⟨hup,rfl⟩ := hok hk
          have ht := h.destroyedEq slot (f := fun e => { e with valid := false }) hup he
          refine always_modify_bind.mpr ⟨hIt,hgo _ ht (fewer_modifyEntry slot (fun _ => rfl) _) rfl ?_⟩
          intro e' he'
          rw [entry_modifyEntry_self] at he'
          obtain ⟨e₀,-,rfl⟩ := Option.map_eq_some_iff.mp he'
          rfl
        · obtain ⟨ht,heq,hstop⟩ := hfail hk
          refine hskip t ht (fun slot' e' he' _ => ?_) hstop
          cases slot' <;> simpa only [State.entry, heq] using he'
      · refine hgo s h hsame rfl (fun e' he' => ?_)
        rw [he] at he'
        cases he'
        exact Bool.not_eq_true _ ▸ hv

theorem entry_ids {eq : EventQueues} {slot : EqId} {e : EqEntry} (heq : s.fEQ = some eq) (he : s.entry slot = some e) :
    slot ∈ eq.ids ∧ e ∈ eq.fCompEqs ++ eq.fAsyncEqs := by
  cases slot with
  | async i =>
    have hi : eq.fAsyncEqs[i]? = some e := by simpa [State.entry, heq] using he
    obtain ⟨hlt,-⟩ := List.getElem?_eq_some_iff.mp hi
    exact ⟨by simp [EventQueues.ids, hlt],List.mem_append_right _ (List.mem_of_getElem? hi)⟩
  | comp i =>
    have hi : eq.fCompEqs[i]? = some e := by simpa [State.entry, heq] using he
    obtain ⟨hlt,-⟩ := List.getElem?_eq_some_iff.mp hi
    exact ⟨by simp [EventQueues.ids, hlt],List.mem_append_left _ (List.mem_of_getElem? hi)⟩

/-- Where the event queues were shut down, none is left. -/
theorem always_shutdownEqs (hI : Suited I) (h : Tracked s) : Always (env.restrict M) I shutdownEqs
    (fun ok t => Tracked t ∧ t.fStopping = s.fStopping ∧ (ok = true → NoEqs t)) s := by
  unfold shutdownEqs
  simp only [bind_eq, pure_eq]
  refine always_bind.mpr ⟨hI s h.toBefore,?_⟩
  beta_reduce
  split
  · rename_i hnone
    refine ⟨hI s h.toBefore,h,rfl,fun _ slot e he => ?_⟩
    cases slot <;> simp [State.entry, hnone] at he
  · rename_i eq heq
    unfold shutdown
    simp only [bind_eq, pure_eq]
    refine always_bind.mpr ⟨hI s h.toBefore,always_ite.mpr ⟨fun _ => ?_,fun _ => ?_⟩⟩
    · refine (always_destroyEqs hI eq.ids true h).mono ?_
      rintro ok t - ⟨hd,-⟩
      refine ⟨hd.tracked,hd.fStopping,fun hok slot e he => ?_⟩
      cases hv : e.valid with
      | false => rfl
      | true => rw [← hd.none hok slot (entry_ids heq (hd.fewer slot e he hv)).1 e he, hv]
    · refine ⟨hI s h.toBefore,h,rfl,fun hok slot e he => ?_⟩
      have hall := List.all_eq_true.mp hok e (entry_ids heq he).2
      simpa using hall

theorem always_destroyEqs_none {E : Env State Question Answer} (hI : I s) (hno : NoEqs s) (slots : List EqId) (b : Bool) :
    Always E I (destroyEqs slots b) (fun _ t => t = s) s := by
  induction slots with
  | nil => exact ⟨hI,rfl⟩
  | cons slot slots ih =>
    unfold destroyEqs
    simp only [bind_eq]
    refine always_bind.mpr ⟨hI,?_⟩
    beta_reduce
    split
    · exact ih
    · rename_i e he
      have hv := hno slot e he
      exact always_ite.mpr ⟨fun hv' => absurd (hv.symm.trans hv') (by decide),fun _ => ih⟩

end Calculus
end AppleMCX.PciDriver
