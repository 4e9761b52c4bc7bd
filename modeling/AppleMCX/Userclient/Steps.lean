import AppleMCX.Userclient.Ownership

/-! # What one step of a client's call can do

Every step moves one call on, and changes at most one of the client's tables, the device's
table of contexts and the firmware. The handle that a call has in its hand has an object and
is in no table.
-/
namespace AppleMCX.UserClient
open Interaction

variable {τ ι : Type} [DecidableEq τ] [DecidableEq ι]

/-- The object that only the call accounts for. An address handle exists together with its context. -/
def Pc.hand : Pc → Option (Kind × ℕ)
  | .record k h _ => if k = .ah then none else some (k,h)
  | .add _ k h => some (k,h)
  | .count h => some (.cq,h)
  | .destroy _ k h => some (k,h)
  | .remove _ k h => if k = .ah then some (k,h) else none
  | .modify req => some (.qp,req.qpn)
  | _ => none

/-- The number with which the call goes to the firmware or to the table of the device. -/
def Pc.target : Pc → Option (Kind × ℕ)
  | .storeNext h => some (.ah,h.toNat)
  | .record k h _ => some (k,h)
  | .add _ k h => some (k,h)
  | .count h => some (.cq,h)
  | .destroy _ k h => some (k,h)
  | .remove _ k h => some (k,h)
  | .modify req => some (.qp,req.qpn)
  | .update h _ => some (.cq,h)
  | _ => none

/-- The CQs that a `createQP` has found in the client's table. -/
def Pc.building : Pc → List ℕ
  | .checkRecv sendCq _ => [sendCq]
  | .create .qp args => [args.sendCq,args.recvCq]
  | _ => []

theorem Pc.target_of_hand {pc : Pc} {x : Kind × ℕ} (h : pc.hand = some x) : pc.target = some x := by
  cases pc <;> simp_all [hand, target]

section Next
variable (put : Put) (why : Why) (k : Kind) (h : ℕ) (kr : IOReturn)

@[simp] theorem Put.hand_kept : (put.kept k h).hand = none := by
  cases put with
  | created => cases k <;> rfl
  | busy => rfl
  | failed kr => rfl
  | modified kr => rfl

@[simp] theorem Put.target_kept : (put.kept k h).target = none := by
  cases put with
  | created => cases k <;> rfl
  | busy => rfl
  | failed kr => rfl
  | modified kr => rfl

@[simp] theorem Put.building_kept : (put.kept k h).building = [] := by
  cases put with
  | created => cases k <;> rfl
  | busy => rfl
  | failed kr => rfl
  | modified kr => rfl

@[simp] theorem Why.hand_finish : (why.finish k h).hand = none := by
  cases why with
  | call => cases k <;> rfl
  | _ => rfl

@[simp] theorem Why.target_finish : (why.finish k h).target = none := by
  cases why with
  | call => cases k <;> rfl
  | _ => rfl

@[simp] theorem Why.building_finish : (why.finish k h).building = [] := by
  cases why with
  | call => cases k <;> rfl
  | _ => rfl

@[simp] theorem Kind.hand_nextClose : k.nextClose.hand = none := by cases k <;> rfl

@[simp] theorem Kind.target_nextClose : k.nextClose.target = none := by cases k <;> rfl

@[simp] theorem Kind.building_nextClose : k.nextClose.building = [] := by cases k <;> rfl

end Next

namespace State

section Frame
variable (s : State τ ι) (i : τ) (pc : Pc) (c : ι) (k : Kind) (h : ℕ)
    (l : List ℕ) (ctxs : List (Context ι)) (os : List (Object ι))

omit [DecidableEq ι] in
@[simp] theorem fOwned_go : (s.go i pc).fOwned = s.fOwned := rfl

omit [DecidableEq ι] in
@[simp] theorem fTable_go : (s.go i pc).fTable = s.fTable := rfl

omit [DecidableEq ι] in
@[simp] theorem fw_go : (s.go i pc).fw = s.fw := rfl

omit [DecidableEq ι] in
@[simp] theorem lost_go : (s.go i pc).lost = s.lost := rfl

omit [DecidableEq τ] in
@[simp] theorem lost_setOwned : (s.setOwned c k l).lost = s.lost := rfl

omit [DecidableEq τ] in
@[simp] theorem calls_setOwned : (s.setOwned c k l).calls = s.calls := rfl

omit [DecidableEq τ] [DecidableEq ι] in
@[simp] theorem fOwned_setTable : (s.setTable k ctxs).fOwned = s.fOwned := rfl

omit [DecidableEq τ] [DecidableEq ι] in
@[simp] theorem lost_setTable : (s.setTable k ctxs).lost = s.lost := rfl

omit [DecidableEq τ] [DecidableEq ι] in
@[simp] theorem calls_setTable : (s.setTable k ctxs).calls = s.calls := rfl

omit [DecidableEq τ] [DecidableEq ι] in
@[simp] theorem fOwned_setFw : (s.setFw k os).fOwned = s.fOwned := rfl

omit [DecidableEq τ] [DecidableEq ι] in
@[simp] theorem lost_setFw : (s.setFw k os).lost = s.lost := rfl

omit [DecidableEq τ] [DecidableEq ι] in
@[simp] theorem calls_setFw : (s.setFw k os).calls = s.calls := rfl

omit [DecidableEq τ] in
@[simp] theorem fOwned_lose : (s.lose c k h).fOwned = s.fOwned := rfl

omit [DecidableEq τ] in
@[simp] theorem calls_lose : (s.lose c k h).calls = s.calls := rfl

omit [DecidableEq ι] in
@[simp] theorem calls_go : (s.go i pc).calls = Function.update s.calls i ⟨(s.calls i).client,pc⟩ := rfl

omit [DecidableEq τ] in
@[simp] theorem fOwned_setOwned : (s.setOwned c k l).fOwned = Function.update s.fOwned (c,k) l := rfl

omit [DecidableEq τ] [DecidableEq ι] in
@[simp] theorem fTable_setTable : (s.setTable k ctxs).fTable = Function.update s.fTable k ctxs := rfl

omit [DecidableEq τ] [DecidableEq ι] in
@[simp] theorem fw_setFw : (s.setFw k os).fw = Function.update s.fw k os := rfl

omit [DecidableEq τ] in
@[simp] theorem lost_lose : (s.lose c k h).lost = Function.update s.lost (c,k) (s.lost (c,k) ++ [h]) := rfl

end Frame

variable (s : State τ ι) (i : τ)

/-- The handle could not be put back, or its object could not be destroyed and nobody puts the handle back. -/
inductive Forgets (c : ι) (o : Outcome) : Pc → Kind → ℕ → Prop
  | add {put : Put} {k : Kind} {h : ℕ} (hput : put ≠ .created) (hfail : ¬(o = .done ∧ s.fRoce c = true)) :
      Forgets c o (.add put k h) k h
  | destroy {why : Why} {k : Kind} {h : ℕ} (hwhy : why ≠ .call) (hk : k ≠ .ah) (ho : o = .failed) :
      Forgets c o (.destroy why k h) k h
  | noContext {why : Why} {h : ℕ} (hwhy : why ≠ .call) (hnone : (s.fTable .ah).find? (fun ctx => ctx.handle = h) = none) :
      Forgets c o (.destroy why .ah h) .ah h

/-- What a step of a call does to the tables, to the firmware and to the handles that are forgotten. -/
inductive Ran (c : ι) (pc : Pc) (o : Outcome) : State τ ι → Prop
  /-- The call goes on. -/
  | pass (next : BitVec 32) (active : ι → ℕ) {pc' : Pc} (hhand : pc'.hand = pc.hand) :
      Ran c pc o ({ s with fNextHandle := next, fActiveCq := active }.go i pc')
  | create {k : Kind} {args : Args} {n : BitVec 24} {variant : BitVec 8} (hpc : pc = .create k args) (hk : k ≠ .ah)
      (ho : o = .number n variant) (hfree : s.exists? k n.toNat = false) :
      Ran c pc o ((s.setFw k (s.fw k ++ [⟨k.handle n variant,c,args.sendCq,args.recvCq⟩])).go i
        (.record k (k.handle n variant) args.entries))
  | record {k : Kind} {h entries : ℕ} (ctx : Context ι) (hpc : pc = .record k h entries) (hh : ctx.handle = h)
      (hc : ctx.owner = c) : Ran c pc o ((s.setTable k (s.fTable k ++ [ctx])).go i (.add .created k h))
  | add {put : Put} {k : Kind} {h : ℕ} (hpc : pc = .add put k h) (ho : o = .done) (hup : s.fRoce c = true) :
      Ran c pc o ((s.setOwned c k (s.fOwned (c,k) ++ [h])).go i (put.kept k h))
  | lose {k : Kind} {h : ℕ} {pc' : Pc} (hhand : pc.hand = some (k,h)) (hhand' : pc'.hand = none)
      (hwhy : s.Forgets c o pc k h) : Ran c pc o ((s.lose c k h).go i pc')
  | take {k : Kind} {h : ℕ} {pc' : Pc} (hmem : h ∈ s.fOwned (c,k)) (hhand : pc.hand = none)
      (hhand' : pc'.hand = some (k,h)) : Ran c pc o ((s.setOwned c k ((s.fOwned (c,k)).erase h)).go i pc')
  | destroy {why : Why} {k : Kind} {h : ℕ} {pc' : Pc} (hpc : pc = .destroy why k h) (hk : k ≠ .ah)
      (hhand' : pc'.hand = none) :
      Ran c pc o ((s.setFw k ((s.fw k).eraseP (fun o => k.index o.handle = k.index h))).go i pc')
  | remove {k : Kind} {h : ℕ} {pc' : Pc} (htarget : pc.target = some (k,h))
      (hhand : pc.hand = if k = .ah then some (k,h) else none) (hhand' : pc'.hand = none) :
      Ran c pc o ((s.setTable k ((s.fTable k).eraseP (fun ctx => ctx.handle = h))).go i pc')
  | change {k : Kind} {h : ℕ} {f : Context ι → Context ι} {pc' : Pc} (htarget : pc.target = some (k,h))
      (hhand : pc'.hand = pc.hand) (hf : ∀ ctx, (f ctx).handle = ctx.handle ∧ (f ctx).owner = ctx.owner) :
      Ran c pc o ((s.setTable k (modifyFirst (fun ctx => ctx.handle = h) f (s.fTable k))).go i pc')
  | drop (hpc : pc = .closeDrop) :
      Ran c pc o ({ s with
        fRoce := Function.update s.fRoce c false
        fActiveCq := Function.update s.fActiveCq c 0
        fOwned := fun p => if p.1 = c then [] else s.fOwned p
        lost := fun p => if p.1 = c then s.lost p ++ s.fOwned p else s.lost p }.go i (.returned .success))

section Effects
variable {s : State τ ι} {i : τ} {c : ι} {o : Outcome} {t : State τ ι}

theorem Ran.go {pc pc' : Pc} (hhand : pc'.hand = pc.hand) : s.Ran i c pc o (s.go i pc') :=
  Ran.pass s.fNextHandle s.fActiveCq hhand

theorem create_ran {k : Kind} {args : Args} (h : s.create i c o k args = some t) :
    s.Ran i c (.create k args) o t := by
  cases k with
  | ah =>
    cases o <;> cases h <;> exact Ran.go rfl
  | qp | cq | mr =>
    cases o with
    | done => cases h
    | refused | failed => cases h; exact Ran.go rfl
    | number n variant =>
      simp only [create] at h
      split at h
      · cases h
      · cases h
        exact Ran.create rfl (by decide) rfl (by simp_all)

theorem record_ran {k : Kind} {n entries : ℕ} (h : s.record i c o k n entries = some t) :
    s.Ran i c (.record k n entries) o t := by
  cases o with
  | done =>
    cases h
    exact Ran.record _ rfl rfl rfl
  | failed =>
    cases h
    apply Ran.go
    cases k <;> rfl
  | refused | number _ _ => cases h

theorem add_ran {put : Put} {k : Kind} {n : ℕ} (h : s.add i c o put k n = some t) : s.Ran i c (.add put k n) o t := by
  unfold State.add at h
  split at h
  · rename_i hup
    cases h
    exact Ran.add rfl hup.1 hup.2
  rename_i hup
  split at h
  · cases put with
    | created => cases h; exact Ran.go rfl
    | busy | failed _ | modified _ => cases h; exact Ran.lose rfl rfl (.add (by simp) hup)
  · cases h

omit [DecidableEq τ] [DecidableEq ι] in
theorem mem_of_owns {k : Kind} {n : ℕ} (h : s.owns c k n = true) : n ∈ s.fOwned (c,k) := by
  unfold owns at h
  simp only [Bool.and_eq_true, decide_eq_true_eq] at h
  exact h.2

theorem take_ran {k : Kind} {n : ℕ} (h : s.take i c k n = some t) : s.Ran i c (.take k n) o t := by
  unfold State.take at h
  split at h
  · rename_i howns
    cases h
    refine Ran.take (mem_of_owns howns) rfl ?_
    split
    · rename_i hk
      subst hk
      rfl
    · rfl
  · cases h
    exact Ran.go rfl

theorem takeModify_ran {req : ModifyQpReq} (h : s.takeModify i c req = some t) : s.Ran i c (.takeModify req) o t := by
  unfold takeModify at h
  split at h
  · rename_i howns
    cases h
    exact Ran.take (mem_of_owns howns) rfl rfl
  · cases h
    exact Ran.go rfl

theorem destroy_ran {why : Why} {k : Kind} {n : ℕ} (h : s.destroy i c o why k n = some t) :
    s.Ran i c (.destroy why k n) o t := by
  -- a failed `destroy` keeps the handle only if the client asked for it
  have hfailed : ∀ kr, (why ≠ .call → s.Forgets c o (.destroy why k n) k n) →
      s.Ran i c (.destroy why k n) o ((if why = .call then s else s.lose c k n).go i (why.failed kr k n)) := by
    intro kr hwhy
    cases why with
    | call => exact Ran.go rfl
    | rollback | undo | close => exact Ran.lose rfl rfl (hwhy (by simp))
  unfold State.destroy at h
  split at h
  · cases h
  split at h
  · rename_i hk
    subst hk
    split at h
    · cases h
      exact Ran.remove rfl rfl (Why.hand_finish why .ah n)
    · rename_i hnone
      cases h
      refine hfailed _ (fun hwhy => .noContext hwhy ?_)
      simpa using hnone
  rename_i hk
  cases o with
  | done =>
    simp only at h
    split at h
    · cases h
      apply Ran.destroy rfl hk
      split
      · rfl
      · exact if_neg hk
    · cases h
  | failed =>
    cases h
    exact hfailed _ (fun hwhy => .destroy hwhy hk rfl)
  | refused | number _ _ => cases h

theorem remove_ran {why : Why} {k : Kind} {n : ℕ} (h : s.remove i why k n = some t) :
    s.Ran i c (.remove why k n) o t := by
  cases h
  exact Ran.remove rfl rfl (Why.hand_finish why k n)

omit [DecidableEq ι] in
theorem modify_owner (req : ModifyQpReq) (o : Outcome) (ctx : Context ι) :
    (ctx.modify req o).2.handle = ctx.handle ∧ (ctx.modify req o).2.owner = ctx.owner := by
  dsimp only [Context.modify]
  split
  · exact ⟨rfl,rfl⟩
  split
  all_goals
    repeat' split
    all_goals exact ⟨rfl,rfl⟩

omit [DecidableEq ι] in
theorem updateConsumer_owner (consumerIndex : BitVec 32) (ctx : Context ι) :
    (ctx.updateConsumer consumerIndex).2.handle = ctx.handle ∧
    (ctx.updateConsumer consumerIndex).2.owner = ctx.owner := by
  unfold Context.updateConsumer
  split <;> exact ⟨rfl,rfl⟩

theorem modify_ran {req : ModifyQpReq} (h : s.modify i c o req = some t) : s.Ran i c (.modify req) o t := by
  unfold State.modify at h
  split at h
  · cases h
  split at h
  · cases h
    exact Ran.go rfl
  · cases h
    exact Ran.change rfl rfl (modify_owner req o)

theorem updateCqConsumer_ran {n : ℕ} {consumerIndex : BitVec 32} (h : s.updateCqConsumer i c o n consumerIndex = some t) :
    s.Ran i c (.update n consumerIndex) o t := by
  unfold State.updateCqConsumer at h
  split at h
  · cases h
  split at h
  · cases h
    exact Ran.go rfl
  split at h
  · cases h
    exact Ran.go rfl
  · cases h
    exact Ran.change rfl rfl (updateConsumer_owner consumerIndex)

theorem closeTake_ran {k : Kind} (h : s.closeTake i c k = some t) : s.Ran i c (.closeTake k) o t := by
  unfold State.closeTake at h
  split at h
  · cases h
    exact Ran.go (Kind.hand_nextClose k)
  · rename_i n l hl
    cases h
    have hl' : s.fOwned (c,k) = n :: l := by
      split at hl
      · exact hl
      · cases hl
    have htake : s.Ran i c (.closeTake k) o ((s.setOwned c k ((s.fOwned (c,k)).erase n)).go i (.destroy .close k n)) :=
      Ran.take (by simp [hl']) rfl rfl
    simpa [hl'] using htake

theorem run_ran (h : s.run i o = some t) : s.Ran i (s.calls i).client (s.calls i).pc o t := by
  unfold run at h
  cases hpc : (s.calls i).pc with
  | returned kr => simp [hpc] at h
  | checkSend sendCq recvCq =>
    simp only [hpc] at h
    cases h
    apply Ran.go
    split <;> rfl
  | checkRecv sendCq recvCq =>
    simp only [hpc] at h
    cases h
    apply Ran.go
    split <;> rfl
  | create k args =>
    simp only [hpc] at h
    split at h
    · cases h
    · exact create_ran h
  | storeNext n =>
    simp only [hpc] at h
    cases h
    exact Ran.pass _ _ rfl
  | record k n entries => simp only [hpc] at h; exact record_ran h
  | add put k n => simp only [hpc] at h; exact add_ran h
  | activate n =>
    simp only [hpc] at h
    cases h
    exact Ran.pass _ _ rfl
  | take k n => simp only [hpc] at h; exact take_ran h
  | takeModify req => simp only [hpc] at h; exact takeModify_ran h
  | count n =>
    simp only [hpc] at h
    cases h
    apply Ran.go
    split <;> rfl
  | destroy why k n => simp only [hpc] at h; exact destroy_ran h
  | remove why k n => simp only [hpc] at h; exact remove_ran h
  | deactivate n =>
    simp only [hpc] at h
    cases h
    exact Ran.pass _ _ rfl
  | modify req => simp only [hpc] at h; exact modify_ran h
  | checkUpdate n consumerIndex =>
    simp only [hpc] at h
    cases h
    apply Ran.go
    split <;> rfl
  | update n consumerIndex => simp only [hpc] at h; exact updateCqConsumer_ran h
  | closeTake k => simp only [hpc] at h; exact closeTake_ran h
  | closeDrop =>
    simp only [hpc] at h
    cases h
    exact Ran.drop rfl

theorem Ran.calls {pc : Pc} (h : s.Ran i c pc o t) :
    ∃ pc', t.calls = Function.update s.calls i ⟨(s.calls i).client,pc'⟩ := by
  cases h <;> exact ⟨_,rfl⟩

theorem run_calls_of_ne {j : τ} (hj : j ≠ i) (h : s.run i o = some t) : t.calls j = s.calls j := by
  obtain ⟨pc',hcalls⟩ := (run_ran h).calls
  rw [hcalls, Function.update_of_ne hj]

theorem run_client (h : s.run i o = some t) (j : τ) : (t.calls j).client = (s.calls j).client := by
  obtain ⟨pc',hcalls⟩ := (run_ran h).calls
  by_cases hj : j = i
  · subst hj
    rw [hcalls, Function.update_self]
  · rw [hcalls, Function.update_of_ne hj]

end Effects

/-! ## Where a call comes to -/

/-- The number that a step gives to a new object. -/
def given (s : State τ ι) (o : Outcome) : Pc → Option (Kind × ℕ)
  | .create .ah _ => if o = .refused then none else some (.ah,s.fNextHandle.toNat)
  | .create k _ =>
    match o with
    | .number n variant => some (k,k.handle n variant)
    | _ => none
  | _ => none

/-- Where a call comes to by one step: its number is the one it had, one of the table, or given to a new object. -/
structure Edge (s : State τ ι) (c : ι) (o : Outcome) (pc pc' : Pc) : Prop where
  target : ∀ k h, pc'.target = some (k,h) → pc.target = some (k,h) ∨ h ∈ s.fOwned (c,k) ∨ s.given o pc = some (k,h)
  building : ∀ h ∈ pc'.building, h ∈ pc.building ∨ h ∈ s.fOwned (c,.cq)
  commits : ∀ h, pc' = .destroy .call .cq h → pc = .count h ∧ s.fOwned (c,.qp) = []

section Edges
variable {s : State τ ι} {i : τ} {c : ι} {o : Outcome} {t : State τ ι} {pc pc' : Pc}

omit [DecidableEq τ] [DecidableEq ι] in
/-- The call comes to where it has no number any more, or still has the same. -/
theorem Edge.plain (htarget : pc'.target = none ∨ pc'.target = pc.target) (hbuilding : pc'.building = [])
    (hne : ∀ h, pc' ≠ .destroy .call .cq h) : s.Edge c o pc pc' where
  target k h hk := by
    rcases htarget with ht | ht
    · rw [ht] at hk
      cases hk
    · exact .inl (ht.symm.trans hk)
  building h hh := by
    rw [hbuilding] at hh
    cases hh
  commits h hh := absurd hh (hne h)

omit [DecidableEq τ] [DecidableEq ι] in
theorem Edge.taken {k : Kind} {n : ℕ} (hmem : n ∈ s.fOwned (c,k)) (htarget : pc'.target = some (k,n))
    (hbuilding : pc'.building = []) (hne : ∀ h, pc' ≠ .destroy .call .cq h) : s.Edge c o pc pc' where
  target k' h hk := by
    cases htarget.symm.trans hk
    exact .inr (.inl hmem)
  building h hh := by
    rw [hbuilding] at hh
    cases hh
  commits h hh := absurd hh (hne h)

omit [DecidableEq τ] [DecidableEq ι] in
theorem Edge.created (htarget : pc'.target = s.given o pc) (hbuilding : pc'.building = [])
    (hne : ∀ h, pc' ≠ .destroy .call .cq h) : s.Edge c o pc pc' where
  target k h hk := .inr (.inr (htarget.symm.trans hk))
  building h hh := by
    rw [hbuilding] at hh
    cases hh
  commits h hh := absurd hh (hne h)

omit [DecidableEq τ] [DecidableEq ι] in
theorem Edge.returned (kr : IOReturn) : s.Edge c o pc (.returned kr) := Edge.plain (.inl rfl) rfl (by simp)

omit [DecidableEq ι] in
@[simp] theorem go_pc (pc : Pc) : ((s.go i pc).calls i).pc = pc := by simp [State.go]

omit [DecidableEq ι] in
theorem create_edge {k : Kind} {args : Args} (h : s.create i c o k args = some t) :
    s.Edge c o (.create k args) (t.calls i).pc := by
  cases k with
  | ah =>
    cases o with
    | refused => cases h; rw [go_pc]; exact Edge.returned _
    | done | failed | number _ _ => cases h; rw [go_pc]; exact Edge.created rfl rfl (by simp)
  | qp | cq | mr =>
    cases o with
    | done => cases h
    | refused | failed => cases h; rw [go_pc]; exact Edge.returned _
    | number n variant =>
      simp only [create] at h
      split at h
      · cases h
      · cases h
        rw [go_pc]
        exact Edge.created rfl rfl (by simp)

omit [DecidableEq ι] in
theorem record_edge {k : Kind} {n entries : ℕ} (h : s.record i c o k n entries = some t) :
    s.Edge c o (.record k n entries) (t.calls i).pc := by
  cases o with
  | done => cases h; rw [go_pc]; exact Edge.plain (.inr rfl) rfl (by simp)
  | failed =>
    cases h
    rw [go_pc]
    split
    · exact Edge.returned _
    · exact Edge.plain (.inr rfl) rfl (by simp)
  | refused | number _ _ => cases h

theorem add_edge {put : Put} {k : Kind} {n : ℕ} (h : s.add i c o put k n = some t) :
    s.Edge c o (.add put k n) (t.calls i).pc := by
  unfold State.add at h
  split at h
  · cases h
    rw [go_pc]
    exact Edge.plain (.inl (Put.target_kept put k n)) (Put.building_kept put k n) (by cases put <;> cases k <;> simp [Put.kept])
  split at h
  · cases h
    rw [go_pc]
    cases put with
    | created => exact Edge.plain (.inr rfl) rfl (by simp [Put.dropped])
    | busy | failed _ | modified _ => exact Edge.returned _
  · cases h

theorem take_edge {k : Kind} {n : ℕ} (h : s.take i c k n = some t) : s.Edge c o (.take k n) (t.calls i).pc := by
  unfold State.take at h
  split at h
  · rename_i howns
    cases h
    rw [go_pc]
    split
    · rename_i hk
      subst hk
      exact Edge.taken (mem_of_owns howns) rfl rfl (by simp)
    · rename_i hk
      exact Edge.taken (mem_of_owns howns) rfl rfl (by simp [hk])
  · cases h
    rw [go_pc]
    exact Edge.returned _

theorem takeModify_edge {req : ModifyQpReq} (h : s.takeModify i c req = some t) :
    s.Edge c o (.takeModify req) (t.calls i).pc := by
  unfold takeModify at h
  split at h
  · rename_i howns
    cases h
    rw [go_pc]
    exact Edge.taken (mem_of_owns howns) rfl rfl (by simp)
  · cases h
    rw [go_pc]
    exact Edge.returned _

omit [DecidableEq τ] [DecidableEq ι] in
theorem finish_edge (why : Why) (k : Kind) (n : ℕ) : s.Edge c o pc (why.finish k n) :=
  Edge.plain (.inl (Why.target_finish why k n)) (Why.building_finish why k n) (by cases why <;> cases k <;> simp [Why.finish])

theorem destroy_edge {why : Why} {k : Kind} {n : ℕ} (h : s.destroy i c o why k n = some t) :
    s.Edge c o (.destroy why k n) (t.calls i).pc := by
  have hfailed : ∀ kr, s.Edge c o (.destroy why k n) (why.failed kr k n) := by
    intro kr
    cases why with
    | call => exact Edge.plain (.inr rfl) rfl (by simp [Why.failed])
    | rollback | undo => exact Edge.returned _
    | close => exact Edge.plain (.inl rfl) rfl (by simp [Why.failed])
  unfold State.destroy at h
  split at h
  · cases h
  split at h
  · rename_i hk
    subst hk
    split at h
    · cases h; rw [go_pc]; exact finish_edge why .ah n
    · cases h; rw [go_pc]; exact hfailed _
  cases o with
  | done =>
    simp only at h
    split at h
    · cases h
      rw [go_pc]
      split
      · exact Edge.returned _
      · exact Edge.plain (.inr rfl) rfl (by simp)
    · cases h
  | failed => cases h; rw [go_pc]; exact hfailed _
  | refused | number _ _ => cases h

omit [DecidableEq ι] in
theorem modify_edge {req : ModifyQpReq} (h : s.modify i c o req = some t) :
    s.Edge c o (.modify req) (t.calls i).pc := by
  unfold State.modify at h
  split at h
  · cases h
  split at h
  · cases h; rw [go_pc]; exact Edge.plain (.inr rfl) rfl (by simp)
  · cases h; rw [go_pc]; exact Edge.plain (.inr rfl) rfl (by simp)

omit [DecidableEq ι] in
theorem updateCqConsumer_edge {n : ℕ} {consumerIndex : BitVec 32}
    (h : s.updateCqConsumer i c o n consumerIndex = some t) : s.Edge c o (.update n consumerIndex) (t.calls i).pc := by
  unfold State.updateCqConsumer at h
  split at h
  · cases h
  split at h
  · cases h; rw [go_pc]; exact Edge.returned _
  split at h
  · cases h; rw [go_pc]; exact Edge.returned _
  · cases h; rw [go_pc]; exact Edge.returned _

theorem closeTake_edge {k : Kind} (h : s.closeTake i c k = some t) : s.Edge c o (.closeTake k) (t.calls i).pc := by
  unfold State.closeTake at h
  split at h
  · cases h
    rw [go_pc]
    exact Edge.plain (.inl (Kind.target_nextClose k)) (Kind.building_nextClose k) (by cases k <;> simp [Kind.nextClose])
  · rename_i n l hl
    cases h
    rw [go_pc]
    have hmem : n ∈ s.fOwned (c,k) := by
      split at hl
      · rw [hl]
        exact List.mem_cons_self
      · cases hl
    exact Edge.taken hmem rfl rfl (by simp)

/-- Where a step leads. -/
theorem run_edge (h : s.run i o = some t) : s.Edge (s.calls i).client o (s.calls i).pc (t.calls i).pc := by
  unfold run at h
  cases hpc : (s.calls i).pc with
  | returned kr => simp [hpc] at h
  | checkSend sendCq recvCq =>
    simp only [hpc] at h
    cases h
    rw [go_pc]
    split
    · rename_i howns
      refine ⟨by simp [Pc.target],fun n hn => ?_,by simp⟩
      cases List.mem_singleton.mp hn
      exact .inr (mem_of_owns howns)
    · exact Edge.returned _
  | checkRecv sendCq recvCq =>
    simp only [hpc] at h
    cases h
    rw [go_pc]
    split
    · rename_i howns
      refine ⟨by simp [Pc.target],fun n hn => ?_,by simp⟩
      rcases List.mem_cons.mp hn with rfl | hn
      · exact .inl List.mem_cons_self
      · cases List.mem_singleton.mp hn
        exact .inr (mem_of_owns howns)
    · exact Edge.returned _
  | create k args =>
    simp only [hpc] at h
    split at h
    · cases h
    · exact create_edge h
  | storeNext n =>
    simp only [hpc] at h
    cases h
    rw [go_pc]
    exact Edge.plain (.inr rfl) rfl (by simp)
  | record k n entries => simp only [hpc] at h; exact record_edge h
  | add put k n => simp only [hpc] at h; exact add_edge h
  | activate n => simp only [hpc] at h; cases h; rw [go_pc]; exact Edge.returned _
  | take k n => simp only [hpc] at h; exact take_edge h
  | takeModify req => simp only [hpc] at h; exact takeModify_edge h
  | count n =>
    simp only [hpc] at h
    cases h
    rw [go_pc]
    split
    · exact Edge.plain (.inr rfl) rfl (by simp)
    · rename_i hempty
      refine ⟨fun k m hm => .inl hm,by simp [Pc.building],fun m hm => ?_⟩
      cases hm
      exact ⟨rfl,not_not.mp hempty⟩
  | destroy why k n => simp only [hpc] at h; exact destroy_edge h
  | remove why k n => simp only [hpc] at h; cases h; rw [go_pc]; exact finish_edge why k n
  | deactivate n => simp only [hpc] at h; cases h; rw [go_pc]; exact Edge.returned _
  | modify req => simp only [hpc] at h; exact modify_edge h
  | checkUpdate n consumerIndex =>
    simp only [hpc] at h
    cases h
    rw [go_pc]
    split
    · rename_i howns
      exact Edge.taken (mem_of_owns howns) rfl rfl (by simp)
    · exact Edge.returned _
  | update n consumerIndex => simp only [hpc] at h; exact updateCqConsumer_edge h
  | closeTake k => simp only [hpc] at h; exact closeTake_edge h
  | closeDrop => simp only [hpc] at h; cases h; rw [go_pc]; exact Edge.returned _

end Edges

def Idle (pc : Pc) : Prop := pc.hand = none ∧ pc.target = none ∧ pc.building = []

omit [DecidableEq τ] [DecidableEq ι] in
theorem entry_idle (s : State τ ι) (c : ι) (req : Request) : Idle (s.entry c req) := by
  cases req with
  | createQP | createCQ | updateCqConsumer | clientClose =>
    simp only [entry]
    split <;> exact ⟨rfl,rfl,rfl⟩
  | modifyQP | destroyQP | destroyCQ | regMR | deregMR | createAH | destroyAH => exact ⟨rfl,rfl,rfl⟩

def begun (s : State τ ι) (i : τ) (c : ι) (req : Request) : State τ ι :=
  { s with calls := Function.update s.calls i ⟨c,s.entry c req⟩ }

end State

theorem step_cases {s t : State τ ι} {a : Action τ ι} (h : step s a = some t) :
    (∃ i c req kr, a = .begin i c req ∧ (s.calls i).pc = .returned kr ∧ t = s.begun i c req) ∨
      ∃ i o, a = .run i o ∧ s.run i o = some t := by
  cases a with
  | begin i c req =>
    simp only [step] at h
    split at h
    · rename_i kr hpc
      cases h
      exact .inl ⟨i,c,req,kr,rfl,hpc,rfl⟩
    · cases h
  | run i o => exact .inr ⟨i,o,rfl,h⟩

end AppleMCX.UserClient
