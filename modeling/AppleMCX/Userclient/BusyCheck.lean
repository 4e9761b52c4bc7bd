import AppleMCX.Userclient.Ledger

/-! # The busy check of `destroyCQ`

`destroyCQ` takes the CQ out of the client's table, and goes on to the command if it finds the
table of QPs empty. A QP that a call has in its hand is not in that table, and neither is one
whose creation has already found the CQ.
-/
namespace AppleMCX.UserClient
open Interaction

variable {τ ι : Type} [DecidableEq τ] [DecidableEq ι]

def Object.uses (ob : Object ι) (h : ℕ) : Prop := ob.sendCq = h ∨ ob.recvCq = h

/-- A `createQP` of the client has found the CQ in the table. -/
def State.builds (s : State τ ι) (c : ι) (h : ℕ) : Prop := ∃ j, (s.calls j).client = c ∧ h ∈ (s.calls j).pc.building

/-- Where a `destroyCQ` is about to submit its command, no QP of the client that uses the CQ exists or is being created. -/
def State.NoLiveQp (s : State τ ι) : Prop :=
  ∀ i h, (s.calls i).pc = .destroy .call .cq h →
    (∀ ob ∈ s.fw .qp, ob.owner = (s.calls i).client → ¬ob.uses h) ∧ ¬s.builds (s.calls i).client h

/-- A busy check that finds the table empty misses nothing: no QP that uses the CQ is in the hand of a call or forgotten,
and no creation has found the CQ. -/
def SeesAll (s : State τ ι) : Action τ ι → Prop
  | .begin _ _ _ => True
  | .run i _ => ∀ h, (s.calls i).pc = .count h → s.fOwned ((s.calls i).client,.qp) = [] →
    (∀ ob ∈ s.fw .qp, ob.owner = (s.calls i).client → ob.uses h →
      (∀ j, (s.calls j).client = ob.owner → (s.calls j).pc.hand ≠ some (.qp,ob.handle)) ∧
      ob.handle ∉ s.lost (ob.owner,.qp)) ∧
    ¬s.builds (s.calls i).client h

section Decide

/-- The CQ whose destruction is about to look at the table of QPs. -/
def Pc.counted : Pc → Option ℕ
  | .count h => some h
  | _ => none

theorem Pc.mem_counted {pc : Pc} {h : ℕ} : h ∈ pc.counted ↔ pc = .count h := by
  cases pc <;> simp [counted]

variable [Fintype τ] (s : State τ ι)

instance (c : ι) (h : ℕ) : Decidable (s.builds c h) :=
  inferInstanceAs (Decidable (∃ j, (s.calls j).client = c ∧ h ∈ (s.calls j).pc.building))

instance (ob : Object ι) (h : ℕ) : Decidable (ob.uses h) := inferInstanceAs (Decidable (ob.sendCq = h ∨ ob.recvCq = h))

instance : (a : Action τ ι) → Decidable (SeesAll s a)
  | .begin _ _ _ => isTrue trivial
  | .run i _ => decidable_of_iff
      (∀ h ∈ (s.calls i).pc.counted, s.fOwned ((s.calls i).client,.qp) = [] →
        (∀ ob ∈ s.fw .qp, ob.owner = (s.calls i).client → ob.uses h →
          (∀ j, (s.calls j).client = ob.owner → (s.calls j).pc.hand ≠ some (.qp,ob.handle)) ∧
            ob.handle ∉ s.lost (ob.owner,.qp)) ∧
        ¬s.builds (s.calls i).client h)
      (by simp only [SeesAll, Pc.mem_counted])

end Decide

namespace State
variable {s t : State τ ι} {i : τ} {o : Outcome} {client : ι}

theorem fw_qp_of_run (h : s.run i o = some t) {ob : Object ι} (hob : ob ∈ t.fw .qp) :
    ob ∈ s.fw .qp ∨ ob.owner = (s.calls i).client ∧ ∀ n, ob.uses n → n ∈ (s.calls i).pc.building := by
  cases run_ran h with
  | @create k args n variant hpc hk ho hfree =>
    rw [fw_go, fw_setFw] at hob
    by_cases hqp : k = .qp
    · subst hqp
      rw [Function.update_self] at hob
      rcases List.mem_append.mp hob with hob | hob
      · exact .inl hob
      · cases List.mem_singleton.mp hob
        refine .inr ⟨rfl,fun n hn => ?_⟩
        rw [hpc]
        rcases hn with rfl | rfl
        · exact List.mem_cons_self
        · exact List.mem_cons_of_mem _ (List.mem_singleton.mpr rfl)
    · rw [Function.update_of_ne (Ne.symm hqp)] at hob
      exact .inl hob
  | @destroy why k n pc' hpc hk hhand' =>
    rw [fw_go, fw_setFw] at hob
    by_cases hqp : k = .qp
    · subst hqp
      rw [Function.update_self] at hob
      exact .inl (List.mem_of_mem_eraseP hob)
    · rw [Function.update_of_ne (Ne.symm hqp)] at hob
      exact .inl hob
  | pass | record | add | lose | take | remove | change | drop => exact .inl hob

/-- While a call has the CQ in its hand, no other creation comes to use it. -/
theorem builds_of_run [Fintype τ] (hs : s.Accounted) (h : s.run i o = some t) {j : τ} (hj : j ≠ i) {n : ℕ}
    (hhand : (s.calls j).pc.hand = some (.cq,n)) (hbuilds : t.builds (s.calls j).client n) :
    s.builds (s.calls j).client n := by
  obtain ⟨l,hclient,hmem⟩ := hbuilds
  rw [run_client h] at hclient
  by_cases hl : l = i
  · subst hl
    rcases (run_edge h).building n hmem with hold | howned
    · exact ⟨l,hclient,hold⟩
    · rw [hclient] at howned
      exact absurd howned (hs.not_owned (by decide) hhand)
  · rw [run_calls_of_ne hl h] at hmem
    exact ⟨l,hclient,hmem⟩

theorem count_run {n : ℕ} (hpc : (s.calls i).pc = .count n) (hempty : s.fOwned ((s.calls i).client,.qp) = [])
    (h : s.run i o = some t) : t = s.go i (.destroy .call .cq n) := by
  simp only [run, hpc, hempty, ne_eq, not_true_eq_false, if_false] at h
  exact (Option.some.inj h).symm

omit [DecidableEq ι] in
theorem builds_go {n m : ℕ} {c : ι} (hpc : (s.calls i).pc = .count n) :
    (s.go i (.destroy .call .cq n)).builds c m ↔ s.builds c m := by
  apply exists_congr
  intro j
  rw [calls_go]
  by_cases hj : j = i
  · subst hj
    simp [hpc, Pc.building]
  · rw [Function.update_of_ne hj]

theorem noLiveQp_run [Fintype τ] (hs : s.Accounted) (hsafe : s.NoLiveQp)
    (hsees : SeesAll s (.run i o)) (h : s.run i o = some t) :
    t.NoLiveQp := by
  intro j n hpc
  rw [run_client h]
  by_cases hj : j = i
  · subst hj
    -- the call has just found the table empty
    obtain ⟨hcount,hempty⟩ := (run_edge h).commits n hpc
    obtain ⟨hqps,hbuilds⟩ := hsees n hcount hempty
    rw [count_run hcount hempty h]
    refine ⟨fun ob hob howner huses => ?_,fun hb => hbuilds ((builds_go hcount).mp hb)⟩
    obtain ⟨hheld,hlost⟩ := hqps ob hob howner huses
    rcases hs.held_or_lost (by decide) hob (by simp [howner, hempty]) with ⟨l,hl,hhand⟩ | hgone
    · exact hheld l hl hhand
    · exact hlost hgone
  · rw [run_calls_of_ne hj h] at hpc
    obtain ⟨hqps,hbuilds⟩ := hsafe j n hpc
    have hhand : (s.calls j).pc.hand = some (.cq,n) := by rw [hpc]; rfl
    refine ⟨fun ob hob howner huses => ?_,fun hb => hbuilds (builds_of_run hs h hj hhand hb)⟩
    rcases fw_qp_of_run h hob with hold | ⟨hnew,hcqs⟩
    · exact hqps ob hold howner huses
    · exact hbuilds ⟨i,hnew.symm.trans howner,hcqs n huses⟩

omit [DecidableEq ι] in
theorem noLiveQp_begun {c : ι} {req : Request} (hsafe : s.NoLiveQp) : (s.begun i c req).NoLiveQp := by
  obtain ⟨hhand,-,hbuilding⟩ := entry_idle s c req
  have hcalls : ∀ j, j ≠ i → (s.begun i c req).calls j = s.calls j := fun j hj => Function.update_of_ne hj _ _
  have hnew : (s.begun i c req).calls i = ⟨c,s.entry c req⟩ := Function.update_self _ _ _
  intro j n hpc
  by_cases hj : j = i
  · subst hj
    rw [hnew] at hpc
    cases (congrArg Pc.hand hpc).symm.trans hhand
  rw [hcalls j hj] at hpc ⊢
  obtain ⟨hqps,hbuilds⟩ := hsafe j n hpc
  refine ⟨hqps,fun hb => hbuilds ?_⟩
  obtain ⟨l,hclient,hmem⟩ := hb
  by_cases hl : l = i
  · subst hl
    rw [hnew, hbuilding] at hmem
    cases hmem
  · rw [hcalls l hl] at hclient hmem
    exact ⟨l,hclient,hmem⟩

/-- A busy check that misses something leads to the command. -/
theorem liveQp_of_missed {a : Action τ ι} (hmissed : ¬SeesAll s a) (h : step s a = some t) : ¬t.NoLiveQp := by
  cases a with
  | begin i c req => exact absurd trivial hmissed
  | run i o =>
    intro hsafe
    apply hmissed
    intro n hpc hempty
    have ht := count_run hpc hempty h
    subst ht
    obtain ⟨hqps,hbuilds⟩ := hsafe i n (go_pc _)
    have hclient : ((s.go i (.destroy .call .cq n)).calls i).client = (s.calls i).client := by simp
    rw [hclient] at hqps hbuilds
    exact ⟨fun ob hob howner huses => absurd huses (hqps ob hob howner),fun hb => hbuilds ((builds_go hpc).mpr hb)⟩

/-- No `destroyCQ` submits its command under a QP that uses the CQ, as long as no busy check misses one;
where one does, the next step of its call is the command. -/
theorem busyCheck_run (τ ι : Type) [DecidableEq τ] [DecidableEq ι] [Fintype τ] (client : ι) :
    (∀ s : State τ ι, Reach step SeesAll (initial client) s → s.NoLiveQp) ∧
    ∀ (s t : State τ ι) (a : Action τ ι), ¬SeesAll s a → step s a = some t → ¬t.NoLiveQp := by
  constructor
  · intro s hr
    induction hr with
    | start =>
      intro i n hpc
      cases hpc
    | next hr hm hs ih =>
      rcases step_cases hs with ⟨i,c,req,kr,rfl,hpc,rfl⟩ | ⟨i,o,rfl,hrun⟩
      · exact noLiveQp_begun ih
      · exact noLiveQp_run (reach_accounted hr) ih hm hrun
  · intro s t a hmissed hs
    exact liveQp_of_missed hmissed hs

/-- A `modifyQP` has a QP that uses another CQ in its hand, and the command may be submitted. -/
theorem busyCheck_run_otherCq : ∃ s : State Bool Unit, Reach step SeesAll (initial ()) s ∧
    (s.calls false).pc = .destroy .call .cq 5 ∧ (s.calls true).pc.hand = some (.qp,7) ∧ s.NoLiveQp := by
  have hr : Reach step SeesAll (initial () : State Bool Unit) _ := reach_of_allMeet
    [.begin false () (.createCQ 64),.begin true () (.createCQ 64),.run false (.number 5 0),.run true (.number 6 0),
      .run false .done,.run false .done,.run false .done,.run true .done,.run true .done,.run true .done,
      .begin false () (.createQP ⟨1,6,6⟩),.run false .done,.run false .done,.run false (.number 7 0),
      .run false .done,.run false .done,
      .begin true () (.modifyQP ⟨7,.rst,.init,1,0⟩),.run true .done,
      .begin false () (.destroyCQ 5),.run false .done,.run false .done] .start (by decide) rfl
  exact ⟨_,hr,rfl,rfl,(busyCheck_run Bool Unit ()).1 _ hr⟩

/-- While a `modifyQP` has the QP in its hand, a `destroyCQ` finds the table of QPs empty. -/
theorem cq_destroyed_under_qp : ¬ ∀ s : State Bool Unit, Reach step Free (initial ()) s → s.NoLiveQp := by
  intro h
  have hr : Reach step Free (initial () : State Bool Unit) _ := reach_of_after
    [.begin false () (.createCQ 64),.run false (.number 5 0),.run false .done,.run false .done,.run false .done,
      .begin false () (.createQP ⟨1,5,5⟩),.run false .done,.run false .done,.run false (.number 7 0),
      .run false .done,.run false .done,
      .begin true () (.modifyQP ⟨7,.rst,.init,1,0⟩),.run true .done,
      .begin false () (.destroyCQ 5),.run false .done,.run false .done] .start rfl
  exact (h _ hr false 5 rfl).1 ⟨7,(),5,5⟩ (by decide) rfl (.inl rfl)

end State

end AppleMCX.UserClient
