import AppleMCX.Userclient.Ledger

/-! # Completeness of a client's tables

A client whose calls have all returned has each of its objects in its table once. This fails
where a handle cannot be put back and where an object cannot be destroyed that nobody puts
back: its handle is in no table any more, and nothing can destroy it.
-/
namespace AppleMCX.UserClient
open Interaction

variable {τ ι : Type} [DecidableEq τ] [DecidableEq ι]

namespace State

def Settled (s : State τ ι) : Prop := ∀ i, ∃ kr, (s.calls i).pc = .returned kr

/-- Each object that exists is in its client's table once. -/
structure Complete (s : State τ ι) : Prop where
  firmware : ∀ k, k ≠ .ah → ∀ o ∈ s.fw k, (s.fOwned (o.owner,k)).count o.handle = 1
  -- address handles that share a number have an entry each
  addressHandle : ∀ ctx ∈ s.fTable .ah,
    (s.fOwned (ctx.owner,.ah)).count ctx.handle = (s.objects .ah).count (ctx.owner,ctx.handle)

end State

/-- A handle that a call puts back gets its record, an object that a creation undoes or that a client leaves
is destroyed, and the tables are empty when they are dropped. -/
def Keeps (s : State τ ι) : Action τ ι → Prop
  | .begin _ _ _ => True
  | .run i o =>
    match (s.calls i).pc with
    | .add put _ _ => put ≠ .created → o = .done ∧ s.fRoce (s.calls i).client = true
    | .destroy why k _ => why ≠ .call → k ≠ .ah → o = .done
    | .closeDrop => ∀ k, s.fOwned ((s.calls i).client,k) = []
    | _ => True

instance (s : State τ ι) (a : Action τ ι) : Decidable (Keeps s a) := by
  unfold Keeps
  split
  · infer_instance
  · split <;> infer_instance

namespace State

section Steps
variable {s t : State τ ι} {a : Action τ ι} {i : τ} {o : Outcome}

omit [DecidableEq τ] [DecidableEq ι] in
theorem not_forgets_of_keeps [DecidableEq ι] {pc : Pc} {k : Kind} {h : ℕ}
    (hkeeps : Keeps s (.run i o)) (hpc : (s.calls i).pc = pc)
    (hah : ∀ why h, pc = .destroy why .ah h → (s.fTable .ah).find? (fun ctx => ctx.handle = h) ≠ none) :
    ¬s.Forgets (s.calls i).client o pc k h := by
  intro hforgets
  cases hforgets with
  | add hput hfail =>
    simp only [Keeps, hpc] at hkeeps
    exact hfail (hkeeps hput)
  | destroy hwhy hk ho =>
    simp only [Keeps, hpc] at hkeeps
    cases ho.symm.trans (hkeeps hwhy hk)
  | noContext hwhy hnone => exact hah _ _ rfl hnone

/-- A step that meets the condition forgets nothing. -/
theorem lost_eq [Fintype τ] (hb : s.Balanced .ah) (hown : ∀ i, s.OwnFirst i) (hkeeps : Keeps s a) (h : step s a = some t) :
    t.lost = s.lost := by
  rcases step_cases h with ⟨i,c,req,kr,-,hpc,rfl⟩ | ⟨i,o,rfl,hrun⟩
  · rfl
  have hah : ∀ why h, (s.calls i).pc = .destroy why .ah h → (s.fTable .ah).find? (fun ctx => ctx.handle = h) ≠ none := by
    intro why h hpc
    obtain ⟨ctx,hfind,-,-⟩ := find_context hb (hown i) (by rw [hpc]; rfl)
    rw [hfind]
    exact Option.some_ne_none ctx
  cases run_ran hrun with
  | lose hhand hhand' hwhy => exact absurd hwhy (not_forgets_of_keeps hkeeps rfl hah)
  | drop hpc =>
    simp only [Keeps, hpc] at hkeeps
    funext p
    obtain ⟨c,k⟩ := p
    rw [lost_go]
    by_cases hc : c = (s.calls i).client
    · subst hc
      simp [hkeeps k]
    · simp [hc]
  | pass | create | record | add | take | destroy | remove | change => rfl

theorem lost_mono {p : ι × Kind} {h : ℕ} (hs : step s a = some t) (hmem : h ∈ s.lost p) : h ∈ t.lost p := by
  rcases step_cases hs with ⟨i,c,req,kr,-,hpc,rfl⟩ | ⟨i,o,rfl,hrun⟩
  · exact hmem
  cases run_ran hrun with
  | @lose k' h' pc' hhand hhand' hwhy =>
    rw [lost_go, lost_lose]
    by_cases hp : p = ((s.calls i).client,k')
    · subst hp
      rw [Function.update_self]
      exact List.mem_append_left _ hmem
    · rw [Function.update_of_ne hp]
      exact hmem
  | drop hpc =>
    rw [lost_go]
    simp only
    split
    · exact List.mem_append_left _ hmem
    · exact hmem
  | pass | create | record | add | take | destroy | remove | change => exact hmem

/-- A step that does not meet the condition forgets the handle of an object. -/
theorem lost_of_not_keeps (hkeeps : ¬Keeps s a) (h : step s a = some t) : ∃ p n, n ∈ t.lost p := by
  cases a with
  | begin i c req => exact absurd trivial hkeeps
  | run i o =>
    simp only [step, run] at h
    simp only [Keeps] at hkeeps
    split at hkeeps
    · rename_i put k n hpc
      simp only [hpc] at h
      push Not at hkeeps
      obtain ⟨hput,hfail⟩ := hkeeps
      unfold State.add at h
      rw [if_neg (fun hup => hfail hup.1 hup.2)] at h
      split at h
      · cases h
        exact ⟨((s.calls i).client,k),n,by simp⟩
      · cases h
    · rename_i why k n hpc
      simp only [hpc] at h
      push Not at hkeeps
      obtain ⟨hwhy,hk,ho⟩ := hkeeps
      unfold State.destroy at h
      rw [if_neg hk] at h
      split at h
      · cases h
      cases o with
      | done => contradiction
      | failed =>
        cases h
        exact ⟨((s.calls i).client,k),n,by simp⟩
      | refused | number _ _ => cases h
    · rename_i hpc
      simp only [hpc] at h
      push Not at hkeeps
      obtain ⟨k,hk⟩ := hkeeps
      obtain ⟨n,hn⟩ := List.exists_mem_of_ne_nil _ hk
      cases h
      refine ⟨((s.calls i).client,k),n,?_⟩
      rw [lost_go]
      simp [hn]
    · exact absurd trivial hkeeps

end Steps

section Complete
variable [Fintype τ] {s : State τ ι}

omit [DecidableEq τ] in
/-- Once all calls have returned, what is not in a table has been forgotten. -/
theorem Balanced.settled {k : Kind} (hb : s.Balanced k) (hsettled : s.Settled) (c : ι) (h : ℕ) :
    (s.objects k).count (c,h) = (s.fOwned (c,k)).count h + (s.lost (c,k)).count h := by
  have hnone : tally (Call.held ((c,k),h)) s.calls = 0 := by
    apply tally_eq_zero.mpr
    intro i
    obtain ⟨kr,hpc⟩ := hsettled i
    exact Call.held_none _ (by rw [hpc]; rfl)
  rw [hb c h, hnone]
  rfl

omit [DecidableEq τ] in
theorem complete_of_balanced (hd : s.Distinct) (hb : ∀ k, s.Balanced k) (hsettled : s.Settled) (hlost : ∀ p, s.lost p = []) :
    s.Complete := by
  have hcount : ∀ k c h, (s.fOwned (c,k)).count h = (s.objects k).count (c,h) := by
    intro k c h
    rw [(hb k).settled hsettled, hlost, List.count_nil]
    rfl
  constructor
  · intro k hk o ho
    have hmem : (o.owner,o.handle) ∈ s.objects k := by
      rw [objects_of_ne hk]
      exact List.mem_map_of_mem ho
    have hpos := List.count_pos_iff.mpr hmem
    have hone := hd.count_le (c := o.owner) (h := o.handle) hk
    rw [hcount]
    omega
  · intro ctx _
    exact hcount .ah ctx.owner ctx.handle

omit [DecidableEq τ] in
theorem not_complete_of_lost (hd : s.Distinct) (hb : ∀ k, s.Balanced k) (hsettled : s.Settled) {p : ι × Kind} {h : ℕ}
    (hlost : h ∈ s.lost p) : ¬s.Complete := by
  obtain ⟨c,k⟩ := p
  intro hcomplete
  have hcount := (hb k).settled hsettled c h
  have hpos := List.count_pos_iff.mpr hlost
  have hmem : (c,h) ∈ s.objects k := List.count_pos_iff.mp (by omega)
  by_cases hk : k = .ah
  · subst hk
    obtain ⟨ctx,hctx,hpair⟩ := List.mem_map.mp hmem
    have hall := hcomplete.addressHandle ctx hctx
    rw [(Prod.mk.inj hpair).1, (Prod.mk.inj hpair).2] at hall
    omega
  · have hone := hd.count_le (c := c) (h := h) hk
    rw [objects_of_ne hk] at hmem
    obtain ⟨ob,hob,hpair⟩ := List.mem_map.mp hmem
    have hin := hcomplete.firmware k hk ob hob
    rw [(Prod.mk.inj hpair).1, (Prod.mk.inj hpair).2] at hin
    omega

end Complete

/-! ## Runs of one client -/

section Runs
variable [Fintype τ] {s t : State τ Unit} {Meets : State τ Unit → Action τ Unit → Prop}

omit [DecidableEq τ] [Fintype τ] in
theorem ownFirst_unit (s : State τ Unit) (i : τ) : s.OwnFirst i := fun _ _ _ _ => rfl

/-- With one client the ledger also holds of the address handles. -/
structure Ledger (s : State τ Unit) : Prop where
  distinct : s.Distinct
  balanced : ∀ k, s.Balanced k

omit [DecidableEq τ] in
theorem initial_ledger : Ledger (initial () : State τ Unit) := ⟨initial_distinct (),initial_balanced ()⟩

theorem ledger_reach (hs : s.Ledger) (h : Reach step Meets s t) : t.Ledger := by
  apply h.invariant hs
  intro u a v hu _ hstep
  exact ⟨hu.distinct.step hstep,fun k => (hu.balanced k).step hu.distinct (fun _ => ownFirst_unit u) hstep⟩

omit [Fintype τ] in
theorem lost_reach {p : Unit × Kind} {n : ℕ} (hn : n ∈ s.lost p) (h : Reach step Meets s t) : n ∈ t.lost p := by
  induction h with
  | start => exact hn
  | next _ _ hs ih => exact lost_mono hs ih

theorem keeps_lost (h : Reach step Keeps (initial ()) s) : ∀ p, s.lost p = [] := by
  induction h with
  | start => exact fun _ => rfl
  | next hr hm hs ih =>
    intro p
    rw [lost_eq ((ledger_reach initial_ledger hr).balanced .ah) (ownFirst_unit _) hm hs]
    exact ih p

end Runs

/-- While no call fails to put a handle back or to destroy an object that nobody puts back, each object of the client
is in its table once whenever its calls have returned; after a call that fails so, it never is again. -/
theorem complete_run (τ : Type) [DecidableEq τ] [Fintype τ] :
    (∀ s : State τ Unit, Reach step Keeps (initial ()) s → s.Settled → s.Complete) ∧
    ∀ (s t : State τ Unit) (a : Action τ Unit), Reach step Free (initial ()) s → ¬Keeps s a → step s a = some t →
      ∀ u, Reach step Free t u → u.Settled → ¬u.Complete := by
  constructor
  · intro s hr hsettled
    obtain ⟨hd,hb⟩ := ledger_reach initial_ledger hr
    exact complete_of_balanced hd hb hsettled (keeps_lost hr)
  · intro s t a hr hkeeps hs u hu hsettled
    obtain ⟨hd,hb⟩ := ledger_reach (ledger_reach initial_ledger (hr.next trivial hs)) hu
    obtain ⟨p,n,hn⟩ := lost_of_not_keeps hkeeps hs
    exact not_complete_of_lost hd hb hsettled (lost_reach hn hu)

/-- A region whose `DESTROY_MKEY` fails is back in the table, while a `modifyQP` of the client fails as well. -/
theorem complete_run_putBack : ∃ s : State Bool Unit, Reach step Keeps (initial ()) s ∧ s.fOwned ((),.mr) = [769] ∧
    s.fOwned ((),.qp) = [7] ∧ s.Complete := by
  have hr : Reach step Keeps (initial () : State Bool Unit) _ := reach_of_allMeet
    [.begin false () .regMR,.run false (.number 3 1),.run false .done,.run false .done,
      .begin true () (.createCQ 64),.run true (.number 5 0),.run true .done,.run true .done,.run true .done,
      .begin true () (.createQP ⟨1,5,5⟩),.run true .done,.run true .done,.run true (.number 7 0),
      .run true .done,.run true .done,
      .begin false () (.deregMR 769),.run false .done,
      .begin true () (.modifyQP ⟨7,.rst,.init,1,0⟩),.run true .done,
      .run false .failed,.run true .failed,.run true .done,.run false .done] .start (by decide) rfl
  refine ⟨_,hr,rfl,rfl,(complete_run Bool).1 _ hr ?_⟩
  intro i
  cases i with
  | false => exact ⟨_,rfl⟩
  | true => exact ⟨_,rfl⟩

/-- A region whose `DESTROY_MKEY` fails and whose handle then finds no memory for its record. -/
theorem region_lost : ¬ ∀ s : State Unit Unit, Reach step Free (initial ()) s → s.Settled → s.Complete := by
  intro h
  have hr : Reach step Free (initial () : State Unit Unit) _ := reach_of_after
    [.begin () () .regMR,.run () (.number 3 1),.run () .done,.run () .done,
      .begin () () (.deregMR 769),.run () .done,.run () .failed,.run () .failed] .start rfl
  have hcomplete := h _ hr (fun _ => ⟨.ioError,rfl⟩)
  have hone := hcomplete.firmware .mr (by decide) ⟨769,(),0,0⟩ (by decide)
  revert hone
  decide

end State

end AppleMCX.UserClient
