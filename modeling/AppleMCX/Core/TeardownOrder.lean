import AppleMCX.Core.DmaBoundary

/-! # Commands after the bus master is off

`MlxUAR::free` submits FREE_UAR. Of the objects that `cleanup` releases behind the DMA boundary
this is the one whose `free` still talks to the device.
-/
namespace AppleMCX.PciDriver
open Interaction Prog

variable {s t : State} {log : List Event} {op : Opcode} {n : ℕ}

def lateCommands : List Event → List Event
  | [] => []
  | .command op n kr :: log =>
    if .disableBusMaster ∈ log then .command op n kr :: lateCommands log else lateCommands log
  | _ :: log => lateCommands log

theorem lateCommands_before (h : .disableBusMaster ∉ log) : lateCommands log = [] := by
  induction log with
  | nil => rfl
  | cons e log ih =>
    have hlog : .disableBusMaster ∉ log := fun hm => h (List.mem_cons_of_mem e hm)
    cases e with
    | command op n kr => rw [lateCommands, if_neg hlog, ih hlog]
    | _ => exact ih hlog

/-- What is left to stop keeps nothing in doubt. -/
def Drained (s : State) : Prop :=
  NoEqs s ∧ s.fDmaQuarantined = false ∧ s.isQuarantined = false ∧ s.hasOutstandingPages = false

/-- The bus master is found off after a trusted drain only where no boot UAR is valid. -/
def NoBootUar (s : State) : (q : Question) → Answer q → Prop
  | .busMaster, set => (set : Bool) = false → Drained s → s.fUAR.bind Uar.fBootUar = none
  | _, _ => True

def metEnv : Env State Question Answer := env.restrict NoBootUar

theorem logs_noBootUar : Logs NoBootUar (fun log => lateCommands log = []) (fun uar => uar.bind Uar.fBootUar = none) where
  before := fun _ h => lateCommands_before h
  disableBusMaster := fun _ h => h
  readBack := fun _ _ h => h
  crossed := by
    intro s h hmet
    by_cases hpci : s.fPci = true
    · refine hmet hpci rfl ⟨?_,h.notQuarantined.1,h.notQuarantined.2,h.noPages⟩
      intro slot e he
      exact h.noEqs slot e (by cases slot <;> exact he)
    · exact of_not_not (fun hne => hpci (h.pci (h.up (.inr (.inr hne)))))
  released := rfl
  freeUar := by
    intro s index reply hsome hnone
    rw [hnone] at hsome
    cases hsome

/-- The environment in which every command is submitted and succeeds. -/
def submitEnv : Env State Question Answer := env.restrict (fun _ q a => a = answers 0 q)

theorem accepts_freeUar (hup : s.isUp = true) (hq : s.isQuarantined = false) : s.refuses .freeUar = false := by
  unfold State.isUp at hup
  unfold State.isQuarantined at hq
  unfold State.refuses
  cases hcmd : s.fCmd with
  | none =>
    rw [hcmd] at hup
    cases hup
  | some cmd => simp_all

/-- Behind the boundary a valid boot UAR is freed by a command. -/
theorem releaseObjects_late (hb : Boundary s) {index : ℕ} (hu : s.fUAR.bind Uar.fBootUar = some index) :
    Always submitEnv (fun _ => True) releaseObjects (fun _ t => lateCommands t.log ≠ []) s := by
  have hup : s.isUp = true := hb.up (by rw [hu]; exact Option.some_ne_none index)
  have hoff := hb.disabled (hb.pci hup)
  let s₂ : State := { s with phase := .releasing, fFwPages := none, fDMA := false }
  have hno : NoEqs s₂ := by
    intro slot e he
    exact hb.noEqs slot e (by cases slot <;> exact he)
  have hfree : Always submitEnv (fun _ => True) freeEqs
      (fun _ t => t.log = s.log ∧ t.fUAR = s.fUAR ∧ t.fCmd = s.fCmd) s₂ := by
    unfold freeEqs
    simp only [bind_eq, pure_eq]
    refine always_bind.mpr ⟨trivial,?_⟩
    beta_reduce
    split
    · exact ⟨trivial,rfl,rfl,rfl⟩
    · rename_i eq heq
      have hshutdown : Always submitEnv (fun _ => True) (shutdown eq) (fun _ t => t = s₂) s₂ := by
        unfold shutdown
        simp only [bind_eq, pure_eq]
        refine always_bind.mpr ⟨trivial,always_ite.mpr ⟨fun _ => ?_,fun _ => ⟨trivial,rfl⟩⟩⟩
        exact always_destroyEqs_none trivial hno eq.ids true
      refine Always.bind hshutdown ?_
      rintro _ t - rfl
      exact ⟨trivial,trivial,rfl,rfl,rfl⟩
  unfold releaseObjects
  simp only [bind_eq]
  refine always_modify_bind.mpr ⟨trivial,always_modify_bind.mpr ⟨trivial,Always.bind hfree ?_⟩⟩
  rintro _ t - ⟨hlog,huar,hcmd⟩
  have hrefuses : t.refuses .freeUar = false := by
    have hcmd' : t.refuses .freeUar = s.refuses .freeUar := by
      unfold State.refuses
      rw [hcmd]
    exact hcmd'.trans (accepts_freeUar hup hb.isQuarantined)
  have hlate : Always submitEnv (fun _ => True) freeUars (fun _ u => lateCommands u.log ≠ []) t := by
    unfold freeUars exec
    simp only [bind_eq, pure_eq]
    refine always_bind.mpr ⟨trivial,?_⟩
    beta_reduce
    rw [huar, hu]
    refine Always.bind (M := fun _ u => lateCommands u.log ≠ [])
      (always_bind.mpr ⟨trivial,always_ite.mpr ⟨fun hr => ?_,fun _ => ?_⟩⟩) ?_
    · rw [hrefuses] at hr
      cases hr
    · refine ⟨trivial,fun reply ha => ⟨trivial,?_⟩⟩
      obtain rfl : reply = answers 0 (.exec .freeUar index) := ha.2
      have hmem : .disableBusMaster ∈ t.log := hlog ▸ hoff
      show lateCommands (.command .freeUar index .success :: t.log) ≠ []
      rw [lateCommands, if_pos hmem]
      exact List.cons_ne_nil _ _
    · exact fun _ u _ hlate => ⟨trivial,trivial,hlate⟩
  exact Always.bind hlate (fun _ u _ hlate => ⟨trivial,trivial,hlate⟩)

/-- No command is submitted after the bus master was disabled in any run in which the boot UAR is not
valid at the boundary, and wherever it is valid there, one can be. -/
theorem teardownOrder_run (s : State) :
    (Passes metEnv Operation.run Operation.Enabled initial s → lateCommands s.log = []) ∧
    (Passes env Operation.run Operation.Enabled initial s → s.phase = .boundary →
      s.fUAR.bind Uar.fBootUar ≠ none → ∃ t, Visits env releaseObjects s t ∧ lateCommands t.log ≠ []) := by
  constructor
  · intro h
    exact (shown_run logs_noBootUar h).1
  · intro h hs hu
    obtain ⟨index,hindex⟩ := Option.ne_none_iff_exists'.mp hu
    have hlate := releaseObjects_late (boundary_run h hs) hindex
    have hr := run_returns (E := submitEnv) (fun _ => answers 0) (fun _ q u => ⟨answers_allowed 0 q u,rfl⟩) releaseObjects 0 s
    exact ⟨_,hr.unrestrict.visits,hlate.returns hr⟩

/-- The device starts, and stopping it frees the boot UAR. -/
theorem freeUar_after_disableBusMaster :
    ¬ ∀ s, Passes env Operation.run Operation.Enabled initial s → lateCommands s.log = [] := by
  intro h
  have hstopped := after_settled (.cleanup 5) started_settled (by decide +kernel : started.phase ≠ .created)
  have hs := h _ (.inl hstopped)
  revert hs
  decide +kernel

end AppleMCX.PciDriver
