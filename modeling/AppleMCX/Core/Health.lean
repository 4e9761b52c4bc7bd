import Mathlib.Data.BitVec
import Mathlib.Tactic.Common

/-! # Health polling

`MlxHealth::check` over the readings of a run, next to what the readings say themselves.
-/
namespace AppleMCX.Health

inductive MlxHealthState
  | ok
  | watchdog
  | recovered
  deriving DecidableEq, Repr

structure Reading where
  health_counter : BitVec 32
  synd : BitVec 8
  ext_synd : BitVec 16
  rfr_severity : BitVec 8

structure MlxHealth where
  fState : MlxHealthState
  fLastCounter : BitVec 32
  fMissCount : BitVec 32
  fSyndrome : BitVec 8
  fExtendedSyndrome : BitVec 16
  fStarted : Bool

namespace MlxHealth

def init : MlxHealth := ⟨.ok,0,0,0,0,false⟩

/-- `start`, with the counter that it reads. -/
def start (counter : BitVec 32) (s : MlxHealth) : MlxHealth :=
  { s with fStarted := true, fLastCounter := counter, fMissCount := 0 }

/-- The first half of `check`, with the reasons that it calls `enterDmaQuarantine` by. The syndrome is
that of the poll before. -/
def checkCounter (r : Reading) (s : MlxHealth) : List (BitVec 32) × MlxHealth :=
  if s.fStarted ∧ r.health_counter = s.fLastCounter then
    let s := { s with fMissCount := s.fMissCount + 1 }
    if s.fMissCount ≥ 3 then ([s.fSyndrome.setWidth 32],{ s with fState := .watchdog }) else ([],s)
  else ([],{ s with fMissCount := 0, fState := .ok })

def checkSyndrome (r : Reading) (s : MlxHealth) : List (BitVec 32) × MlxHealth :=
  let s := { s with fSyndrome := r.synd, fExtendedSyndrome := r.ext_synd }
  if s.fSyndrome ≠ 0 ∧ r.rfr_severity &&& 0x80 ≠ 0 then ([s.fSyndrome.setWidth 32],{ s with fState := .watchdog })
    else ([],s)

def check (r : Reading) (s : MlxHealth) : List (BitVec 32) × MlxHealth :=
  let (stall,s) := s.checkCounter r
  let (rfr,s) := s.checkSyndrome r
  (stall ++ rfr,{ s with fLastCounter := r.health_counter })

def isHealthy (s : MlxHealth) : Bool := s.fState = .ok

end MlxHealth

/-! ## Runs -/

/-- The monitor and `fDmaQuarantined` of the driver, which `enterDmaQuarantine` sets. -/
structure Core where
  health : MlxHealth
  fDmaQuarantined : Bool

def poll (r : Reading) (c : Core) : Core :=
  let (reasons,health) := c.health.check r
  ⟨health,c.fDmaQuarantined || !reasons.isEmpty⟩

/-- `start`, and the polls that follow it one after the other. -/
structure Run where
  core : Core
  counter : BitVec 32
  readings : ℕ → Reading

namespace Run
variable (run : Run)

def state : ℕ → Core
  | 0 => ⟨run.core.health.start run.counter,run.core.fDmaQuarantined⟩
  | i + 1 => poll (run.readings i) (state i)

def reasons (i : ℕ) : List (BitVec 32) := ((run.state i).health.check (run.readings i)).1

def healthy (i : ℕ) : Bool := (run.state (i + 1)).health.isHealthy

/-! ## What the readings say -/

def lastCounter : ℕ → BitVec 32
  | 0 => run.counter
  | i + 1 => (run.readings i).health_counter

/-- How many of the first `n` polls, counted back from the last one, found the counter unchanged. -/
def stalled : ℕ → ℕ
  | 0 => 0
  | i + 1 => if (run.readings i).health_counter = run.lastCounter i then stalled i + 1 else 0

/-- The reading has a syndrome, with the bit that asks for a reset. -/
def Rfr (i : ℕ) : Prop := (run.readings i).synd ≠ 0 ∧ (run.readings i).rfr_severity &&& 0x80 ≠ 0

/-- The counter has not changed in three polls in a row, or the firmware asks for a reset. -/
def Fatal (i : ℕ) : Prop := 3 ≤ run.stalled (i + 1) ∨ run.Rfr i

/-- The verdict agrees with the quarantine in the first `n` polls. -/
structure Consistent (n : ℕ) : Prop where
  quarantine : ∀ i < n, (run.reasons i ≠ [] ↔ run.Fatal i)
  verdict : ∀ i j, i ≤ j → j < n → run.Fatal i → run.healthy j = false

variable {run} {i n : ℕ}

theorem stalled_succ (i : ℕ) : run.stalled (i + 1) =
    if (run.readings i).health_counter = run.lastCounter i then run.stalled i + 1 else 0 := rfl

theorem le_stalled_iff (k n : ℕ) : k ≤ run.stalled n ↔
    k ≤ n ∧ ∀ i, n - k ≤ i → i < n → (run.readings i).health_counter = run.lastCounter i := by
  induction n generalizing k with
  | zero =>
    refine ⟨fun h => ⟨h,fun i _ hi => absurd hi (Nat.not_lt_zero i)⟩,fun h => h.1⟩
  | succ n ih =>
    rw [stalled_succ]
    cases k with
    | zero => exact iff_of_true (Nat.zero_le _) ⟨Nat.zero_le _,fun i hi hlt => absurd hlt (Nat.not_lt.mpr hi)⟩
    | succ k =>
      rw [Nat.add_sub_add_right]
      split_ifs with hc
      · rw [Nat.succ_le_succ_iff, ih k, Nat.succ_le_succ_iff]
        refine and_congr_right (fun _ => ⟨fun h i hi hlt => ?_,fun h i hi hlt => h i hi (by omega)⟩)
        by_cases hlast : i = n
        · rw [hlast]
          exact hc
        · exact h i hi (by omega)
      · refine iff_of_false (by omega) (fun h => hc (h.2 n ?_ (by omega)))
        omega

/-! ## One poll -/

/-- What the monitor remembers in front of poll `i`. -/
structure Remembers (run : Run) (i : ℕ) (s : MlxHealth) : Prop where
  started : s.fStarted = true
  last : s.fLastCounter = run.lastCounter i
  misses : s.fMissCount.toNat = run.stalled i % 2 ^ 32

/-- The miss counter has reached the threshold at poll `i`. It wraps. -/
def Missed (run : Run) (i : ℕ) : Prop := 3 ≤ run.stalled (i + 1) % 2 ^ 32

theorem three_le_iff (x : BitVec 32) : x ≥ 3 ↔ 3 ≤ x.toNat := by
  rw [ge_iff_le, BitVec.le_def]
  exact Iff.rfl

structure Counted (run : Run) (i : ℕ) (s t : MlxHealth) (reasons : List (BitVec 32)) : Prop where
  started : t.fStarted = true
  misses : t.fMissCount.toNat = run.stalled (i + 1) % 2 ^ 32
  reasons : reasons ≠ [] ↔ run.Missed i
  missed : run.Missed i → t.fState = .watchdog
  moved : run.stalled (i + 1) = 0 → t.fState = .ok
  kept : ¬ run.Missed i → run.stalled (i + 1) ≠ 0 → t.fState = s.fState

theorem Remembers.checkCounter {s : MlxHealth} (h : Remembers run i s) :
    Counted run i s (s.checkCounter (run.readings i)).2 (s.checkCounter (run.readings i)).1 := by
  obtain ⟨hstarted,hlast,hmisses⟩ := h
  unfold MlxHealth.checkCounter
  by_cases hc : (run.readings i).health_counter = run.lastCounter i
  · have hstall : run.stalled (i + 1) = run.stalled i + 1 := if_pos hc
    have hmiss : (s.fMissCount + 1).toNat = run.stalled (i + 1) % 2 ^ 32 := by
      rw [BitVec.toNat_add, hmisses, hstall, show (1 : BitVec 32).toNat = 1 from rfl, Nat.mod_add_mod]
    have hthree : s.fMissCount + 1 ≥ 3 ↔ run.Missed i := by
      rw [three_le_iff, hmiss]
      exact Iff.rfl
    rw [if_pos ⟨hstarted,hlast ▸ hc⟩]
    dsimp only
    by_cases hm : run.Missed i
    · rw [if_pos (hthree.mpr hm)]
      exact ⟨hstarted,hmiss,iff_of_true (List.cons_ne_nil _ _) hm,fun _ => rfl,fun h0 => by omega,fun hn => absurd hm hn⟩
    · rw [if_neg (fun h3 => hm (hthree.mp h3))]
      exact ⟨hstarted,hmiss,iff_of_false (fun hne => hne rfl) hm,fun hn => absurd hn hm,fun h0 => by omega,fun _ _ => rfl⟩
  · have hstall : run.stalled (i + 1) = 0 := if_neg hc
    have hm : ¬ run.Missed i := by
      rw [Missed, hstall]
      decide
    rw [if_neg (fun h => hc (hlast ▸ h.2))]
    exact ⟨hstarted,by rw [hstall]; rfl,iff_of_false (fun hne => hne rfl) hm,fun hn => absurd hn hm,fun _ => rfl,
      fun _ h0 => absurd hstall h0⟩

structure Checked (run : Run) (i : ℕ) (s t : MlxHealth) (reasons : List (BitVec 32)) : Prop where
  remembers : Remembers run (i + 1) t
  reasons : reasons ≠ [] ↔ run.Missed i ∨ run.Rfr i
  watchdog : run.Missed i ∨ run.Rfr i → t.fState = .watchdog
  moved : run.stalled (i + 1) = 0 → ¬ run.Rfr i → t.fState = .ok
  kept : ¬ run.Missed i → ¬ run.Rfr i → run.stalled (i + 1) ≠ 0 → t.fState = s.fState

theorem Remembers.check {s : MlxHealth} (h : Remembers run i s) :
    Checked run i s (s.check (run.readings i)).2 (s.check (run.readings i)).1 := by
  obtain ⟨hstarted,hmisses,hreasons,hmissed,hmoved,hkept⟩ := h.checkCounter
  unfold MlxHealth.check
  dsimp only
  by_cases hr : run.Rfr i
  · rw [show MlxHealth.checkSyndrome _ _ = _ from if_pos hr]
    refine ⟨⟨hstarted,rfl,hmisses⟩,iff_of_true ?_ (.inr hr),fun _ => rfl,
      fun _ hn => absurd hr hn,fun _ hn => absurd hr hn⟩
    exact List.append_ne_nil_of_right_ne_nil _ (List.cons_ne_nil _ _)
  · rw [show MlxHealth.checkSyndrome _ _ = _ from if_neg hr]
    dsimp only
    rw [List.append_nil]
    exact ⟨⟨hstarted,rfl,hmisses⟩,hreasons.trans (or_iff_left hr).symm,fun hor => hmissed (hor.resolve_right hr),
      fun h0 _ => hmoved h0,fun hm _ h0 => hkept hm h0⟩

theorem remembers_state (i : ℕ) : Remembers run i (run.state i).health := by
  induction i with
  | zero => exact ⟨rfl,rfl,rfl⟩
  | succ i ih => exact ih.check.remembers

theorem checked (i : ℕ) : Checked run i (run.state i).health (run.state (i + 1)).health (run.reasons i) :=
  (remembers_state i).check

/-! ## The quarantine -/

theorem quarantined_iff (n : ℕ) : (run.state n).fDmaQuarantined = true ↔
    run.core.fDmaQuarantined = true ∨ ∃ i < n, run.reasons i ≠ [] := by
  induction n with
  | zero =>
    refine (or_iff_left ?_).symm
    rintro ⟨i,hi,-⟩
    cases hi
  | succ n ih =>
    have hstep : (run.state (n + 1)).fDmaQuarantined = ((run.state n).fDmaQuarantined || !(run.reasons n).isEmpty) := rfl
    rw [hstep, Bool.or_eq_true, ih, Bool.not_eq_true', List.isEmpty_eq_false_iff, or_assoc, Nat.exists_lt_succ_right]

/-! ## The verdict -/

theorem healthy_eq_false_iff (i : ℕ) : run.healthy i = false ↔ (run.state (i + 1)).health.fState ≠ .ok :=
  decide_eq_false_iff_not

/-- A counter that goes on where the firmware does not ask for a reset. -/
def Recovers (run : Run) (i : ℕ) : Prop := run.stalled (i + 1) = 0 ∧ ¬ run.Rfr i

theorem healthy_of_recovers (h : run.Recovers i) : run.healthy i = true := decide_eq_true ((checked i).moved h.1 h.2)

/-- A poll that does not recover leaves the verdict or makes it worse. -/
theorem not_ok_step {j : ℕ} (h : (run.state j).health.fState ≠ .ok ∨ run.Missed j ∨ run.Rfr j)
    (hrec : ¬ run.Recovers j) :
    (run.state (j + 1)).health.fState ≠ .ok := by
  have hc : Checked run j _ _ _ := checked j
  by_cases hw : run.Missed j ∨ run.Rfr j
  · rw [hc.watchdog hw]
    exact fun h => by cases h
  · obtain ⟨hm,hr⟩ := not_or.mp hw
    rw [hc.kept hm hr (fun h0 => hrec ⟨h0,hr⟩)]
    exact h.resolve_right hw

/-- A stall that the miss counter does not see any more has been fatal before. -/
theorem fatal_before {j : ℕ} (hstall : 3 ≤ run.stalled (j + 1 + 1)) (hm : ¬ run.Missed (j + 1)) : run.Fatal j := by
  rw [Missed, stalled_succ] at hm
  rw [stalled_succ] at hstall
  split_ifs at hm hstall
  · left
    omega
  · cases hstall

theorem not_ok_of_fatal {j : ℕ} (hij : i ≤ j) (hfatal : run.Fatal i) (hrec : ∀ k, i < k → k ≤ j → ¬ run.Recovers k) :
    (run.state (j + 1)).health.fState ≠ .ok := by
  induction j generalizing i with
  | zero =>
    obtain rfl := Nat.le_zero.mp hij
    have hle : ¬ 3 ≤ run.stalled (0 + 1) := fun h => absurd ((le_stalled_iff 3 1).mp h).1 (by decide)
    have hr := hfatal.resolve_left hle
    exact not_ok_step (.inr (.inr hr)) (fun h => h.2 hr)
  | succ j ih =>
    by_cases hi : i ≤ j
    · exact not_ok_step (.inl (ih hi hfatal (fun k hik hkj => hrec k hik (by omega)))) (hrec (j + 1) (by omega) le_rfl)
    · obtain rfl : i = j + 1 := by omega
      rcases hfatal with hstall | hr
      · refine not_ok_step ?_ (fun h => by rw [h.1] at hstall; cases hstall)
        by_cases hm : run.Missed (j + 1)
        · exact .inr (.inl hm)
        · exact .inl (ih le_rfl (fatal_before hstall hm) (fun k hjk hkj => by omega))
      · exact not_ok_step (.inr (.inr hr)) (fun h => h.2 hr)

/-! ## Results -/

/-- A stall that the miss counter sees at every poll from the third one on. -/
def SeesStalls (run : Run) (n : ℕ) : Prop := ∀ i < n, 3 ≤ run.stalled (i + 1) →
    ¬ run.Rfr i → 3 ≤ run.stalled (i + 1) % 2 ^ 32

/-- From a fatal poll on, the counter stays or the firmware asks for a reset. -/
def StaysFatal (run : Run) (n : ℕ) : Prop := ∀ i j, i < j → j < n → run.Fatal i → run.stalled (j + 1) = 0 → run.Rfr j

theorem quarantine_iff : (∀ i < n, (run.reasons i ≠ [] ↔ run.Fatal i)) ↔ SeesStalls run n := by
  refine forall₂_congr (fun i _ => ?_)
  rw [(checked i).reasons, Fatal, Missed]
  constructor
  · intro h hstall hr
    exact (h.mpr (.inl hstall)).resolve_right hr
  · intro h
    constructor
    · exact Or.imp_left (fun hm => hm.trans (Nat.mod_le _ _))
    · rintro (hstall | hr)
      · by_cases hr : run.Rfr i
        · exact .inr hr
        · exact .inl (h hstall hr)
      · exact .inr hr

/-- The quarantine does not end: after `n` polls it is there where one of them was fatal. -/
theorem quarantined_of_seesStalls (h : SeesStalls run n) : (run.state n).fDmaQuarantined = true ↔
    run.core.fDmaQuarantined = true ∨ ∃ i < n, run.Fatal i := by
  rw [quarantined_iff]
  exact or_congr_right (exists_congr (fun i => and_congr_right (fun hi => quarantine_iff.mpr h i hi)))

theorem verdict_iff : (∀ i j, i ≤ j → j < n → run.Fatal i → run.healthy j = false) ↔ StaysFatal run n := by
  constructor
  · intro h i j hij hj hfatal hstall
    by_contra hr
    have hok := healthy_of_recovers ⟨hstall,hr⟩
    rw [h i j hij.le hj hfatal] at hok
    cases hok
  · intro h i j hij hj hfatal
    rw [healthy_eq_false_iff]
    exact not_ok_of_fatal hij hfatal (fun k hik hkj hrec => hrec.2 (h i k hik (hkj.trans_lt hj) hfatal hrec.1))

theorem consistent_iff (run : Run) (n : ℕ) : run.Consistent n ↔ SeesStalls run n ∧ StaysFatal run n := by
  rw [← quarantine_iff, ← verdict_iff]
  exact ⟨fun h => ⟨h.quarantine,h.verdict⟩,fun h => ⟨h.1,h.2⟩⟩

/-- The counter stands still for three polls and goes on at the fourth one. -/
def resumed : Run := ⟨⟨.init,false⟩,7,fun i => ⟨if i < 3 then 7 else 8,0,0,0⟩⟩

/-- Behind the fourth poll `isHealthy` is true, in the quarantine. -/
theorem resumed_not_consistent : ¬ resumed.Consistent 4 ∧ (resumed.state 4).fDmaQuarantined = true := by
  refine ⟨fun h => ?_,by decide⟩
  have hhealthy : resumed.healthy 3 = true := by decide
  rw [h.verdict 2 3 (by decide) (by decide) (.inl (by decide))] at hhealthy
  cases hhealthy

end Run
end AppleMCX.Health
