import AppleMCX.Netif.TxQueue

/-! # Polling any CQEs

`pollTxCq` on entries with any counters, in any state of the ring. The poll advances `fTxCc` at
least once for every entry, so an entry must not find the ring empty.
-/
namespace AppleMCX.TxQueue
open Hw Interaction
namespace State

/-- The number of counters from `fTxCc` to `fTxPc`. -/
def window (s : State) : ℕ := (s.fTxPc - s.fTxCc).toNat

def mbufAt (s : State) (counter : BitVec 16) : Option ℕ := s.fWqeMbuf (counter &&& 255).toNat

def found (cqe : Cqe) (s : State) : State :=
  { s with fTxCqBuf := Function.update s.fTxCqBuf (s.fTxCqCc &&& 255).toNat cqe }

/-- `pollTxCq` under `fLock`, with the entries that it reads; one that is not ready ends it. -/
def pollTxCq : List Cqe → State → State
  | [], s => s
  | cqe :: cqes, s =>
    if cqe.ready logSqSize s.fTxCqCc then pollTxCq cqes (s.found cqe).pollCqe else (s.found cqe).pollCqe

def handled : List Cqe → BitVec 32 → List Cqe
  | [], _ => []
  | cqe :: cqes, fTxCqCc => if cqe.ready logSqSize fTxCqCc then cqe :: handled cqes (fTxCqCc + 1) else []

/-- How often `retire` increments `fTxCc`. -/
def retireRounds : ℕ → BitVec 16 → State → ℕ
  | 0, _, _ => 0
  | fuel + 1, target, s =>
    if s.fTxCc = target ∨ s.retireOne.fTxCc = s.fTxPc then 1 else retireRounds fuel target s.retireOne + 1

/-- How often `pollTxCq` increments `fTxCc`. -/
def pollRounds : List Cqe → State → ℕ
  | [], _ => 0
  | cqe :: cqes, s =>
    if cqe.ready logSqSize s.fTxCqCc then
      retireRounds (2 ^ 16) cqe.wqeCounter (s.found cqe) + pollRounds cqes (s.found cqe).pollCqe
    else 0

/-! ## What the rounds do -/

/-- After `n` rounds: only mbufs of the first `n` counters have been freed. -/
structure Retired (n : ℕ) (s t : State) : Prop where
  fTxPc : t.fTxPc = s.fTxPc
  fTxCc : t.fTxCc = s.fTxCc + BitVec.ofNat 16 n
  freed : ∃ ms, t.freed = s.freed ++ ms ∧ ∀ m ∈ ms, ∃ i < n, s.mbufAt (s.fTxCc + BitVec.ofNat 16 i) = some m
  mbufs : ∀ j m, t.fWqeMbuf j = some m → s.fWqeMbuf j = some m

variable {s t u : State} {n k : ℕ}

theorem retired_zero (s : State) : Retired 0 s s where
  fTxPc := rfl
  fTxCc := (BitVec.add_zero s.fTxCc).symm
  freed := ⟨[],(List.append_nil _).symm,fun _ hm => absurd hm List.not_mem_nil⟩
  mbufs _ _ h := h

theorem retired_one (s : State) : Retired 1 s s.retireOne := by
  obtain ⟨hcc,hpc⟩ := retireOne_counters s
  refine ⟨hpc,hcc,?_,fun j m hm => ?_⟩
  · cases hmbuf : s.fWqeMbuf (s.fTxCc &&& 255).toNat with
    | none =>
      refine ⟨[],?_,fun m hm => absurd hm List.not_mem_nil⟩
      simp only [retireOne, hmbuf, List.append_nil]
    | some m =>
      refine ⟨[m],?_,fun m' hm' => ⟨0,Nat.zero_lt_one,?_⟩⟩
      · simp only [retireOne, hmbuf]
      · rw [List.mem_singleton.mp hm', mbufAt, BitVec.ofNat_eq_ofNat, BitVec.add_zero]
        exact hmbuf
  · cases hmbuf : s.fWqeMbuf (s.fTxCc &&& 255).toNat with
    | none =>
      simp only [retireOne, hmbuf] at hm
      exact hm
    | some m' =>
      simp only [retireOne, hmbuf, Function.update_apply] at hm
      split at hm
      · cases hm
      · exact hm

theorem Retired.trans (h : Retired n s t) (h' : Retired k t u) : Retired (n + k) s u := by
  obtain ⟨ms,hms,hfrom⟩ := h.freed
  obtain ⟨ms',hms',hfrom'⟩ := h'.freed
  refine ⟨h'.fTxPc.trans h.fTxPc,?_,⟨ms ++ ms',?_,fun m hm => ?_⟩,fun j m hm => h.mbufs j m (h'.mbufs j m hm)⟩
  · rw [h'.fTxCc, h.fTxCc, BitVec.ofNat_add, BitVec.add_assoc]
  · rw [hms', hms, List.append_assoc]
  · rcases List.mem_append.mp hm with hm | hm
    · obtain ⟨i,hi,hmbuf⟩ := hfrom m hm
      exact ⟨i,by omega,hmbuf⟩
    · obtain ⟨i,hi,hmbuf⟩ := hfrom' m hm
      refine ⟨n + i,by omega,?_⟩
      rw [h.fTxCc] at hmbuf
      rw [BitVec.ofNat_add, ← BitVec.add_assoc]
      exact h.mbufs _ m hmbuf

theorem retire_retired (fuel : ℕ) (target : BitVec 16) (s : State) :
    Retired (retireRounds fuel target s) s (retire fuel target s) := by
  induction fuel generalizing s with
  | zero => exact retired_zero s
  | succ fuel ih =>
    unfold retireRounds retire
    split
    · exact retired_one s
    · rw [Nat.add_comm]
      exact (retired_one s).trans (ih s.retireOne)

theorem pollCqe_ready {cqe : Cqe} (h : cqe.ready logSqSize s.fTxCqCc = true) : (s.found cqe).pollCqe =
    { retire (2 ^ 16) cqe.wqeCounter (s.found cqe) with fTxCqCc := s.fTxCqCc + 1, consumed := s.consumed + 1 } := by
  have hcqe : (s.found cqe).cqe = cqe := Function.update_self _ _ _
  have hready : cqe.ready logSqSize (s.found cqe).fTxCqCc = true := h
  rw [State.pollCqe, hcqe, if_pos hready]
  rfl

theorem pollCqe_retired {cqe : Cqe} (h : cqe.ready logSqSize s.fTxCqCc = true) :
    Retired (retireRounds (2 ^ 16) cqe.wqeCounter (s.found cqe)) s (s.found cqe).pollCqe := by
  have hretired := retire_retired (2 ^ 16) cqe.wqeCounter (s.found cqe)
  rw [pollCqe_ready h]
  exact ⟨hretired.fTxPc,hretired.fTxCc,hretired.freed,hretired.mbufs⟩

theorem pollCqe_end {cqe : Cqe} (h : ¬ cqe.ready logSqSize s.fTxCqCc = true) : Retired 0 s (s.found cqe).pollCqe := by
  have hcqe : (s.found cqe).cqe = cqe := Function.update_self _ _ _
  have hready : ¬ cqe.ready logSqSize (s.found cqe).fTxCqCc = true := h
  have hzero := retired_zero s
  rw [State.pollCqe, hcqe, if_neg hready]
  exact ⟨hzero.fTxPc,hzero.fTxCc,hzero.freed,hzero.mbufs⟩

theorem pollTxCq_retired (cqes : List Cqe) (s : State) : Retired (pollRounds cqes s) s (pollTxCq cqes s) := by
  induction cqes generalizing s with
  | nil => exact retired_zero s
  | cons cqe cqes ih =>
    unfold pollRounds pollTxCq
    split
    · rename_i hready
      exact (pollCqe_retired hready).trans (ih _)
    · rename_i hready
      exact pollCqe_end hready

/-! ## How many rounds there are -/

theorem distance_succ {x y : BitVec 16} (h : x ≠ y) : (x - y).toNat = (x - (y + 1)).toNat + 1 := by
  have hx := x.isLt
  have hy := y.isLt
  have hne : x.toNat ≠ y.toNat := fun he => h (BitVec.eq_of_toNat_eq he)
  have hone : (1 : BitVec 16).toNat = 1 := rfl
  rw [BitVec.toNat_sub, BitVec.toNat_sub, BitVec.toNat_add, hone]
  omega

/-- A round is the last one at the target, or in front of `fTxPc`. -/
theorem retireRounds_eq (fuel : ℕ) (target : BitVec 16) (s : State) (h : (target - s.fTxCc).toNat < fuel) :
    retireRounds fuel target s = min (target - s.fTxCc).toNat (s.fTxPc - 1 - s.fTxCc).toNat + 1 := by
  induction fuel generalizing s with
  | zero => cases h
  | succ fuel ih =>
    obtain ⟨hcc,hpc⟩ := retireOne_counters s
    have hzero : (0#16).toNat = 0 := rfl
    unfold retireRounds
    rw [hcc]
    split
    · rename_i hstop
      rcases hstop with hstop | hstop
      · rw [hstop, BitVec.sub_self, hzero, Nat.zero_min]
      · rw [← hstop, BitVec.add_sub_cancel, BitVec.sub_self, hzero, Nat.min_zero]
    · rename_i hgo
      have hne : target ≠ s.fTxCc := fun he => hgo (Or.inl he.symm)
      have hne' : s.fTxPc - 1 ≠ s.fTxCc := fun he => hgo (Or.inr (BitVec.sub_eq_iff_eq_add.mp he).symm)
      rw [distance_succ hne] at h ⊢
      rw [distance_succ hne', ih s.retireOne (by rw [hcc]; exact Nat.lt_of_succ_lt_succ h), hcc, hpc, Nat.add_min_add_right]

/-- The counters that the handled entries name, from `fTxCc` on. -/
def offsets (cqes : List Cqe) (s : State) : List ℕ :=
  (handled cqes s.fTxCqCc).map (fun cqe => (cqe.wqeCounter - s.fTxCc).toNat)

/-- The counters but the last one go up and leave one more of the window, and there is a window. -/
def Orderly (c w : ℕ) (offsets : List ℕ) : Prop :=
  offsets = [] ∨ c < w ∧ offsets.dropLast.Pairwise (· < ·) ∧ ∀ o ∈ offsets.dropLast, c ≤ o ∧ o + 1 < w

def advance (c w o : ℕ) : ℕ := if c ≤ o then min (o + 1) w else w

theorem orderly_cons (c w o : ℕ) (os : List ℕ) : Orderly c w (o :: os) ↔ c < w ∧ Orderly (advance c w o) w os := by
  cases os with
  | nil => simp [Orderly]
  | cons o' os =>
    unfold Orderly advance
    rw [List.dropLast_cons_cons, List.pairwise_cons]
    simp only [List.mem_cons, forall_eq_or_imp, reduceCtorEq, false_or]
    constructor
    · rintro ⟨hc,⟨hlt,hup⟩,⟨hco,how⟩,hall⟩
      rw [if_pos hco, Nat.min_eq_left (by omega)]
      exact ⟨hc,how,hup,fun x hx => ⟨hlt x hx,(hall x hx).2⟩⟩
    · rintro ⟨hc,hadvance,hup,hall⟩
      have hco : c ≤ o := by
        by_contra hno
        rw [if_neg hno] at hadvance
        exact Nat.lt_irrefl w hadvance
      rw [if_pos hco] at hadvance hall
      have how : o + 1 < w := by omega
      rw [Nat.min_eq_left (Nat.le_of_lt how)] at hall
      exact ⟨hc,⟨fun x hx => (hall x hx).1,hup⟩,⟨hco,how⟩,fun x hx =>
        ⟨by have hx' := (hall x hx).1; omega,(hall x hx).2⟩⟩

/-- `n` counters of the window are behind `fTxCc`. -/
structure At (base : BitVec 16) (c w : ℕ) (s : State) : Prop where
  fTxCc : s.fTxCc = base + BitVec.ofNat 16 c
  fTxPc : s.fTxPc = base + BitVec.ofNat 16 w
  le : c ≤ w
  lt : w < 2 ^ 16

variable {base : BitVec 16} {c w : ℕ}

theorem At.rounds (h : At base c w s) (target : BitVec 16) (hc : c < w) :
    c + retireRounds (2 ^ 16) target s = advance c w (target - base).toNat := by
  have hb := base.isLt
  have ht := target.isLt
  have hw := h.lt
  have hone : (1 : BitVec 16).toNat = 1 := rfl
  rw [retireRounds_eq (2 ^ 16) target s (target - s.fTxCc).isLt, h.fTxCc, h.fTxPc, advance]
  rw [BitVec.toNat_sub, BitVec.toNat_sub, BitVec.toNat_sub, BitVec.toNat_sub, BitVec.toNat_add, BitVec.toNat_add,
    BitVec.toNat_ofNat, BitVec.toNat_ofNat, hone]
  split <;> omega

theorem pollRounds_le_iff (cqes : List Cqe) (h : At base c w s) : pollRounds cqes s ≤ w - c ↔
    Orderly c w ((handled cqes s.fTxCqCc).map (fun cqe => (cqe.wqeCounter - base).toNat)) := by
  induction cqes generalizing s c with
  | nil => exact iff_of_true (Nat.zero_le _) (Or.inl rfl)
  | cons cqe cqes ih =>
    unfold pollRounds handled
    split
    · rename_i hready
      rw [List.map_cons, orderly_cons]
      by_cases hc : c < w
      · have hfound : At base c w (s.found cqe) := ⟨h.fTxCc,h.fTxPc,h.le,h.lt⟩
        have hrounds := hfound.rounds cqe.wqeCounter hc
        have hretired := pollCqe_retired hready
        have hnext : ((s.found cqe).pollCqe).fTxCqCc = s.fTxCqCc + 1 := by rw [pollCqe_ready hready]
        have hle : advance c w (cqe.wqeCounter - base).toNat ≤ w := by
          unfold advance
          split <;> omega
        have hat : At base (advance c w (cqe.wqeCounter - base).toNat) w (s.found cqe).pollCqe := by
          refine ⟨?_,hretired.fTxPc.trans h.fTxPc,hle,h.lt⟩
          rw [hretired.fTxCc, h.fTxCc, ← hrounds, BitVec.ofNat_add, BitVec.add_assoc]
        rw [← hnext, ← ih hat]
        omega
      · refine iff_of_false (fun hle => ?_) (fun hno => hc hno.1)
        have hpos := retireRounds_eq (2 ^ 16) cqe.wqeCounter (s.found cqe) (cqe.wqeCounter - s.fTxCc).isLt
        omega
    · exact iff_of_true (Nat.zero_le _) (Or.inl rfl)

/-- `fTxCc` has not been advanced past `fTxPc`, the window has not grown, and only mbufs of the
counters in the window have been freed. -/
structure SafePoll (cqes : List Cqe) (s : State) : Prop where
  never : pollRounds cqes s ≤ s.window
  window_le : (pollTxCq cqes s).window ≤ s.window
  freed : ∃ ms, (pollTxCq cqes s).freed = s.freed ++ ms ∧
    ∀ m ∈ ms, ∃ i < s.window, s.mbufAt (s.fTxCc + BitVec.ofNat 16 i) = some m

theorem Retired.window (h : Retired n s t) (hn : n ≤ s.window) : t.window = s.window - n := by
  have hc := s.fTxCc.isLt
  have hp := s.fTxPc.isLt
  unfold State.window at *
  rw [h.fTxPc, h.fTxCc]
  rw [BitVec.toNat_sub] at hn ⊢
  rw [BitVec.toNat_sub, BitVec.toNat_add, BitVec.toNat_ofNat]
  omega

theorem safePoll_of_rounds {cqes : List Cqe} (h : pollRounds cqes s ≤ s.window) : SafePoll cqes s := by
  have hretired := pollTxCq_retired cqes s
  obtain ⟨ms,hms,hfrom⟩ := hretired.freed
  refine ⟨h,?_,ms,hms,fun m hm => ?_⟩
  · rw [hretired.window h]
    exact Nat.sub_le _ _
  · obtain ⟨i,hi,hmbuf⟩ := hfrom m hm
    exact ⟨i,by omega,hmbuf⟩

/-- The poll is safe as long as no entry finds the ring empty. -/
theorem pollTxCq_safe_iff (cqes : List Cqe) (s : State) : SafePoll cqes s ↔
    s.offsets cqes = [] ∨ 0 < s.window ∧ (s.offsets cqes).dropLast.Pairwise (· < ·) ∧
      ∀ o ∈ (s.offsets cqes).dropLast, o + 1 < s.window := by
  have hat : At s.fTxCc 0 s.window s := by
    refine ⟨(BitVec.add_zero _).symm,?_,Nat.zero_le _,(s.fTxPc - s.fTxCc).isLt⟩
    rw [State.window, BitVec.ofNat_toNat, BitVec.setWidth_eq, BitVec.add_comm, BitVec.sub_add_cancel]
  have hrounds := pollRounds_le_iff cqes hat
  rw [Nat.sub_zero] at hrounds
  constructor
  · intro h
    rcases hrounds.mp h.never with hnil | ⟨hw,hup,hall⟩
    · exact Or.inl hnil
    · exact Or.inr ⟨hw,hup,fun o ho => (hall o ho).2⟩
  · intro h
    refine safePoll_of_rounds (hrounds.mpr ?_)
    rcases h with hnil | ⟨hw,hup,hall⟩
    · exact Or.inl hnil
    · exact Or.inr ⟨hw,hup,fun o ho => ⟨Nat.zero_le o,hall o ho⟩⟩

/-- An entry finds the ring empty: one round takes `fTxCc` past `fTxPc`. -/
theorem pollTxCq_overrun : ¬ ∀ cqes s, s.window ≤ 256 → SafePoll cqes s := by
  intro h
  have hempty : (initial 0 0 0 0 0 0).window = 0 := by decide
  have hpast : (pollTxCq [⟨0,0,0⟩] (initial 0 0 0 0 0 0)).window = 65535 := by decide +kernel
  have hsafe := (h [⟨0,0,0⟩] (initial 0 0 0 0 0 0) (hempty ▸ Nat.zero_le 256)).window_le
  rw [hempty, hpast] at hsafe
  exact absurd hsafe (by decide)

end State
end AppleMCX.TxQueue
