import AppleMCX.Interaction.LapRing

/-! # Completion queue entries -/
namespace AppleMCX.Hw
open Interaction

/-- `MlxCqe64`, as far as the Ethernet queues read it. -/
structure Cqe where
  wqeCounter : BitVec 16
  byteCnt : BitVec 32
  opOwn : BitVec 8
  deriving DecidableEq, Repr

def cqeResp : BitVec 8 := 2
def cqeInvalid : BitVec 8 := 15

/-- The word `armCq` stores and rings. -/
def armWord (armSn consumer : BitVec 32) : BitVec 32 := (armSn &&& 3) <<< 28 ||| (consumer &&& 0x00ffffff)

namespace Cqe

def opcode (cqe : Cqe) : BitVec 8 := cqe.opOwn >>> 4

/-- What `cmdCreateCq` fills the ring with. -/
def created : Cqe := ⟨0,0,0xf1⟩

/-- The loop condition of the two poll functions at consumer index `cc`. -/
def ready (logSize : ℕ) (cc : BitVec 32) (cqe : Cqe) : Bool :=
  cqe.opcode ≠ cqeInvalid ∧ (cqe.opOwn &&& 1).toNat = (cc >>> logSize &&& 1).toNat

/-- The device's entry number `p`: a valid opcode and the owner bit of its lap. -/
def Written (logSize p : ℕ) (cqe : Cqe) : Prop := cqe.opcode ≠ cqeInvalid ∧ cqe.opOwn.getLsbD 0 = p.testBit logSize

instance (logSize p : ℕ) (cqe : Cqe) : Decidable (cqe.Written logSize p) := inferInstanceAs (Decidable (_ ∧ _))

theorem ready_iff {logSize : ℕ} (hlog : logSize < 32) (c : ℕ) (cqe : Cqe) :
    cqe.ready logSize (BitVec.ofNat 32 c) = true ↔
      cqe.opcode ≠ cqeInvalid ∧ cqe.opOwn.getLsbD 0 = c.testBit logSize := by
  have howner : (cqe.opOwn &&& 1).toNat = (cqe.opOwn.getLsbD 0).toNat := by
    simpa using shift_and_one (n := 0) cqe.opOwn (by omega)
  have hinj : ∀ a b : Bool, a.toNat = b.toNat ↔ a = b := by decide
  simp only [ready, decide_eq_true_eq, howner, shift_and_one _ hlog, BitVec.getLsbD_ofNat, hlog, decide_true, Bool.true_and, hinj]

theorem created_not_ready (logSize : ℕ) (cc : BitVec 32) : created.ready logSize cc = false := by
  simp [ready, created, opcode, cqeInvalid]

/-- In a ring of 2^`logSize` entries the poll at position `c` stops exactly where the device has
written nothing yet. -/
theorem ready_ring {logSize produced c : ℕ} {Entry : ℕ → Cqe → Prop} {ring : ℕ → Cqe} (hlog : logSize < 32)
    (h : RingWritten (2 ^ logSize) Entry (· = created) ring produced) (hentry : ∀ p cqe, Entry p cqe → cqe.Written logSize p)
    (hc : c ≤ produced) (hlap : produced ≤ c + 2 ^ logSize) :
    (ring (c % 2 ^ logSize)).ready logSize (BitVec.ofNat 32 c) = true ↔ c < produced := by
  refine h.current_iff (C := fun c cqe => cqe.ready logSize (BitVec.ofNat 32 c) = true)
    (fun p c cqe hcqe => ?_) (fun c cqe _ hcqe => ?_) hc hlap
  · rw [ready_iff hlog, ← (hentry p cqe hcqe).2]
    exact and_iff_right (hentry p cqe hcqe).1
  · rw [hcqe, created_not_ready]
    exact Bool.false_ne_true

end Cqe
end AppleMCX.Hw
