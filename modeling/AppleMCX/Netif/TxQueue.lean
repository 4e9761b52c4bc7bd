import AppleMCX.Hw.Cqe
import AppleMCX.Hw.Wqe
import AppleMCX.Core.Command
import AppleMCX.Interaction.Transition

/-! # The send queue

`outputPacket` with `xmitPacket`, `pollTxCq` and `destroyTxResources`, next to a device
that completes the published WQEs in order. Sections under `fLock` are one step, except
that the device may go on between two CQEs of a poll. A packet is known by the number of
its mbuf.
-/
namespace AppleMCX.TxQueue
open Hw Interaction

def logSqSize : ℕ := 8
def txBufSize : ℕ := 2048

/-- What `xmitPacket` reads of an mbuf chain. -/
structure Packet where
  pkthdrLen : BitVec 32
  chain : List (BitVec 8)
  deriving DecidableEq, Repr

/-- Where a packet stands: `waiting` between the checks without `fLock` and those under it. -/
inductive CallPc
  | absent
  | waiting (p : Packet)
  | stalled
  | dropped
  | sent (n : ℕ)
  deriving DecidableEq, Repr

/-- A WQE slot with its bounce buffer, and the number of the WQE it was last written for. -/
structure Slot where
  wqe : EthTxWqe
  buffer : List (BitVec 8)
  number : ℕ
  deriving DecidableEq, Repr

/-- The next part of `destroyTxResources`. -/
inductive DestroyPc
  | sq | cq | tis
  deriving DecidableEq, Repr

structure State where
  fEnabled : Bool
  fDisabling : Bool
  fNotifierRegistered : Bool
  fSqn : Option (BitVec 32)
  fTxCqn : Option (BitVec 32)
  fTisn : Option (BitVec 32)
  fLkey : BitVec 32
  fTxBufDMA : BitVec 64
  fTxBfValid : Bool
  fTxMinInlineMode : BitVec 8
  fTxPc : BitVec 16
  fTxCc : BitVec 16
  fTxCqCc : BitVec 32
  fTxArmSn : BitVec 32
  fWqeMbuf : ℕ → Option ℕ
  slots : ℕ → Slot
  fTxCqBuf : ℕ → Cqe
  /-- The SQ doorbell record, while the ring has one. -/
  sqDb : Option (BitVec 16)
  /-- What was last written to the blue-flame register. -/
  fTxBf : BitVec 32 × BitVec 32
  cqDb : BitVec 24
  cqArm : BitVec 32
  /-- `fLock` is held by a poll. -/
  polling : Bool
  destroyPc : DestroyPc
  calls : ℕ → CallPc
  freed : List ℕ
  /-- WQEs posted, CQEs written by the device and CQEs consumed, without wraparound. -/
  posted : ℕ
  produced : ℕ
  consumed : ℕ

/-- After `createTxResources` and `enable`. -/
def initial (fSqn fTxCqn fTisn fLkey : BitVec 32) (fTxBufDMA : BitVec 64) (fTxMinInlineMode : BitVec 8) : State where
  fEnabled := true
  fDisabling := false
  fNotifierRegistered := true
  fSqn := some fSqn
  fTxCqn := some fTxCqn
  fTisn := some fTisn
  fLkey
  fTxBufDMA
  fTxBfValid := true
  fTxMinInlineMode
  fTxPc := 0
  fTxCc := 0
  fTxCqCc := 0
  fTxArmSn := 0
  fWqeMbuf := fun _ => none
  slots := fun _ => ⟨.zero,List.replicate txBufSize 0,0⟩
  fTxCqBuf := fun _ => .created
  sqDb := some 0
  fTxBf := (0,0)
  cqDb := 0
  cqArm := 0
  polling := false
  destroyPc := .sq
  calls := fun _ => .absent
  freed := []
  posted := 0
  produced := 0
  consumed := 0

namespace State

def setCall (m : ℕ) (c : CallPc) (s : State) : State := { s with calls := Function.update s.calls m c }

/-- `mbuf_freem`, and `outputPacket` returns success. -/
def drop (m : ℕ) (s : State) : State := { s with freed := s.freed ++ [m] }.setCall m .dropped

/-- `outputPacket` with the checks that `xmitPacket` makes before it takes `fLock`. -/
def output (m : ℕ) (p : Packet) (s : State) : State :=
  if !s.fEnabled ∨ s.fSqn.isNone then s.setCall m .stalled
  else if s.fTxBufDMA = 0 ∨ s.fLkey = 0 ∨ !s.fTxBfValid then s.setCall m .stalled
  else if p.pkthdrLen = 0 then s.drop m
  else if p.pkthdrLen.toNat > txBufSize then s.drop m
  else s.setCall m (.waiting p)

/-- `mbuf_copydata` to the start of a buffer; it fails where the chain is too short. -/
def copydata (p : Packet) (buffer : List (BitVec 8)) : List (BitVec 8) :=
  p.chain.take p.pkthdrLen.toNat ++ buffer.drop (p.chain.take p.pkthdrLen.toNat).length

def inlineLen (s : State) : BitVec 32 := if s.fTxMinInlineMode = 1 then 14 else 0

/-- The cleared WQE with the first word of its control segment. -/
def startWqe (s : State) : EthTxWqe :=
  { EthTxWqe.zero with opmodIdxOpcode := s.fTxPc.setWidth 32 <<< 8 ||| opcodeSend }

/-- The complete WQE for the data in bounce slot `pi`. -/
def finishWqe (pi : ℕ) (p : Packet) (buffer : List (BitVec 8)) (sqn : BitVec 32) (s : State) : EthTxWqe :=
  { s.startWqe with
    qpnDs := sqn <<< 8 ||| (if s.inlineLen = 0 then 3 else 4)
    fmCeSe := ctrlCqUpdate
    inlineHdrSz := s.inlineLen.setWidth 16
    inlineHdrStart := buffer.take s.inlineLen.toNat
    csFlags := 0
    data := ⟨p.pkthdrLen - s.inlineLen,s.fLkey,
      s.fTxBufDMA + BitVec.ofNat 64 (pi * txBufSize) + s.inlineLen.setWidth 64⟩ }

/-- Everything behind the copy: the WQE, the mbuf, the counter and the two doorbells. -/
def post (m pi : ℕ) (wqe : EthTxWqe) (buffer : List (BitVec 8)) (s : State) : State :=
  { s with
    slots := Function.update s.slots pi ⟨wqe,buffer,s.posted⟩
    fWqeMbuf := Function.update s.fWqeMbuf pi (some m)
    fTxPc := s.fTxPc + 1
    sqDb := s.sqDb.map (fun _ => s.fTxPc + 1)
    fTxBf := (wqe.opmodIdxOpcode,wqe.qpnDs)
    posted := s.posted + 1 }.setCall m (.sent s.posted)

/-- The section of `xmitPacket` under `fLock`. -/
def locked (m : ℕ) (p : Packet) (s : State) : State :=
  match s.fSqn with
  | none => s.setCall m .stalled
  | some sqn =>
    if !s.fEnabled ∨ !s.fTxBfValid then s.setCall m .stalled
    else if (s.fTxPc - s.fTxCc).toNat ≥ 2 ^ logSqSize then s.setCall m .stalled
    else
      let pi := (s.fTxPc &&& 255).toNat
      let buffer := copydata p (s.slots pi).buffer
      let written := { s with slots := Function.update s.slots pi ⟨s.startWqe,buffer,s.posted⟩ }
      if p.chain.length < p.pkthdrLen.toNat then written.drop m
      else if s.inlineLen ≠ 0 ∧ p.pkthdrLen < s.inlineLen then written.drop m
      else s.post m pi (s.finishWqe pi p buffer sqn) buffer

/-- One round of the inner loop of `pollTxCq`, without its exit tests. -/
def retireOne (s : State) : State :=
  let ix := (s.fTxCc &&& 255).toNat
  match s.fWqeMbuf ix with
  | some m =>
    { s with
      freed := s.freed ++ [m]
      fWqeMbuf := Function.update s.fWqeMbuf ix none
      fTxCc := s.fTxCc + 1 }
  | none => { s with fTxCc := s.fTxCc + 1 }

/-- The inner loop: at most `fuel` rounds. -/
def retire : ℕ → BitVec 16 → State → State
  | 0, _, s => s
  | fuel + 1, target, s =>
    if s.fTxCc = target ∨ s.retireOne.fTxCc = s.fTxPc then s.retireOne else retire fuel target s.retireOne

theorem retireOne_counters (s : State) : s.retireOne.fTxCc = s.fTxCc + 1 ∧ s.retireOne.fTxPc = s.fTxPc := by
  unfold retireOne
  dsimp only
  split <;> exact ⟨rfl,rfl⟩

/-- 2^16 rounds are enough: one of them meets the target. -/
theorem retire_enough (fuel extra : ℕ) (target : BitVec 16) (s : State) (h : (target - s.fTxCc).toNat < fuel) :
    retire (fuel + extra) target s = retire fuel target s := by
  induction fuel generalizing s with
  | zero => cases h
  | succ fuel ih =>
    rw [Nat.add_right_comm]
    simp only [retire]
    split
    · rfl
    · rename_i hstop
      have hne : target ≠ s.fTxCc := fun he => hstop (Or.inl he.symm)
      refine ih _ ?_
      have hpos : (target - s.fTxCc).toNat ≠ 0 := by
        rw [BitVec.toNat_sub]
        intro h0
        refine hne (BitVec.eq_of_toNat_eq ?_)
        have h₁ := target.isLt
        have h₂ := s.fTxCc.isLt
        omega
      have hnext : (target - s.retireOne.fTxCc).toNat = (target - s.fTxCc).toNat - 1 := by
        rw [(retireOne_counters s).1]
        have h₁ := target.isLt
        have h₂ := s.fTxCc.isLt
        rw [BitVec.toNat_sub] at hpos
        rw [BitVec.toNat_sub, BitVec.toNat_sub, BitVec.toNat_add, show (1 : BitVec 16).toNat = 1 from rfl]
        omega
      omega

def cqe (s : State) : Cqe := s.fTxCqBuf (s.fTxCqCc &&& 255).toNat

/-- One round of the outer loop of `pollTxCq`, or its end with `updateCqConsumer` and `armCq`. -/
def pollCqe (s : State) : State :=
  if s.cqe.ready logSqSize s.fTxCqCc then
    { retire (2 ^ 16) s.cqe.wqeCounter s with fTxCqCc := s.fTxCqCc + 1, consumed := s.consumed + 1 }
  else
    { s with
      cqDb := s.fTxCqCc.setWidth 24
      cqArm := armWord s.fTxArmSn s.fTxCqCc
      polling := false }

def complete (cqe : Cqe) (s : State) : Option State :=
  if s.fSqn.isSome ∧ s.sqDb.isSome ∧ s.sqDb ≠ some (BitVec.ofNat 16 s.produced) ∧
      cqe.Written logSqSize s.produced ∧ cqe.wqeCounter = BitVec.ofNat 16 s.produced then
    some { s with
      fTxCqBuf := Function.update s.fTxCqBuf (s.produced % 2 ^ logSqSize) cqe
      produced := s.produced + 1 }
  else none

/-- The part of `destroyTxResources` behind DESTROY_SQ: the mbufs left in the ring are freed and
the pool, the doorbell record and the blue-flame register go. -/
def releaseSq (s : State) : State :=
  { s with
    fSqn := none
    freed := s.freed ++ (List.range (2 ^ logSqSize)).filterMap s.fWqeMbuf
    fWqeMbuf := fun _ => none
    fTxBufDMA := 0
    sqDb := none
    fTxBfValid := false
    destroyPc := .cq }

/-- `destroyTxResources` up to its next command, which returns `kr`, and what follows it. -/
def destroy (kr : IOReturn) (s : State) : State :=
  match s.destroyPc with
  | .sq => if s.fSqn.isSome ∧ kr ≠ .success then s else s.releaseSq
  | .cq =>
    if s.fTxCqn.isSome ∧ kr ≠ .success then { s with destroyPc := .sq }
    else { s with fTxCqn := none, destroyPc := .tis }
  | .tis =>
    if s.fTisn.isSome ∧ kr ≠ .success then { s with destroyPc := .sq }
    else { s with fTisn := none, fTxPc := 0, fTxCc := 0, fTxCqCc := 0, fTxArmSn := 0, destroyPc := .sq }

end State

inductive Action
  | output (m : ℕ) (p : Packet)
  | locked (m : ℕ)
  | complete (cqe : Cqe)
  /-- A completion event has `pollTxCq` take `fLock`. -/
  | poll
  | pollCqe
  | disable
  /-- The notifier is unregistered and its callbacks have returned. -/
  | synchronize
  | destroy (kr : IOReturn)
  deriving DecidableEq, Repr

namespace State

def step (s : State) : Action → Option State
  | .output m p =>
    match s.calls m with
    | .absent | .stalled => some (s.output m p)
    | _ => none
  | .locked m =>
    match s.calls m with
    | .waiting p => if s.polling then none else some (s.locked m p)
    | _ => none
  | .complete cqe => s.complete cqe
  | .poll =>
    if s.fNotifierRegistered ∧ !s.polling then
      some { s with fTxArmSn := s.fTxArmSn + 1, polling := true }
    else none
  | .pollCqe => if s.polling then some s.pollCqe else none
  | .disable => if s.polling then none else some { s with fEnabled := false, fDisabling := true }
  | .synchronize =>
    if s.fDisabling ∧ !s.polling then some { s with fNotifierRegistered := false } else none
  | .destroy kr =>
    if s.fDisabling ∧ !s.fNotifierRegistered then some (s.destroy kr) else none

end State
end AppleMCX.TxQueue
