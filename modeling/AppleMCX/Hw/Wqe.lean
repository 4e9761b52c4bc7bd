import Mathlib.Tactic.Common

/-! # Work queue entries -/
namespace AppleMCX.Hw

structure DataSeg where
  byteCount : BitVec 32
  lkey : BitVec 32
  addr : BitVec 64
  deriving DecidableEq, Repr

/-- `MlxEthTxWqe` with its data segment, as far as `xmitPacket` fills it. -/
structure EthTxWqe where
  opmodIdxOpcode : BitVec 32
  qpnDs : BitVec 32
  fmCeSe : BitVec 8
  inlineHdrSz : BitVec 16
  inlineHdrStart : List (BitVec 8)
  csFlags : BitVec 8
  data : DataSeg
  deriving DecidableEq, Repr

def DataSeg.zero : DataSeg := ⟨0,0,0⟩
def EthTxWqe.zero : EthTxWqe := ⟨0,0,0,0,[],0,.zero⟩

def opcodeSend : BitVec 32 := 0x0a
def ctrlCqUpdate : BitVec 8 := 0x08

end AppleMCX.Hw
