import AppleMCX.Hw.IfcHelpers
import Mathlib.Data.BitVec

/-! # Encoders of the safety-critical fields

What `MlxP0Encoding.hpp` writes into the queue pair context. An encoder that refuses leaves a
buffer that is not submitted.
-/
namespace AppleMCX.Hw
open Interaction

/-- `memcpy` to a byte of the buffer. -/
def bytesAt (bitOffset : ℕ) (bytes : List Byte) : List BitField :=
  bytes.mapIdx (fun i b => ⟨bitOffset + 8 * i,8,b.toNat⟩)

/-- What an encoder writes, and `optParamMask`. -/
structure Encoded where
  fields : List BitField
  optParamMask : BitVec 32
  deriving DecidableEq, Repr

/-- `MLX_QPC_PRIMARY_PATH_BIT_OFFSET` -/
def ads : ℕ := 0xc0

structure MlxRocePathFields where
  dmac : Block 6
  dgid : Block 16
  sgidIndex : BitVec 32
  hopLimit : BitVec 8
  trafficClass : BitVec 8
  udpSport : BitVec 16
  pkeyIndex : BitVec 16
  portNum : BitVec 8
  deriving DecidableEq

def mlxLog2PowerOfTwo (value : BitVec 32) : ℕ := Nat.log2 value.toNat

def mlxEncodeRst2InitQpc (pkeyIndex portNum : BitVec 32) : Option Encoded :=
  if pkeyIndex > 0xffff ∨ portNum = 0 ∨ portNum > 0xff then none
  else some ⟨[⟨0x08,8,0⟩,⟨ads + 0x10,16,pkeyIndex.toNat⟩,⟨ads + 0x128,8,portNum.toNat⟩],0⟩

def mlxEncodeRocePrimaryPath (path : MlxRocePathFields) : Option (List BitField) :=
  if path.sgidIndex > 0xff ∨ path.portNum = 0 then none
  else some ([⟨ads + 0x10,16,path.pkeyIndex.toNat⟩,⟨ads + 0x48,8,path.sgidIndex.toNat⟩,
    ⟨ads + 0x58,8,if path.hopLimit ≠ 0 then path.hopLimit.toNat else 64⟩,⟨ads + 0x10a,6,path.trafficClass.toNat >>> 2⟩,
    ⟨ads + 0x110,16,path.udpSport.toNat⟩,⟨ads + 0x121,3,0⟩,⟨ads + 0x128,8,path.portNum.toNat⟩] ++
    bytesAt (ads + 0x80) path.dgid.val ++ bytesAt (ads + 0x130) path.dmac.val)

def rdAtomicInvalid (rdAtomic : BitVec 32) : Bool := rdAtomic > 128 ∨ rdAtomic &&& (rdAtomic - 1) ≠ 0

def mlxEncodeInit2RtrQpc (path : MlxRocePathFields) (destQpn pathMtu rqPsn maxDestRdAtomic : BitVec 32) :
    Option Encoded :=
  if destQpn > 0xffffff ∨ pathMtu = 0 ∨ pathMtu > 5 ∨ rqPsn > 0xffffff ∨ rdAtomicInvalid maxDestRdAtomic then none
  else
    match mlxEncodeRocePrimaryPath path with
    | none => none
    | some primary =>
      let fields := [⟨0x08,8,0⟩,⟨0x40,3,pathMtu.toNat⟩,⟨0xa8,24,destQpn.toNat⟩,⟨0x4a8,24,rqPsn.toNat⟩] ++ primary
      if maxDestRdAtomic ≠ 0 then
        some ⟨fields ++ [⟨0x488,3,mlxLog2PowerOfTwo maxDestRdAtomic⟩,⟨0x490,1,1⟩,⟨0x491,1,1⟩],
          1#32 <<< 1 ||| 1#32 <<< 3⟩
      else some ⟨fields,0⟩

def mlxEncodeRtr2RtsQpc (sqPsn minRnrTimer maxRdAtomic : BitVec 32) : Option Encoded :=
  if sqPsn > 0xffffff ∨ minRnrTimer > 0x1f ∨ rdAtomicInvalid maxRdAtomic then none
  else
    let fields := [⟨0x08,8,0⟩,⟨0x3c8,24,sqPsn.toNat⟩,⟨0x4a3,5,minRnrTimer.toNat⟩]
    if maxRdAtomic ≠ 0 then some ⟨fields ++ [⟨0x388,3,mlxLog2PowerOfTwo maxRdAtomic⟩],1#32 <<< 6⟩
    else some ⟨fields,1#32 <<< 6⟩

/-! ## Pages of a memory region -/

def UINT64_MAX : ℕ := 2 ^ 64 - 1

/-- The page goes to the end of the list unless it stands there. -/
def appendPage (capacity page : ℕ) (pages : List ℕ) : Option (List ℕ) :=
  if pages.getLast? = some page then some pages
  else if pages.length ≥ capacity then none
  else some (pages ++ [page])

/-- A round takes at least one of the `length` bytes. -/
def appendMttLoop (capacity : ℕ) : ℕ → ℕ → ℕ → List ℕ → Bool × List ℕ
  | 0, _, _, pages => (true,pages)
  | fuel + 1, dmaAddress, length, pages =>
    if length = 0 then (true,pages) else
    match appendPage capacity (dmaAddress - dmaAddress % 4096) pages with
    | none => (false,pages)
    | some pages =>
      let step := min (4096 - dmaAddress % 4096) length
      appendMttLoop capacity fuel (dmaAddress + step) (length - step) pages

def mlxAppendMttPages (dmaAddress length capacity : ℕ) (pages : List ℕ) : Bool × List ℕ :=
  if length = 0 ∨ length > UINT64_MAX - dmaAddress then (false,pages)
  else appendMttLoop capacity length dmaAddress length pages

def mlxMttPageCount (startAddress length : ℕ) : ℕ :=
  let pageOffset := startAddress % 4096
  if length = 0 ∨ length > UINT64_MAX - startAddress ∨ length > UINT64_MAX - pageOffset then 0
  else
    let span := pageOffset + length
    span / 4096 + if span % 4096 ≠ 0 then 1 else 0

end AppleMCX.Hw
