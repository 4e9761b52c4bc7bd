import AppleMCX.Interaction.Bytes
import AppleMCX.Netif.TxRing
import Mathlib.Data.List.Induction

/-! # What goes out

The bytes of the WQEs that `xmitPacket` writes, and a device that reads them, gathers the frame
through the mapping of the bounce pool and sends it. Every packet that is posted goes out once, in
order and unchanged.
-/
namespace AppleMCX.TxQueue
open Hw Interaction

/-! ## The bytes of a WQE -/

/-- Where `MlxEthTxWqe` has its data segment: behind the inline header, if there is one. -/
def dataOffset (w : EthTxWqe) : ℕ := if w.inlineHdrSz = 0 then 32 else 48

/-- `MlxWqeDataSeg` -/
def segmentBytes (d : DataSeg) : List Byte :=
  beBytes 4 d.byteCount.toNat ++ (beBytes 4 d.lkey.toNat ++ beBytes 8 d.addr.toNat)

/-- `MlxWqeCtrlSeg`, and `MlxWqeEthSeg` up to the inline header. -/
def headBytes (w : EthTxWqe) : List Byte :=
  beBytes 4 w.opmodIdxOpcode.toNat ++ (beBytes 4 w.qpnDs.toNat ++ ([0,0,0,w.fmCeSe,0,0,0,0] ++
    ([0,0,0,0,w.csFlags,0,0,0,0,0,0,0] ++ beBytes 2 w.inlineHdrSz.toNat)))

/-- The slot of 64 bytes, which was cleared before. -/
def wqeBytes (w : EthTxWqe) : List Byte :=
  headBytes w ++ (w.inlineHdrStart ++ (List.replicate (dataOffset w - (30 + w.inlineHdrStart.length)) 0 ++
    (segmentBytes w.data ++ List.replicate (48 - dataOffset w) 0)))

/-! ## The device -/

/-- What the device finds in a WQE. -/
structure SendRequest where
  opcode : ℕ
  index : ℕ
  sqn : ℕ
  fmCeSe : Byte
  csFlags : Byte
  header : List Byte
  segments : List DataSeg
  deriving DecidableEq, Repr

/-- The number in `n` bytes at `off`. -/
def num (off n : ℕ) (bytes : List Byte) : ℕ := ofBytes (slice off n bytes)

def readSegment (bytes : List Byte) (off : ℕ) : DataSeg :=
  ⟨BitVec.ofNat 32 (num off 4 bytes),BitVec.ofNat 32 (num (off + 4) 4 bytes),BitVec.ofNat 64 (num (off + 8) 8 bytes)⟩

/-- The lower bits of the second word are the size in units of 16 bytes. The inline header begins at byte 30,
and the data segments are the units behind it. -/
def readWqe (bytes : List Byte) : SendRequest :=
  let first := (30 + num 28 2 bytes + 15) / 16
  { opcode := num 0 4 bytes % 256
    index := num 0 4 bytes / 256 % 65536
    sqn := num 4 4 bytes / 256
    fmCeSe := BitVec.ofNat 8 (num 11 1 bytes)
    csFlags := BitVec.ofNat 8 (num 20 1 bytes)
    header := slice 30 (num 28 2 bytes) bytes
    segments := (List.range (num 4 4 bytes % 64 - first)).map (fun i => readSegment bytes (16 * (first + i))) }

namespace State

def dmaByte (s : State) (a : BitVec 64) : Option Byte :=
  let off := (a - s.fTxBufDMA).toNat
  if off < 2 ^ logSqSize * txBufSize then (s.slots (off / txBufSize)).buffer[off % txBufSize]? else none

def gather (s : State) (d : DataSeg) : Option (List Byte) :=
  if d.lkey = s.fLkey then (List.range d.byteCount.toNat).mapM (fun k => s.dmaByte (d.addr + BitVec.ofNat 64 k)) else none

def request (s : State) (n : ℕ) : SendRequest := readWqe (wqeBytes (s.slots (n % 2 ^ logSqSize)).wqe)

/-- The frame that the device gathers for WQE number `n`. -/
def frame (s : State) (n : ℕ) : Option (List Byte) :=
  ((s.request n).segments.mapM s.gather).map (fun parts => (s.request n).header ++ parts.flatten)

end State

/-! ## Reading back -/

theorem num_mid (a c : List Byte) {off n : ℕ} (x : ℕ) (ha : a.length = off) :
    num off n (a ++ (beBytes n x ++ c)) = x % 256 ^ n := by
  rw [num, slice_mid a _ c ha (beBytes_length n x), ofBytes_beBytes]

theorem num_one (a c : List Byte) {off : ℕ} (b : Byte) (ha : a.length = off) :
    num off 1 (a ++ ([b] ++ c)) = b.toNat := by
  have hslice : slice off 1 (a ++ ([b] ++ c)) = [b] := slice_mid a [b] c ha rfl
  rw [num, hslice]
  simp [ofBytes]

theorem headBytes_length (w : EthTxWqe) : (headBytes w).length = 30 := by
  simp [headBytes, beBytes_length]

theorem readSegment_mid (a c : List Byte) (d : DataSeg) {off : ℕ} (ha : a.length = off) :
    readSegment (a ++ (segmentBytes d ++ c)) off = d := by
  have hcount : num off 4 (a ++ (segmentBytes d ++ c)) = d.byteCount.toNat := by
    rw [segmentBytes, List.append_assoc, num_mid a _ _ ha]
    exact Nat.mod_eq_of_lt d.byteCount.isLt
  have hkey : num (off + 4) 4 (a ++ (segmentBytes d ++ c)) = d.lkey.toNat := by
    rw [segmentBytes, List.append_assoc, List.append_assoc, ← List.append_assoc a,
      num_mid _ _ _ (by rw [List.length_append, ha, beBytes_length])]
    exact Nat.mod_eq_of_lt d.lkey.isLt
  have haddr : num (off + 8) 8 (a ++ (segmentBytes d ++ c)) = d.addr.toNat := by
    rw [segmentBytes, List.append_assoc, List.append_assoc, ← List.append_assoc a, ← List.append_assoc (a ++ _),
      num_mid _ _ _ (by rw [List.length_append, List.length_append, ha, beBytes_length, beBytes_length])]
    exact Nat.mod_eq_of_lt d.addr.isLt
  rw [readSegment, hcount, hkey, haddr, BitVec.ofNat_toNat, BitVec.ofNat_toNat, BitVec.ofNat_toNat, BitVec.setWidth_eq,
    BitVec.setWidth_eq, BitVec.setWidth_eq]

/-- The inline header that `xmitPacket` writes. -/
def Inline (w : EthTxWqe) : Prop :=
  w.inlineHdrSz = 0 ∧ w.inlineHdrStart = [] ∨ w.inlineHdrSz = 14 ∧ w.inlineHdrStart.length = 14

/-- The words of the head read back, whatever stands behind it. -/
theorem num_head (w : EthTxWqe) (c : List Byte) : num 0 4 (headBytes w ++ c) = w.opmodIdxOpcode.toNat ∧
    num 4 4 (headBytes w ++ c) = w.qpnDs.toNat ∧ num 11 1 (headBytes w ++ c) = w.fmCeSe.toNat ∧
    num 20 1 (headBytes w ++ c) = w.csFlags.toNat ∧ num 28 2 (headBytes w ++ c) = w.inlineHdrSz.toNat := by
  have hfirst : num 0 4 (headBytes w ++ c) = w.opmodIdxOpcode.toNat := by
    rw [headBytes, List.append_assoc]
    exact (num_mid [] _ _ rfl).trans (Nat.mod_eq_of_lt w.opmodIdxOpcode.isLt)
  have hsecond : num 4 4 (headBytes w ++ c) = w.qpnDs.toNat := by
    rw [headBytes, List.append_assoc, List.append_assoc, num_mid _ _ _ (beBytes_length 4 _)]
    exact Nat.mod_eq_of_lt w.qpnDs.isLt
  have hsize : num 28 2 (headBytes w ++ c) = w.inlineHdrSz.toNat := by
    rw [headBytes, List.append_assoc, List.append_assoc, List.append_assoc, List.append_assoc]
    have hlength : (beBytes 4 w.opmodIdxOpcode.toNat ++ (beBytes 4 w.qpnDs.toNat ++ ([0,0,0,w.fmCeSe,0,0,0,0] ++
        [0,0,0,0,w.csFlags,0,0,0,0,0,0,0]))).length = 28 := rfl
    have hmid := num_mid (n := 2) _ c w.inlineHdrSz.toNat hlength
    rw [List.append_assoc, List.append_assoc, List.append_assoc] at hmid
    exact hmid.trans (Nat.mod_eq_of_lt w.inlineHdrSz.isLt)
  refine ⟨hfirst,hsecond,?_,?_,hsize⟩
  · exact num_one (beBytes 4 w.opmodIdxOpcode.toNat ++ (beBytes 4 w.qpnDs.toNat ++ [0,0,0])) _ _ rfl
  · exact num_one (beBytes 4 w.opmodIdxOpcode.toNat ++ (beBytes 4 w.qpnDs.toNat ++ [0,0,0,w.fmCeSe,0,0,0,0,0,0,0,0])) _ _ rfl

theorem Inline.units {w : EthTxWqe} (h : Inline w) : w.inlineHdrStart.length = w.inlineHdrSz.toNat ∧
    (30 + w.inlineHdrSz.toNat + 15) / 16 = dataOffset w / 16 ∧ 16 * (dataOffset w / 16) = dataOffset w ∧
    30 + w.inlineHdrStart.length ≤ dataOffset w := by
  unfold dataOffset
  rcases h with ⟨hsz,hstart⟩ | ⟨hsz,hstart⟩
  · rw [hsz, hstart]
    decide
  · rw [hsz, hstart]
    decide

/-- The device finds in a WQE what `xmitPacket` meant. -/
theorem readWqe_wqeBytes {w : EthTxWqe} (h : Inline w) (hds : w.qpnDs.toNat % 64 = dataOffset w / 16 + 1) :
    readWqe (wqeBytes w) =
      { opcode := w.opmodIdxOpcode.toNat % 256
        index := w.opmodIdxOpcode.toNat / 256 % 65536
        sqn := w.qpnDs.toNat / 256
        fmCeSe := w.fmCeSe
        csFlags := w.csFlags
        header := w.inlineHdrStart
        segments := [w.data] } := by
  obtain ⟨hfirst,hsecond,hfm,hcs,hsize⟩ := num_head w (w.inlineHdrStart ++
    (List.replicate (dataOffset w - (30 + w.inlineHdrStart.length)) 0 ++
      (segmentBytes w.data ++ List.replicate (48 - dataOffset w) 0)))
  obtain ⟨hlength,hunits,hoffset,hle⟩ := h.units
  have hheader : slice 30 w.inlineHdrSz.toNat (wqeBytes w) = w.inlineHdrStart :=
    slice_mid _ _ _ (headBytes_length w) hlength
  have hsegment : readSegment (wqeBytes w) (dataOffset w) = w.data := by
    rw [wqeBytes, ← List.append_assoc, ← List.append_assoc]
    refine readSegment_mid _ _ _ ?_
    rw [List.length_append, List.length_append, headBytes_length, List.length_replicate]
    omega
  have hone : w.qpnDs.toNat % 64 - dataOffset w / 16 = 1 := by omega
  unfold readWqe
  rw [← wqeBytes] at hfirst hsecond hfm hcs hsize
  simp only [hfirst, hsecond, hfm, hcs, hsize, hunits, hone, hheader, List.range_one, List.map_singleton, Nat.add_zero,
    hoffset, hsegment, BitVec.ofNat_toNat, BitVec.setWidth_eq]

/-! ## Gathering -/

theorem mapM_range {α : Type} {f : ℕ → Option α} {l : List α} {n : ℕ}
    (hn : l.length = n) (h : ∀ k, k < n → f k = l[k]?) :
    (List.range n).mapM f = some l := by
  induction l using List.reverseRecOn generalizing n with
  | nil =>
    subst hn
    rfl
  | append_singleton l a ih =>
    rw [List.length_append, List.length_singleton] at hn
    have hinit : (List.range l.length).mapM f = some l := by
      refine ih rfl (fun k hk => ?_)
      rw [h k (by omega), List.getElem?_append_left hk]
    have hlast : f l.length = some a := by
      rw [h l.length (by omega), List.getElem?_append_right le_rfl, Nat.sub_self]
      rfl
    rw [← hn, List.range_succ, List.mapM_append, hinit, List.mapM_cons, hlast]
    rfl

def Packet.frame (p : Packet) : List Byte := p.chain.take p.pkthdrLen.toNat

/-- What stays the same as long as the SQ exists. -/
structure Setup where
  fSqn : BitVec 32
  fLkey : BitVec 32
  fTxBufDMA : BitVec 64
  fTxMinInlineMode : BitVec 8

namespace Setup
variable (c : Setup)

def inlineLen : BitVec 32 := if c.fTxMinInlineMode = 1 then 14 else 0

def wqe (n : ℕ) (p : Packet) (buffer : List Byte) : EthTxWqe where
  opmodIdxOpcode := (BitVec.ofNat 16 n).setWidth 32 <<< 8 ||| opcodeSend
  qpnDs := c.fSqn <<< 8 ||| (if c.inlineLen = 0 then 3 else 4)
  fmCeSe := ctrlCqUpdate
  inlineHdrSz := c.inlineLen.setWidth 16
  inlineHdrStart := buffer.take c.inlineLen.toNat
  csFlags := 0
  data := ⟨p.pkthdrLen - c.inlineLen,c.fLkey,
    c.fTxBufDMA + BitVec.ofNat 64 (n % 2 ^ logSqSize * txBufSize) + c.inlineLen.setWidth 64⟩

/-- The slot of WQE number `n`, which is for this packet. -/
structure Holds (n : ℕ) (p : Packet) (slot : Slot) : Prop where
  wqe : slot.wqe = c.wqe n p slot.buffer
  buffer : slot.buffer.take p.pkthdrLen.toNat = p.frame
  length : slot.buffer.length = txBufSize
  fits : p.pkthdrLen.toNat ≤ txBufSize
  header : c.inlineLen.toNat ≤ p.pkthdrLen.toNat

variable {c} {n : ℕ} {p : Packet} {slot : Slot} {s : State}

theorem inlineLen_cases : c.inlineLen = 0 ∨ c.inlineLen = 14 := by
  unfold inlineLen
  split
  · exact Or.inr rfl
  · exact Or.inl rfl

theorem Holds.inline (h : c.Holds n p slot) : Inline (c.wqe n p slot.buffer) := by
  have hlength : (slot.buffer.take c.inlineLen.toNat).length = c.inlineLen.toNat := by
    rw [List.length_take, h.length]
    exact Nat.min_eq_left (h.header.trans h.fits)
  rcases c.inlineLen_cases with hlen | hlen
  · refine Or.inl ⟨?_,?_⟩
    · show c.inlineLen.setWidth 16 = 0
      rw [hlen]
      rfl
    · show slot.buffer.take c.inlineLen.toNat = []
      rw [hlen]
      rfl
  · refine Or.inr ⟨?_,?_⟩
    · show c.inlineLen.setWidth 16 = 14
      rw [hlen]
      rfl
    · rw [hlen] at hlength
      show (slot.buffer.take c.inlineLen.toNat).length = 14
      rw [hlen]
      exact hlength

theorem toNat_above (x : BitVec 32) {b : BitVec 32} (hb : b.toNat < 2 ^ 8) :
    (x <<< 8 ||| b).toNat = 256 * (x.toNat % 2 ^ 24) + b.toNat := by
  have hshift : (x <<< 8).toNat = 2 ^ 8 * (x.toNat % 2 ^ 24) := by
    rw [BitVec.toNat_shiftLeft, Nat.shiftLeft_eq, Nat.mul_comm, show 2 ^ 32 = 2 ^ 8 * 2 ^ 24 from rfl, Nat.mul_mod_mul_left]
  rw [BitVec.toNat_or, hshift, ← Nat.two_pow_add_eq_or_of_lt hb]

theorem Holds.request (h : c.Holds n p slot) : readWqe (wqeBytes slot.wqe) =
    { opcode := 0x0a
      index := n % 65536
      sqn := c.fSqn.toNat % 2 ^ 24
      fmCeSe := ctrlCqUpdate
      csFlags := 0
      header := slot.buffer.take c.inlineLen.toNat
      segments := [(c.wqe n p slot.buffer).data] } := by
  have hfirst : (c.wqe n p slot.buffer).opmodIdxOpcode.toNat = 256 * (n % 65536) + 10 := by
    have habove := toNat_above ((BitVec.ofNat 16 n).setWidth 32) (b := opcodeSend) (by decide)
    have hwide : ((BitVec.ofNat 16 n).setWidth 32).toNat = n % 65536 := by
      rw [BitVec.toNat_setWidth, BitVec.toNat_ofNat]
      exact Nat.mod_eq_of_lt ((Nat.mod_lt n (by decide)).trans (by decide))
    rw [hwide, Nat.mod_eq_of_lt ((Nat.mod_lt n (by decide)).trans (by decide))] at habove
    exact habove
  obtain ⟨units,hunits,hsecond⟩ : ∃ units : BitVec 32, units.toNat = dataOffset (c.wqe n p slot.buffer) / 16 + 1 ∧
      (c.wqe n p slot.buffer).qpnDs = c.fSqn <<< 8 ||| units := by
    refine ⟨if c.inlineLen = 0 then 3 else 4,?_,rfl⟩
    show _ = (if c.inlineLen.setWidth 16 = 0 then 32 else 48) / 16 + 1
    rcases c.inlineLen_cases with hlen | hlen
    · rw [hlen]
      decide
    · rw [hlen]
      decide
  have hsmall : units.toNat < 64 := by
    rw [hunits]
    unfold dataOffset
    split <;> decide
  have hword := toNat_above c.fSqn (b := units) (by omega)
  rw [← hsecond] at hword
  have hopcode : (256 * (n % 65536) + 10) % 256 = 0x0a := by omega
  have hindex : (256 * (n % 65536) + 10) / 256 % 65536 = n % 65536 := by omega
  have hsqn : (256 * (c.fSqn.toNat % 2 ^ 24) + units.toNat) / 256 = c.fSqn.toNat % 2 ^ 24 := by omega
  rw [h.wqe, readWqe_wqeBytes h.inline (by omega), hfirst, hword, hopcode, hindex, hsqn]
  rfl

/-- A byte of the bounce pool is reached through its mapping. -/
theorem dmaByte_pool {off : ℕ} (hoff : off < 2 ^ logSqSize * txBufSize) :
    s.dmaByte (s.fTxBufDMA + BitVec.ofNat 64 off) = (s.slots (off / txBufSize)).buffer[off % txBufSize]? := by
  have hlt : off < 2 ^ 64 := hoff.trans (by decide)
  have hsub : (s.fTxBufDMA + BitVec.ofNat 64 off - s.fTxBufDMA).toNat = off := by
    rw [BitVec.add_comm, BitVec.add_sub_cancel, BitVec.toNat_ofNat]
    exact Nat.mod_eq_of_lt hlt
  rw [State.dmaByte, hsub]
  exact if_pos hoff

/-- The data segment leads to the part of the slot behind the inline header. -/
theorem Holds.segment (h : c.Holds n p slot) (hslot : s.slots (n % 2 ^ logSqSize) = slot) (hdma : s.fTxBufDMA = c.fTxBufDMA)
    (hkey : s.fLkey = c.fLkey) : s.gather (c.wqe n p slot.buffer).data =
      some ((slot.buffer.drop c.inlineLen.toNat).take (p.pkthdrLen.toNat - c.inlineLen.toNat)) := by
  have hlt : n % 2 ^ logSqSize < 2 ^ logSqSize := Nat.mod_lt n (by decide)
  have hfits := h.fits
  have hcount : (c.wqe n p slot.buffer).data.byteCount.toNat = p.pkthdrLen.toNat - c.inlineLen.toNat :=
    BitVec.toNat_sub_of_le (BitVec.le_def.mpr h.header)
  have hlkey : (c.wqe n p slot.buffer).data.lkey = s.fLkey := hkey.symm
  unfold State.gather
  rw [if_pos hlkey, hcount]
  refine mapM_range ?_ (fun k hk => ?_)
  · rw [List.length_take, List.length_drop, h.length]
    omega
  have hoff : c.inlineLen.toNat + k < txBufSize := by omega
  have hpool : n % 2 ^ logSqSize * txBufSize + (c.inlineLen.toNat + k) < 2 ^ logSqSize * txBufSize := by
    have hmul := Nat.mul_le_mul_right txBufSize (Nat.succ_le_of_lt hlt)
    rw [Nat.succ_mul] at hmul
    omega
  have haddr : (c.wqe n p slot.buffer).data.addr + BitVec.ofNat 64 k =
      s.fTxBufDMA + BitVec.ofNat 64 (n % 2 ^ logSqSize * txBufSize + (c.inlineLen.toNat + k)) := by
    have hdata : (c.wqe n p slot.buffer).data.addr =
        c.fTxBufDMA + BitVec.ofNat 64 (n % 2 ^ logSqSize * txBufSize) + c.inlineLen.setWidth 64 := rfl
    rw [hdata, hdma, BitVec.ofNat_add, BitVec.ofNat_add, BitVec.ofNat_toNat, BitVec.add_assoc, BitVec.add_assoc]
  have hdiv : (n % 2 ^ logSqSize * txBufSize + (c.inlineLen.toNat + k)) / txBufSize = n % 2 ^ logSqSize := by
    rw [Nat.add_comm, Nat.add_mul_div_right _ _ (by decide), Nat.div_eq_of_lt hoff, Nat.zero_add]
  have hmod : (n % 2 ^ logSqSize * txBufSize + (c.inlineLen.toNat + k)) % txBufSize = c.inlineLen.toNat + k := by
    rw [Nat.add_comm, Nat.add_mul_mod_self_right, Nat.mod_eq_of_lt hoff]
  rw [haddr, dmaByte_pool hpool, hdiv, hmod, hslot, List.getElem?_take_of_lt hk, List.getElem?_drop]

theorem Holds.gathered (h : c.Holds n p slot) (hslot : s.slots (n % 2 ^ logSqSize) = slot) (hdma : s.fTxBufDMA = c.fTxBufDMA)
    (hkey : s.fLkey = c.fLkey) : s.frame n = some p.frame := by
  have hrequest : s.request n = readWqe (wqeBytes slot.wqe) := by rw [State.request, hslot]
  have hsplit : slot.buffer.take c.inlineLen.toNat ++
      (slot.buffer.drop c.inlineLen.toNat).take (p.pkthdrLen.toNat - c.inlineLen.toNat) = p.frame := by
    rw [← List.take_add, Nat.add_sub_cancel' h.header]
    exact h.buffer
  unfold State.frame
  rw [hrequest, h.request, List.mapM_cons, h.segment hslot hdma hkey, ← hsplit]
  simp

end Setup

/-! ## One step -/

/-- Nothing is written for the device; WQEs may be retired, and the SQ may be destroyed. -/
structure Kept (s t : State) : Prop where
  slots : t.slots = s.slots
  fTxBf : t.fTxBf = s.fTxBf
  posted : t.posted = s.posted
  consumed : s.consumed ≤ t.consumed
  fLkey : t.fLkey = s.fLkey
  mode : t.fTxMinInlineMode = s.fTxMinInlineMode
  sq : t.fSqn = none ∨ t.fSqn = s.fSqn ∧ t.fTxBufDMA = s.fTxBufDMA
  waiting : ∀ m p, t.calls m = .waiting p → s.calls m = .waiting p

/-- The slots of the outstanding WQEs hold the packets, and the doorbell register has the newest of them. -/
structure Filled (c : Setup) (s : State) (packets : List Packet) : Prop where
  length : packets.length = s.posted
  fLkey : s.fLkey = c.fLkey
  mode : s.fTxMinInlineMode = c.fTxMinInlineMode
  sq : s.fSqn = none ∨ s.fSqn = some c.fSqn ∧ s.fTxBufDMA = c.fTxBufDMA
  waiting : ∀ m p, s.calls m = .waiting p → p.pkthdrLen.toNat ≤ txBufSize
  buffers : ∀ j, (s.slots j).buffer.length = txBufSize
  holds : ∀ n, s.Outstanding n → ∃ p, packets[n]? = some p ∧ c.Holds n p (s.slots (n % 2 ^ logSqSize))
  doorbell : ∀ n, s.Outstanding n → n + 1 = s.posted → s.fTxBf =
    ((s.slots (n % 2 ^ logSqSize)).wqe.opmodIdxOpcode,(s.slots (n % 2 ^ logSqSize)).wqe.qpnDs)

variable {c : Setup} {s t : State} {packets : List Packet} {m : ℕ} {p : Packet}

theorem Kept.outstanding (h : Kept s t) {n : ℕ} (hn : t.Outstanding n) : s.Outstanding n := by
  refine ⟨h.consumed.trans hn.1,?_⟩
  rw [← h.posted]
  exact hn.2

theorem Filled.kept (hf : Filled c s packets) (h : Kept s t) : Filled c t packets where
  length := hf.length.trans h.posted.symm
  fLkey := h.fLkey.trans hf.fLkey
  mode := h.mode.trans hf.mode
  sq := by
    rcases h.sq with hnone | ⟨hsq,hdma⟩
    · exact Or.inl hnone
    · rw [hsq, hdma]
      exact hf.sq
  waiting m p hm := hf.waiting m p (h.waiting m p hm)
  buffers := by
    rw [h.slots]
    exact hf.buffers
  holds n hn := by
    rw [h.slots]
    exact hf.holds n (h.outstanding hn)
  doorbell n hn hlast := by
    rw [h.slots, h.fTxBf]
    exact hf.doorbell n (h.outstanding hn) (hlast.trans h.posted)

theorem Kept.refl (s : State) : Kept s s := ⟨rfl,rfl,rfl,le_rfl,rfl,rfl,Or.inr ⟨rfl,rfl⟩,fun _ _ h => h⟩

theorem kept_retireOne (s : State) : Kept s s.retireOne := by
  unfold State.retireOne
  dsimp only
  split <;> exact ⟨rfl,rfl,rfl,le_rfl,rfl,rfl,Or.inr ⟨rfl,rfl⟩,fun _ _ h => h⟩

theorem Kept.trans {u : State} (h : Kept s t) (h' : Kept t u) : Kept s u where
  slots := h'.slots.trans h.slots
  fTxBf := h'.fTxBf.trans h.fTxBf
  posted := h'.posted.trans h.posted
  consumed := h.consumed.trans h'.consumed
  fLkey := h'.fLkey.trans h.fLkey
  mode := h'.mode.trans h.mode
  sq := by
    rcases h'.sq with hnone | ⟨hsq,hdma⟩
    · exact Or.inl hnone
    · rw [hsq, hdma]
      exact h.sq
  waiting m p hm := h.waiting m p (h'.waiting m p hm)

theorem kept_retire (fuel : ℕ) (target : BitVec 16) (s : State) : Kept s (State.retire fuel target s) := by
  induction fuel generalizing s with
  | zero => exact .refl s
  | succ fuel ih =>
    unfold State.retire
    split
    · exact kept_retireOne s
    · exact (kept_retireOne s).trans (ih _)

theorem kept_pollCqe (s : State) : Kept s s.pollCqe := by
  unfold State.pollCqe
  split
  · have hk := kept_retire (2 ^ 16) s.cqe.wqeCounter s
    exact ⟨hk.slots,hk.fTxBf,hk.posted,Nat.le_succ _,hk.fLkey,hk.mode,hk.sq,hk.waiting⟩
  · exact ⟨rfl,rfl,rfl,le_rfl,rfl,rfl,Or.inr ⟨rfl,rfl⟩,fun _ _ h => h⟩

theorem kept_destroy (kr : IOReturn) (s : State) : Kept s (s.destroy kr) := by
  unfold State.destroy
  cases s.destroyPc with
  | sq =>
    dsimp only
    split
    · exact .refl s
    · exact ⟨rfl,rfl,rfl,le_rfl,rfl,rfl,Or.inl rfl,fun _ _ h => h⟩
  | cq =>
    dsimp only
    split <;> exact ⟨rfl,rfl,rfl,le_rfl,rfl,rfl,Or.inr ⟨rfl,rfl⟩,fun _ _ h => h⟩
  | tis =>
    dsimp only
    split <;> exact ⟨rfl,rfl,rfl,le_rfl,rfl,rfl,Or.inr ⟨rfl,rfl⟩,fun _ _ h => h⟩

theorem kept_setCall {a : CallPc} {freed : List ℕ} (ha : ∀ p, a ≠ .waiting p) :
    Kept s ({ s with freed := freed }.setCall m a) := by
  refine ⟨rfl,rfl,rfl,le_rfl,rfl,rfl,Or.inr ⟨rfl,rfl⟩,fun k p hk => ?_⟩
  by_cases hkm : k = m
  · simp only [State.setCall, hkm, Function.update_self] at hk
    exact absurd hk (ha p)
  · simp only [State.setCall, Function.update_of_ne hkm] at hk
    exact hk

theorem Filled.output (hf : Filled c s packets) : Filled c (s.output m p) packets := by
  have hstall : Filled c (s.setCall m .stalled) packets := hf.kept (kept_setCall (fun _ h => by cases h))
  have hdrop : Filled c (s.drop m) packets := hf.kept (kept_setCall (fun _ h => by cases h))
  unfold State.output
  split_ifs with _ _ _ hlong
  · exact hstall
  · exact hstall
  · exact hdrop
  · exact hdrop
  · refine { hf with waiting := fun k q hk => ?_ }
    by_cases hkm : k = m
    · simp only [State.setCall, hkm, Function.update_self] at hk
      cases hk
      exact Nat.le_of_not_lt hlong
    · simp only [State.setCall, Function.update_of_ne hkm] at hk
      exact hf.waiting k q hk

/-! ## Posting -/

theorem copydata_length {buffer : List Byte} (hlen : p.pkthdrLen.toNat ≤ txBufSize) (hbuffer : buffer.length = txBufSize) :
    (State.copydata p buffer).length = txBufSize := by
  have htake : (p.chain.take p.pkthdrLen.toNat).length ≤ txBufSize := by
    rw [List.length_take]
    exact (Nat.min_le_left _ _).trans hlen
  rw [State.copydata, List.length_append, List.length_drop, hbuffer]
  exact Nat.add_sub_cancel' htake

theorem copydata_frame {buffer : List Byte} (hchain : p.pkthdrLen.toNat ≤ p.chain.length) :
    (State.copydata p buffer).take p.pkthdrLen.toNat = p.frame := by
  refine List.take_left' ?_
  rw [List.length_take]
  exact Nat.min_eq_left hchain

theorem finishWqe_eq (hf : Filled c s packets) (hl : s.Live) (hdma : s.fTxBufDMA = c.fTxBufDMA) (buffer : List Byte) :
    s.finishWqe (s.posted % 2 ^ logSqSize) p buffer c.fSqn = c.wqe s.posted p buffer := by
  have hinline : s.inlineLen = c.inlineLen := by rw [State.inlineLen, hf.mode, Setup.inlineLen]
  unfold State.finishWqe State.startWqe
  rw [hl.pc, hinline, hf.fLkey, hdma]
  rfl

theorem Filled.write (hf : Filled c s packets) (hroom : s.posted < s.consumed + 2 ^ logSqSize) (wqe : EthTxWqe)
    {buffer : List Byte} (hbuffer : buffer.length = txBufSize) :
    Filled c { s with slots := Function.update s.slots (s.posted % 2 ^ logSqSize) ⟨wqe,buffer,s.posted⟩ } packets := by
  have hkept : ∀ n, s.Outstanding n →
      Function.update s.slots (s.posted % 2 ^ logSqSize) ⟨wqe,buffer,s.posted⟩
        (n % 2 ^ logSqSize) = s.slots (n % 2 ^ logSqSize) := by
    intro n hn
    refine Function.update_of_ne (slot_ne hn.2 ?_).symm _ _
    have hle := hn.1
    omega
  refine ⟨hf.length,hf.fLkey,hf.mode,hf.sq,hf.waiting,fun j => ?_,fun n hn => ?_,fun n hn hlast => ?_⟩
  · by_cases hj : j = s.posted % 2 ^ logSqSize
    · rw [hj]
      dsimp only
      rw [Function.update_self]
      exact hbuffer
    · dsimp only
      rw [Function.update_of_ne hj]
      exact hf.buffers j
  · rw [show ({ s with slots := _ } : State).slots (n % 2 ^ logSqSize) = _ from hkept n hn]
    exact hf.holds n hn
  · rw [show ({ s with slots := _ } : State).slots (n % 2 ^ logSqSize) = _ from hkept n hn]
    exact hf.doorbell n hn hlast

theorem Filled.post (hf : Filled c s packets) (hroom : s.posted < s.consumed + 2 ^ logSqSize) {buffer : List Byte}
    (hholds : c.Holds s.posted p ⟨c.wqe s.posted p buffer,buffer,s.posted⟩) :
    Filled c (s.post m (s.posted % 2 ^ logSqSize) (c.wqe s.posted p buffer) buffer) (packets ++ [p]) := by
  have hwrite := hf.write hroom (c.wqe s.posted p buffer) hholds.length
  have hold : ∀ n, (s.post m (s.posted % 2 ^ logSqSize) (c.wqe s.posted p buffer) buffer).Outstanding n →
      n = s.posted ∨ s.Outstanding n := by
    rintro n ⟨hle,hlt⟩
    have hlt' : n < s.posted + 1 := hlt
    rcases Nat.lt_succ_iff_lt_or_eq.mp hlt' with hlt' | rfl
    · exact Or.inr ⟨hle,hlt'⟩
    · exact Or.inl rfl
  have hself : (s.post m (s.posted % 2 ^ logSqSize) (c.wqe s.posted p buffer) buffer).slots (s.posted % 2 ^ logSqSize) =
      ⟨c.wqe s.posted p buffer,buffer,s.posted⟩ := Function.update_self _ _ _
  refine ⟨?_,hf.fLkey,hf.mode,hf.sq,fun k q hk => ?_,hwrite.buffers,fun n hn => ?_,fun n hn hlast => ?_⟩
  · rw [List.length_append, hf.length]
    rfl
  · by_cases hkm : k = m
    · simp only [State.post, State.setCall, hkm, Function.update_self] at hk
      cases hk
    · simp only [State.post, State.setCall, Function.update_of_ne hkm] at hk
      exact hf.waiting k q hk
  · rcases hold n hn with rfl | hn
    · refine ⟨p,?_,?_⟩
      · rw [← hf.length, List.getElem?_append_right le_rfl, Nat.sub_self]
        rfl
      · rw [hself]
        exact hholds
    · obtain ⟨q,hq,hslot⟩ := hwrite.holds n hn
      refine ⟨q,?_,hslot⟩
      rw [List.getElem?_append_left (by rw [hf.length]; exact hn.2)]
      exact hq
  · have hn' : n = s.posted := Nat.succ.inj hlast
    rw [hn', hself]
    rfl

/-- The packet that goes into the ring as a call goes on. -/
def CallPc.posts : CallPc → CallPc → List Packet
  | .waiting p, .sent _ => [p]
  | _, _ => []

theorem CallPc.posts_nil {a b : CallPc} (hb : ∀ n, b ≠ .sent n) : a.posts b = [] := by
  cases b with
  | sent n => exact absurd rfl (hb n)
  | _ => cases a <;> rfl

theorem setCall_self (a : CallPc) : (s.setCall m a).calls m = a := Function.update_self _ _ _

/-- What the section under `fLock` can come to: a stall, a packet that is dropped after its slot was written,
or a WQE for the packet. -/
theorem locked_cases (h : s.Inv) {sqn : BitVec 32} (hsqn : s.fSqn = some sqn) {buffer : List Byte}
    (hbuffer : buffer = State.copydata p (s.slots (s.posted % 2 ^ logSqSize)).buffer) :
    s.locked m p = s.setCall m .stalled ∨ s.posted < s.consumed + 2 ^ logSqSize ∧
      (s.locked m p = State.drop m { s with
        slots := Function.update s.slots (s.posted % 2 ^ logSqSize) ⟨s.startWqe,buffer,s.posted⟩ } ∨
      p.pkthdrLen.toNat ≤ p.chain.length ∧ s.inlineLen.toNat ≤ p.pkthdrLen.toNat ∧
        s.locked m p = s.post m (s.posted % 2 ^ logSqSize) (s.finishWqe (s.posted % 2 ^ logSqSize) p buffer sqn) buffer) := by
  have hl := h.live (by rw [hsqn]; rfl)
  subst hbuffer
  unfold State.locked
  rw [hsqn]
  dsimp only
  rw [hl.slot]
  split_ifs with hup hfull hshort hinline
  · exact Or.inl rfl
  · exact Or.inl rfl
  all_goals
    rw [hl.window (h.consumed_le.trans h.produced_le) h.room] at hfull
    refine Or.inr ⟨by omega,?_⟩
  · exact Or.inl rfl
  · exact Or.inl rfl
  · refine Or.inr ⟨Nat.le_of_not_lt hshort,?_,rfl⟩
    by_cases hzero : s.inlineLen = 0
    · rw [hzero]
      exact Nat.zero_le _
    · exact Nat.le_of_not_lt (fun hlt => hinline ⟨hzero,BitVec.lt_def.mpr hlt⟩)

theorem Filled.locked (h : s.Inv) (hf : Filled c s packets) (hm : s.calls m = .waiting p) :
    Filled c (s.locked m p) (packets ++ (s.calls m).posts ((s.locked m p).calls m)) := by
  have hquiet : ∀ t : State, s.locked m p = t → (∀ n, t.calls m ≠ .sent n) → Filled c t packets →
      Filled c (s.locked m p) (packets ++ (s.calls m).posts ((s.locked m p).calls m)) := by
    rintro t ht hsent hfilled
    rw [ht, CallPc.posts_nil hsent, List.append_nil]
    exact hfilled
  have hstall : s.locked m p = s.setCall m .stalled →
      Filled c (s.locked m p) (packets ++ (s.calls m).posts ((s.locked m p).calls m)) := by
    refine fun hlocked => hquiet _ hlocked (fun n hn => ?_) (hf.kept (kept_setCall (fun _ h => by cases h)))
    rw [setCall_self] at hn
    cases hn
  rcases hf.sq with hnone | ⟨hsqn,hdma⟩
  · refine hstall ?_
    unfold State.locked
    rw [hnone]
  have hl := h.live (by rw [hsqn]; rfl)
  have hlen := hf.waiting m p hm
  have hlength := copydata_length hlen (hf.buffers (s.posted % 2 ^ logSqSize))
  rcases locked_cases (m := m) (p := p) h hsqn rfl with hlocked | ⟨hroom,hlocked | ⟨hchain,hheader,hlocked⟩⟩
  · exact hstall hlocked
  · refine hquiet _ hlocked (fun n hn => ?_) ((hf.write hroom _ hlength).kept (kept_setCall (fun _ h => by cases h)))
    rw [State.drop, setCall_self] at hn
    cases hn
  · have hinline : s.inlineLen = c.inlineLen := by rw [State.inlineLen, hf.mode, Setup.inlineLen]
    rw [finishWqe_eq hf hl hdma] at hlocked
    have hcall : (s.locked m p).calls m = .sent s.posted := by
      rw [hlocked]
      exact Function.update_self _ _ _
    rw [hcall, hm, hlocked]
    exact hf.post hroom ⟨rfl,copydata_frame hchain,hlength,hlen,hinline ▸ hheader⟩

/-! ## The wire -/

/-- The packet that a step puts into the ring. -/
def Action.posts (s t : State) : Action → List Packet
  | .locked m => (s.calls m).posts (t.calls m)
  | _ => []

/-- The frame of the WQE that the device completes; it has read it before. -/
def Action.gathers (s : State) : Action → List (Option (List Byte))
  | .complete _ => [s.frame s.produced]
  | _ => []

/-- The ring with everything that was posted and everything that the device has sent. -/
structure Wire where
  tx : State
  packets : List Packet
  frames : List (Option (List Byte))

def Wire.step (w : Wire) (a : Action) : Option Wire :=
  (w.tx.step a).map (fun t => ⟨t,w.packets ++ a.posts w.tx t,w.frames ++ a.gathers w.tx⟩)

def Wire.initial (c : Setup) (fTxCqn fTisn : BitVec 32) : Wire :=
  ⟨TxQueue.initial c.fSqn fTxCqn fTisn c.fLkey c.fTxBufDMA c.fTxMinInlineMode,[],[]⟩

theorem kept_complete {cqe : Cqe} (hs : s.complete cqe = some t) : Kept s t ∧ t.produced = s.produced + 1 := by
  unfold State.complete at hs
  split at hs
  · cases hs
    exact ⟨⟨rfl,rfl,rfl,le_rfl,rfl,rfl,Or.inr ⟨rfl,rfl⟩,fun _ _ h => h⟩,rfl⟩
  · cases hs

theorem retire_produced (fuel : ℕ) (target : BitVec 16) (s : State) :
    (State.retire fuel target s).produced = s.produced := by
  have hone : ∀ u : State, u.retireOne.produced = u.produced := by
    intro u
    unfold State.retireOne
    dsimp only
    split <;> rfl
  induction fuel generalizing s with
  | zero => rfl
  | succ fuel ih =>
    unfold State.retire
    split
    · exact hone s
    · exact (ih _).trans (hone s)

/-- The steps of the other parties, as far as the slots are concerned. -/
theorem Filled.step {a : Action} (h : s.Inv) (hf : Filled c s packets) (hs : s.step a = some t) :
    Filled c t (packets ++ a.posts s t) ∧ ((∀ cqe, a ≠ .complete cqe) → t.produced = s.produced) := by
  have hkept : ∀ a : Action, a.posts s t = [] → Kept s t → t.produced = s.produced →
      Filled c t (packets ++ a.posts s t) ∧ ((∀ cqe, a ≠ .complete cqe) → t.produced = s.produced) := by
    intro a ha hk hp
    rw [ha, List.append_nil]
    exact ⟨hf.kept hk,fun _ => hp⟩
  cases a with
  | output m p =>
    have hout : t = s.output m p := by
      simp only [State.step] at hs
      split at hs <;> cases hs <;> rfl
    subst hout
    refine ⟨?_,fun _ => ?_⟩
    · have hnone : Action.posts s (s.output m p) (.output m p) = [] := rfl
      rw [hnone, List.append_nil]
      exact hf.output
    · unfold State.output
      split_ifs <;> rfl
  | locked m =>
    simp only [State.step] at hs
    split at hs
    · rename_i p hm
      split at hs
      · cases hs
      · cases hs
        refine ⟨hf.locked h hm,fun _ => ?_⟩
        unfold State.locked
        split
        · rfl
        · dsimp only
          split_ifs <;> rfl
    · cases hs
  | complete cqe =>
    have hnone : Action.posts s t (.complete cqe) = [] := rfl
    rw [hnone, List.append_nil]
    exact ⟨hf.kept (kept_complete hs).1,fun hne => absurd rfl (hne cqe)⟩
  | poll =>
    simp only [State.step] at hs
    split at hs
    · cases hs
      exact hkept _ rfl ⟨rfl,rfl,rfl,le_rfl,rfl,rfl,Or.inr ⟨rfl,rfl⟩,fun _ _ h => h⟩ rfl
    · cases hs
  | pollCqe =>
    simp only [State.step] at hs
    split at hs
    · cases hs
      refine hkept _ rfl (kept_pollCqe s) ?_
      unfold State.pollCqe
      split
      · exact retire_produced _ _ s
      · rfl
    · cases hs
  | disable =>
    simp only [State.step] at hs
    split at hs
    · cases hs
    · cases hs
      exact hkept _ rfl ⟨rfl,rfl,rfl,le_rfl,rfl,rfl,Or.inr ⟨rfl,rfl⟩,fun _ _ h => h⟩ rfl
  | synchronize =>
    simp only [State.step] at hs
    split at hs
    · cases hs
      exact hkept _ rfl ⟨rfl,rfl,rfl,le_rfl,rfl,rfl,Or.inr ⟨rfl,rfl⟩,fun _ _ h => h⟩ rfl
    · cases hs
  | destroy kr =>
    simp only [State.step] at hs
    split at hs
    · cases hs
      refine hkept _ rfl (kept_destroy kr s) ?_
      unfold State.destroy
      cases s.destroyPc <;> dsimp only <;> split <;> rfl
    · cases hs

structure Wire.Inv (c : Setup) (w : Wire) : Prop where
  ring : w.tx.Inv
  filled : Filled c w.tx w.packets
  frames : w.frames = (w.packets.take w.tx.produced).map (fun p => some p.frame)

theorem Wire.inv_initial (c : Setup) (fTxCqn fTisn : BitVec 32) : (Wire.initial c fTxCqn fTisn).Inv c where
  ring := State.inv_initial ..
  filled :=
    { length := rfl
      fLkey := rfl
      mode := rfl
      sq := Or.inr ⟨rfl,rfl⟩
      waiting := fun _ _ h => by cases h
      buffers := fun _ => List.length_replicate
      holds := fun n hn => absurd hn.2 (Nat.not_lt_zero n)
      doorbell := fun n hn => absurd hn.2 (Nat.not_lt_zero n) }
  frames := rfl

/-- An outstanding WQE leads the device to its packet. -/
theorem Filled.frame (hf : Filled c s packets) (hsq : s.fSqn ≠ none) {n : ℕ} (hn : s.Outstanding n) :
    ∃ p, packets[n]? = some p ∧ s.frame n = some p.frame := by
  obtain ⟨p,hp,hholds⟩ := hf.holds n hn
  have hdma : s.fTxBufDMA = c.fTxBufDMA := (hf.sq.resolve_left hsq).2
  exact ⟨p,hp,hholds.gathered rfl hdma hf.fLkey⟩

/-- The device completes a WQE that is posted. -/
theorem outstanding_of_complete (h : s.Inv) {cqe : Cqe} (hs : s.complete cqe = some t) :
    s.fSqn ≠ none ∧ s.Outstanding s.produced := by
  unfold State.complete at hs
  split at hs
  · rename_i hc
    refine ⟨Option.isSome_iff_ne_none.mp hc.1,h.consumed_le,lt_of_le_of_ne h.produced_le (fun he => hc.2.2.1 ?_)⟩
    rw [(h.live hc.1).db, he]
  · cases hs

theorem Wire.step_inv {w w' : Wire} {a : Action} (h : w.Inv c) (hs : w.step a = some w') : w'.Inv c := by
  obtain ⟨t,ht,rfl⟩ := Option.map_eq_some_iff.mp hs
  obtain ⟨hfilled,hproduced⟩ := h.filled.step h.ring ht
  refine ⟨State.step_inv h.ring ht,hfilled,?_⟩
  dsimp only
  by_cases hc : ∃ cqe, a = .complete cqe
  · obtain ⟨cqe,rfl⟩ := hc
    obtain ⟨hsq,hout⟩ := outstanding_of_complete h.ring ht
    obtain ⟨p,hp,hframe⟩ := h.filled.frame hsq hout
    have hnone : Action.posts w.tx t (.complete cqe) = [] := rfl
    have hgathers : Action.gathers w.tx (.complete cqe) = [some p.frame] := congrArg (fun f => [f]) hframe
    rw [hnone, hgathers, List.append_nil, h.frames, (kept_complete ht).2, List.take_add_one, hp, List.map_append]
    rfl
  · have hle : w.tx.produced ≤ w.packets.length := by
      rw [h.filled.length]
      exact h.ring.produced_le
    have hgathers : a.gathers w.tx = [] := by
      cases a with
      | complete cqe => exact absurd ⟨cqe,rfl⟩ hc
      | _ => rfl
    rw [hgathers, List.append_nil, hproduced (fun cqe he => hc ⟨cqe,he⟩), List.take_append_of_le_length hle]
    exact h.frames

/-! ## What the device sends -/

/-- Everything posted goes out in order and as it is, and what waits is ready to go out. -/
structure Wire.Delivered (c : Setup) (w : Wire) : Prop where
  posted : w.packets.length = w.tx.posted
  frames : w.frames = (w.packets.take w.tx.produced).map (fun p => some p.frame)
  frame : w.tx.fSqn ≠ none → ∀ n p, w.tx.Outstanding n → w.packets[n]? = some p → w.tx.frame n = some p.frame
  request : ∀ n, w.tx.Outstanding n → ∃ header segment, w.tx.request n =
    ⟨0x0a,n % 65536,c.fSqn.toNat % 2 ^ 24,ctrlCqUpdate,0,header,[segment]⟩
  doorbell : ∀ n, w.tx.Outstanding n → n + 1 = w.tx.posted →
    (wqeBytes (w.tx.slots (n % 2 ^ logSqSize)).wqe).take 8 = beBytes 4 w.tx.fTxBf.1.toNat ++ beBytes 4 w.tx.fTxBf.2.toNat

theorem Wire.Inv.delivered {w : Wire} (h : w.Inv c) : w.Delivered c := by
  refine ⟨h.filled.length,h.frames,fun hsq n p hn hp => ?_,fun n hn => ?_,fun n hn hlast => ?_⟩
  · obtain ⟨q,hq,hframe⟩ := h.filled.frame hsq hn
    rw [hp] at hq
    cases hq
    exact hframe
  · obtain ⟨p,_,hholds⟩ := h.filled.holds n hn
    exact ⟨_,_,hholds.request⟩
  · rw [h.filled.doorbell n hn hlast]
    rfl

/-- In every run, the device sends the frames of the packets that were posted, in order and each once. -/
theorem frames_run (c : Setup) (fTxCqn fTisn : BitVec 32) {w : Wire}
    (h : Reach Wire.step Free (Wire.initial c fTxCqn fTisn) w) : w.Delivered c :=
  (h.invariant (Wire.inv_initial c fTxCqn fTisn) (fun _ _ _ hi _ hs => Wire.step_inv hi hs)).delivered

/-- The vport wants the header inline. -/
def inlineSetup : Setup := ⟨5,9,4096,1⟩

/-- A packet of 15 bytes goes out; one that is too short for the header is dropped. -/
def inlineActions : List Action :=
  [.output 0 ⟨13,List.replicate 13 6⟩,.locked 0,.output 1 ⟨15,List.replicate 16 7⟩,.locked 1,.complete ⟨0,0,0⟩]

theorem frames_run_inline : ∃ w : Wire, w.frames = [some (List.replicate 15 7)] ∧ w.Delivered inlineSetup := by
  have h := frames_run inlineSetup 2 3 (reach_of_after inlineActions .start rfl)
  exact ⟨_,h.frames,h⟩

end AppleMCX.TxQueue
