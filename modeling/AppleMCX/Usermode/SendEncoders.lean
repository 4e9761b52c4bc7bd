import AppleMCX.Netif.TxRing
import AppleMCX.Usermode.SendQueue

/-! # The two encoders of send WQEs

The control segment that `mlx_post_send` writes in user space, next to the one that
`MlxEthernet::xmitPacket` writes in the kernel.
-/
namespace AppleMCX.SendEncoders
open Hw Interaction SendQueue

/-- `qpn_ds` of `mlx_post_send`. -/
def postSendQpnDs (qpn wqeSize16 : BitVec 32) : BitVec 32 := wqeSize16 <<< 16 ||| qpn

/-- `qpn_ds` of `xmitPacket`. -/
def xmitPacketQpnDs (fSqn dsCount : BitVec 32) : BitVec 32 := fSqn <<< 8 ||| dsCount

/-- Bits 23:8 of `opmod_idx_opcode`, the index of the WQE. -/
def wqeIndex (opmod_idx_opcode : BitVec 32) : BitVec 16 := opmod_idx_opcode.extractLsb' 8 16

/-- The 16-byte units of a WQE of `mlx_post_send`. -/
def wqeSize16 (wr : SendWr) : BitVec 32 :=
  match wr.wrType with
  | .send => 2
  | _ => 3

def dsCount (s : TxQueue.State) : BitVec 32 := if s.inlineLen = 0 then 3 else 4

theorem wqe_qpnDs (c : Config) (wr : SendWr) (s : SendQueue.State) :
    (s.wqe c wr).qpnDs = postSendQpnDs c.qpn (wqeSize16 wr) := rfl

theorem finishWqe_qpnDs (pi : ℕ) (p : TxQueue.Packet) (buffer : List (BitVec 8)) (sqn : BitVec 32) (s : TxQueue.State) :
    (s.finishWqe pi p buffer sqn).qpnDs = xmitPacketQpnDs sqn (dsCount s) := rfl

def Determines (qpnDs : BitVec 32 → BitVec 32 → BitVec 32) (number units : BitVec 32) : Prop :=
  ∀ number' units' : BitVec 32, number'.toNat < 2 ^ 24 → units'.toNat < 64 →
    qpnDs number' units' = qpnDs number units → number' = number ∧ units' = units

/-- The index in the `n`-th WQE of `mlx_post_send` is `n`. -/
def PostSendIndex (c : Config) (n : ℕ) : Prop :=
  ∀ s wr, Reach (step c) Free initial s → s.posted = n → wqeIndex (s.wqe c wr).opmodIdxOpcode = BitVec.ofNat 16 n

/-- The index in the `n`-th WQE of `xmitPacket` is `n`. -/
def XmitPacketIndex (fSqn : BitVec 32) (n : ℕ) : Prop :=
  ∀ fTxCqn fTisn fLkey fTxBufDMA fTxMinInlineMode s pi p buffer sqn,
    Reach TxQueue.State.step Free (TxQueue.initial fSqn fTxCqn fTisn fLkey fTxBufDMA fTxMinInlineMode) s →
      s.fSqn = some sqn →
    s.posted = n → wqeIndex (s.finishWqe pi p buffer sqn).opmodIdxOpcode = BitVec.ofNat 16 n

/-- The encoders agree for the number `c.qpn`, a WQE of `units`, and `n` WQEs posted before. -/
structure Agree (c : Config) (units : BitVec 32) (n : ℕ) : Prop where
  words : postSendQpnDs c.qpn units = xmitPacketQpnDs c.qpn units
  postSend : Determines postSendQpnDs c.qpn units
  xmitPacket : Determines xmitPacketQpnDs c.qpn units
  postSendIndex : PostSendIndex c n
  xmitPacketIndex : XmitPacketIndex c.qpn n

/-! ## The index -/

theorem wqeIndex_eq {opcode : BitVec 32} (h : opcode.toNat < 2 ^ 8) (x : BitVec 32) :
    wqeIndex (x <<< 8 ||| opcode) = x.setWidth 16 := by
  apply BitVec.eq_of_getLsbD_eq
  intro i hi
  have hopcode : opcode.getLsbD (8 + i) = false := by
    rw [← BitVec.testBit_toNat]
    exact Nat.testBit_lt_two_pow (h.trans_le (Nat.pow_le_pow_right Nat.two_pos (Nat.le_add_right 8 i)))
  rw [wqeIndex, BitVec.getLsbD_extractLsb', BitVec.getLsbD_or, hopcode, Bool.or_false, BitVec.getLsbD_shiftLeft,
    BitVec.getLsbD_setWidth, decide_eq_true (by omega : 8 + i < 32), decide_eq_false (by omega : ¬ 8 + i < 8),
    Nat.add_sub_cancel_left, Bool.not_false, Bool.true_and, Bool.true_and]

theorem opcode_lt (wr : SendWr) : wr.wrType.opcode.toNat < 2 ^ 8 := by
  cases wr.wrType <;> decide

theorem wqe_index {c : Config} {s : SendQueue.State} (h : Counters c s) (wr : SendWr) :
    wqeIndex (s.wqe c wr).opmodIdxOpcode = BitVec.ofNat 16 (s.posted % c.sqSize) := by
  have hword : (s.wqe c wr).opmodIdxOpcode = BitVec.ofNat 32 (s.idx c) <<< 8 ||| wr.wrType.opcode := rfl
  rw [hword, wqeIndex_eq (opcode_lt wr), idx_eq h, BitVec.setWidth_ofNat_of_le (by decide)]

theorem finishWqe_index {s : TxQueue.State} (h : s.Live) (pi : ℕ) (p : TxQueue.Packet)
    (buffer : List (BitVec 8)) (sqn : BitVec 32) :
    wqeIndex (s.finishWqe pi p buffer sqn).opmodIdxOpcode = BitVec.ofNat 16 s.posted := by
  have hword : (s.finishWqe pi p buffer sqn).opmodIdxOpcode = s.fTxPc.setWidth 32 <<< 8 ||| opcodeSend := rfl
  rw [hword, wqeIndex_eq (by decide), h.pc, BitVec.setWidth_setWidth_of_le _ (by decide), BitVec.setWidth_eq]

/-- A slot of the ring stands for the index as long as the index is one. -/
theorem slot_eq_index_iff (k n : ℕ) : BitVec.ofNat 16 (n % 2 ^ k) = BitVec.ofNat 16 n ↔ n % 2 ^ 16 < 2 ^ k := by
  rw [← BitVec.toNat_inj, BitVec.toNat_ofNat, BitVec.toNat_ofNat]
  rcases Nat.le_total 16 k with hk | hk
  · have hpow : 2 ^ 16 ≤ 2 ^ k := Nat.pow_le_pow_right Nat.two_pos hk
    refine iff_of_true (Nat.mod_mod_of_dvd _ (Nat.pow_dvd_pow 2 hk)) ?_
    exact (Nat.mod_lt n (by decide)).trans_le hpow
  · have hpow : 2 ^ k ≤ 2 ^ 16 := Nat.pow_le_pow_right Nat.two_pos hk
    have hlt : n % 2 ^ k < 2 ^ k := Nat.mod_lt n (Nat.two_pow_pos k)
    rw [Nat.mod_eq_of_lt (hlt.trans_le hpow)]
    constructor
    · intro h
      rwa [← h]
    · intro h
      rw [← Nat.mod_eq_of_lt h, Nat.mod_mod_of_dvd _ (Nat.pow_dvd_pow 2 hk)]

/-- `mlx_post_send` puts the slot there, and any number of WQEs can have been posted. -/
theorem postSendIndex_iff (c : Config) (n : ℕ) : PostSendIndex c n ↔ n % 2 ^ 16 < c.sqSize := by
  rw [Config.sqSize, ← slot_eq_index_iff]
  have hindex : ∀ s wr, Reach (step c) Free initial s → s.posted = n →
      wqeIndex (s.wqe c wr).opmodIdxOpcode = BitVec.ofNat 16 (n % 2 ^ c.logSqSize) := by
    intro s wr hr hp
    have hc := hr.invariant counters_initial (fun _ _ _ h _ hs => step_counters h hs)
    rw [wqe_index hc, hp, Config.sqSize]
  constructor
  · intro h
    obtain ⟨s,hr,hp,-⟩ := exists_posted c n
    rw [← hindex s anySend hr hp, h s anySend hr hp]
  · intro h s wr hr hp
    rw [hindex s wr hr hp, h]

theorem xmitPacketIndex (fSqn : BitVec 32) (n : ℕ) : XmitPacketIndex fSqn n := by
  intro fTxCqn fTisn fLkey fTxBufDMA fTxMinInlineMode s pi p buffer sqn hr hsq hp
  have hinv := hr.invariant (TxQueue.State.inv_initial fSqn fTxCqn fTisn fLkey fTxBufDMA fTxMinInlineMode)
    (fun _ _ _ h _ hs => TxQueue.State.step_inv h hs)
  rw [finishWqe_index (hinv.live (by rw [hsq]; rfl)), hp]

/-! ## The numbers -/

theorem postSendQpnDs_zero (number : BitVec 32) : postSendQpnDs number 0 = number := by
  rw [postSendQpnDs, show (0 : BitVec 32) <<< 16 = 0 from rfl]
  exact BitVec.zero_or

theorem setWidth_lt (x : BitVec 6) : (x.setWidth 32).toNat < 64 := by
  rw [BitVec.toNat_setWidth]
  omega

theorem extractLsb'_postSendQpnDs (number units : BitVec 32) :
    (postSendQpnDs number units).extractLsb' 16 6 = units.setWidth 6 ||| number.extractLsb' 16 6 := by
  rw [postSendQpnDs, BitVec.extractLsb'_or]
  congr 1
  ext i hi
  have hlt : 16 + i < 32 := by omega
  have hbit : units.getLsbD i = units[i] := BitVec.getLsbD_eq_getElem (by omega)
  simp [hlt, hbit]

theorem shift_extractLsb'_or (x : BitVec 32) : (x.extractLsb' 16 6).setWidth 32 <<< 16 ||| x = x := by
  ext i hi
  suffices 16 ≤ i → i - 16 < 6 → x.getLsbD (16 + (i - 16)) = true → x[i] = true by simpa
  intro hi' _ hbit
  rwa [Nat.add_sub_cancel' hi', BitVec.getLsbD_eq_getElem hi] at hbit

theorem toNat_shift_or {high low : BitVec 32} {k : ℕ} (hlow : low.toNat < 2 ^ k) (hhigh : 2 ^ k * high.toNat < 2 ^ 32) :
    (high <<< k ||| low).toNat = 2 ^ k * high.toNat + low.toNat := by
  have hshift : (high <<< k).toNat = 2 ^ k * high.toNat := by
    rw [BitVec.toNat_shiftLeft, Nat.shiftLeft_eq, Nat.mul_comm, Nat.mod_eq_of_lt hhigh]
  rw [BitVec.toNat_or, hshift, ← Nat.two_pow_add_eq_or_of_lt hlow]

section words
variable {number units : BitVec 32} (hnumber : number.toNat < 2 ^ 24) (hunits : units.toNat < 64)
include hnumber hunits

theorem xmitPacketQpnDs_toNat : (xmitPacketQpnDs number units).toNat = 256 * number.toNat + units.toNat := by
  have hlow : units.toNat < 2 ^ 8 := by omega
  exact toNat_shift_or hlow (by omega)

theorem xmitPacket_determines : Determines xmitPacketQpnDs number units := by
  intro number' units' hnumber' hunits' h
  have hword := congrArg BitVec.toNat h
  rw [xmitPacketQpnDs_toNat hnumber hunits, xmitPacketQpnDs_toNat hnumber' hunits'] at hword
  exact ⟨BitVec.eq_of_toNat_eq (by omega),BitVec.eq_of_toNat_eq (by omega)⟩

/-- Every word of `mlx_post_send` is the one of some number with no units. -/
theorem postSendQpnDs_lt : (postSendQpnDs number units).toNat < 2 ^ 24 := by
  rw [postSendQpnDs, BitVec.toNat_or]
  refine Nat.or_lt_two_pow ?_ hnumber
  rw [BitVec.toNat_shiftLeft, Nat.shiftLeft_eq]
  omega

theorem units_eq_zero_of_determines (h : Determines postSendQpnDs number units) : units = 0 := by
  have hzero := postSendQpnDs_zero (postSendQpnDs number units)
  exact (h (postSendQpnDs number units) 0 (postSendQpnDs_lt hnumber hunits) (by decide) hzero).2.symm

/-- The word of `mlx_post_send` stands for one number and size only where there are no units,
and where the number leaves the bits of the units free. -/
theorem postSend_determines_iff : Determines postSendQpnDs number units ↔ units = 0 ∧ number.extractLsb' 16 6 = 0 := by
  constructor
  · intro h
    obtain rfl := units_eq_zero_of_determines hnumber hunits h
    refine ⟨rfl,?_⟩
    -- the bits of the number that lie there, once more as units
    have hword : postSendQpnDs number ((number.extractLsb' 16 6).setWidth 32) = postSendQpnDs number 0 := by
      rw [postSendQpnDs_zero]
      exact shift_extractLsb'_or number
    have hbits := (h number _ hnumber (setWidth_lt _) hword).2
    simpa using congrArg (BitVec.setWidth 6) hbits
  · rintro ⟨rfl,hbits⟩ number' units' hnumber' hunits' h
    rw [postSendQpnDs_zero] at h
    have hunits : units'.setWidth 6 = 0 := by
      have hextract := congrArg (BitVec.extractLsb' 16 6) h
      rw [extractLsb'_postSendQpnDs, hbits] at hextract
      exact (BitVec.or_eq_zero_iff.mp hextract).1
    obtain rfl : units' = 0 := by
      have hnat := congrArg BitVec.toNat hunits
      rw [BitVec.toNat_setWidth] at hnat
      exact BitVec.eq_of_toNat_eq (by simp at hnat ⊢; omega)
    rw [postSendQpnDs_zero] at h
    exact ⟨h,rfl⟩

/-- A number of 17 bits or more would make the word of `xmitPacket` too large. -/
theorem words_iff : postSendQpnDs number units = xmitPacketQpnDs number units ↔ number.toNat = 257 * units.toNat := by
  have hxmit := xmitPacketQpnDs_toNat hnumber hunits
  have hpost : number.toNat < 2 ^ 16 → (postSendQpnDs number units).toNat = 2 ^ 16 * units.toNat + number.toNat := by
    intro hlow
    rw [postSendQpnDs, toNat_shift_or hlow (by omega)]
  constructor
  · intro h
    have hlt := postSendQpnDs_lt hnumber hunits
    rw [h, hxmit] at hlt
    have hword := hpost (by omega)
    rw [h, hxmit] at hword
    omega
  · intro h
    apply BitVec.eq_of_toNat_eq
    rw [hpost (by omega), hxmit]
    omega

end words

/-! ## Results -/

/-- For which numbers, sizes and counts the encoders agree, and what each of them does of it. -/
theorem agree_iff (c : Config) {units : BitVec 32} (hnumber : c.qpn.toNat < 2 ^ 24) (hunits : units.toNat < 64) (n : ℕ) :
    (Agree c units n ↔ c.qpn = 0 ∧ units = 0 ∧ n % 2 ^ 16 < c.sqSize) ∧
    (postSendQpnDs c.qpn units = xmitPacketQpnDs c.qpn units ↔ c.qpn.toNat = 257 * units.toNat) ∧
    (Determines postSendQpnDs c.qpn units ↔ units = 0 ∧ c.qpn.extractLsb' 16 6 = 0) ∧
    Determines xmitPacketQpnDs c.qpn units ∧
    (PostSendIndex c n ↔ n % 2 ^ 16 < c.sqSize) ∧ XmitPacketIndex c.qpn n := by
  have hwords := words_iff hnumber hunits
  have hpost := postSend_determines_iff hnumber hunits
  have hxmit := xmitPacket_determines hnumber hunits
  have hindex := postSendIndex_iff c n
  refine ⟨?_,hwords,hpost,hxmit,hindex,xmitPacketIndex c.qpn n⟩
  constructor
  · intro h
    obtain ⟨rfl,-⟩ := hpost.mp h.postSend
    exact ⟨BitVec.eq_of_toNat_eq (hwords.mp h.words),rfl,hindex.mp h.postSendIndex⟩
  · rintro ⟨hqpn,rfl,hn⟩
    refine ⟨?_,hpost.mpr ⟨rfl,?_⟩,hxmit,hindex.mpr hn,xmitPacketIndex c.qpn n⟩
    · rw [hqpn]
      rfl
    · rw [hqpn]
      rfl

/-- A queue pair of number zero, the WQE after `2 ^ 16 + 3` others, and no units. -/
theorem agree_zero : Agree ⟨6,6,0,by decide,by decide⟩ 0 (2 ^ 16 + 3) :=
  (agree_iff ⟨6,6,0,by decide,by decide⟩ (by decide) (by decide) (2 ^ 16 + 3)).1.mpr ⟨rfl,rfl,by decide⟩

/-- Queue pair 7, whose 65th WQE has three units. -/
theorem not_agree_smallQueues : ¬ Agree smallQueues 3 64 := by
  intro h
  have hwords := h.words
  revert hwords
  decide

end AppleMCX.SendEncoders
