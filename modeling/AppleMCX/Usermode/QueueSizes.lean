import AppleMCX.Ib.WorkQueue
import AppleMCX.Interaction.Loop
import Mathlib.Order.Bounds.Basic

/-! # The sizes of the rings

`ibv_create_qp` makes powers of two of the requested numbers of entries, and `MlxQP::createQP`
checks them again.
-/
namespace AppleMCX.QueueSizes
open Interaction WorkQueue
open Verbs (ringInvalid)

/-- `ibv_qp_cap`, as far as the sizes are made of it. -/
structure QpCap where
  max_send_wr : BitVec 32
  max_recv_wr : BitVec 32

/-- A size before it is made a power of two. -/
def atLeast64 (size : BitVec 32) : BitVec 32 :=
  let size := if size = 0 then 128 else size
  if size < 64 then 64 else size

/-- A round of the loop over `value`. -/
def doubleRound (size value : BitVec 32) : BitVec 32 ⊕ BitVec 32 :=
  if value < size then .inr (value <<< 1) else .inl value

/-- `ibv_create_qp` goes on with `r` in place of `size`. -/
def RoundsTo (size r : BitVec 32) : Prop :=
  if size &&& (size - 1) ≠ 0 then Ends (doubleRound size) 1 r else r = size

/-- `sqSize` and `rqSize` of `ibv_create_qp` where it allocates the buffers. -/
structure RingSizes (cap : QpCap) (sqSize rqSize : BitVec 32) : Prop where
  sq : RoundsTo (atLeast64 cap.max_send_wr) sqSize
  rq : RoundsTo (atLeast64 cap.max_recv_wr) rqSize

/-! ## What the sizes are for -/

def request (max_wr : BitVec 32) : ℕ := if max_wr = 0 then 128 else max_wr.toNat

def LeastRing (max_wr size : BitVec 32) : Prop :=
  IsLeast {p : ℕ | p.isPowerOfTwo ∧ 64 ≤ p ∧ request max_wr ≤ p} size.toNat

/-- The sizes pass the checks of `MlxQP::createQP` with every pair of page aligned buffers. -/
def Accepted (sqSize rqSize : BitVec 32) : Prop :=
  ∀ (req : CreateQpReq) (a : Answers), req.sqSize = sqSize → req.rqSize = rqSize →
    req.sqBufAddr &&& 0xfff = 0 → req.rqBufAddr &&& 0xfff = 0 → createQP req a ≠ .returned .badArgument

/-- The loops end, and what they give serves the request. -/
structure Served (cap : QpCap) : Prop where
  ends : ∃ sqSize rqSize, RingSizes cap sqSize rqSize
  least : ∀ sqSize rqSize, RingSizes cap sqSize rqSize → LeastRing cap.max_send_wr sqSize ∧ LeastRing cap.max_recv_wr rqSize
  accepted : ∀ sqSize rqSize, RingSizes cap sqSize rqSize → sqSize.toNat ≤ 2 ^ 15 →
    rqSize.toNat ≤ 2 ^ 15 → Accepted sqSize rqSize

/-! ## Powers of two -/

variable {size r : BitVec 32}

theorem and_sub_one_iff (h : size ≠ 0) : size &&& (size - 1) = 0 ↔ size.toNat.isPowerOfTwo := by
  have hne : size.toNat ≠ 0 := fun h0 => h (BitVec.eq_of_toNat_eq h0)
  have hle : (1 : BitVec 32) ≤ size := by
    rw [BitVec.le_def]
    exact Nat.pos_of_ne_zero hne
  rw [← Nat.and_sub_one_eq_zero_iff_isPowerOfTwo hne, ← BitVec.toNat_inj, BitVec.toNat_and, BitVec.toNat_sub_of_le hle]
  exact Iff.rfl

theorem two_mul_le_of_lt {p q : ℕ} (hp : p.isPowerOfTwo) (hq : q.isPowerOfTwo) (h : p < q) : 2 * p ≤ q := by
  obtain ⟨k,rfl⟩ := hp
  obtain ⟨l,rfl⟩ := hq
  rw [← Nat.pow_succ']
  exact Nat.pow_le_pow_right Nat.two_pos ((Nat.pow_lt_pow_iff_right Nat.one_lt_two).mp h)

theorem two_mul_isPowerOfTwo {p : ℕ} (h : p.isPowerOfTwo) : (2 * p).isPowerOfTwo := by
  rw [Nat.mul_comm]
  exact Nat.isPowerOfTwo_mul_two_of_isPowerOfTwo h

theorem shift_one_toNat (value : BitVec 32) : (value <<< 1).toNat = 2 * value.toNat % 2 ^ 32 := by
  rw [BitVec.toNat_shiftLeft, Nat.shiftLeft_eq, Nat.pow_one, Nat.mul_comm]

/-! ## The loop -/

/-- No power of two that is large enough has been passed. -/
structure Doubling (size value : BitVec 32) : Prop where
  power : value.toNat.isPowerOfTwo
  least : ∀ p : ℕ, p.isPowerOfTwo → size.toNat ≤ p → value.toNat ≤ p

theorem Doubling.round {value : BitVec 32} (h : Doubling size value) (hsize : size.toNat ≤ 2 ^ 31) (hlt : value < size) :
    Doubling size (value <<< 1) ∧ (value <<< 1).toNat = 2 * value.toNat := by
  rw [BitVec.lt_def] at hlt
  have htop := two_mul_le_of_lt h.power ⟨31,rfl⟩ (hlt.trans_le hsize)
  have hshift : (value <<< 1).toNat = 2 * value.toNat := by
    rw [shift_one_toNat, Nat.mod_eq_of_lt (htop.trans_lt (by decide))]
  refine ⟨⟨?_,?_⟩,hshift⟩
  · rw [hshift]
    exact two_mul_isPowerOfTwo h.power
  · intro p hp hle
    rw [hshift]
    exact two_mul_le_of_lt h.power hp (hlt.trans_le hle)

/-- Up to 2^31 the loop ends with the least power of two. -/
theorem doubleRound_ends (hsize : size.toNat ≤ 2 ^ 31) :
    ∃ r, Ends (doubleRound size) 1 r ∧ IsLeast {p : ℕ | p.isPowerOfTwo ∧ size.toNat ≤ p} r.toNat := by
  have hstart : Doubling size 1 := by
    refine ⟨Nat.isPowerOfTwo_one,fun p hp _ => ?_⟩
    exact Nat.pos_of_isPowerOfTwo hp
  refine exists_ends (I := Doubling size) (fun value => size.toNat - value.toNat) ?_ ?_ hstart
  · intro value next h hround
    unfold doubleRound at hround
    split_ifs at hround with hlt
    obtain rfl := Sum.inr.inj hround
    obtain ⟨hnext,hshift⟩ := h.round hsize hlt
    rw [BitVec.lt_def] at hlt
    have hvalue := Nat.pos_of_isPowerOfTwo h.power
    exact ⟨hnext,by omega⟩
  · intro value r h hround
    unfold doubleRound at hround
    split_ifs at hround with hlt
    obtain rfl := Sum.inl.inj hround
    rw [BitVec.lt_def] at hlt
    exact ⟨⟨h.power,Nat.le_of_not_lt hlt⟩,fun p hp => h.least p hp.1 hp.2⟩

/-- Beyond 2^31 it comes to zero and stays there. -/
theorem doubleRound_not_ends (hsize : 2 ^ 31 < size.toNat) : ¬ Ends (doubleRound size) 1 r := by
  refine not_ends (I := fun value => value.toNat = 0 ∨ value.toNat.isPowerOfTwo ∧ value.toNat ≤ 2 ^ 31) ?_
    (Or.inr ⟨Nat.isPowerOfTwo_one,by decide⟩)
  intro value h
  have hle : value.toNat ≤ 2 ^ 31 := by
    rcases h with h0 | ⟨-,hle⟩
    · omega
    · exact hle
  have hlt : value < size := by
    rw [BitVec.lt_def]
    exact hle.trans_lt hsize
  refine ⟨value <<< 1,if_pos hlt,?_⟩
  rw [shift_one_toNat]
  rcases h with h0 | ⟨hpow,-⟩
  · exact Or.inl (by rw [h0]; decide)
  · by_cases htop : value.toNat = 2 ^ 31
    · exact Or.inl (by rw [htop]; decide)
    · have hnext := two_mul_le_of_lt hpow ⟨31,rfl⟩ (lt_of_le_of_ne hle htop)
      rw [Nat.mod_eq_of_lt (hnext.trans_lt (by decide))]
      exact Or.inr ⟨two_mul_isPowerOfTwo hpow,hnext⟩

/-! ## The sizes -/

theorem RoundsTo.unique {r' : BitVec 32} (h : RoundsTo size r) (h' : RoundsTo size r') : r = r' := by
  unfold RoundsTo at h h'
  split_ifs at h h' with hpow
  · exact h.unique h'
  · exact h.trans h'.symm

theorem exists_roundsTo (hsize : size.toNat ≤ 2 ^ 31) (hpos : size ≠ 0) :
    ∃ r, RoundsTo size r ∧ IsLeast {p : ℕ | p.isPowerOfTwo ∧ size.toNat ≤ p} r.toNat := by
  by_cases hpow : size &&& (size - 1) ≠ 0
  · obtain ⟨r,hr,hleast⟩ := doubleRound_ends hsize
    exact ⟨r,by rwa [RoundsTo, if_pos hpow],hleast⟩
  · refine ⟨size,by rw [RoundsTo, if_neg hpow],⟨?_,le_rfl⟩,fun p hp => hp.2⟩
    exact (and_sub_one_iff hpos).mp (not_not.mp hpow)

theorem not_roundsTo (hsize : 2 ^ 31 < size.toNat) : ¬ RoundsTo size r := by
  have hpos : size ≠ 0 := by
    rintro rfl
    cases hsize
  have hpow : size &&& (size - 1) ≠ 0 := by
    rw [Ne, and_sub_one_iff hpos]
    intro hp
    have hnext := two_mul_le_of_lt ⟨31,rfl⟩ hp hsize
    omega
  rw [RoundsTo, if_pos hpow]
  exact doubleRound_not_ends hsize

theorem atLeast64_toNat (max_wr : BitVec 32) : (atLeast64 max_wr).toNat = max 64 (request max_wr) := by
  unfold atLeast64 request
  dsimp only
  by_cases h0 : max_wr = 0
  · rw [if_pos h0, if_pos h0]
    rfl
  · rw [if_neg h0, if_neg h0]
    split_ifs with hlt
    · rw [BitVec.lt_def] at hlt
      exact (max_eq_left hlt.le).symm
    · rw [BitVec.lt_def] at hlt
      exact (max_eq_right (Nat.le_of_not_lt hlt)).symm

theorem atLeast64_ne_zero (max_wr : BitVec 32) : atLeast64 max_wr ≠ 0 := by
  intro h0
  have hmax := atLeast64_toNat max_wr
  rw [h0] at hmax
  have hle := le_max_left 64 (request max_wr)
  rw [← hmax] at hle
  cases hle

theorem leastRing_iff (max_wr : BitVec 32) : LeastRing max_wr r ↔
    IsLeast {p : ℕ | p.isPowerOfTwo ∧ (atLeast64 max_wr).toNat ≤ p} r.toNat := by
  rw [LeastRing, atLeast64_toNat]
  simp only [max_le_iff]

theorem atLeast64_le_iff (max_wr : BitVec 32) : (atLeast64 max_wr).toNat ≤ 2 ^ 31 ↔ max_wr.toNat ≤ 2 ^ 31 := by
  rw [atLeast64_toNat, max_le_iff, request]
  split_ifs with h0
  · rw [h0]
    decide
  · exact and_iff_right (by decide)

/-! ## The checks of the kernel -/

theorem ringInvalid_false {bufAddr : BitVec 64} (hpow : size.toNat.isPowerOfTwo) (hmin : 64 ≤ size.toNat)
    (haddr : bufAddr &&& 0xfff = 0) : ringInvalid size bufAddr = false := by
  have hpos : size ≠ 0 := by
    rintro rfl
    cases hmin
  have hlt : ¬ size < 64 := by
    rw [BitVec.lt_def]
    exact Nat.not_lt.mpr hmin
  have hbytes : size.toNat * 64 % 4096 = 0 := by
    obtain ⟨k,hk⟩ := hpow
    have h6 : 6 ≤ k := by
      by_contra hlt6
      have hle := Nat.pow_le_pow_right Nat.two_pos (by omega : k ≤ 5)
      omega
    obtain ⟨l,rfl⟩ := Nat.exists_eq_add_of_le h6
    rw [hk, Nat.pow_add]
    omega
  rw [ringInvalid, decide_eq_false_iff_not]
  rintro (h | h | h | h | h)
  · exact hpos h
  · exact hlt h
  · exact h haddr
  · exact h hbytes
  · exact h ((and_sub_one_iff hpos).mpr hpow)

/-- Where both rings are powers of two from 64 to 2^15, `createQP` does not find an argument to be bad. -/
theorem accepted {sqSize rqSize : BitVec 32} (hsq : sqSize.toNat.isPowerOfTwo) (hsq64 : 64 ≤ sqSize.toNat)
    (hrq : rqSize.toNat.isPowerOfTwo) (hrq64 : 64 ≤ rqSize.toNat) (hsqle : sqSize.toNat ≤ 2 ^ 15)
    (hrqle : rqSize.toNat ≤ 2 ^ 15) : Accepted sqSize rqSize := by
  have hlog : ∀ n : ℕ, 64 ≤ n → n ≤ 2 ^ 15 → ¬ Nat.log2 n > 15 := by
    intro n hn hle
    have hlt := (Nat.log2_lt (by omega : n ≠ 0)).mpr (by omega : n < 2 ^ 16)
    omega
  rintro req a rfl rfl hsqAddr hrqAddr
  have hring : ¬ (ringInvalid req.sqSize req.sqBufAddr = true ∨ ringInvalid req.rqSize req.rqBufAddr = true) := by
    rw [ringInvalid_false hsq hsq64 hsqAddr, ringInvalid_false hrq hrq64 hrqAddr]
    decide
  have hlogs : ¬ (Nat.log2 req.sqSize.toNat > 15 ∨ Nat.log2 req.rqSize.toNat > 15) :=
    not_or.mpr ⟨hlog _ hsq64 hsqle,hlog _ hrq64 hrqle⟩
  rw [createQP, if_neg hring, if_neg hlogs]
  repeat' split
  all_goals exact fun h => by cases h

/-! ## Results -/

theorem exists_leastRing {max_wr : BitVec 32} (h : max_wr.toNat ≤ 2 ^ 31) :
    ∃ r, RoundsTo (atLeast64 max_wr) r ∧ LeastRing max_wr r := by
  obtain ⟨r,hr,hleast⟩ := exists_roundsTo ((atLeast64_le_iff max_wr).mpr h) (atLeast64_ne_zero max_wr)
  exact ⟨r,hr,(leastRing_iff max_wr).mpr hleast⟩

theorem RoundsTo.le {max_wr : BitVec 32} (h : RoundsTo (atLeast64 max_wr) r) : max_wr.toNat ≤ 2 ^ 31 := by
  rw [← atLeast64_le_iff]
  exact Nat.le_of_not_lt (fun hlt => not_roundsTo hlt h)

theorem RoundsTo.leastRing {max_wr : BitVec 32} (h : RoundsTo (atLeast64 max_wr) r) : LeastRing max_wr r := by
  obtain ⟨r',hr',hleast⟩ := exists_leastRing h.le
  rwa [h.unique hr']

/-- The request is served exactly where neither number is beyond 2^31. -/
theorem served_iff (cap : QpCap) : Served cap ↔ cap.max_send_wr.toNat ≤ 2 ^ 31 ∧ cap.max_recv_wr.toNat ≤ 2 ^ 31 := by
  constructor
  · intro h
    obtain ⟨sqSize,rqSize,hsq,hrq⟩ := h.ends
    exact ⟨hsq.le,hrq.le⟩
  · rintro ⟨hsend,hrecv⟩
    obtain ⟨sqSize,hsq,-⟩ := exists_leastRing hsend
    obtain ⟨rqSize,hrq,-⟩ := exists_leastRing hrecv
    refine ⟨⟨sqSize,rqSize,hsq,hrq⟩,fun sqSize rqSize h => ⟨h.sq.leastRing,h.rq.leastRing⟩,fun sqSize rqSize h => ?_⟩
    obtain ⟨hsqPow,hsq64,-⟩ := h.sq.leastRing.1
    obtain ⟨hrqPow,hrq64,-⟩ := h.rq.leastRing.1
    exact accepted hsqPow hsq64 hrqPow hrq64

/-- 2^31 + 1 entries for sending: `value` is zero after 32 rounds. -/
theorem not_served_large : ¬ Served ⟨0x80000001,1⟩ := by
  intro h
  obtain ⟨sqSize,rqSize,hsq,-⟩ := h.ends
  exact not_roundsTo (by decide) hsq

end AppleMCX.QueueSizes
