import AppleMCX.Interaction.Bytes
import Mathlib.Data.BitVec
import Mathlib.Data.Nat.Bitwise

/-! # Bit fields in network order

Bits of a memory counted from the most significant bit of byte zero, and fields of
consecutive bits that are written one after the other.
-/
namespace Interaction

/-! ## Bits -/

def bitAt (bytes : ℕ → Byte) (k : ℕ) : Bool := (bytes (k / 8)).getLsbD (7 - k % 8)

def bitMask (k : ℕ) : Byte := BitVec.twoPow 8 (7 - k % 8)

def setBit (k : ℕ) (b : Bool) (bytes : ℕ → Byte) : ℕ → Byte :=
  Function.update bytes (k / 8) (if b then bytes (k / 8) ||| bitMask k else bytes (k / 8) &&& ~~~bitMask k)

theorem bitAt_setBit (k : ℕ) (b : Bool) (bytes : ℕ → Byte) (j : ℕ) :
    bitAt (setBit k b bytes) j = if j = k then b else bitAt bytes j := by
  unfold bitAt setBit
  by_cases hbyte : j / 8 = k / 8
  · have hmask : (bitMask k).getLsbD (7 - j % 8) = decide (j = k) := by
      have hiff : 7 - k % 8 = 7 - j % 8 ↔ j = k := by omega
      rw [bitMask, BitVec.getLsbD_twoPow, decide_eq_true (by omega : 7 - k % 8 < 8), Bool.true_and, decide_eq_decide]
      exact hiff
    have hlt : 7 - j % 8 < 8 := by omega
    rw [hbyte, Function.update_self]
    cases b with
    | true =>
      rw [if_pos rfl, BitVec.getLsbD_or, hmask]
      by_cases hj : j = k <;> simp only [hj, decide_true, decide_false, Bool.or_true, Bool.or_false, ↓reduceIte]
    | false =>
      rw [if_neg Bool.false_ne_true, BitVec.getLsbD_and, BitVec.getLsbD_not, hmask, decide_eq_true hlt, Bool.true_and]
      by_cases hj : j = k <;> simp only [hj, decide_true, decide_false, Bool.not_true, Bool.not_false, Bool.and_false,
        Bool.and_true, ↓reduceIte]
  · have hj : j ≠ k := by rintro rfl; exact hbyte rfl
    rw [Function.update_of_ne hbyte, if_neg hj]

theorem byte_ext {bytes bytes' : ℕ → Byte} {a : ℕ} (h : ∀ k, k / 8 = a → bitAt bytes k = bitAt bytes' k) :
    bytes a = bytes' a := by
  apply BitVec.eq_of_getLsbD_eq
  intro i hi
  have hk := h (8 * a + (7 - i)) (by omega)
  have hbyte : (8 * a + (7 - i)) / 8 = a := by omega
  have hbit : 7 - (8 * a + (7 - i)) % 8 = i := by omega
  rwa [bitAt, bitAt, hbyte, hbit] at hk

/-- The bits `f 0`, …, `f (n - 1)` from bit `offset` on. -/
def writeBits (offset : ℕ) (f : ℕ → Bool) (n : ℕ) (bytes : ℕ → Byte) : ℕ → Byte :=
  (List.range n).foldl (fun bytes i => setBit (offset + i) (f i) bytes) bytes

theorem bitAt_writeBits (offset : ℕ) (f : ℕ → Bool) (n : ℕ) (bytes : ℕ → Byte) (k : ℕ) :
    bitAt (writeBits offset f n bytes) k =
      if offset ≤ k ∧ k < offset + n then f (k - offset) else bitAt bytes k := by
  induction n with
  | zero =>
    rw [if_neg (by omega)]
    rfl
  | succ n ih =>
    have hlast : writeBits offset f (n + 1) bytes = setBit (offset + n) (f n) (writeBits offset f n bytes) := by
      unfold writeBits
      rw [List.range_succ, List.foldl_append]
      rfl
    rw [hlast, bitAt_setBit, ih]
    by_cases hk : k = offset + n
    · rw [if_pos hk, if_pos (by omega), hk, Nat.add_sub_cancel_left]
    · rw [if_neg hk]
      refine if_congr ?_ rfl rfl
      omega

/-! ## Fields -/

/-- The low `width` bits of the value, most significant first. -/
def putField (offset width value : ℕ) (bytes : ℕ → Byte) : ℕ → Byte :=
  writeBits offset (fun i => value.testBit (width - 1 - i)) width bytes

def getField (offset width : ℕ) (bytes : ℕ → Byte) : ℕ :=
  (List.range width).foldl (fun value i => 2 * value + (bitAt bytes (offset + i)).toNat) 0

theorem getField_succ (offset width : ℕ) (bytes : ℕ → Byte) :
    getField offset (width + 1) bytes = 2 * getField offset width bytes + (bitAt bytes (offset + width)).toNat := by
  unfold getField
  rw [List.range_succ, List.foldl_append]
  rfl

theorem getField_lt (offset width : ℕ) (bytes : ℕ → Byte) : getField offset width bytes < 2 ^ width := by
  induction width with
  | zero => exact Nat.one_pos
  | succ width ih =>
    have hbit := Bool.toNat_lt (bitAt bytes (offset + width))
    rw [getField_succ, Nat.pow_succ]
    omega

/-- A field reads as the number whose bits it holds. -/
theorem getField_eq {offset width value : ℕ} {bytes : ℕ → Byte}
    (h : ∀ i, i < width → bitAt bytes (offset + i) = value.testBit (width - 1 - i)) :
    getField offset width bytes = value % 2 ^ width := by
  induction width generalizing value with
  | zero => rw [Nat.pow_zero, Nat.mod_one]; rfl
  | succ width ih =>
    have hhigh : getField offset width bytes = value / 2 % 2 ^ width := by
      refine ih (fun i hi => ?_)
      rw [h i (by omega), Nat.testBit_div_two]
      congr 1
      omega
    have hlow : (bitAt bytes (offset + width)).toNat = value % 2 := by
      rw [h width (by omega), Nat.add_sub_cancel, Nat.sub_self, Nat.testBit_zero]
      rcases Nat.mod_two_eq_zero_or_one value with h₂ | h₂ <;> rw [h₂] <;> rfl
    rw [getField_succ, hhigh, hlow, Nat.pow_succ, Nat.mul_comm (2 ^ width), Nat.mod_mul]
    omega

theorem getField_byte (bytes : ℕ → Byte) (a : ℕ) : getField (8 * a) 8 bytes = (bytes a).toNat := by
  have hbits : ∀ i, i < 8 → bitAt bytes (8 * a + i) = (bytes a).toNat.testBit (8 - 1 - i) := by
    intro i hi
    have hbyte : (8 * a + i) / 8 = a := by omega
    have hbit : 7 - (8 * a + i) % 8 = 8 - 1 - i := by omega
    rw [bitAt, hbyte, hbit, BitVec.testBit_toNat]
  rw [getField_eq hbits, Nat.mod_eq_of_lt (bytes a).isLt]

/-! ## Laws of one field -/

theorem bytes_ext {bytes bytes' : ℕ → Byte} (h : ∀ k, bitAt bytes k = bitAt bytes' k) : bytes = bytes' :=
  funext (fun _ => byte_ext (fun k _ => h k))

theorem bitAt_putField (offset width value : ℕ) (bytes : ℕ → Byte) (k : ℕ) :
    bitAt (putField offset width value bytes) k =
      if offset ≤ k ∧ k < offset + width then value.testBit (width - 1 - (k - offset)) else bitAt bytes k :=
  bitAt_writeBits offset _ width bytes k

theorem bitAt_putField_outside {offset width k : ℕ} (h : k < offset ∨ offset + width ≤ k)
    (value : ℕ) (bytes : ℕ → Byte) :
    bitAt (putField offset width value bytes) k = bitAt bytes k := by
  rw [bitAt_putField, if_neg (by omega)]

theorem getField_putField (offset width value : ℕ) (bytes : ℕ → Byte) :
    getField offset width (putField offset width value bytes) = value % 2 ^ width := by
  refine getField_eq (fun i hi => ?_)
  rw [bitAt_putField, if_pos (by omega), Nat.add_sub_cancel_left]

theorem getField_congr {offset width : ℕ} {bytes bytes' : ℕ → Byte}
    (h : ∀ i, i < width → bitAt bytes (offset + i) = bitAt bytes' (offset + i)) :
    getField offset width bytes = getField offset width bytes' := by
  induction width with
  | zero => rfl
  | succ width ih => rw [getField_succ, getField_succ, ih (fun i hi => h i (by omega)), h width (by omega)]

theorem getField_putField_apart {offset width offset' width' : ℕ}
    (h : offset + width ≤ offset' ∨ offset' + width' ≤ offset) (value : ℕ) (bytes : ℕ → Byte) :
    getField offset' width' (putField offset width value bytes) = getField offset' width' bytes :=
  getField_congr (fun i hi => bitAt_putField_outside (by omega) value bytes)

theorem putField_comm {offset width offset' width' : ℕ} (h : offset + width ≤ offset' ∨ offset' + width' ≤ offset)
    (value value' : ℕ) (bytes : ℕ → Byte) : putField offset width value (putField offset' width' value' bytes) =
      putField offset' width' value' (putField offset width value bytes) := by
  refine bytes_ext (fun k => ?_)
  rw [bitAt_putField, bitAt_putField, bitAt_putField, bitAt_putField]
  by_cases hk : offset ≤ k ∧ k < offset + width
  · rw [if_pos hk, if_pos hk, if_neg (by omega)]
  · rw [if_neg hk, if_neg hk]

theorem putField_putField (offset width value value' : ℕ) (bytes : ℕ → Byte) :
    putField offset width value (putField offset width value' bytes) = putField offset width value bytes := by
  refine bytes_ext (fun k => ?_)
  rw [bitAt_putField, bitAt_putField, bitAt_putField]
  by_cases hk : offset ≤ k ∧ k < offset + width
  · rw [if_pos hk, if_pos hk]
  · rw [if_neg hk, if_neg hk, if_neg hk]

theorem testBit_getField {width i : ℕ} (offset : ℕ) (bytes : ℕ → Byte) (hi : i < width) :
    (getField offset width bytes).testBit (width - 1 - i) = bitAt bytes (offset + i) := by
  induction width with
  | zero => cases hi
  | succ width ih =>
    have hhalf : (2 * getField offset width bytes + (bitAt bytes (offset + width)).toNat) / 2 = getField offset width bytes := by
      have hbit := Bool.toNat_lt (bitAt bytes (offset + width))
      omega
    rw [getField_succ]
    by_cases he : i = width
    · rw [he, Nat.add_sub_cancel, Nat.sub_self, Nat.testBit_zero, Nat.mul_add_mod]
      cases bitAt bytes (offset + width) <;> rfl
    · rw [show width + 1 - 1 - i = width - 1 - i + 1 by omega, Nat.testBit_succ, hhalf]
      exact ih (by omega)

theorem putField_getField (offset width : ℕ) (bytes : ℕ → Byte) :
    putField offset width (getField offset width bytes) bytes = bytes := by
  refine bytes_ext (fun k => ?_)
  rw [bitAt_putField]
  by_cases hk : offset ≤ k ∧ k < offset + width
  · rw [if_pos hk, testBit_getField offset bytes (by omega : k - offset < width), Nat.add_sub_cancel' hk.1]
  · rw [if_neg hk]

/-- A field of whole bytes holds the number in network order. -/
theorem putField_bytes (a n value : ℕ) (bytes : ℕ → Byte) :
    (List.range n).map (fun i => putField (8 * a) (8 * n) value bytes (a + i)) = beBytes n value := by
  have hbyte : ∀ i, i < n → putField (8 * a) (8 * n) value bytes (a + i) = BitVec.ofNat 8 (value / 256 ^ (n - 1 - i)) := by
    intro i hi
    apply BitVec.eq_of_getLsbD_eq
    intro j hj
    have hread := bitAt_putField (8 * a) (8 * n) value bytes (8 * (a + i) + (7 - j))
    have hpos : 8 * n - 1 - (8 * (a + i) + (7 - j) - 8 * a) = j + 8 * (n - 1 - i) := by omega
    rw [if_pos (by omega), hpos, bitAt, show (8 * (a + i) + (7 - j)) / 8 = a + i by omega,
      show 7 - (8 * (a + i) + (7 - j)) % 8 = j by omega] at hread
    rw [hread, BitVec.getLsbD_ofNat, decide_eq_true hj, Bool.true_and, show 256 ^ (n - 1 - i) = 2 ^ (8 * (n - 1 - i)) from
      (pow_mul 2 8 _).symm, Nat.testBit_div_two_pow]
  rw [List.map_congr_left (fun i hi => hbyte i (List.mem_range.mp hi))]
  exact (beBytes_eq n value).symm

structure Field where
  offset : ℕ
  width : ℕ
  value : ℕ

namespace Field

def put (f : Field) (bytes : ℕ → Byte) : ℕ → Byte := putField f.offset f.width f.value bytes

def Covers (f : Field) (k : ℕ) : Prop := f.offset ≤ k ∧ k < f.offset + f.width

def Apart (f g : Field) : Prop := f.offset + f.width ≤ g.offset ∨ g.offset + g.width ≤ f.offset

theorem bitAt_put_of_not_covers {f : Field} {k : ℕ} (h : ¬ f.Covers k) (bytes : ℕ → Byte) :
    bitAt (f.put bytes) k = bitAt bytes k := by
  rw [put, putField, bitAt_writeBits]
  exact if_neg h

theorem Apart.not_covers {f g : Field} (h : f.Apart g) {i : ℕ} (hi : i < f.width) : ¬ g.Covers (f.offset + i) := by
  unfold Apart at h
  unfold Covers
  omega

/-- `n` fields of one width, one behind the other. -/
def array (offset width : ℕ) (value : ℕ → ℕ) (n : ℕ) : List Field :=
  (List.range n).map (fun i => ⟨offset + width * i,width,value i⟩)

theorem array_apart (offset width : ℕ) (value : ℕ → ℕ) (n : ℕ) : (array offset width value n).Pairwise Apart := by
  rw [array, List.pairwise_map]
  refine List.pairwise_lt_range.imp (fun {i j} hij => ?_)
  have hle : width * (i + 1) ≤ width * j := Nat.mul_le_mul_left width hij
  rw [Nat.mul_succ] at hle
  unfold Apart
  dsimp only
  omega

end Field

/-! ## Several fields -/

def putFields (fields : List Field) (bytes : ℕ → Byte) : ℕ → Byte := fields.foldl (fun bytes f => f.put bytes) bytes

theorem bitAt_putFields_of_not_covers {fields : List Field} {k : ℕ}
    (h : ∀ f ∈ fields, ¬ f.Covers k) (bytes : ℕ → Byte) :
    bitAt (putFields fields bytes) k = bitAt bytes k := by
  induction fields generalizing bytes with
  | nil => rfl
  | cons f fields ih =>
    rw [putFields, List.foldl_cons]
    exact (ih (fun g hg => h g (List.mem_cons_of_mem f hg)) _).trans
      (Field.bitAt_put_of_not_covers (h f List.mem_cons_self) bytes)

/-- A byte with no bit of a field is left alone. -/
theorem putFields_of_beyond {fields : List Field} {a : ℕ} (h : ∀ f ∈ fields, f.offset + f.width ≤ 8 * a)
    (bytes : ℕ → Byte) : putFields fields bytes a = bytes a := by
  refine byte_ext (fun k hk => bitAt_putFields_of_not_covers (fun f hf hcovers => ?_) bytes)
  have hend := h f hf
  unfold Field.Covers at hcovers
  omega

/-- Where no two fields share a bit, each of them holds its value at the end. -/
theorem getField_putFields {fields : List Field} (h : fields.Pairwise Field.Apart) {f : Field} (hf : f ∈ fields)
    (bytes : ℕ → Byte) : getField f.offset f.width (putFields fields bytes) = f.value % 2 ^ f.width := by
  induction fields generalizing bytes with
  | nil => cases hf
  | cons g fields ih =>
    obtain ⟨happart,hrest⟩ := List.pairwise_cons.mp h
    rcases List.mem_cons.mp hf with rfl | hf
    · refine getField_eq (fun i hi => ?_)
      have hlater : ∀ g ∈ fields, ¬ g.Covers (f.offset + i) := fun g hg => (happart g hg).not_covers hi
      rw [putFields, List.foldl_cons, ← putFields, bitAt_putFields_of_not_covers hlater, Field.put, putField,
        bitAt_writeBits, if_pos (by omega), Nat.add_sub_cancel_left]
    · exact ih hrest hf _

end Interaction
