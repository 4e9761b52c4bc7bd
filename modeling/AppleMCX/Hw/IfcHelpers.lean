import AppleMCX.Interaction.BitFields
import AppleMCX.Interaction.LapRing

/-! # Portable bit field helpers

`MlxIfcHelpers.hpp`: offsets count bits from the most significant bit of byte zero of a buffer.
-/
namespace AppleMCX.Hw
open Interaction

/-- The bytes from a `void *` on. -/
abbrev Buffer := ℕ → Byte

def mlxSetBits (bytes : Buffer) (bitOffset bitWidth : ℕ) (value : BitVec 64) : Buffer :=
  (List.range bitWidth).foldl (fun bytes i =>
    let dstBit := bitOffset + i
    let mask : Byte := 1#8 <<< (7 - dstBit % 8)
    let srcMask : BitVec 64 := 1#64 <<< (bitWidth - i - 1)
    if value &&& srcMask ≠ 0 then Function.update bytes (dstBit / 8) (bytes (dstBit / 8) ||| mask)
    else Function.update bytes (dstBit / 8) (bytes (dstBit / 8) &&& ~~~mask)) bytes

def mlxGetBits (bytes : Buffer) (bitOffset bitWidth : ℕ) : BitVec 64 :=
  (List.range bitWidth).foldl (fun value i =>
    let srcBit := bitOffset + i
    value <<< 1 ||| ((bytes (srcBit / 8) >>> (7 - srcBit % 8)) &&& 1#8).setWidth 64) 0

/-- A call of `mlxSetBits`. -/
structure BitField where
  bitOffset : ℕ
  bitWidth : ℕ
  value : ℕ
  deriving DecidableEq, Repr

/-- The calls of `mlxSetBits`, first to last. -/
def setFields (fields : List BitField) (bytes : Buffer) : Buffer :=
  fields.foldl (fun bytes f => mlxSetBits bytes f.bitOffset f.bitWidth (BitVec.ofNat 64 f.value)) bytes

/-- The bits that `mlxSetBits` writes are those of the value. -/
theorem mlxSetBits_eq (bytes : Buffer) (bitOffset bitWidth : ℕ) (value : BitVec 64) :
    mlxSetBits bytes bitOffset bitWidth value = putField bitOffset bitWidth value.toNat bytes := by
  unfold mlxSetBits putField writeBits
  congr 1
  funext bytes i
  have hbit : value &&& 1#64 <<< (bitWidth - i - 1) ≠ 0 ↔ value.toNat.testBit (bitWidth - 1 - i) = true := by
    rw [Nat.sub_right_comm, ← BitVec.twoPow_eq, BitVec.and_twoPow, BitVec.testBit_toNat]
    cases hb : value.getLsbD (bitWidth - 1 - i) with
    | true =>
      have hlt := BitVec.lt_of_getLsbD hb
      have hone : (BitVec.twoPow 64 (bitWidth - 1 - i)).getLsbD (bitWidth - 1 - i) = true := by
        rw [BitVec.getLsbD_twoPow, decide_eq_true hlt, decide_eq_true rfl, Bool.true_and]
      refine iff_of_true (fun hz => ?_) rfl
      rw [if_pos rfl] at hz
      rw [hz] at hone
      simp at hone
    | false => exact iff_of_false (fun h => h rfl) Bool.false_ne_true
  unfold setBit
  by_cases hb : value.toNat.testBit (bitWidth - 1 - i) = true
  · rw [if_pos (hbit.mpr hb), if_pos hb]
    rfl
  · rw [if_neg (fun h => hb (hbit.mp h)), if_neg hb]
    rfl

theorem bitAt_toNat (bytes : Buffer) (k : ℕ) :
    (bitAt bytes k).toNat = (bytes (k / 8) >>> (7 - k % 8) &&& 1#8).toNat :=
  (shift_and_one (bytes (k / 8)) (by omega)).symm

theorem ofNat_shift_or (n : ℕ) (b : Bool) :
    BitVec.ofNat 64 n <<< 1 ||| BitVec.ofNat 64 b.toNat = BitVec.ofNat 64 (2 * n + b.toNat) := by
  apply BitVec.eq_of_getLsbD_eq
  intro i hi
  rw [BitVec.getLsbD_or, BitVec.getLsbD_shiftLeft, BitVec.getLsbD_ofNat, BitVec.getLsbD_ofNat, BitVec.getLsbD_ofNat]
  cases i with
  | zero =>
    cases b <;> simp [Nat.testBit_zero]
  | succ i =>
    have hhalf : (2 * n + b.toNat) / 2 = n := by cases b <;> simp; omega
    have hbit : b.toNat.testBit (i + 1) = false := by cases b <;> simp [Nat.testBit_succ]
    have hlt : i < 64 := by omega
    rw [hbit, Nat.testBit_succ (2 * n + b.toNat), hhalf]
    simp [hi, hlt]

theorem mlxGetBits_eq (bytes : Buffer) (bitOffset bitWidth : ℕ) :
    mlxGetBits bytes bitOffset bitWidth = BitVec.ofNat 64 (getField bitOffset bitWidth bytes) := by
  induction bitWidth with
  | zero => rfl
  | succ bitWidth ih =>
    have hstep : mlxGetBits bytes bitOffset (bitWidth + 1) = mlxGetBits bytes bitOffset bitWidth <<< 1 |||
        ((bytes ((bitOffset + bitWidth) / 8) >>> (7 - (bitOffset + bitWidth) % 8)) &&& 1#8).setWidth 64 := by
      unfold mlxGetBits
      rw [List.range_succ, List.foldl_append]
      rfl
    have hlow : ((bytes ((bitOffset + bitWidth) / 8) >>> (7 - (bitOffset + bitWidth) % 8)) &&& 1#8).setWidth 64 =
        BitVec.ofNat 64 (bitAt bytes (bitOffset + bitWidth)).toNat := by
      rw [← BitVec.ofNat_toNat, ← bitAt_toNat]
    rw [hstep, ih, hlow, getField_succ, ofNat_shift_or]

/-! ## Images -/

def BitField.field (f : BitField) : Field := ⟨f.bitOffset,f.bitWidth,f.value⟩

/-- Each value fits its field, and no two fields share a bit. -/
structure Layout (fields : List BitField) : Prop where
  width : ∀ f ∈ fields, f.bitWidth ≤ 64
  fits : ∀ f ∈ fields, f.value < 2 ^ f.bitWidth
  apart : fields.Pairwise (fun f g => f.field.Apart g.field)

theorem setFields_eq {fields : List BitField} (h : ∀ f ∈ fields, f.bitWidth ≤ 64) (bytes : Buffer) :
    setFields fields bytes = putFields (fields.map BitField.field) bytes := by
  induction fields generalizing bytes with
  | nil => rfl
  | cons f fields ih =>
    have hput : mlxSetBits bytes f.bitOffset f.bitWidth (BitVec.ofNat 64 f.value) = f.field.put bytes := by
      have hw := h f List.mem_cons_self
      rw [mlxSetBits_eq, Field.put, putField, putField, BitField.field]
      refine congrArg (fun g => writeBits f.bitOffset g f.bitWidth bytes) (funext (fun i => ?_))
      rw [BitVec.toNat_ofNat, Nat.testBit_mod_two_pow, decide_eq_true (by omega), Bool.true_and]
    rw [setFields, List.foldl_cons, hput, ← setFields, ih (fun g hg => h g (List.mem_cons_of_mem f hg))]
    rfl

variable {fields : List BitField}

/-- What stands in a field is read back. -/
theorem Layout.read (h : Layout fields) {bitOffset bitWidth value : ℕ}
    (hf : ⟨bitOffset,bitWidth,value⟩ ∈ fields) (bytes : Buffer) :
    mlxGetBits (setFields fields bytes) bitOffset bitWidth = BitVec.ofNat 64 value := by
  have hread : getField bitOffset bitWidth (putFields (fields.map BitField.field) bytes) = value % 2 ^ bitWidth :=
    getField_putFields (List.pairwise_map.mpr h.apart) (List.mem_map_of_mem (f := BitField.field) hf) bytes
  have hvalue : value < 2 ^ bitWidth := h.fits _ hf
  rw [mlxGetBits_eq, setFields_eq h.width, hread, Nat.mod_eq_of_lt hvalue]

/-- Nothing but the fields has changed, and no byte from `size` on. -/
structure Frame (fields : List BitField) (size : ℕ) (before after : Buffer) : Prop where
  outside : ∀ k, (∀ f ∈ fields, k < f.bitOffset ∨ f.bitOffset + f.bitWidth ≤ k) → bitAt after k = bitAt before k
  beyond : ∀ a, size ≤ a → after a = before a

theorem Layout.frame (h : Layout fields) {size : ℕ} (hend : ∀ f ∈ fields, f.bitOffset + f.bitWidth ≤ 8 * size)
    (bytes : Buffer) :
    Frame fields size bytes (setFields fields bytes) := by
  constructor
  · intro k hk
    rw [setFields_eq h.width]
    refine bitAt_putFields_of_not_covers (fun f hf hcovers => ?_) bytes
    obtain ⟨g,hg,rfl⟩ := List.mem_map.mp hf
    exact (hk g hg).elim (Nat.not_lt.mpr hcovers.1) (Nat.not_le.mpr hcovers.2)
  · intro a ha
    rw [setFields_eq h.width]
    refine putFields_of_beyond (fun f hf => ?_) bytes
    obtain ⟨g,hg,rfl⟩ := List.mem_map.mp hf
    exact (hend g hg).trans (Nat.mul_le_mul_left 8 ha)

/-- The fields of `tail` stand in a range that the others leave free. -/
theorem Layout.append {tail : List BitField} {first last : ℕ} (h : Layout fields) (ht : Layout tail)
    (hfree : ∀ f ∈ fields, f.bitOffset + f.bitWidth ≤ first ∨ last ≤ f.bitOffset)
    (hrange : ∀ f ∈ tail, first ≤ f.bitOffset ∧ f.bitOffset + f.bitWidth ≤ last) : Layout (fields ++ tail) where
  width := fun f hf => (List.mem_append.mp hf).elim (h.width f) (ht.width f)
  fits := fun f hf => (List.mem_append.mp hf).elim (h.fits f) (ht.fits f)
  apart := by
    refine List.pairwise_append.mpr ⟨h.apart,ht.apart,fun f hf g hg => ?_⟩
    rcases hfree f hf with hf' | hf'
    · exact Or.inl (hf'.trans (hrange g hg).1)
    · exact Or.inr ((hrange g hg).2.trans hf')

theorem Layout.perm {fields' : List BitField} (h : Layout fields) (hp : fields.Perm fields') : Layout fields' where
  width := fun f hf => h.width f (hp.mem_iff.mpr hf)
  fits := fun f hf => h.fits f (hp.mem_iff.mpr hf)
  apart := hp.pairwise h.apart (fun hfg => hfg.symm)

theorem Layout.sublist {fields' : List BitField} (h : Layout fields) (hs : fields'.Sublist fields) :
    Layout fields' where
  width := fun f hf => h.width f (hs.subset hf)
  fits := fun f hf => h.fits f (hs.subset hf)
  apart := h.apart.sublist hs

/-- The loop that writes one address after the other. -/
def pageFields (bitOffset : ℕ) (pages : ℕ → BitVec 64) (count : ℕ) : List BitField :=
  (List.range count).map (fun i => ⟨bitOffset + i * 64,64,(pages i).toNat⟩)

theorem mem_pageFields {bitOffset count : ℕ} {pages : ℕ → BitVec 64}
    {f : BitField} (h : f ∈ pageFields bitOffset pages count) :
    ∃ i, i < count ∧ f = ⟨bitOffset + i * 64,64,(pages i).toNat⟩ := by
  obtain ⟨i,hi,rfl⟩ := List.mem_map.mp h
  exact ⟨i,List.mem_range.mp hi,rfl⟩

theorem pageFields_range {bitOffset count : ℕ} {pages : ℕ → BitVec 64} {f : BitField}
    (h : f ∈ pageFields bitOffset pages count) :
    bitOffset ≤ f.bitOffset ∧ f.bitOffset + f.bitWidth ≤ bitOffset + 64 * count := by
  obtain ⟨i,hi,rfl⟩ := mem_pageFields h
  dsimp only
  omega

theorem pageFields_layout (bitOffset : ℕ) (pages : ℕ → BitVec 64) (count : ℕ) :
    Layout (pageFields bitOffset pages count) where
  width := by
    intro f hf
    obtain ⟨i,_,rfl⟩ := mem_pageFields hf
    exact le_rfl
  fits := by
    intro f hf
    obtain ⟨i,_,rfl⟩ := mem_pageFields hf
    exact (pages i).isLt
  apart := by
    have harray : (pageFields bitOffset pages count).map BitField.field =
        Field.array bitOffset 64 (fun i => (pages i).toNat) count := by
      rw [pageFields, Field.array, List.map_map]
      exact List.map_congr_left (fun i _ => by simp only [Function.comp_apply, BitField.field, Nat.mul_comm])
    rw [← List.pairwise_map (R := Field.Apart), harray]
    exact Field.array_apart _ _ _ _

end AppleMCX.Hw
