import AppleMCX.Hw.IfcHelpers

/-! # Laws of the bit field helpers

What `mlxSetBits` and `mlxGetBits` do for one field, for two fields that share no bit, and for
two writes to the same field.
-/
namespace AppleMCX.Hw
open Interaction

def FieldsApart (bitOffset bitWidth bitOffset' bitWidth' : ℕ) : Prop :=
  bitOffset + bitWidth ≤ bitOffset' ∨ bitOffset' + bitWidth' ≤ bitOffset

/-- The laws of a write of `value` to a field of `bytes`. -/
structure FieldLaws (bytes : Buffer) (bitOffset bitWidth : ℕ) (value : BitVec 64) : Prop where
  read : mlxGetBits (mlxSetBits bytes bitOffset bitWidth value) bitOffset bitWidth = BitVec.ofNat 64 (value.toNat % 2 ^ bitWidth)
  outside : ∀ k, k < bitOffset ∨ bitOffset + bitWidth ≤ k →
    bitAt (mlxSetBits bytes bitOffset bitWidth value) k = bitAt bytes k
  /-- Nothing behind the end of a buffer that holds the field. -/
  within : ∀ size, bitOffset + bitWidth ≤ 8 * size → ∀ a, size ≤ a →
    mlxSetBits bytes bitOffset bitWidth value a = bytes a
  readDisjoint : ∀ bitOffset' bitWidth', FieldsApart bitOffset bitWidth bitOffset' bitWidth' →
    mlxGetBits (mlxSetBits bytes bitOffset bitWidth value) bitOffset' bitWidth' = mlxGetBits bytes bitOffset' bitWidth'
  commute : ∀ bitOffset' bitWidth' value', FieldsApart bitOffset bitWidth bitOffset' bitWidth' →
    mlxSetBits (mlxSetBits bytes bitOffset' bitWidth' value') bitOffset bitWidth value =
      mlxSetBits (mlxSetBits bytes bitOffset bitWidth value) bitOffset' bitWidth' value'
  overwrite : ∀ value', mlxSetBits (mlxSetBits bytes bitOffset bitWidth value') bitOffset bitWidth value =
    mlxSetBits bytes bitOffset bitWidth value
  writeBack : mlxSetBits bytes bitOffset bitWidth (mlxGetBits bytes bitOffset bitWidth) = bytes
  /-- A field of 2, 4 or 8 whole bytes. -/
  network : ∀ a n, n = 2 ∨ n = 4 ∨ n = 8 → bitOffset = 8 * a → bitWidth = 8 * n →
    (List.range n).map (fun i => mlxSetBits bytes bitOffset bitWidth value (a + i)) = beBytes n value.toNat

variable {bytes : Buffer} {bitOffset bitWidth : ℕ}

/-- At most 64 bits are read back whole. -/
theorem mlxGetBits_toNat (h : bitWidth ≤ 64) (bytes : Buffer) (bitOffset : ℕ) :
    (mlxGetBits bytes bitOffset bitWidth).toNat = getField bitOffset bitWidth bytes := by
  have hlt := getField_lt bitOffset bitWidth bytes
  have hpow : 2 ^ bitWidth ≤ 2 ^ 64 := Nat.pow_le_pow_right Nat.two_pos h
  rw [mlxGetBits_eq, BitVec.toNat_ofNat, Nat.mod_eq_of_lt (hlt.trans_le hpow)]

theorem mlxGetBits_disjoint {bitOffset' bitWidth' : ℕ} (h : FieldsApart bitOffset bitWidth bitOffset' bitWidth')
    (bytes : Buffer) (value : BitVec 64) :
    mlxGetBits (mlxSetBits bytes bitOffset bitWidth value) bitOffset' bitWidth' = mlxGetBits bytes bitOffset' bitWidth' := by
  rw [mlxGetBits_eq, mlxGetBits_eq, mlxSetBits_eq, getField_putField_apart h]

theorem mlxSetBits_comm {bitOffset' bitWidth' : ℕ} (h : FieldsApart bitOffset bitWidth bitOffset' bitWidth')
    (bytes : Buffer) (value value' : BitVec 64) :
    mlxSetBits (mlxSetBits bytes bitOffset' bitWidth' value') bitOffset bitWidth value =
      mlxSetBits (mlxSetBits bytes bitOffset bitWidth value) bitOffset' bitWidth' value' := by
  rw [mlxSetBits_eq, mlxSetBits_eq, mlxSetBits_eq, mlxSetBits_eq, putField_comm h]

theorem mlxSetBits_writeBack (h : bitWidth ≤ 64) (bytes : Buffer) (bitOffset : ℕ) :
    mlxSetBits bytes bitOffset bitWidth (mlxGetBits bytes bitOffset bitWidth) = bytes := by
  rw [mlxSetBits_eq, mlxGetBits_toNat h, putField_getField]

theorem mlxSetBits_laws (h : bitWidth ≤ 64) (bytes : Buffer) (bitOffset : ℕ) (value : BitVec 64) :
    FieldLaws bytes bitOffset bitWidth value where
  read := by rw [mlxGetBits_eq, mlxSetBits_eq, getField_putField]
  outside := by
    intro k hk
    rw [mlxSetBits_eq, bitAt_putField_outside hk]
  within := by
    intro size hend a ha
    rw [mlxSetBits_eq]
    exact byte_ext (fun k hk => bitAt_putField_outside (by omega) value.toNat bytes)
  readDisjoint := fun _ _ hapart => mlxGetBits_disjoint hapart bytes value
  commute := fun _ _ value' hapart => mlxSetBits_comm hapart bytes value value'
  overwrite := by
    intro value'
    rw [mlxSetBits_eq, mlxSetBits_eq, mlxSetBits_eq, putField_putField]
  writeBack := mlxSetBits_writeBack h bytes bitOffset
  network := by
    rintro a n - rfl rfl
    rw [mlxSetBits_eq]
    exact putField_bytes a n value.toNat bytes

/-- A field of seven bits across two bytes. -/
theorem mlxSetBits_laws_unaligned : FieldLaws (fun _ => 0xff) 5 7 0x1a5#64 :=
  mlxSetBits_laws (by decide) _ 5 _

end AppleMCX.Hw
