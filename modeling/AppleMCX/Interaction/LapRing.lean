import Mathlib.Data.Nat.ModEq
import Mathlib.Data.Nat.Bitwise
import Mathlib.Logic.Function.Basic
import Mathlib.Tactic.Common

/-! # Rings whose entries tell their lap

A producer writes entry number `p` into slot `p % size`. A consumer that is at most one lap
behind finds out from the slot alone whether the entry it waits for has been written: the
entry carries the parity of its lap.
-/
namespace Interaction
variable {α : Type}

/-- After `produced` entries the last lap stands in the ring, and the rest is as in the beginning. -/
structure RingWritten (size : ℕ) (Entry : ℕ → α → Prop) (Fresh : α → Prop) (slots : ℕ → α) (produced : ℕ) :
    Prop where
  written : ∀ p, p < produced → produced ≤ p + size → Entry p (slots (p % size))
  fresh : ∀ j, produced ≤ j → j < size → Fresh (slots j)

variable {size : ℕ} {Entry Entry' : ℕ → α → Prop} {Fresh : α → Prop} {slots : ℕ → α} {produced : ℕ}

theorem ringWritten_zero (h : ∀ j, j < size → Fresh (slots j)) : RingWritten size Entry Fresh slots 0 :=
  ⟨fun _ hp => absurd hp (Nat.not_lt_zero _),fun j _ hj => h j hj⟩

theorem slot_ne {p q : ℕ} (hpq : p < q) (hlap : q < p + size) : q % size ≠ p % size := by
  intro he
  have hd : size ∣ q - p := (Nat.modEq_iff_dvd' hpq.le).mp he.symm
  have hle := Nat.le_of_dvd (by omega) hd
  omega

theorem RingWritten.write (h : RingWritten size Entry Fresh slots produced) {a : α} (ha : Entry produced a) :
    RingWritten size Entry Fresh (Function.update slots (produced % size) a) (produced + 1) := by
  constructor
  · intro p hp hlap
    by_cases he : p = produced
    · rw [he, Function.update_self]
      exact ha
    · rw [Function.update_of_ne (slot_ne (by omega) (by omega)).symm]
      exact h.written p (by omega) (by omega)
  · intro j hj hjs
    have hp : produced % size = produced := Nat.mod_eq_of_lt (by omega)
    rw [hp, Function.update_of_ne (by omega)]
    exact h.fresh j (by omega) hjs

theorem RingWritten.imp (h : RingWritten size Entry Fresh slots produced)
    (hE : ∀ p a, p < produced → Entry p a → Entry' p a) : RingWritten size Entry' Fresh slots produced :=
  ⟨fun p hp hlap => hE p _ hp (h.written p hp hlap),h.fresh⟩

theorem RingWritten.map {β : Type} {Entry' : ℕ → β → Prop} {Fresh' : β → Prop} (f : α → β)
    (h : RingWritten size Entry Fresh slots produced) (hE : ∀ p a, Entry p a → Entry' p (f a))
    (hF : ∀ a, Fresh a → Fresh' (f a)) : RingWritten size Entry' Fresh' (fun j => f (slots j)) produced :=
  ⟨fun p hp hlap => hE p _ (h.written p hp hlap),fun j hj hjs => hF _ (h.fresh j hj hjs)⟩

/-- The parity of the lap changes from one lap to the next. -/
theorem lap_flips (k c : ℕ) : (c + 2 ^ k).testBit k = !c.testBit k := by
  rw [Nat.add_comm, Nat.testBit_two_pow_add_eq]

/-- A consumer at most one lap behind sees the entry it waits for exactly when it was written. -/
theorem RingWritten.current_iff {k : ℕ} (h : RingWritten (2 ^ k) Entry Fresh slots produced) {C : ℕ → α → Prop}
    (hentry : ∀ p c a, Entry p a → (C c a ↔ p.testBit k = c.testBit k))
    (hfresh : ∀ c a, c < 2 ^ k → Fresh a → ¬ C c a) {c : ℕ} (hc : c ≤ produced) (hlap : produced ≤ c + 2 ^ k) :
    C c (slots (c % 2 ^ k)) ↔ c < produced := by
  constructor
  · intro hcur
    by_contra hge
    have he : c = produced := by omega
    by_cases hk : c < 2 ^ k
    · rw [Nat.mod_eq_of_lt hk] at hcur
      exact hfresh c _ hk (h.fresh c (by omega) hk) hcur
    · have hpos := Nat.two_pow_pos k
      have hprev := h.written (c - 2 ^ k) (by omega) (by omega)
      rw [← Nat.mod_eq_sub_mod (by omega)] at hprev
      have hflip := lap_flips k (c - 2 ^ k)
      rw [Nat.sub_add_cancel (by omega), ← (hentry _ c _ hprev).mp hcur] at hflip
      cases hb : (c - 2 ^ k).testBit k <;> rw [hb] at hflip <;> cases hflip
  · intro hlt
    exact (hentry c c _ (h.written c hlt hlap)).mpr rfl

/-! ## Counters of a fixed width -/

theorem counter_succ (w n : ℕ) : BitVec.ofNat w n + 1 = BitVec.ofNat w (n + 1) := (BitVec.ofNat_add n 1).symm

theorem counter_sub {w a b : ℕ} (hle : b ≤ a) (hlt : a < b + 2 ^ w) :
    (BitVec.ofNat w a - BitVec.ofNat w b).toNat = a - b := by
  have ha : a = (a - b) + b := by omega
  have hadd : BitVec.ofNat w a = BitVec.ofNat w (a - b) + BitVec.ofNat w b := by rw [← BitVec.ofNat_add, ← ha]
  rw [hadd, BitVec.add_sub_cancel, BitVec.toNat_ofNat]
  exact Nat.mod_eq_of_lt (by omega)

/-- Masking a counter gives the slot of a ring that is not wider than the counter. -/
theorem counter_mask {w k : ℕ} (hk : k ≤ w) (n : ℕ) :
    (BitVec.ofNat w n &&& BitVec.ofNat w (2 ^ k - 1)).toNat = n % 2 ^ k := by
  have hpos := Nat.two_pow_pos k
  have hpow : 2 ^ k ≤ 2 ^ w := Nat.pow_le_pow_right (by omega) hk
  rw [BitVec.toNat_and, BitVec.toNat_ofNat, BitVec.toNat_ofNat, Nat.mod_eq_of_lt (show 2 ^ k - 1 < 2 ^ w by omega),
    Nat.and_two_pow_sub_one_eq_mod, Nat.mod_mod_of_dvd _ (Nat.pow_dvd_pow 2 hk)]

/-- Bit `n` of a counter, as shifting and masking read it. -/
theorem shift_and_one {w n : ℕ} (x : BitVec w) (hn : n < w) : (x >>> n &&& 1).toNat = (x.getLsbD n).toNat := by
  have hone : (1 : BitVec w).toNat = 1 := BitVec.toNat_one (by omega)
  rw [BitVec.toNat_and, hone, Nat.and_one_is_mod, BitVec.toNat_ushiftRight, BitVec.getLsbD, Nat.toNat_testBit,
    Nat.shiftRight_eq_div_pow]

end Interaction
