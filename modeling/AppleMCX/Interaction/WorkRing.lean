import AppleMCX.Interaction.LapRing
import Mathlib.Data.BitVec

/-! # Work that is handed over in a ring

One side stores element number `n` in slot `n % size` and counts on, and the other takes the
elements in order, as long as its own count is not the one it reads. The counts may be read in
fewer bits than they are kept in.
-/
namespace Interaction
variable {α β γ : Type}

/-- What was taken, of what was posted; `read` is what the other side finds in a slot, and `want` what is meant. -/
structure WorkRing (size : ℕ) (want : α → γ) (read : β → γ) (slots : ℕ → β) (posted : List α) (taken : List γ) :
    Prop where
  ring : RingWritten size (fun n slot => posted[n]?.map want = some (read slot)) (fun _ => True) slots posted.length
  behind : taken.length ≤ posted.length
  room : posted.length ≤ taken.length + size
  inOrder : taken = (posted.take taken.length).map want

variable {size : ℕ} {want : α → γ} {read : β → γ} {slots : ℕ → β} {posted : List α} {taken : List γ}

theorem workRing_nil (size : ℕ) (want : α → γ) (read : β → γ) (slots : ℕ → β) :
    WorkRing size want read slots [] [] where
  ring := ringWritten_zero (fun _ _ => trivial)
  behind := le_rfl
  room := Nat.zero_le _
  inOrder := rfl

theorem WorkRing.post (h : WorkRing size want read slots posted taken) (hroom : posted.length < taken.length + size) {a : α}
    {slot : β} (ha : read slot = want a) :
    WorkRing size want read (Function.update slots (posted.length % size) slot) (posted ++ [a]) taken where
  ring := by
    rw [List.length_append, List.length_singleton]
    refine (h.ring.imp fun n b hn hb => ?_).write ?_
    · rw [List.getElem?_append_left hn]
      exact hb
    · rw [List.getElem?_concat_length, Option.map_some, ha]
  behind := by
    have hbehind := h.behind
    rw [List.length_append]
    omega
  room := by
    rw [List.length_append, List.length_singleton]
    omega
  inOrder := by
    rw [List.take_append_of_le_length h.behind]
    exact h.inOrder

theorem WorkRing.take (h : WorkRing size want read slots posted taken) (hlt : taken.length < posted.length) :
    WorkRing size want read slots posted (taken ++ [read (slots (taken.length % size))]) where
  ring := h.ring
  behind := by
    rw [List.length_append, List.length_singleton]
    exact hlt
  room := by
    have hroom := h.room
    rw [List.length_append]
    omega
  inOrder := by
    obtain ⟨a,ha⟩ : ∃ a, posted[taken.length]? = some a := ⟨_,List.getElem?_eq_getElem hlt⟩
    have hnext := h.ring.written taken.length hlt h.room
    rw [ha] at hnext
    rw [List.length_append, List.length_singleton, List.take_add_one,
      ha, List.map_append, ← h.inOrder, ← Option.some.inj hnext]
    rfl

/-- The counts tell whether there is more to take. -/
theorem WorkRing.ahead_iff (h : WorkRing size want read slots posted taken)
    {bits w : ℕ} (hsize : size < 2 ^ bits) (hw : bits ≤ w) :
    (BitVec.ofNat w posted.length).setWidth bits ≠ BitVec.ofNat bits taken.length ↔ taken.length < posted.length := by
  have hbehind := h.behind
  have hroom := h.room
  have hdvd : 2 ^ bits ∣ 2 ^ w := Nat.pow_dvd_pow 2 hw
  rw [ne_eq, ← BitVec.toNat_inj, BitVec.toNat_setWidth, BitVec.toNat_ofNat, BitVec.toNat_ofNat, Nat.mod_mod_of_dvd _ hdvd]
  constructor
  · intro hne
    refine lt_of_le_of_ne hbehind (fun he => hne ?_)
    rw [he]
  · intro hlt he
    have hmod : 2 ^ bits ∣ posted.length - taken.length := (Nat.modEq_iff_dvd' hbehind).mp he.symm
    have hle := Nat.le_of_dvd (by omega) hmod
    omega

end Interaction
