import Mathlib.Data.List.Basic
import Mathlib.Data.Nat.ModEq
import Mathlib.Logic.Function.Basic
import Mathlib.Tactic.Common

/-! # A queue in a ring of slots

The queue of `count` elements starts at slot `head` and continues modulo the size of
the ring. Storing behind the last element and advancing the head are the two
operations of a list queue.
-/
namespace Interaction
variable {α : Type}

def ringContents (size : ℕ) (slots : ℕ → α) (head count : ℕ) : List α :=
  (List.range count).map (fun i => slots ((head + i) % size))

@[simp] theorem ringContents_zero (size : ℕ) (slots : ℕ → α) (head : ℕ) :
    ringContents size slots head 0 = [] := rfl

@[simp] theorem ringContents_length (size : ℕ) (slots : ℕ → α) (head count : ℕ) :
    (ringContents size slots head count).length = count := by
  simp [ringContents]

theorem ringContents_push {size count : ℕ} (slots : ℕ → α) (head : ℕ) (a : α) (hc : count < size) :
    ringContents size (Function.update slots ((head + count) % size) a) head (count + 1) =
      ringContents size slots head count ++ [a] := by
  simp only [ringContents, List.range_succ, List.map_append, List.map_cons, List.map_nil,
    Function.update_self, List.append_cancel_right_eq]
  refine List.map_congr_left (fun i hi => ?_)
  have hlt : i < count := List.mem_range.mp hi
  refine Function.update_of_ne (fun he => ?_) _ _
  have hmod : i ≡ count [MOD size] := Nat.ModEq.add_left_cancel' head he
  exact hlt.ne (hmod.eq_of_lt_of_lt (by omega) hc)

theorem ringContents_pop (size : ℕ) (slots : ℕ → α) (head count : ℕ) :
    ringContents size slots head (count + 1) =
      slots (head % size) :: ringContents size slots ((head + 1) % size) count := by
  simp only [ringContents, List.range_succ_eq_map, List.map_cons, List.map_map, Nat.add_zero,
    List.cons.injEq, true_and]
  refine List.map_congr_left (fun i _ => ?_)
  dsimp only [Function.comp_apply]
  congr 1
  rw [Nat.mod_add_mod]
  congr 1
  omega

/-! ## Rings that are known by their ends

The elements stand from slot `tail` up to slot `head`, and one slot stays free: a ring of
which the ends are the same is empty.
-/

def ringCount (size tail head : ℕ) : ℕ := if tail ≤ head then head - tail else head + size - tail

variable {size tail head : ℕ}

theorem succ_mod (h : head < size) : (head + 1) % size = if head + 1 = size then 0 else head + 1 := by
  split
  · rename_i he
    rw [he, Nat.mod_self]
  · exact Nat.mod_eq_of_lt (by omega)

theorem ringCount_lt (ht : tail < size) (hh : head < size) : ringCount size tail head < size := by
  unfold ringCount
  split <;> omega

theorem ringCount_head (ht : tail < size) (hh : head < size) : (tail + ringCount size tail head) % size = head := by
  unfold ringCount
  split
  · rw [Nat.add_sub_cancel' (by assumption), Nat.mod_eq_of_lt hh]
  · rw [Nat.add_sub_cancel' (by omega), Nat.add_mod_right, Nat.mod_eq_of_lt hh]

theorem ringCount_eq_zero (ht : tail < size) : ringCount size tail head = 0 ↔ tail = head := by
  unfold ringCount
  split <;> omega

theorem ringCount_full (ht : tail < size) (hh : head < size) :
    (head + 1) % size = tail ↔ ringCount size tail head + 1 = size := by
  rw [succ_mod hh]
  unfold ringCount
  split <;> split <;> omega

theorem ringCount_push (ht : tail < size) (hh : head < size) (hne : (head + 1) % size ≠ tail) :
    ringCount size tail ((head + 1) % size) = ringCount size tail head + 1 := by
  unfold ringCount
  by_cases he : head + 1 = size
  · rw [succ_mod hh, if_pos he] at hne ⊢
    split <;> split <;> omega
  · rw [succ_mod hh, if_neg he] at hne ⊢
    split <;> split <;> omega

theorem ringCount_pop (ht : tail < size) (hh : head < size) (hne : tail ≠ head) :
    ringCount size tail head = ringCount size ((tail + 1) % size) head + 1 := by
  unfold ringCount
  by_cases he : tail + 1 = size
  · rw [succ_mod ht, if_pos he]
    split <;> split <;> omega
  · rw [succ_mod ht, if_neg he]
    split <;> split <;> omega

end Interaction
