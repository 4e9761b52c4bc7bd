import Mathlib.Data.List.Basic
import Mathlib.Data.List.Perm.Basic
import Mathlib.Tactic.Common

/-! # First fit

Numbered slots that are taken or not, and requests for some adjacent ones. A list keeps the
spans that have been given out: they are apart, and the slots in them are the taken ones.
Where all spans have one size, first fit gives out the blocks of that size.
-/
namespace Interaction

/-- The `count` slots from `start` on. -/
structure Span where
  start : ℕ
  count : ℕ
  deriving DecidableEq, Repr

namespace Span

def Has (r : Span) (k : ℕ) : Prop := r.start ≤ k ∧ k < r.start + r.count

instance (r : Span) (k : ℕ) : Decidable (r.Has k) := inferInstanceAs (Decidable (_ ∧ _))

def Apart (r r' : Span) : Prop := ∀ k, r.Has k → ¬ r'.Has k

theorem Apart.symm {r r' : Span} (h : r.Apart r') : r'.Apart r := fun k h' hk => h k hk h'

end Span

variable {limit count n start : ℕ} {taken : ℕ → Bool} {live : List Span} {r : Span}

def Clear (taken : ℕ → Bool) (r : Span) : Prop := ∀ k, r.Has k → taken k = false

/-- The first span that is clear and inside the limit. -/
def firstFit (limit count : ℕ) (taken : ℕ → Bool) : Option ℕ :=
  (List.range (limit + 1 - count)).find? (fun start => (List.range count).all (fun i => !taken (start + i)))

theorem clear_iff (start count : ℕ) (taken : ℕ → Bool) :
    (List.range count).all (fun i => !taken (start + i)) = true ↔ Clear taken ⟨start,count⟩ := by
  simp only [List.all_eq_true, List.mem_range, Bool.not_eq_true']
  constructor
  · intro h k hk
    obtain ⟨hle,hlt⟩ := hk
    dsimp only at hle hlt
    have hi := h (k - start) (by omega)
    rwa [Nat.add_sub_cancel' hle] at hi
  · intro h i hi
    exact h (start + i) ⟨Nat.le_add_right _ _,by dsimp only; omega⟩

theorem firstFit_some (h : firstFit limit count taken = some start) :
    Clear taken ⟨start,count⟩ ∧ start + count ≤ limit ∧ ∀ j < start, ¬ Clear taken ⟨j,count⟩ := by
  obtain ⟨hclear,hmem,hfirst⟩ := List.find?_range_eq_some.mp h
  have hlt := List.mem_range.mp hmem
  refine ⟨(clear_iff _ _ _).mp hclear,by omega,fun j hj hc => ?_⟩
  have hno := hfirst j hj
  rw [(clear_iff _ _ _).mpr hc] at hno
  cases hno

theorem firstFit_none (h : firstFit limit count taken = none) (hin : start + count ≤ limit) :
    ¬ Clear taken ⟨start,count⟩ := by
  intro hc
  have hno := List.find?_range_eq_none.mp h start (by omega)
  rw [(clear_iff _ _ _).mpr hc] at hno
  cases hno

/-- The spans given out, next to the slots that are taken. -/
structure Marked (limit : ℕ) (taken : ℕ → Bool) (live : List Span) : Prop where
  marks : ∀ k, taken k = true ↔ ∃ r ∈ live, r.Has k
  inside : ∀ r ∈ live, 0 < r.count ∧ r.start + r.count ≤ limit
  apart : live.Pairwise Span.Apart

theorem marked_nil (limit : ℕ) : Marked limit (fun _ => false) [] where
  marks k := by simp
  inside _ h := absurd h List.not_mem_nil
  apart := .nil

theorem Marked.add (h : Marked limit taken live) (hclear : Clear taken r) (hpos : 0 < r.count)
    (hin : r.start + r.count ≤ limit) : Marked limit (fun k => r.Has k || taken k) (live ++ [r]) where
  marks k := by
    rw [Bool.or_eq_true, decide_eq_true_iff, h.marks]
    constructor
    · rintro (hk | ⟨r',hr',hk⟩)
      · exact ⟨r,List.mem_append_right _ List.mem_cons_self,hk⟩
      · exact ⟨r',List.mem_append_left _ hr',hk⟩
    · rintro ⟨r',hr',hk⟩
      rcases List.mem_append.mp hr' with hr' | hr'
      · exact Or.inr ⟨r',hr',hk⟩
      · rw [List.mem_singleton.mp hr'] at hk
        exact Or.inl hk
  inside r' hr' := by
    rcases List.mem_append.mp hr' with hr' | hr'
    · exact h.inside r' hr'
    · rw [List.mem_singleton.mp hr']
      exact ⟨hpos,hin⟩
  apart := by
    refine List.pairwise_append.mpr ⟨h.apart,List.pairwise_singleton _ _,fun r₁ hr₁ r₂ hr₂ k h₁ h₂ => ?_⟩
    rw [List.mem_singleton.mp hr₂] at h₂
    have htaken := (h.marks k).mpr ⟨r₁,hr₁,h₁⟩
    rw [hclear k h₂] at htaken
    cases htaken

theorem Marked.remove (h : Marked limit taken live) (hr : r ∈ live) :
    Marked limit (fun k => !decide (r.Has k) && taken k) (live.erase r) where
  marks k := by
    have happart := h.apart.perm (List.perm_cons_erase hr) (fun {_ _} h => h.symm)
    rw [Bool.and_eq_true, Bool.not_eq_true', decide_eq_false_iff_not, h.marks]
    constructor
    · rintro ⟨hk,r',hr',hk'⟩
      refine ⟨r',(List.mem_erase_of_ne ?_).mpr hr',hk'⟩
      rintro rfl
      exact hk hk'
    · rintro ⟨r',hr',hk'⟩
      exact ⟨fun hk => (List.pairwise_cons.mp happart).1 r' hr' k hk hk',r',List.mem_of_mem_erase hr',hk'⟩
  inside r' hr' := h.inside r' (List.mem_of_mem_erase hr')
  apart := h.apart.sublist List.erase_sublist

/-! ## Blocks of one size -/

/-- Every span given out is a block of the size `n`. -/
def Blocks (n : ℕ) (live : List Span) : Prop := ∀ r ∈ live, r.count = n ∧ n ∣ r.start

/-- A block of which one slot is clear is clear. -/
theorem Marked.block_clear (h : Marked limit taken live) (hb : Blocks n live) {q k : ℕ}
    (hk : n * q ≤ k ∧ k < n * q + n) (hclear : taken k = false) : Clear taken ⟨n * q,n⟩ := by
  intro j hj
  by_contra hne
  obtain ⟨r,hr,hhas⟩ := (h.marks j).mp (by simpa using hne)
  obtain ⟨hcount,p,hp⟩ := hb r hr
  unfold Span.Has at hj hhas
  rw [hcount, hp] at hhas
  dsimp only at hj
  -- two blocks with a common slot are the same block
  have hqp : q = p := by
    have hlt₁ : n * q < n * (p + 1) := by rw [Nat.mul_succ]; omega
    have hlt₂ : n * p < n * (q + 1) := by rw [Nat.mul_succ]; omega
    have h₁ := Nat.lt_of_mul_lt_mul_left hlt₁
    have h₂ := Nat.lt_of_mul_lt_mul_left hlt₂
    omega
  have htaken := (h.marks k).mpr ⟨r,hr,by unfold Span.Has; rw [hcount, hp, ← hqp]; exact hk⟩
  rw [hclear] at htaken
  cases htaken

theorem firstFit_dvd (hn : 0 < n) (h : Marked limit taken live) (hb : Blocks n live)
    (hfit : firstFit limit n taken = some start) : n ∣ start := by
  obtain ⟨hclear,-,hfirst⟩ := firstFit_some hfit
  have hdiv := Nat.div_add_mod start n
  have hmod := Nat.mod_lt start hn
  have hblock := h.block_clear hb (q := start / n) (k := start) (by omega)
    (hclear start ⟨Nat.le_refl _,by dsimp only; omega⟩)
  -- the block that the span starts in is clear, so it is not in front of the span
  have hge : ¬ n * (start / n) < start := fun hlt => hfirst _ hlt hblock
  exact ⟨start / n,by omega⟩

theorem firstFit_full (hn : 0 < n) (h : Marked limit taken live) (hb : Blocks n live)
    (hfit : firstFit limit n taken = none) {q : ℕ} (hin : n * q + n ≤ limit) : ⟨n * q,n⟩ ∈ live := by
  have htaken : taken (n * q) = true := by
    by_contra hne
    exact firstFit_none hfit hin (h.block_clear hb (k := n * q) (by omega) (by simpa using hne))
  obtain ⟨r,hr,hhas⟩ := (h.marks _).mp htaken
  obtain ⟨hcount,p,hp⟩ := hb r hr
  unfold Span.Has at hhas
  rw [hcount, hp] at hhas
  have hqp : p = q := by
    have hle := Nat.le_of_mul_le_mul_left hhas.1 hn
    have hlt : n * q < n * (p + 1) := by rw [Nat.mul_succ]; omega
    have hlt' := Nat.lt_of_mul_lt_mul_left hlt
    omega
  have hspan : r = ⟨n * q,n⟩ := by
    cases r
    dsimp only at hcount hp
    rw [hcount, hp, hqp]
  rwa [← hspan]

end Interaction
