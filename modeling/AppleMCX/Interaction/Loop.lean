import Mathlib.Tactic.Common

/-! # Loops

A loop by its body, which ends it with a result or goes on to another round. That a loop ends
says that some number of rounds is enough, and the number is no part of the outcome.
-/
namespace Interaction
variable {σ ρ : Type}

/-- The outcome of at most `fuel` rounds. -/
def runLoop (body : σ → ρ ⊕ σ) : ℕ → σ → Option ρ
  | 0, _ => none
  | fuel + 1, s =>
    match body s with
    | .inl r => some r
    | .inr t => runLoop body fuel t

/-- The loop ends with `r`. -/
def Ends (body : σ → ρ ⊕ σ) (s : σ) (r : ρ) : Prop := ∃ fuel, runLoop body fuel s = some r

variable {body : σ → ρ ⊕ σ} {s t : σ} {r r' : ρ} {I : σ → Prop}

theorem ends_stop (h : body s = .inl r) : Ends body s r := ⟨1,by rw [runLoop, h]⟩

theorem Ends.round (h : body s = .inr t) (ht : Ends body t r) : Ends body s r := by
  obtain ⟨fuel,hf⟩ := ht
  exact ⟨fuel + 1,by rw [runLoop, h]; exact hf⟩

/-- More rounds than it takes change nothing. -/
theorem runLoop_mono {fuel : ℕ} (h : runLoop body fuel s = some r) (more : ℕ) :
    runLoop body (fuel + more) s = some r := by
  induction fuel generalizing s with
  | zero => cases h
  | succ fuel ih =>
    rw [Nat.add_right_comm, runLoop]
    rw [runLoop] at h
    cases hb : body s with
    | inl r' =>
      rw [hb] at h
      exact h
    | inr t =>
      rw [hb] at h
      exact ih h

theorem Ends.unique (h : Ends body s r) (h' : Ends body s r') : r = r' := by
  obtain ⟨fuel,hf⟩ := h
  obtain ⟨fuel',hf'⟩ := h'
  have hmore := runLoop_mono hf fuel'
  have hmore' := runLoop_mono hf' fuel
  rw [Nat.add_comm, hmore] at hmore'
  exact Option.some.inj hmore'

/-- The rule of total correctness: an invariant, and a measure that each round lowers. -/
theorem exists_ends {R : ρ → Prop} (m : σ → ℕ) (hround : ∀ s t, I s → body s = .inr t → I t ∧ m t < m s)
    (hstop : ∀ s r, I s → body s = .inl r → R r) (h : I s) : ∃ r, Ends body s r ∧ R r := by
  generalize hn : m s = n
  induction n using Nat.strongRecOn generalizing s with
  | ind n ih =>
    cases hb : body s with
    | inl r => exact ⟨r,ends_stop hb,hstop s r h hb⟩
    | inr t =>
      obtain ⟨ht,hlt⟩ := hround s t h hb
      obtain ⟨r,hr,hR⟩ := ih (m t) (hn ▸ hlt) ht rfl
      exact ⟨r,hr.round hb,hR⟩

/-- A loop whose rounds always lead to another one does not end. -/
theorem not_ends (hround : ∀ s, I s → ∃ t, body s = .inr t ∧ I t) (h : I s) : ¬ Ends body s r := by
  rintro ⟨fuel,hf⟩
  induction fuel generalizing s with
  | zero => cases hf
  | succ fuel ih =>
    obtain ⟨t,hb,ht⟩ := hround s h
    rw [runLoop, hb] at hf
    exact ih ht hf

end Interaction
