import Mathlib.Data.List.Basic
import Mathlib.Tactic.Common

/-! # Runs of a transition function

`step s l` is the state after the action `l`, where `l` is possible. A run may be
restricted by a condition on the state before each of its steps and the action taken.
-/
namespace Interaction
variable {S L : Type}

/-- Reached from `s₀` by steps that all meet the condition. -/
inductive Reach (step : S → L → Option S) (Meets : S → L → Prop) (s₀ : S) : S → Prop where
  | start : Reach step Meets s₀ s₀
  | next {s t : S} {l : L} (hr : Reach step Meets s₀ s) (hm : Meets s l) (hs : step s l = some t) :
      Reach step Meets s₀ t

/-- The condition that restricts nothing. -/
def Free (_ : S) (_ : L) : Prop := True

variable {step : S → L → Option S} {Meets Meets' : S → L → Prop} {s₀ s t : S}

/-- The invariant rule. -/
theorem Reach.invariant {J : S → Prop} (h₀ : J s₀)
    (hstep : ∀ s l t, J s → Meets s l → step s l = some t → J t) (h : Reach step Meets s₀ s) : J s := by
  induction h with
  | start => exact h₀
  | next _ hm hs ih => exact hstep _ _ _ ih hm hs

theorem Reach.mono (hM : ∀ s l, Meets s l → Meets' s l) (h : Reach step Meets s₀ s) :
    Reach step Meets' s₀ s := by
  induction h with
  | start => exact .start
  | next _ hm hs ih => exact .next ih (hM _ _ hm) hs

theorem Reach.head {u : S} {l : L} (h : Reach step Meets t u) (hm : Meets s l) (hs : step s l = some t) :
    Reach step Meets s u := by
  induction h with
  | start => exact .next .start hm hs
  | next _ hm' hs' ih => exact .next ih hm' hs'

theorem Reach.free (h : Reach step Meets s₀ s) : Reach step Free s₀ s := h.mono (fun _ _ _ => trivial)

def after (step : S → L → Option S) : List L → S → Option S
  | [], s => some s
  | l :: ls, s => (step s l).bind (after step ls)

/-- Each of the given actions meets the condition where it is taken. -/
def AllMeet (step : S → L → Option S) (Meets : S → L → Prop) : List L → S → Prop
  | [], _ => True
  | l :: ls, s => Meets s l ∧ ∀ t ∈ step s l, AllMeet step Meets ls t

instance AllMeet.decidable [∀ s l, Decidable (Meets s l)] : ∀ ls s, Decidable (AllMeet step Meets ls s)
  | [], _ => isTrue trivial
  | l :: ls, s =>
    have : ∀ t, Decidable (AllMeet step Meets ls t) := AllMeet.decidable ls
    inferInstanceAs (Decidable (Meets s l ∧ ∀ t ∈ step s l, AllMeet step Meets ls t))

theorem reach_of_allMeet (ls : List L) (hr : Reach step Meets s₀ s) (hm : AllMeet step Meets ls s)
    (h : after step ls s = some t) : Reach step Meets s₀ t := by
  induction ls generalizing s with
  | nil => cases h; exact hr
  | cons l ls ih =>
    obtain ⟨u,hu,ht⟩ := Option.bind_eq_some_iff.mp h
    exact ih (hr.next hm.1 hu) (hm.2 u hu) ht

theorem allMeet_free (ls : List L) (s : S) : AllMeet step Free ls s := by
  induction ls generalizing s with
  | nil => trivial
  | cons l ls ih => exact ⟨trivial,fun t _ => ih t⟩

theorem reach_of_after (ls : List L) (hr : Reach step Free s₀ s) (h : after step ls s = some t) :
    Reach step Free s₀ t := reach_of_allMeet ls hr (allMeet_free ls s) h

end Interaction
