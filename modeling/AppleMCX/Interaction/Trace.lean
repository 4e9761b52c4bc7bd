import AppleMCX.Interaction.Program

/-! # Traces of runs

What a run of a program asks, with the answers, and the states before and after each of its writes.
-/
namespace Interaction

inductive Event (σ Q : Type) (A : Q → Type) where
  | asked (q : Q) (a : A q)
  | wrote (s t : σ)

namespace Prog
variable {σ Q : Type} {A : Q → Type} {α β : Type}

/-- A run of the program from the first state has these events, and returns the value in the second. -/
inductive Traces (E : Env σ Q A) : Prog σ Q A α → σ → List (Event σ Q A) → α → σ → Prop where
  | done (a : α) (s : σ) : Traces E (.done a) s [] a s
  | read {k : σ → Prog σ Q A α} {s t : σ} {es : List (Event σ Q A)} {a : α} (h : Traces E (k s) s es a t) :
      Traces E (.read k) s es a t
  | write {f : σ → σ} {k : Prog σ Q A α} {s t : σ} {es : List (Event σ Q A)} {a : α} (h : Traces E k (f s) es a t) :
      Traces E (.write f k) s (.wrote s (f s) :: es) a t
  | ask {q : Q} {k : A q → Prog σ Q A α} {s t : σ} {es : List (Event σ Q A)} {r : α} {a : A q} (ha : E.Allowed s q a)
      (h : Traces E (k a) (E.effect s q a) es r t) : Traces E (.ask q k) s (.asked q a :: es) r t

/-- Every trace satisfies `R`. -/
def Post (E : Env σ Q A) : Prog σ Q A α → (List (Event σ Q A) → α → σ → Prop) → σ → Prop
  | .done a, R, s => R [] a s
  | .read k, R, s => Post E (k s) R s
  | .write f k, R, s => Post E k (fun es => R (.wrote s (f s) :: es)) (f s)
  | .ask q k, R, s => ∀ a, E.Allowed s q a → Post E (k a) (fun es => R (.asked q a :: es)) (E.effect s q a)

variable {E : Env σ Q A}

theorem Returns.traces {p : Prog σ Q A α} {s t : σ} {a : α} (h : Returns E p s a t) : ∃ es, Traces E p s es a t := by
  induction h with
  | done a s => exact ⟨_,.done a s⟩
  | read _ ih => exact ih.imp (fun _ => .read)
  | write _ ih =>
    obtain ⟨es,ih⟩ := ih
    exact ⟨_,.write ih⟩
  | ask ha _ ih =>
    obtain ⟨es,ih⟩ := ih
    exact ⟨_,.ask ha ih⟩

theorem Post.traces {p : Prog σ Q A α} {R : List (Event σ Q A) → α → σ → Prop}
    {s t : σ} {es : List (Event σ Q A)} {a : α}
    (h : Post E p R s) (ht : Traces E p s es a t) : R es a t := by
  induction ht generalizing R with
  | done a s => exact h
  | read _ ih => exact ih h
  | @write f k s t es a _ ih => exact ih (R := fun es => R (.wrote s (f s) :: es)) h
  | @ask q k s t es r a ha _ ih => exact ih (R := fun es => R (.asked q a :: es)) (h a ha)

theorem Post.mono {p : Prog σ Q A α} {R R' : List (Event σ Q A) → α → σ → Prop} {s : σ} (h : Post E p R s)
    (hR : ∀ es a t, R es a t → R' es a t) : Post E p R' s := by
  induction p generalizing s R R' with
  | done a => exact hR _ _ _ h
  | read k ih => exact ih s h hR
  | write f k ih => exact ih h (fun es a t => hR _ a t)
  | ask q k ih => exact fun a ha => ih a (h a ha) (fun es b t => hR _ b t)

/-- The rule of sequencing. -/
theorem Post.bind {p : Prog σ Q A α} {f : α → Prog σ Q A β} {R : List (Event σ Q A) → β → σ → Prop}
    {M : List (Event σ Q A) → α → σ → Prop} {s : σ} (hp : Post E p M s)
    (hf : ∀ es a t, M es a t → Post E (f a) (fun es' => R (es ++ es')) t) : Post E (p.bind f) R s := by
  induction p generalizing s R M with
  | done a => exact hf [] a s hp
  | read k ih => exact ih s hp hf
  | write g k ih => exact ih (R := fun es => R (.wrote s (g s) :: es)) hp (fun es a t h => hf _ a t h)
  | ask q k ih => exact fun a ha => ih a (R := fun es => R (.asked q a :: es)) (hp a ha) (fun es b t h => hf _ b t h)

@[simp] theorem post_done {a : α} {R : List (Event σ Q A) → α → σ → Prop} {s : σ} :
    Post E (.done a) R s ↔ R [] a s := Iff.rfl

@[simp] theorem post_ite {c : Prop} [Decidable c] {p q : Prog σ Q A α}
    {R : List (Event σ Q A) → α → σ → Prop} {s : σ} :
    Post E (if c then p else q) R s ↔ (c → Post E p R s) ∧ (¬ c → Post E q R s) := by
  split <;> simp_all

end Prog
end Interaction
