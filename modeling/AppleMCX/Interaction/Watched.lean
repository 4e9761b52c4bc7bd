import AppleMCX.Interaction.Program

/-! # Programs that a second party listens to

The environment of a program is often another machine with a state of its own, which the
program cannot read: what it has been asked for and what it has answered. The second party is
added to the states without a change of the program.
-/
namespace Interaction

variable {σ Q γ : Type} {A : Q → Type} {α β : Type}

/-- What the second party may answer, and what it remembers of a question and its answer. -/
structure Watcher (σ Q : Type) (A : Q → Type) (γ : Type) where
  Allowed : σ → γ → (q : Q) → A q → Prop
  effect : σ → γ → (q : Q) → A q → γ

def Env.watched (E : Env σ Q A) (W : Watcher σ Q A γ) : Env (σ × γ) Q A where
  Allowed p q a := E.Allowed p.1 q a ∧ W.Allowed p.1 p.2 q a
  effect p q a := (E.effect p.1 q a,W.effect p.1 p.2 q a)

namespace Prog

/-- The same program, which neither reads nor writes the state of the second party. -/
def watched (γ : Type) : Prog σ Q A α → Prog (σ × γ) Q A α
  | .done a => .done a
  | .read k => .read (fun p => watched γ (k p.1))
  | .write f k => .write (fun p => (f p.1,p.2)) (watched γ k)
  | .ask q k => .ask q (fun a => watched γ (k a))

theorem watched_bind (p : Prog σ Q A α) (f : α → Prog σ Q A β) :
    (p.bind f).watched γ = (p.watched γ).bind (fun a => (f a).watched γ) := by
  induction p with
  | done a => rfl
  | read k ih => exact congrArg Prog.read (funext (fun s => ih s.1))
  | write g k ih => exact congrArg (Prog.write _) ih
  | ask q k ih => exact congrArg (Prog.ask q) (funext ih)

variable {E : Env σ Q A} {W : Watcher σ Q A γ}

/-- The rule of sequencing for watched programs. -/
theorem Always.watched_bind {p : Prog σ Q A α} {f : α → Prog σ Q A β}
    {I : σ × γ → Prop} {R : β → σ × γ → Prop}
    {M : α → σ × γ → Prop} {s : σ × γ} (hp : Always (E.watched W) I (p.watched γ) M s)
    (hf : ∀ a t, I t → M a t → Always (E.watched W) I ((f a).watched γ) R t) :
    Always (E.watched W) I ((p.bind f).watched γ) R s := by
  rw [Prog.watched_bind]
  exact Always.bind hp hf

end Prog

end Interaction
