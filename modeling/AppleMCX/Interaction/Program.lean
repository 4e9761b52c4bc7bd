import Mathlib.Data.List.Basic
import Mathlib.Tactic.Common

/-! # Sequential programs that question their environment

A program reads and writes a state of its own and puts questions to an environment
whose answers are not under its control: the outcome of an allocation, of a device
command, of a register read. The environment may change the state with its answer,
so that the state can also carry what the other side knows. A property of every
state a run passes through is proved by one weakest-precondition calculus.
-/
namespace Interaction

/-- A program over the states `σ` that asks questions `q : Q` with answers in `A q`. -/
inductive Prog (σ Q : Type) (A : Q → Type) (α : Type) : Type where
  | done (a : α)
  | read (k : σ → Prog σ Q A α)
  | write (f : σ → σ) (k : Prog σ Q A α)
  | ask (q : Q) (k : A q → Prog σ Q A α)

/-- What the environment may answer in a state, and what the answer does to the state. -/
structure Env (σ Q : Type) (A : Q → Type) where
  Allowed : σ → (q : Q) → A q → Prop
  effect : σ → (q : Q) → A q → σ

/-- The same environment, as far as it answers in a certain way. -/
def Env.restrict {σ Q : Type} {A : Q → Type} (E : Env σ Q A) (Met : σ → (q : Q) → A q → Prop) : Env σ Q A where
  Allowed s q a := E.Allowed s q a ∧ Met s q a
  effect := E.effect

namespace Prog
variable {σ Q : Type} {A : Q → Type} {α β γ : Type}

def bind : Prog σ Q A α → (α → Prog σ Q A β) → Prog σ Q A β
  | .done a, f => f a
  | .read k, f => .read (fun s => (k s).bind f)
  | .write g k, f => .write g (k.bind f)
  | .ask q k, f => .ask q (fun a => (k a).bind f)

instance : Monad (Prog σ Q A) where
  pure := .done
  bind := bind

@[simp] theorem pure_eq (a : α) : (pure a : Prog σ Q A α) = .done a := rfl
@[simp] theorem bind_eq (p : Prog σ Q A α) (f : α → Prog σ Q A β) : p >>= f = p.bind f := rfl

def get : Prog σ Q A σ := .read .done

def modify (f : σ → σ) : Prog σ Q A Unit := .write f (.done ())

def query (q : Q) : Prog σ Q A (A q) := .ask q .done

def forEach : List β → (β → Prog σ Q A Unit) → Prog σ Q A Unit
  | [], _ => .done ()
  | b :: bs, f => (f b).bind (fun _ => forEach bs f)

/-- A program over one part of the state, whose questions other programs answer. -/
def zoom {τ Q' : Type} {A' : Q' → Type} (get : σ → τ) (set : τ → σ → σ) (answer : (q : Q') → Prog σ Q A (A' q)) :
    Prog τ Q' A' β → Prog σ Q A β
  | .done b => .done b
  | .read k => .read (fun s => zoom get set answer (k (get s)))
  | .write f k => .write (fun s => set (f (get s)) s) (zoom get set answer k)
  | .ask q k => (answer q).bind (fun a => zoom get set answer (k a))

/-! ## Runs -/

/-- A run of the program from the first state passes through the second. -/
inductive Visits (E : Env σ Q A) : Prog σ Q A α → σ → σ → Prop where
  | here (p : Prog σ Q A α) (s : σ) : Visits E p s s
  | read {k : σ → Prog σ Q A α} {s t : σ} (h : Visits E (k s) s t) : Visits E (.read k) s t
  | write {f : σ → σ} {k : Prog σ Q A α} {s t : σ} (h : Visits E k (f s) t) :
      Visits E (.write f k) s t
  | ask {q : Q} {k : A q → Prog σ Q A α} {s t : σ} {a : A q} (ha : E.Allowed s q a)
      (h : Visits E (k a) (E.effect s q a) t) : Visits E (.ask q k) s t

/-- A run of the program from the first state returns the value in the second. -/
inductive Returns (E : Env σ Q A) : Prog σ Q A α → σ → α → σ → Prop where
  | done (a : α) (s : σ) : Returns E (.done a) s a s
  | read {k : σ → Prog σ Q A α} {s t : σ} {a : α} (h : Returns E (k s) s a t) :
      Returns E (.read k) s a t
  | write {f : σ → σ} {k : Prog σ Q A α} {s t : σ} {a : α} (h : Returns E k (f s) a t) :
      Returns E (.write f k) s a t
  | ask {q : Q} {k : A q → Prog σ Q A α} {s t : σ} {r : α} {a : A q} (ha : E.Allowed s q a)
      (h : Returns E (k a) (E.effect s q a) r t) : Returns E (.ask q k) s r t

theorem Returns.unrestrict {E : Env σ Q A} {Met : σ → (q : Q) → A q → Prop} {p : Prog σ Q A α} {s t : σ} {a : α}
    (h : Returns (E.restrict Met) p s a t) : Returns E p s a t := by
  induction h with
  | done a s => exact .done a s
  | read _ ih => exact .read ih
  | write _ ih => exact .write ih
  | ask ha _ ih => exact .ask ha.1 ih

/-- The run in which question number `i` is answered by `oracle i`. -/
def run (E : Env σ Q A) (oracle : ℕ → (q : Q) → A q) : Prog σ Q A α → ℕ → σ → α × σ
  | .done a, _, s => (a,s)
  | .read k, i, s => run E oracle (k s) i s
  | .write f k, i, s => run E oracle k i (f s)
  | .ask q k, i, s => run E oracle (k (oracle i q)) (i + 1) (E.effect s q (oracle i q))

/-- The states that the same run passes through, first to last. -/
def trail (E : Env σ Q A) (oracle : ℕ → (q : Q) → A q) : Prog σ Q A α → ℕ → σ → List σ
  | .done _, _, s => [s]
  | .read k, i, s => trail E oracle (k s) i s
  | .write f k, i, s => s :: trail E oracle k i (f s)
  | .ask q k, i, s => s :: trail E oracle (k (oracle i q)) (i + 1) (E.effect s q (oracle i q))

variable {E : Env σ Q A}

theorem Returns.visits {p : Prog σ Q A α} {s t : σ} {a : α} (h : Returns E p s a t) :
    Visits E p s t := by
  induction h with
  | done a s => exact .here _ _
  | read _ ih => exact .read ih
  | write _ ih => exact .write ih
  | ask ha _ ih => exact .ask ha ih

theorem run_returns (oracle : ℕ → (q : Q) → A q)
    (ho : ∀ i q s, E.Allowed s q (oracle i q)) (p : Prog σ Q A α) (i : ℕ) (s : σ) :
    Returns E p s (p.run E oracle i s).1 (p.run E oracle i s).2 := by
  induction p generalizing i s with
  | done a => exact .done a s
  | read k ih => exact .read (ih s i s)
  | write f k ih => exact .write (ih i (f s))
  | ask q k ih => exact .ask (ho i q s) (ih _ (i + 1) _)

theorem trail_visits (oracle : ℕ → (q : Q) → A q)
    (ho : ∀ i q s, E.Allowed s q (oracle i q)) (p : Prog σ Q A α) (i : ℕ) (s : σ) :
    ∀ t ∈ p.trail E oracle i s, Visits E p s t := by
  induction p generalizing i s with
  | done a =>
    intro t ht
    rw [List.mem_singleton.mp ht]
    exact .here _ _
  | read k ih => exact fun t ht => .read (ih s i s t ht)
  | write f k ih =>
    intro t ht
    rcases List.mem_cons.mp ht with rfl | ht
    · exact .here _ _
    · exact .write (ih i (f s) t ht)
  | ask q k ih =>
    intro t ht
    rcases List.mem_cons.mp ht with rfl | ht
    · exact .here _ _
    · exact .ask (ho i q s) (ih _ (i + 1) _ t ht)

theorem run_congr {oracle oracle' : ℕ → (q : Q) → A q} (p : Prog σ Q A α) (i j : ℕ) (s : σ)
    (h : ∀ n, oracle (i + n) = oracle' (j + n)) : p.run E oracle i s = p.run E oracle' j s := by
  induction p generalizing i j s with
  | done a => rfl
  | read k ih => exact ih s i j s h
  | write f k ih => exact ih i j (f s) h
  | ask q k ih =>
    have hfirst : oracle i q = oracle' j q := congrFun (h 0) q
    have hrest : ∀ n, oracle (i + 1 + n) = oracle' (j + 1 + n) := by
      intro n
      have hn := h (n + 1)
      rwa [← Nat.add_assoc, Nat.add_right_comm, ← Nat.add_assoc j, Nat.add_right_comm j] at hn
    simp only [run, hfirst]
    exact ih _ _ _ _ hrest

/-! ## The calculus -/

/-- Every state the run passes through satisfies `I`, and where it returns, `R` holds. -/
def Always (E : Env σ Q A) (I : σ → Prop) : Prog σ Q A α → (α → σ → Prop) → σ → Prop
  | .done a, R, s => I s ∧ R a s
  | .read k, R, s => Always E I (k s) R s
  | .write f k, R, s => I s ∧ Always E I k R (f s)
  | .ask q k, R, s => I s ∧ ∀ a, E.Allowed s q a → Always E I (k a) R (E.effect s q a)

variable {I : σ → Prop}

theorem Always.now {p : Prog σ Q A α} {R : α → σ → Prop} {s : σ} (h : Always E I p R s) : I s := by
  induction p generalizing s with
  | done a => exact h.1
  | read k ih => exact ih s h
  | write f k ih => exact h.1
  | ask q k ih => exact h.1

theorem Always.mono {p : Prog σ Q A α} {R R' : α → σ → Prop} {s : σ} (h : Always E I p R s)
    (hR : ∀ a t, I t → R a t → R' a t) : Always E I p R' s := by
  induction p generalizing s with
  | done a => exact ⟨h.1,hR a s h.1 h.2⟩
  | read k ih => exact ih s h
  | write f k ih => exact ⟨h.1,ih h.2⟩
  | ask q k ih => exact ⟨h.1,fun a ha => ih a (h.2 a ha)⟩

theorem Always.and {p : Prog σ Q A α} {R R' : α → σ → Prop} {s : σ} (h : Always E I p R s) (h' : Always E I p R' s) :
    Always E I p (fun a t => R a t ∧ R' a t) s := by
  induction p generalizing s with
  | done a => exact ⟨h.1,h.2,h'.2⟩
  | read k ih => exact ih s h h'
  | write f k ih => exact ⟨h.1,ih h.2 h'.2⟩
  | ask q k ih => exact ⟨h.1,fun a ha => ih a (h.2 a ha) (h'.2 a ha)⟩

theorem always_bind {p : Prog σ Q A α} {f : α → Prog σ Q A β} {R : β → σ → Prop} {s : σ} :
    Always E I (p.bind f) R s ↔ Always E I p (fun a t => Always E I (f a) R t) s := by
  induction p generalizing s with
  | done a => exact ⟨fun h => ⟨h.now,h⟩,fun h => h.2⟩
  | read k ih => exact ih s
  | write g k ih => exact and_congr_right (fun _ => ih)
  | ask q k ih => exact and_congr_right (fun _ => forall_congr' (fun a => imp_congr_right (fun _ => ih a)))

/-- The rule of sequencing, in the direction in which proofs use it. -/
theorem Always.bind {p : Prog σ Q A α} {f : α → Prog σ Q A β} {R : β → σ → Prop} {M : α → σ → Prop}
    {s : σ} (hp : Always E I p M s) (hf : ∀ a t, I t → M a t → Always E I (f a) R t) :
    Always E I (p.bind f) R s :=
  always_bind.mpr (hp.mono hf)

@[simp] theorem always_done {a : α} {R : α → σ → Prop} {s : σ} :
    Always E I (.done a) R s ↔ I s ∧ R a s := Iff.rfl
@[simp] theorem always_get {R : σ → σ → Prop} {s : σ} :
    Always E I (get : Prog σ Q A σ) R s ↔ I s ∧ R s s := Iff.rfl
theorem always_modify_bind {f : σ → σ} {k : Unit → Prog σ Q A α} {R : α → σ → Prop} {s : σ} :
    Always E I ((modify f).bind k) R s ↔ I s ∧ Always E I (k ()) R (f s) := Iff.rfl
theorem always_query_bind {q : Q} {k : A q → Prog σ Q A α} {R : α → σ → Prop} {s : σ} :
    Always E I ((query q).bind k) R s ↔ I s ∧ ∀ a, E.Allowed s q a → Always E I (k a) R (E.effect s q a) := Iff.rfl

@[simp] theorem always_ite {c : Prop} [Decidable c] {p q : Prog σ Q A α} {R : α → σ → Prop} {s : σ} :
    Always E I (if c then p else q) R s ↔ (c → Always E I p R s) ∧ (¬ c → Always E I q R s) := by
  split <;> simp_all

/-- One pass over a list, from an invariant of the loop. -/
theorem Always.forEach {body : β → Prog σ Q A Unit} {J : σ → Prop} (l : List β)
    (hb : ∀ b ∈ l, ∀ s, I s → J s → Always E I (body b) (fun _ t => J t) s) {s : σ}
    (hI : I s) (hJ : J s) : Always E I (forEach l body) (fun _ t => J t) s := by
  induction l generalizing s with
  | nil => exact ⟨hI,hJ⟩
  | cons b bs ih =>
    refine Always.bind (hb b List.mem_cons_self s hI hJ) ?_
    intro _ t ht hj
    exact ih (fun c hc => hb c (List.mem_cons_of_mem b hc)) ht hj

/-- What writing the part and answering its questions preserve, a program over the part preserves. -/
theorem Always.zoom {τ Q' : Type} {A' : Q' → Type} {get : σ → τ} {set : τ → σ → σ}
    {answer : (q : Q') → Prog σ Q A (A' q)}
    {J : σ → Prop} (hI : ∀ s, J s → I s) (hset : ∀ t s, J s → J (set t s))
    (hanswer : ∀ q s, J s → Always E I (answer q) (fun _ t => J t) s) (p : Prog τ Q' A' β) {s : σ} (h : J s) :
    Always E I (zoom get set answer p) (fun _ t => J t) s := by
  induction p generalizing s with
  | done b => exact ⟨hI s h,h⟩
  | read k ih => exact ih (get s) h
  | write f k ih => exact ⟨hI s h,ih (hset _ s h)⟩
  | ask q k ih => exact Always.bind (hanswer q s h) (fun a t _ ht => ih a ht)

/-- The calculus speaks about exactly the states that runs pass through. -/
theorem Always.visits {p : Prog σ Q A α} {R : α → σ → Prop} {s t : σ} (h : Always E I p R s)
    (hv : Visits E p s t) : I t := by
  induction hv with
  | here p s => exact h.now
  | read _ ih => exact ih h
  | write _ ih => exact ih h.2
  | ask ha _ ih => exact ih (h.2 _ ha)

theorem Always.returns {p : Prog σ Q A α} {R : α → σ → Prop} {s t : σ} {a : α}
    (h : Always E I p R s) (hr : Returns E p s a t) : R a t := by
  induction hr with
  | done a s => exact h.2
  | read _ ih => exact ih h
  | write _ ih => exact ih h.2
  | ask ha _ ih => exact ih (h.2 _ ha)

theorem always_iff {p : Prog σ Q A α} {R : α → σ → Prop} {s : σ} :
    Always E I p R s ↔ (∀ t, Visits E p s t → I t) ∧ ∀ a t, Returns E p s a t → R a t := by
  constructor
  · exact fun h => ⟨fun t ht => h.visits ht,fun a t ht => h.returns ht⟩
  · rintro ⟨hv,hr⟩
    induction p generalizing s with
    | done a => exact ⟨hv s (.here _ _),hr a s (.done a s)⟩
    | read k ih => exact ih s (fun t ht => hv t (.read ht)) (fun a t ht => hr a t (.read ht))
    | write f k ih =>
      exact ⟨hv s (.here _ _),ih (fun t ht => hv t (.write ht)) (fun a t ht => hr a t (.write ht))⟩
    | ask q k ih =>
      refine ⟨hv s (.here _ _),fun a ha => ih a ?_ ?_⟩
      · exact fun t ht => hv t (.ask ha ht)
      · exact fun r t ht => hr r t (.ask ha ht)

open Classical in
/-- What all answers lead to in a run holds at its end. -/
theorem always_of_run (answers : (q : Q) → A q) {p : Prog σ Q A α} {R : α → σ → Prop} {s : σ}
    (h : ∀ oracle : ℕ → (q : Q) → A q, R (p.run E oracle 0 s).1 (p.run E oracle 0 s).2) :
    Always E (fun _ => True) p R s := by
  induction p generalizing s with
  | done a => exact ⟨trivial,h (fun _ => answers)⟩
  | read k ih => exact ih s h
  | write f k ih => exact ⟨trivial,ih h⟩
  | ask q k ih =>
    refine ⟨trivial,fun a _ => ih a (fun oracle => ?_)⟩
    let answered : ℕ → (q : Q) → A q :=
      fun i => i.casesOn (fun q' => if hq : q = q' then hq ▸ a else answers q') oracle
    have hrun := h answered
    have hfirst : answered 0 q = a := dif_pos rfl
    have hrest : (k a).run E answered (0 + 1) (E.effect s q a) = (k a).run E oracle 0 (E.effect s q a) :=
      run_congr (k a) (0 + 1) 0 (E.effect s q a) (fun n => by rw [Nat.zero_add, Nat.zero_add, Nat.add_comm])
    simp only [run, hfirst] at hrun
    rwa [hrest] at hrun

end Prog

/-! ## Services: any sequence of operations -/

section Service
variable {σ Q Op : Type} {A : Q → Type} {α : Type}

/-- The states between two operations of a service, each begun only where it is enabled. -/
inductive Settled (E : Env σ Q A) (ops : Op → Prog σ Q A α) (Enabled : Op → σ → Prop) (s₀ : σ) :
    σ → Prop where
  | start : Settled E ops Enabled s₀ s₀
  | next {s t : σ} {o : Op} {a : α} (hs : Settled E ops Enabled s₀ s) (he : Enabled o s)
      (hr : Prog.Returns E (ops o) s a t) : Settled E ops Enabled s₀ t

/-- Every state a service passes through, between operations or inside one. -/
def Passes (E : Env σ Q A) (ops : Op → Prog σ Q A α) (Enabled : Op → σ → Prop) (s₀ t : σ) : Prop :=
  Settled E ops Enabled s₀ t ∨
    ∃ s o, Settled E ops Enabled s₀ s ∧ Enabled o s ∧ Prog.Visits E (ops o) s t

variable {E : Env σ Q A} {ops : Op → Prog σ Q A α} {Enabled : Op → σ → Prop} {s₀ : σ}

/-- What holds at the start and is restored by every operation holds between operations. -/
theorem Settled.invariant {J : σ → Prop} (h₀ : J s₀)
    (hop : ∀ o s, J s → Enabled o s → ∀ a t, Prog.Returns E (ops o) s a t → J t) {t : σ}
    (h : Settled E ops Enabled s₀ t) : J t := by
  induction h with
  | start => exact h₀
  | next _ he hr ih => exact hop _ _ ih he _ _ hr

/-- The invariant rule: `I` inside every operation, from `J` between operations. -/
theorem Passes.invariant {I J : σ → Prop} (h₀ : J s₀) (hJ : ∀ s, J s → I s)
    (hop : ∀ o s, J s → Enabled o s → Prog.Always E I (ops o) (fun _ t => J t) s) {t : σ}
    (h : Passes E ops Enabled s₀ t) : I t := by
  have hs : ∀ {s}, Settled E ops Enabled s₀ s → J s := by
    intro s hs
    exact hs.invariant h₀ (fun o s hj he a t hr => (hop o s hj he).returns hr)
  rcases h with h | ⟨s,o,h,he,hv⟩
  · exact hJ t (hs h)
  · exact (hop o s (hs h) he).visits hv

end Service

end Interaction
