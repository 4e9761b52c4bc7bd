import Mathlib.Data.List.Basic
import Mathlib.Logic.Function.Basic
import Mathlib.Tactic.Common

/-! # Resources that outside objects refer to

Another party creates objects on request, and an object refers to resources of the
requester: buffers, mappings, slots. The requester keeps its resources in fields, each
field belonging to a queue that keeps the number of the object. A creation without a
definite answer leaves an object that may exist under a number nobody knows.
-/
namespace Interaction
set_option linter.unusedSectionVars false

variable {Field Queue Kind : Type}

/-- An object that may exist, the resources it refers to, and its number if that is known. -/
structure Obj (Field Kind : Type) where
  kind : Kind
  number : Option ℕ
  refs : List (Field × ℕ)

/-- A resource is a field and the serial number it was acquired under. -/
structure Custody (Field Queue Kind : Type) where
  number : Queue → Option ℕ
  held : Field → Option ℕ
  live : List (Field × ℕ)
  next : ℕ
  objects : List (Obj Field Kind)

namespace Custody
variable [DecidableEq Field] [DecidableEq Queue] [DecidableEq Kind]

def acquire (f : Field) (c : Custody Field Queue Kind) : Custody Field Queue Kind :=
  { c with live := (f,c.next) :: c.live, next := c.next + 1 }

def release (r : Field × ℕ) (c : Custody Field Queue Kind) : Custody Field Queue Kind :=
  { c with live := c.live.filter (fun x => x ≠ r) }

def hold (f : Field) (k : ℕ) (c : Custody Field Queue Kind) : Custody Field Queue Kind :=
  { c with held := Function.update c.held f (some k) }

def clear (f : Field) (c : Custody Field Queue Kind) : Custody Field Queue Kind :=
  { c with held := Function.update c.held f none }

/-- What a field holds is released, and the field is cleared. -/
def drop (f : Field) (c : Custody Field Queue Kind) : Custody Field Queue Kind :=
  match c.held f with
  | none => c
  | some k => (c.release (f,k)).clear f

def create (o : Obj Field Kind) (c : Custody Field Queue Kind) : Custody Field Queue Kind :=
  { c with objects := o :: c.objects }

def destroy (kind : Kind) (n : ℕ) (c : Custody Field Queue Kind) : Custody Field Queue Kind :=
  { c with objects := c.objects.filter (fun o => ¬ (o.kind = kind ∧ o.number = some n)) }

def setNumber (q : Queue) (n : Option ℕ) (c : Custody Field Queue Kind) : Custody Field Queue Kind :=
  { c with number := Function.update c.number q n }

/-- No resource is released that an object which may exist refers to. -/
def Safe (c : Custody Field Queue Kind) : Prop := ∀ o ∈ c.objects, ∀ r ∈ o.refs, r ∈ c.live

instance (c : Custody Field Queue Kind) : Decidable c.Safe :=
  inferInstanceAs (Decidable (∀ o ∈ c.objects, ∀ r ∈ o.refs, r ∈ c.live))

/-- The same for the objects whose numbers are known. -/
def KnownSafe (c : Custody Field Queue Kind) : Prop :=
  ∀ o ∈ c.objects, ∀ n, o.number = some n → ∀ r ∈ o.refs, r ∈ c.live

def AllKnown (c : Custody Field Queue Kind) : Prop := ∀ o ∈ c.objects, o.number ≠ none

/-- Every object without a number has lost a resource. -/
def Lost (c : Custody Field Queue Kind) : Prop := ∀ o ∈ c.objects, o.number = none → ∃ r ∈ o.refs, r ∉ c.live

def Unused (c : Custody Field Queue Kind) (r : Field × ℕ) : Prop :=
  ∀ o ∈ c.objects, ∀ n, o.number = some n → r ∉ o.refs

/-- A resource in a field is referred to only by the object whose number its queue keeps. -/
structure Inv (owner : Field → Queue) (kind : Queue → Kind) (c : Custody Field Queue Kind) : Prop where
  below : ∀ r ∈ c.live, r.2 < c.next
  refsBelow : ∀ o ∈ c.objects, ∀ r ∈ o.refs, r.2 < c.next
  held : ∀ f k, c.held f = some k → (f,k) ∈ c.live
  known : c.KnownSafe
  guarded : ∀ o ∈ c.objects, ∀ n, o.number = some n → ∀ r ∈ o.refs, c.held r.1 = some r.2 →
    c.number (owner r.1) = some n ∧ kind (owner r.1) = o.kind

variable {owner : Field → Queue} {kind : Queue → Kind} {c : Custody Field Queue Kind} {f : Field} {r : Field × ℕ}
  {q : Queue} {n : ℕ} {o : Obj Field Kind}

theorem KnownSafe.safe (h : c.KnownSafe) (hk : c.AllKnown) : c.Safe := by
  intro o ho r hr
  obtain ⟨n,hn⟩ := Option.ne_none_iff_exists'.mp (hk o ho)
  exact h o ho n hn r hr

theorem Lost.not_safe (h : c.Lost) (hk : ¬ c.AllKnown) : ¬ c.Safe := by
  intro hs
  refine hk (fun o ho hn => ?_)
  obtain ⟨r,hr,hlost⟩ := h o ho hn
  exact hlost (hs o ho r hr)

theorem mem_release {x : Field × ℕ} : x ∈ (c.release r).live ↔ x ∈ c.live ∧ x ≠ r := by
  simp [release]

theorem drop_number : (c.drop f).number = c.number := by
  unfold drop
  split <;> rfl

theorem drop_objects : (c.drop f).objects = c.objects := by
  unfold drop
  split <;> rfl

theorem drop_live_subset : ∀ r ∈ (c.drop f).live, r ∈ c.live := by
  unfold drop
  split
  · exact fun _ h => h
  · exact fun r h => (mem_release.mp h).1

theorem drop_held : (c.drop f).held = Function.update c.held f none := by
  unfold drop
  split
  · rename_i h
    rw [← h, Function.update_eq_self]
  · rfl

theorem drop_live (h : r ∈ (c.drop f).live) : r ∈ c.live ∧ ¬ (r.1 = f ∧ c.held f = some r.2) := by
  unfold drop at h
  split at h
  · rename_i hnone
    exact ⟨h,fun he => by rw [hnone] at he; cases he.2⟩
  · rename_i k hk
    obtain ⟨hmem,hne⟩ := mem_release.mp h
    refine ⟨hmem,fun he => hne ?_⟩
    rw [hk] at he
    exact Prod.ext he.1 (Option.some.inj he.2).symm

/-! ## Acquiring and releasing -/

theorem Inv.acquire (h : Inv owner kind c) (f : Field) : Inv owner kind (c.acquire f) := by
  refine ⟨fun r hr => ?_,fun o ho r hr => Nat.lt_succ_of_lt (h.refsBelow o ho r hr),
    fun g k hk => List.mem_cons_of_mem _ (h.held g k hk),fun o ho n hn r hr => List.mem_cons_of_mem _ (h.known o ho n hn r hr),
    h.guarded⟩
  rcases List.mem_cons.mp hr with rfl | hr
  · exact Nat.lt_succ_self _
  · exact Nat.lt_succ_of_lt (h.below r hr)

theorem Inv.unused (h : Inv owner kind c) (f : Field) : c.Unused (f,c.next) :=
  fun o ho _ _ hr => absurd (h.refsBelow o ho _ hr) (Nat.lt_irrefl _)

theorem Inv.not_held (h : Inv owner kind c) (g : Field) : c.held g ≠ some c.next :=
  fun hk => absurd (h.below _ (h.held g _ hk)) (Nat.lt_irrefl _)

theorem Inv.release (h : Inv owner kind c) (hr : c.Unused r) (hheld : c.held r.1 ≠ some r.2) :
    Inv owner kind (c.release r) := by
  refine ⟨fun x hx => h.below x (mem_release.mp hx).1,h.refsBelow,fun g k hk => mem_release.mpr ⟨h.held g k hk,?_⟩,
    fun o ho n hn x hx => mem_release.mpr ⟨h.known o ho n hn x hx,?_⟩,h.guarded⟩
  · rintro rfl
    exact hheld hk
  · rintro rfl
    exact hr o ho n hn hx

/-! ## Objects -/

/-- A live resource gets into a field, where only the object of its queue may refer to it. -/
theorem Inv.hold (h : Inv owner kind c) {k : ℕ} (hlive : (f,k) ∈ c.live)
    (hguard : ∀ o ∈ c.objects, ∀ n, o.number = some n → (f,k) ∈ o.refs →
      c.number (owner f) = some n ∧ kind (owner f) = o.kind) : Inv owner kind (c.hold f k) := by
  refine ⟨h.below,h.refsBelow,fun g j hj => ?_,h.known,fun o ho n hn x hx hxk => ?_⟩
  · simp only [Custody.hold, Function.update_apply] at hj
    split at hj
    · rename_i hgf
      rw [hgf, ← Option.some.inj hj]
      exact hlive
    · exact h.held g j hj
  · simp only [Custody.hold, Function.update_apply] at hxk
    split at hxk
    · rename_i hxf
      have hx' : x = (f,k) := Prod.ext hxf (Option.some.inj hxk).symm
      rw [hxf]
      exact hguard o ho n hn (hx' ▸ hx)
    · exact h.guarded o ho n hn x hx hxk

theorem Inv.clear (h : Inv owner kind c) (f : Field) : Inv owner kind (c.clear f) := by
  refine ⟨h.below,h.refsBelow,fun g j hj => ?_,h.known,fun o ho n hn x hx hxk => ?_⟩
  · simp only [Custody.clear, Function.update_apply] at hj
    split at hj
    · cases hj
    · exact h.held g j hj
  · simp only [Custody.clear, Function.update_apply] at hxk
    split at hxk
    · cases hxk
    · exact h.guarded o ho n hn x hx hxk

theorem Inv.drop (h : Inv owner kind c) (hnone : c.number (owner f) = none) : Inv owner kind (c.drop f) := by
  unfold Custody.drop
  split
  · exact h
  · rename_i k hk
    have hunused : c.Unused (f,k) := by
      intro o ho n hn hr
      have hnum := (h.guarded o ho n hn _ hr hk).1
      rw [hnone] at hnum
      cases hnum
    have hcleared : (c.clear f).held f ≠ some k := by simp [Custody.clear]
    exact (h.clear f).release hunused hcleared

/-- An object may exist whose number is not known. -/
theorem Inv.createUnknown (h : Inv owner kind c) (hno : o.number = none) (hrefs : ∀ r ∈ o.refs, r.2 < c.next) :
    Inv owner kind (c.create o) := by
  have hold : ∀ {p n}, p ∈ o :: c.objects → p.number = some n → p ∈ c.objects := by
    intro p n hp hn
    rcases List.mem_cons.mp hp with rfl | hp
    · rw [hno] at hn
      cases hn
    · exact hp
  refine ⟨h.below,fun p hp => ?_,h.held,fun p hp n hn => h.known p (hold hp hn) n hn,
    fun p hp n hn => h.guarded p (hold hp hn) n hn⟩
  rcases List.mem_cons.mp hp with rfl | hp
  · exact hrefs
  · exact h.refsBelow p hp

/-- A queue without an object gets one: its number is stored, and it refers to live resources that,
where they are held, are held by this queue. -/
theorem Inv.created (h : Inv owner kind c) (hnone : c.number q = none) {refs : List (Field × ℕ)}
    (hrefs : ∀ r ∈ refs, r ∈ c.live ∧ owner r.1 = q) (n : ℕ) :
    Inv owner kind ((c.create ⟨kind q,some n,refs⟩).setNumber q (some n)) := by
  refine ⟨h.below,fun p hp r hr => ?_,h.held,fun p hp m hm r hr => ?_,fun p hp m hm r hr hk => ?_⟩
  · rcases List.mem_cons.mp hp with rfl | hp
    · exact h.below r (hrefs r hr).1
    · exact h.refsBelow p hp r hr
  · rcases List.mem_cons.mp hp with rfl | hp
    · exact (hrefs r hr).1
    · exact h.known p hp m hm r hr
  · simp only [setNumber, Function.update_apply]
    rcases List.mem_cons.mp hp with rfl | hp
    · rw [if_pos (hrefs r hr).2, (hrefs r hr).2]
      exact ⟨hm,rfl⟩
    · have hg := h.guarded p hp m hm r hr hk
      rw [if_neg (fun he => by rw [he, hnone] at hg; cases hg.1)]
      exact hg

/-- A queue gets an object and the resources it refers to, in place of whatever it had. -/
theorem Inv.replaced (h : Inv owner kind c) {refs : List (Field × ℕ)} {f : Field → Option ℕ}
    (hrefs : ∀ r ∈ refs, r ∈ c.live ∧ owner r.1 = q ∧ c.Unused r) (hother : ∀ g, owner g ≠ q → f g = c.held g)
    (hown : ∀ g k, owner g = q → f g = some k → (g,k) ∈ refs) (n : ℕ) :
    Inv owner kind { (c.create ⟨kind q,some n,refs⟩).setNumber q (some n) with held := f } := by
  refine ⟨h.below,fun p hp r hr => ?_,fun g k hk => ?_,fun p hp m hm r hr => ?_,fun p hp m hm r hr hk => ?_⟩
  · rcases List.mem_cons.mp hp with rfl | hp
    · exact h.below r (hrefs r hr).1
    · exact h.refsBelow p hp r hr
  · by_cases hg : owner g = q
    · exact (hrefs _ (hown g k hg hk)).1
    · exact h.held g k ((hother g hg).symm.trans hk)
  · rcases List.mem_cons.mp hp with rfl | hp
    · exact (hrefs r hr).1
    · exact h.known p hp m hm r hr
  · simp only [setNumber, Function.update_apply]
    rcases List.mem_cons.mp hp with rfl | hp
    · rw [if_pos (hrefs r hr).2.1, (hrefs r hr).2.1]
      exact ⟨hm,rfl⟩
    · by_cases hg : owner r.1 = q
      · exact absurd hr ((hrefs r (hown r.1 r.2 hg hk)).2.2 p hp m hm)
      · rw [if_neg hg]
        exact h.guarded p hp m hm r hr ((hother r.1 hg).symm.trans hk)

/-- The object of a queue has been destroyed, and its number is cleared. -/
theorem Inv.destroyed (h : Inv owner kind c) (hnum : c.number q = some n) :
    Inv owner kind ((c.destroy (kind q) n).setNumber q none) := by
  refine ⟨h.below,fun p hp => h.refsBelow p (List.mem_of_mem_filter hp),h.held,
    fun p hp => h.known p (List.mem_of_mem_filter hp),fun p hp m hm r hr hk => ?_⟩
  obtain ⟨hp,hne⟩ := List.mem_filter.mp hp
  have hg := h.guarded p hp m hm r hr hk
  simp only [setNumber, Function.update_apply]
  rw [if_neg (fun he => ?_)]
  · exact hg
  · rw [he, hnum] at hg
    exact absurd ⟨hg.2.symm,hm.trans hg.1.symm⟩ (of_decide_eq_true hne)

/-! ## Resources on the way into a field -/

/-- Acquired, and neither in a field nor in use by an object with a number. -/
structure Spare (c : Custody Field Queue Kind) (r : Field × ℕ) : Prop where
  live : r ∈ c.live
  unused : c.Unused r
  apart : c.held r.1 ≠ some r.2

theorem Inv.spare (h : Inv owner kind c) (f : Field) : (c.acquire f).Spare (f,c.next) :=
  ⟨List.mem_cons_self,h.unused f,h.not_held f⟩

theorem Spare.acquire (h : c.Spare r) (f : Field) : (c.acquire f).Spare r :=
  ⟨List.mem_cons_of_mem _ h.live,h.unused,h.apart⟩

theorem Spare.release {x : Field × ℕ} (h : c.Spare r) (hne : r ≠ x) : (c.release x).Spare r :=
  ⟨mem_release.mpr ⟨h.live,hne⟩,h.unused,h.apart⟩

theorem Spare.createUnknown (h : c.Spare r) (hno : o.number = none) : (c.create o).Spare r := by
  refine ⟨h.live,fun p hp n hn => ?_,h.apart⟩
  rcases List.mem_cons.mp hp with rfl | hp
  · rw [hno] at hn
    cases hn
  · exact h.unused p hp n hn

/-! ## Objects that nobody can destroy -/

theorem Lost.acquire (h : c.Lost) (hinv : Inv owner kind c) (f : Field) : (c.acquire f).Lost := by
  intro o ho hn
  obtain ⟨r,hr,hlost⟩ := h o ho hn
  refine ⟨r,hr,fun hlive => ?_⟩
  rcases List.mem_cons.mp hlive with rfl | hlive
  · exact Nat.lt_irrefl _ (hinv.refsBelow o ho _ hr)
  · exact hlost hlive

theorem Lost.fewer {c' : Custody Field Queue Kind} (h : c.Lost) (hlive : ∀ r ∈ c'.live, r ∈ c.live)
    (hobj : ∀ o ∈ c'.objects, o.number = none → o ∈ c.objects) : c'.Lost := by
  intro o ho hn
  obtain ⟨r,hr,hlost⟩ := h o (hobj o ho hn) hn
  exact ⟨r,hr,fun hl => hlost (hlive r hl)⟩

/-- A resource of an object that may exist is released. -/
theorem Lost.createRelease (h : c.Lost) (hr : r ∈ o.refs) : ((c.create o).release r).Lost := by
  intro p hp hn
  rcases List.mem_cons.mp hp with rfl | hp
  · exact ⟨r,hr,fun hl => (mem_release.mp hl).2 rfl⟩
  · obtain ⟨x,hx,hlost⟩ := h p hp hn
    exact ⟨x,hx,fun hl => hlost (mem_release.mp hl).1⟩

end Custody
end Interaction
