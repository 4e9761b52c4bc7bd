import AppleMCX.Interaction.Custody

/-! # Tables of the objects whose resources are held

For every kind of object there is a table, and a record of it has the handle of an object
and the resources to release once the object is gone. A resource outside the tables is spare
where no object refers to it, and claimed where one object only may do so.
-/
namespace Interaction
set_option linter.unusedSectionVars false

variable {Field Queue Kind : Type} [DecidableEq Field] [DecidableEq Queue] [DecidableEq Kind]

structure Record (Field : Type) where
  handle : ℕ
  refs : List (Field × ℕ)

namespace Record

def Apart (e e' : Record Field) : Prop := ∀ r ∈ e.refs, r ∉ e'.refs

def findHandle (h : ℕ) (t : List (Record Field)) : Option (Record Field) := t.find? (fun e => e.handle = h)

/-- The first record with the handle is taken out. -/
def removeHandle (h : ℕ) (t : List (Record Field)) : List (Record Field) := t.eraseP (fun e => e.handle = h)

theorem findHandle_split {h : ℕ} {t : List (Record Field)} {e : Record Field} (hfind : findHandle h t = some e) :
    e.handle = h ∧ ∃ pre post, t = pre ++ e :: post ∧ removeHandle h t = pre ++ post := by
  obtain ⟨hp,pre,post,hsplit,hnone⟩ := List.find?_eq_some_iff_append.mp hfind
  have hpre : ∀ a ∈ pre, ¬ decide (a.handle = h) = true := fun a ha => by simpa using hnone a ha
  have hpost : (e :: post).eraseP (fun e => decide (e.handle = h)) = post := List.eraseP_cons_of_pos hp
  refine ⟨of_decide_eq_true hp,pre,post,hsplit,?_⟩
  rw [removeHandle, hsplit, List.eraseP_append_right _ hpre, hpost]

end Record

namespace Custody
open Record

/-- The first one is where the object of a handle is found among those of its kind. -/
structure Registered (index : Kind → ℕ → ℕ) (T : Kind → List (Record Field)) (c : Custody Field Queue Kind) : Prop where
  below : ∀ r ∈ c.live, r.2 < c.next
  safe : c.Safe
  live : ∀ k, ∀ e ∈ T k, ∀ r ∈ e.refs, r ∈ c.live
  owned : ∀ k, ∀ e ∈ T k, ∀ r ∈ e.refs, ∀ o ∈ c.objects, r ∈ o.refs →
    o.kind = k ∧ o.number = some (index k e.handle)
  apart : ∀ k, (T k).Pairwise Apart
  across : ∀ k k', k ≠ k' → ∀ e ∈ T k, ∀ e' ∈ T k', Apart e e'

/-- Outside the tables, and referred to only by objects of one kind and number. -/
structure Claimed (T : Kind → List (Record Field)) (c : Custody Field Queue Kind) (k : Kind) (n : ℕ) (r : Field × ℕ) :
    Prop where
  untabled : ∀ k', ∀ e ∈ T k', r ∉ e.refs
  users : ∀ o ∈ c.objects, r ∈ o.refs → o.kind = k ∧ o.number = some n

/-- Outside the tables, and referred to by no object. -/
structure Unclaimed (T : Kind → List (Record Field)) (c : Custody Field Queue Kind) (r : Field × ℕ) : Prop where
  untabled : ∀ k, ∀ e ∈ T k, r ∉ e.refs
  unused : ∀ o ∈ c.objects, r ∉ o.refs

variable {index : Kind → ℕ → ℕ} {T T' : Kind → List (Record Field)} {c : Custody Field Queue Kind} {k : Kind} {n : ℕ}
  {f : Field} {r x : Field × ℕ} {e : Record Field}

/-! ## Acquiring and releasing -/

theorem Registered.acquire (h : Registered index T c) (f : Field) : Registered index T (c.acquire f) where
  below := by
    intro r hr
    rcases List.mem_cons.mp hr with rfl | hr
    · exact Nat.lt_succ_self _
    · exact Nat.lt_succ_of_lt (h.below r hr)
  safe := fun o ho r hr => List.mem_cons_of_mem _ (h.safe o ho r hr)
  live := fun k e he r hr => List.mem_cons_of_mem _ (h.live k e he r hr)
  owned := h.owned
  apart := h.apart
  across := h.across

theorem Registered.acquired (h : Registered index T c) (f : Field) : Unclaimed T (c.acquire f) (f,c.next) := by
  have hfresh : (f,c.next) ∉ c.live := fun hl => Nat.lt_irrefl _ (h.below _ hl)
  exact ⟨fun k e he hr => hfresh (h.live k e he _ hr),fun o ho hr => hfresh (h.safe o ho _ hr)⟩

theorem Unclaimed.acquire (h : Unclaimed T c r) (f : Field) : Unclaimed T (c.acquire f) r := ⟨h.untabled,h.unused⟩

theorem Unclaimed.release (h : Unclaimed T c r) (x : Field × ℕ) : Unclaimed T (c.release x) r := ⟨h.untabled,h.unused⟩

theorem Registered.release (h : Registered index T c) (hr : Unclaimed T c r) : Registered index T (c.release r) where
  below := fun x hx => h.below x (mem_release.mp hx).1
  safe := by
    intro o ho x hx
    refine mem_release.mpr ⟨h.safe o ho x hx,?_⟩
    rintro rfl
    exact hr.unused o ho hx
  live := by
    intro k e he x hx
    refine mem_release.mpr ⟨h.live k e he x hx,?_⟩
    rintro rfl
    exact hr.untabled k e he hx
  owned := h.owned
  apart := h.apart
  across := h.across

/-! ## Objects -/

theorem Registered.create (h : Registered index T c) {o : Obj Field Kind} (hlive : ∀ r ∈ o.refs, r ∈ c.live)
    (hrefs : ∀ r ∈ o.refs, Unclaimed T c r) : Registered index T (c.create o) where
  below := h.below
  safe := by
    intro p hp r hr
    rcases List.mem_cons.mp hp with rfl | hp
    · exact hlive r hr
    · exact h.safe p hp r hr
  live := h.live
  owned := by
    intro k e he r hr p hp hrp
    rcases List.mem_cons.mp hp with rfl | hp
    · exact absurd hr ((hrefs r hrp).untabled k e he)
    · exact h.owned k e he r hr p hp hrp
  apart := h.apart
  across := h.across

theorem Unclaimed.created {refs : List (Field × ℕ)} (h : Unclaimed T c r) :
    Claimed T (c.create ⟨k,some n,refs⟩) k n r := by
  refine ⟨h.untabled,fun o ho hr => ?_⟩
  rcases List.mem_cons.mp ho with rfl | ho
  · exact ⟨rfl,rfl⟩
  · exact absurd hr (h.unused o ho)

theorem Registered.destroy (h : Registered index T c) (k : Kind) (n : ℕ) : Registered index T (c.destroy k n) where
  below := h.below
  safe := fun o ho => h.safe o (List.mem_of_mem_filter ho)
  live := h.live
  owned := fun k e he r hr o ho => h.owned k e he r hr o (List.mem_of_mem_filter ho)
  apart := h.apart
  across := h.across

/-- Once the object is gone, nothing refers to what it alone could refer to. -/
theorem Claimed.destroyed (h : Claimed T c k n r) : Unclaimed T (c.destroy k n) r := by
  refine ⟨h.untabled,fun o ho hr => ?_⟩
  obtain ⟨ho,hne⟩ := List.mem_filter.mp ho
  exact absurd (h.users o ho hr) (of_decide_eq_true hne)

/-! ## Tables -/

/-- Records are taken out of tables. -/
theorem Registered.fewer (h : Registered index T c) (hT : ∀ k, List.Sublist (T' k) (T k)) : Registered index T' c where
  below := h.below
  safe := h.safe
  live := fun k e he => h.live k e ((hT k).subset he)
  owned := fun k e he => h.owned k e ((hT k).subset he)
  apart := fun k => (h.apart k).sublist (hT k)
  across := fun k k' hk e he e' he' => h.across k k' hk e ((hT k).subset he) e' ((hT k').subset he')

theorem Unclaimed.fewer (h : Unclaimed T c r) (hT : ∀ k, List.Sublist (T' k) (T k)) : Unclaimed T' c r :=
  ⟨fun k e he => h.untabled k e ((hT k).subset he),h.unused⟩

/-- The resources of a new record are claimed for its object. -/
theorem Registered.insert (h : Registered index T c) (hlive : ∀ r ∈ e.refs, r ∈ c.live)
    (hrefs : ∀ r ∈ e.refs, Claimed T c k (index k e.handle) r) :
    Registered index (Function.update T k (T k ++ [e])) c := by
  have hmem : ∀ {k' e'}, e' ∈ Function.update T k (T k ++ [e]) k' → e' ∈ T k' ∨ k' = k ∧ e' = e := by
    intro k' e' he'
    by_cases hk : k' = k
    · subst hk
      rw [Function.update_self] at he'
      rcases List.mem_append.mp he' with he' | he'
      · exact .inl he'
      · exact .inr ⟨rfl,List.mem_singleton.mp he'⟩
    · rw [Function.update_of_ne hk] at he'
      exact .inl he'
  constructor
  case below => exact h.below
  case safe => exact h.safe
  case live =>
    intro k' e' he'
    rcases hmem he' with he' | ⟨-,rfl⟩
    · exact h.live k' e' he'
    · exact hlive
  case owned =>
    intro k' e' he' r hr o ho hro
    rcases hmem he' with he' | ⟨rfl,rfl⟩
    · exact h.owned k' e' he' r hr o ho hro
    · exact (hrefs r hr).users o ho hro
  case apart =>
    intro k'
    by_cases hk : k' = k
    · subst hk
      rw [Function.update_self]
      refine List.pairwise_append.mpr ⟨h.apart k',List.pairwise_singleton _ _,fun e₁ he₁ e₂ he₂ r hr hr₂ => ?_⟩
      rw [List.mem_singleton.mp he₂] at hr₂
      exact (hrefs r hr₂).untabled k' e₁ he₁ hr
    · rw [Function.update_of_ne hk]
      exact h.apart k'
  case across =>
    intro k₁ k₂ hne e₁ he₁ e₂ he₂ r hr₁ hr₂
    rcases hmem he₁ with hm₁ | ⟨hk₁,rfl⟩
    · rcases hmem he₂ with hm₂ | ⟨-,rfl⟩
      · exact h.across k₁ k₂ hne e₁ hm₁ e₂ hm₂ r hr₁ hr₂
      · exact (hrefs r hr₂).untabled k₁ e₁ hm₁ hr₁
    · rcases hmem he₂ with hm₂ | ⟨hk₂,-⟩
      · exact (hrefs r hr₁).untabled k₂ e₂ hm₂ hr₂
      · exact hne (hk₁.trans hk₂.symm)

theorem sublist_update {t : List (Record Field)} (ht : List.Sublist t (T k)) (k' : Kind) :
    List.Sublist (Function.update T k t k') (T k') := by
  by_cases hk : k' = k
  · subst hk
    rw [Function.update_self]
    exact ht
  · rw [Function.update_of_ne hk]

/-- The resources of a record that is taken out are claimed for its object. -/
theorem Registered.removed (h : Registered index T c) {h' : ℕ} (hfind : findHandle h' (T k) = some e) :
    Registered index (Function.update T k (removeHandle h' (T k))) c ∧
    ∀ r ∈ e.refs, Claimed (Function.update T k (removeHandle h' (T k))) c k (index k h') r := by
  obtain ⟨hhandle,pre,post,hsplit,hout⟩ := findHandle_split hfind
  have hmem : e ∈ T k := by
    rw [hsplit]
    exact List.mem_append_right _ List.mem_cons_self
  have hsub : ∀ k', List.Sublist (Function.update T k (removeHandle h' (T k)) k') (T k') :=
    sublist_update List.eraseP_sublist
  refine ⟨h.fewer hsub,fun r hr => ⟨fun k' e' he' hr' => ?_,fun o ho hro => ?_⟩⟩
  · by_cases hk : k' = k
    · subst hk
      rw [Function.update_self] at he'
      have hpair := h.apart k'
      rw [hsplit] at hpair
      rw [hout] at he'
      obtain ⟨-,hright,hcross⟩ := List.pairwise_append.mp hpair
      rcases List.mem_append.mp he' with he' | he'
      · exact hcross e' he' e List.mem_cons_self r hr' hr
      · exact (List.pairwise_cons.mp hright).1 e' he' r hr hr'
    · rw [Function.update_of_ne hk] at he'
      exact h.across k' k hk e' he' e hmem r hr' hr
  · have hown := h.owned k e hmem r hr o ho hro
    rw [hhandle] at hown
    exact hown

end Custody
end Interaction
