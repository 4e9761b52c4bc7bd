import Mathlib.Data.List.Basic
import Mathlib.Logic.Function.Basic
import Mathlib.Tactic.Common

/-! # Objects that refer to one another

A party creates objects at another party, under numbers that the other one chooses, and destroys
them again. An object refers to others, so that the order matters: what an object refers to must
exist as long as the object does. The requester keeps the number of each object in a slot of its
own, and for each slot it is fixed to which other slots its object refers.
-/
namespace Interaction

/-! ## The objects -/

section Objects
variable {κ : Type} {db : List (κ × List κ)} {k : κ} {refs : List κ}

def Live (db : List (κ × List κ)) (k : κ) : Prop := k ∈ db.map Prod.fst

instance [DecidableEq κ] (db : List (κ × List κ)) (k : κ) : Decidable (Live db k) :=
  inferInstanceAs (Decidable (k ∈ db.map Prod.fst))

def Unreferenced (db : List (κ × List κ)) (k : κ) : Prop := ∀ o ∈ db, k ∉ o.2

instance [DecidableEq κ] (db : List (κ × List κ)) (k : κ) : Decidable (Unreferenced db k) :=
  inferInstanceAs (Decidable (∀ o ∈ db, k ∉ o.2))

/-- Every reference leads to an object. -/
def Linked (db : List (κ × List κ)) : Prop := ∀ o ∈ db, ∀ r ∈ o.2, Live db r

theorem live_iff : Live db k ↔ ∃ refs, (k,refs) ∈ db := by
  rw [Live, List.mem_map]
  constructor
  · rintro ⟨⟨_,refs⟩,ho,rfl⟩
    exact ⟨refs,ho⟩
  · rintro ⟨refs,ho⟩
    exact ⟨_,ho,rfl⟩

theorem Linked.create (h : Linked db) (hrefs : ∀ r ∈ refs, Live db r) : Linked ((k,refs) :: db) := by
  have hmono : ∀ {r : κ}, Live db r → Live ((k,refs) :: db) r := fun hr => List.mem_cons_of_mem _ hr
  intro o ho r hr
  rcases List.mem_cons.mp ho with rfl | ho
  · exact hmono (hrefs r hr)
  · exact hmono (h o ho r hr)

theorem Linked.destroy [DecidableEq κ] (h : Linked db) (hk : Unreferenced db k) :
    Linked (db.filter (fun o => o.1 ≠ k)) := by
  intro o ho r hr
  have hmem := (List.mem_filter.mp ho).1
  obtain ⟨refs,hrefs⟩ := live_iff.mp (h o hmem r hr)
  have hne : r ≠ k := by
    rintro rfl
    exact hk o hmem hr
  exact live_iff.mpr ⟨refs,List.mem_filter.mpr ⟨hrefs,decide_eq_true hne⟩⟩

end Objects

/-! ## The slots of the requester -/

/-- The kind of the object in each slot, and the slots it refers to. -/
structure Schema (Slot Kind : Type) where
  kind : Slot → Kind
  deps : Slot → List Slot
  irrefl : ∀ x, x ∉ deps x

namespace Schema
variable {Slot Kind : Type} (S : Schema Slot Kind)

/-- The objects are known by their kind and their number. -/
def key (v : Slot → Option ℕ) (x : Slot) : Option (Kind × ℕ) := (v x).map (fun n => (S.kind x,n))

def refs (v : Slot → Option ℕ) (x : Slot) : List (Kind × ℕ) := (S.deps x).filterMap (S.key v)

def object (v : Slot → Option ℕ) (x : Slot) : Option ((Kind × ℕ) × List (Kind × ℕ)) :=
  (S.key v x).map (fun k => (k,S.refs v x))

/-- What a slot refers to is there, and no object is in two slots. -/
structure Wf (v : Slot → Option ℕ) : Prop where
  closed : ∀ x, v x ≠ none → ∀ y ∈ S.deps x, v y ≠ none
  distinct : ∀ x y k, S.key v x = some k → S.key v y = some k → x = y

/-- The objects are those in the slots. -/
def Mirror (v : Slot → Option ℕ) (db : List ((Kind × ℕ) × List (Kind × ℕ))) : Prop :=
  ∀ o, o ∈ db ↔ ∃ x, S.object v x = some o

variable {S} {v : Slot → Option ℕ} {db : List ((Kind × ℕ) × List (Kind × ℕ))} {x y : Slot} {n : ℕ} {k : Kind × ℕ}

theorem key_eq_some : S.key v x = some k ↔ v x = some k.2 ∧ S.kind x = k.1 := by
  rw [key, Option.map_eq_some_iff]
  constructor
  · rintro ⟨n,hn,rfl⟩
    exact ⟨hn,rfl⟩
  · rintro ⟨hn,hk⟩
    exact ⟨k.2,hn,Prod.ext hk rfl⟩

theorem Mirror.live (h : S.Mirror v db) : Live db k ↔ ∃ x, S.key v x = some k := by
  rw [live_iff]
  constructor
  · rintro ⟨refs,ho⟩
    obtain ⟨x,hx⟩ := (h _).mp ho
    obtain ⟨k',hk,he⟩ := Option.map_eq_some_iff.mp hx
    cases he
    exact ⟨x,hk⟩
  · rintro ⟨x,hx⟩
    exact ⟨S.refs v x,(h _).mpr ⟨x,by rw [object, hx]; rfl⟩⟩

theorem Mirror.refs_live (h : S.Mirror v db) : ∀ r ∈ S.refs v x, Live db r := by
  intro r hr
  obtain ⟨y,-,hy⟩ := List.mem_filterMap.mp hr
  exact h.live.mpr ⟨y,hy⟩

theorem Mirror.linked (h : S.Mirror v db) : Linked db := by
  intro o ho r hr
  obtain ⟨x,hx⟩ := (h o).mp ho
  obtain ⟨k,-,rfl⟩ := Option.map_eq_some_iff.mp hx
  exact h.refs_live r hr

/-- No slot that is filled refers to an empty one. -/
theorem Wf.not_dep (h : S.Wf v) (hx : v x = none) {o : (Kind × ℕ) × List (Kind × ℕ)} (hy : S.object v y = some o) :
    x ∉ S.deps y := by
  intro hdep
  have hfilled : v y ≠ none := by
    intro hnone
    rw [object, key, hnone] at hy
    cases hy
  exact h.closed y hfilled x hdep hx

theorem Mirror.unreferenced (h : S.Mirror v db) (hwf : S.Wf v) (hx : S.key v x = some k)
    (hfree : ∀ y, x ∈ S.deps y → v y = none) : Unreferenced db k := by
  intro o ho hk
  obtain ⟨y,hy⟩ := (h o).mp ho
  obtain ⟨k',hk',rfl⟩ := Option.map_eq_some_iff.mp hy
  obtain ⟨z,hz,hzk⟩ := List.mem_filterMap.mp hk
  rw [hwf.distinct z x k hzk hx] at hz
  have hnone := hfree y hz
  rw [key, hnone] at hk'
  cases hk'

variable [DecidableEq Slot]

theorem key_update_self : S.key (Function.update v x (some n)) x = some (S.kind x,n) := by
  rw [key, Function.update_self]
  rfl

theorem key_update_of_ne {m : Option ℕ} (hne : y ≠ x) : S.key (Function.update v x m) y = S.key v y := by
  rw [key, Function.update_of_ne hne, key]

theorem object_update {m : Option ℕ} (hne : y ≠ x) (hdep : x ∉ S.deps y) :
    S.object (Function.update v x m) y = S.object v y := by
  have hrefs : S.refs (Function.update v x m) y = S.refs v y := by
    refine List.filterMap_congr (fun z hz => key_update_of_ne ?_)
    rintro rfl
    exact hdep hz
  rw [object, object, hrefs, key_update_of_ne hne]

theorem refs_update_self {m : Option ℕ} : S.refs (Function.update v x m) x = S.refs v x := by
  refine List.filterMap_congr (fun z hz => key_update_of_ne ?_)
  rintro rfl
  exact S.irrefl z hz

theorem Wf.create (h : S.Wf v) (hdeps : ∀ y ∈ S.deps x, v y ≠ none)
    (hfresh : ∀ y, S.key v y ≠ some (S.kind x,n)) : S.Wf (Function.update v x (some n)) where
  closed := by
    intro y hy z hz
    by_cases hzx : z = x
    · rw [hzx, Function.update_self]
      exact Option.some_ne_none n
    · rw [Function.update_of_ne hzx]
      by_cases hyx : y = x
      · rw [hyx] at hz
        exact hdeps z hz
      · rw [Function.update_of_ne hyx] at hy
        exact h.closed y hy z hz
  distinct := by
    intro y z k hy hz
    by_cases hyx : y = x <;> by_cases hzx : z = x
    · exact hyx.trans hzx.symm
    · rw [hyx, key_update_self] at hy
      rw [key_update_of_ne hzx, ← hy] at hz
      exact absurd hz (hfresh z)
    · rw [hzx, key_update_self] at hz
      rw [key_update_of_ne hyx, ← hz] at hy
      exact absurd hy (hfresh y)
    · rw [key_update_of_ne hyx] at hy
      rw [key_update_of_ne hzx] at hz
      exact h.distinct y z k hy hz

theorem Mirror.create (h : S.Mirror v db) (hwf : S.Wf v) (hx : v x = none) :
    S.Mirror (Function.update v x (some n)) (((S.kind x,n),S.refs v x) :: db) := by
  have hself : S.object (Function.update v x (some n)) x = some ((S.kind x,n),S.refs v x) := by
    rw [object, key_update_self, refs_update_self]
    rfl
  have hempty : S.object v x = none := by
    rw [object, key, hx]
    rfl
  intro o
  rw [List.mem_cons, h o]
  constructor
  · rintro (rfl | ⟨y,hy⟩)
    · exact ⟨x,hself⟩
    · have hne : y ≠ x := by
        rintro rfl
        rw [hempty] at hy
        cases hy
      exact ⟨y,(object_update hne (hwf.not_dep hx hy)).trans hy⟩
  · rintro ⟨y,hy⟩
    by_cases hyx : y = x
    · rw [hyx, hself] at hy
      exact Or.inl (Option.some.inj hy).symm
    · refine Or.inr ⟨y,?_⟩
      have hkey : S.key v y ≠ none := by
        intro hnone
        rw [object, key_update_of_ne hyx, hnone] at hy
        cases hy
      obtain ⟨k,hk⟩ := Option.ne_none_iff_exists'.mp hkey
      have hobject : S.object v y = some (k,S.refs v y) := by
        rw [object, hk]
        rfl
      rw [← object_update hyx (hwf.not_dep hx hobject)]
      exact hy

theorem Wf.destroy (h : S.Wf v) (hfree : ∀ y, x ∈ S.deps y → v y = none) : S.Wf (Function.update v x none) where
  closed := by
    intro y hy z hz
    have hyx : y ≠ x := by
      rintro rfl
      exact hy (Function.update_self _ _ _)
    rw [Function.update_of_ne hyx] at hy
    have hzx : z ≠ x := by
      rintro rfl
      exact hy (hfree y hz)
    rw [Function.update_of_ne hzx]
    exact h.closed y hy z hz
  distinct := by
    have hold : ∀ y k, S.key (Function.update v x none) y = some k → S.key v y = some k := by
      intro y k hy
      by_cases hyx : y = x
      · rw [hyx, key, Function.update_self] at hy
        cases hy
      · rwa [key_update_of_ne hyx] at hy
    exact fun y z k hy hz => h.distinct y z k (hold y k hy) (hold z k hz)

theorem Mirror.destroy [DecidableEq Kind] (h : S.Mirror v db) (hwf : S.Wf v) (hx : S.key v x = some k)
    (hfree : ∀ y, x ∈ S.deps y → v y = none) :
    S.Mirror (Function.update v x none) (db.filter (fun o => o.1 ≠ k)) := by
  have hempty : S.object (Function.update v x none) x = none := by
    rw [object, key, Function.update_self]
    rfl
  have hdep : ∀ {y o}, S.object v y = some o → x ∉ S.deps y := by
    intro y o hy hd
    rw [object, key, hfree y hd] at hy
    cases hy
  intro o
  rw [List.mem_filter, decide_eq_true_eq, h o]
  constructor
  · rintro ⟨⟨y,hy⟩,hne⟩
    have hyx : y ≠ x := by
      rintro rfl
      obtain ⟨k',hk',rfl⟩ := Option.map_eq_some_iff.mp hy
      exact hne (Option.some.inj (hk'.symm.trans hx))
    exact ⟨y,(object_update hyx (hdep hy)).trans hy⟩
  · rintro ⟨y,hy⟩
    have hyx : y ≠ x := by
      rintro rfl
      rw [hempty] at hy
      cases hy
    obtain ⟨k',hk',rfl⟩ := Option.map_eq_some_iff.mp hy
    rw [key_update_of_ne hyx] at hk'
    have hobject : S.object v y = some (k',S.refs v y) := by
      rw [object, hk']
      rfl
    refine ⟨⟨y,?_⟩,?_⟩
    · rw [← object_update hyx (hdep hobject)]
      exact hy
    · rintro rfl
      exact hyx (hwf.distinct y x _ hk' hx)

end Schema

end Interaction
