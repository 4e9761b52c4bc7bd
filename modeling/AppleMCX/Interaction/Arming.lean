import AppleMCX.Interaction.LapRing
import AppleMCX.Interaction.Transition
import Mathlib.Order.OrderIsoNat

/-! # Notices that have to be asked for

A queue tells its consumer of new entries once for each request. A request says how many entries
the consumer has handled, so none is missed that came before it. The notice is always in one place:
asked for, on its way, or with the consumer.
-/
namespace Interaction

/-! ## The requests for one queue -/

/-- The request that is not answered yet, with its number and the index of the consumer, and the number of the
one answered last. -/
structure ArmUnit (v w : ℕ) where
  armed : Option (BitVec v × BitVec w)
  fired : Option (BitVec v)
  deriving DecidableEq, Repr

namespace ArmUnit
variable {v w : ℕ}

def idle : ArmUnit v w := ⟨none,none⟩

/-- A request with the number of the one answered last is a repetition of it. -/
def request (sn : BitVec v) (ci : BitVec w) (u : ArmUnit v w) : ArmUnit v w :=
  if u.fired = some sn then u else { u with armed := some (sn,ci) }

/-- The answer, as soon as there are entries that the request does not know of. -/
def answer (produced : ℕ) (u : ArmUnit v w) : Option (ArmUnit v w) :=
  match u.armed with
  | some (sn,ci) => if ci = BitVec.ofNat w produced then none else some ⟨none,some sn⟩
  | none => none

end ArmUnit

inductive Notice
  | asked | sent | held
  deriving DecidableEq, Repr

variable {v w : ℕ} {u u' : ArmUnit v w} {sn : BitVec v} {consumed produced : ℕ} {n : Notice}

/-- The next request has the number `sn`; it changes when a notice arrives. -/
def ArmUnit.At (u : ArmUnit v w) (sn : BitVec v) (consumed : ℕ) : Notice → Prop
  | .asked => u.armed = some (sn,BitVec.ofNat w consumed)
  | .sent => u.armed = none ∧ u.fired = some sn
  | .held => u.armed = none ∧ u.fired ≠ some sn

theorem ArmUnit.At.request (h : u.At sn consumed .held) :
    (u.request sn (BitVec.ofNat w consumed)).At sn consumed .asked := by
  unfold ArmUnit.request
  rw [if_neg h.2]
  rfl

theorem ArmUnit.At.take (hv : 0 < v) (h : u.At sn consumed .sent) : u.At (sn + 1) consumed .held := by
  refine ⟨h.1,fun he => ?_⟩
  rw [h.2] at he
  have hadd : sn + 1 = sn + 0 := (Option.some.inj he).symm.trans (BitVec.add_zero sn).symm
  have hone : (1 : BitVec v).toNat = 1 := BitVec.toNat_one hv
  rw [(BitVec.add_right_inj sn).mp hadd] at hone
  cases hone

/-- Only what was asked for is answered, and only where there is something new. -/
theorem ArmUnit.At.answered (h : u.At sn consumed n) (ha : u.answer produced = some u') :
    n = .asked ∧ u'.At sn consumed .sent ∧ consumed ≠ produced := by
  unfold ArmUnit.answer at ha
  cases n with
  | asked =>
    rw [show u.armed = _ from h] at ha
    dsimp only at ha
    split at ha
    · cases ha
    · rename_i hnew
      cases ha
      exact ⟨rfl,⟨rfl,rfl⟩,fun he => hnew (by rw [he])⟩
  | sent | held =>
    rw [h.1] at ha
    cases ha

/-- Two counters that are close to each other are equal only if the numbers are. -/
theorem counter_inj {a b : ℕ} (hle : a ≤ b) (hlt : b < a + 2 ^ w) : BitVec.ofNat w a = BitVec.ofNat w b ↔ a = b := by
  constructor
  · intro he
    have hsub := counter_sub hle hlt
    rw [he, BitVec.sub_self, BitVec.toNat_ofNat, Nat.zero_mod] at hsub
    omega
  · rintro rfl
    rfl

theorem ArmUnit.At.answer (h : u.At sn consumed .asked) (hlt : consumed < produced) (hlap : produced < consumed + 2 ^ w) :
    ∃ u', u.answer produced = some u' := by
  unfold ArmUnit.answer
  rw [show u.armed = _ from h]
  dsimp only
  rw [if_neg (fun he => Nat.ne_of_lt hlt ((counter_inj hlt.le hlap).mp he))]
  exact ⟨_,rfl⟩

/-- The unit of a queue with the notices for it that are on their way, and a consumer that may be busy with the queue. -/
structure Line (u : ArmUnit v w) (sn : BitVec v) (consumed pending : ℕ) (busy : Bool) (n : Notice) : Prop where
  unit : u.At sn consumed n
  pending : pending = if n = .sent then 1 else 0
  busy : busy = true ↔ n = .held

variable {pending : ℕ} {busy : Bool}

theorem Line.held (h : Line u sn consumed pending true n) : Line u sn consumed pending true .held := by
  obtain rfl := h.busy.mp rfl
  exact h

theorem Line.advance {handled : ℕ} (h : Line u sn consumed pending true n) : Line u sn handled pending true .held :=
  ⟨h.held.unit,h.held.pending,iff_of_true rfl rfl⟩

theorem Line.ask (h : Line u sn consumed pending true n) :
    Line (u.request sn (BitVec.ofNat w consumed)) sn consumed pending false .asked :=
  ⟨h.held.unit.request,h.held.pending,iff_of_false Bool.false_ne_true (fun he => by cases he)⟩

theorem Line.send (h : Line u sn consumed pending busy n) (ha : u.answer produced = some u') :
    consumed ≠ produced ∧ u.armed ≠ none ∧ u'.armed = none ∧ Line u' sn consumed (pending + 1) busy .sent := by
  obtain ⟨rfl,hsent,hne⟩ := h.unit.answered ha
  refine ⟨hne,?_,hsent.1,hsent,?_,?_⟩
  · rw [show u.armed = _ from h.unit]
    exact Option.some_ne_none _
  · rw [h.pending]
    rfl
  · rw [h.busy]
    exact iff_of_false (fun he => by cases he) (fun he => by cases he)

theorem Line.arrive (hv : 0 < v) (h : Line u sn consumed (pending + 1) busy n) :
    busy = false ∧ Line u (sn + 1) consumed pending true .held := by
  have hpending := h.pending
  cases n with
  | sent =>
    have hbusy : busy = false := by
      cases hb : busy with
      | false => rfl
      | true => cases h.busy.mp hb
    exact ⟨hbusy,h.unit.take hv,Nat.succ.inj hpending,iff_of_true rfl rfl⟩
  | asked | held => cases hpending

/-! ## Coming to rest -/

variable {S L : Type} {step : S → L → Option S} {Meets : S → L → Prop}

/-- A run without an end, of steps that meet the condition. -/
def Endless (step : S → L → Option S) (Meets : S → L → Prop) (f : ℕ → S) : Prop :=
  ∀ n, ∃ l, Meets (f n) l ∧ step (f n) l = some (f (n + 1))

section
variable {α : Type} [Preorder α] [WellFoundedLT α] {J : S → Prop} (m : S → α)
  (hstep : ∀ s l t, J s → Meets s l → step s l = some t → J t ∧ m t < m s)
include hstep

/-- There is none where each step lowers a measure. -/
theorem not_endless {f : ℕ → S} (h : J (f 0)) : ¬ Endless step Meets f := by
  intro hf
  have hall : ∀ n, J (f n) := by
    intro n
    induction n with
    | zero => exact h
    | succ n ih =>
      obtain ⟨l,hl,hs⟩ := hf n
      exact (hstep _ l _ ih hl hs).1
  refine not_strictAnti_of_wellFoundedLT (fun n => m (f n)) (strictAnti_nat_of_succ_lt (fun n => ?_))
  obtain ⟨l,hl,hs⟩ := hf n
  exact (hstep _ l _ (hall n) hl hs).2

theorem exists_rest {s : S} (h : J s) : ∃ t, Reach step Meets s t ∧ ∀ l, Meets t l → step t l = none := by
  induction hm : m s using WellFoundedLT.induction generalizing s with
  | _ a ih =>
    by_cases hrest : ∀ l, Meets s l → step s l = none
    · exact ⟨s,.start,hrest⟩
    · obtain ⟨l,hl⟩ := not_forall.mp hrest
      obtain ⟨hmeets,hsome⟩ := Classical.not_imp.mp hl
      obtain ⟨t,ht⟩ := Option.ne_none_iff_exists'.mp hsome
      obtain ⟨hj,hlt⟩ := hstep s l t h hmeets ht
      obtain ⟨u,hu,hstop⟩ := ih (m t) (hm ▸ hlt) hj rfl
      exact ⟨u,hu.head hmeets ht,hstop⟩

end
end Interaction
