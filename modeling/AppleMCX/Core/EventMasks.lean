import AppleMCX.Hw.CommandImages
import AppleMCX.Ib.AsyncEvents

/-! # Which events go to which queue

The event masks with which `createAsyncEqs` and `createCompEqs` create the event queues, as the
device reads them in the inputs of CREATE_EQ.
-/
namespace AppleMCX.EventMasks
open Commands

/-- `uint64_t mask[4]` -/
abbrev Mask : Type := Fin 4 → BitVec 64

def wordOf (eventType : BitVec 32) (h : eventType.toNat < 256) : Fin 4 := ⟨eventType.toNat / 64,by omega⟩

def mlxP1SetEvent (mask : Option Mask) (eventType : BitVec 32) : Bool × Option Mask :=
  match mask with
  | none => (false,none)
  | some mask =>
    if h : eventType.toNat < 256 then
      let i := wordOf eventType h
      (true,some (Function.update mask i (mask i ||| 1#64 <<< (eventType.toNat % 64))))
    else (false,some mask)

def typeCmd : BitVec 32 := 0x0a
def typePageRequest : BitVec 32 := 0x0b
def typeNicVportChange : BitVec 32 := 0x0d

/-- The event queues; those for completions are numbered. -/
inductive EqId
  | cmd | async | pages
  | comp (i : ℕ)
  deriving DecidableEq, Repr

/-- The calls of `mlxP1SetEvent` for the mask of a queue. -/
def EqId.events : EqId → List (BitVec 32)
  | .cmd => [typeCmd]
  | .async => [RoCE.typeWqCatasError.setWidth 32,RoCE.typePathMig.setWidth 32,RoCE.typeCommEst.setWidth 32,
      EventQueue.deviceFatal.setWidth 32,RoCE.typePortStateChange.setWidth 32,typeNicVportChange]
  | .pages => [typePageRequest]
  | .comp _ => []

def EqId.logSize : EqId → BitVec 5
  | .cmd | .async => 8
  | .pages => 7
  | .comp _ => 10

def EqId.vecidx : EqId → BitVec 12
  | .cmd | .async | .pages => 0
  | .comp i => BitVec.ofNat 12 (i + 1)

def EqId.mask (q : EqId) : Mask := (q.events.foldl (fun mask t => (mlxP1SetEvent mask t).2) (some (fun _ => 0))).getD (fun _ => 0)

/-- `createAsyncEqs` and `createCompEqs`, for one of the queues. -/
def EqId.create (q : EqId) (uarPage : BitVec 24) (pas : Pas) : Command :=
  .createEq ⟨q.logSize,uarPage,q.vecidx,q.mask,pas⟩

/-- The device raises the event at a queue with this mask. -/
def Enabled (mask : Mask) (type : BitVec 8) : Prop := (mask ⟨type.toNat / 64,by omega⟩).getLsbD (type.toNat % 64) = true

instance (mask : Mask) (type : BitVec 8) : Decidable (Enabled mask type) :=
  inferInstanceAs (Decidable (_ = true))

theorem enabled_set (mask : Mask) {eventType : BitVec 32} (h : eventType.toNat < 256) (type : BitVec 8) :
    Enabled (Function.update mask (wordOf eventType h) (mask (wordOf eventType h) ||| 1#64 <<< (eventType.toNat % 64))) type ↔
      Enabled mask type ∨ type.setWidth 32 = eventType := by
  have heq : type.setWidth 32 = eventType ↔ type.toNat = eventType.toNat := by
    rw [← BitVec.toNat_inj, BitVec.toNat_setWidth, Nat.mod_eq_of_lt (by omega)]
  have hword : ∀ i : Fin 4, i = wordOf eventType h ↔ i.val = eventType.toNat / 64 := fun i => Fin.ext_iff
  rw [heq, Enabled, Enabled]
  by_cases hi : type.toNat / 64 = eventType.toNat / 64
  · have hsame : (⟨type.toNat / 64,by omega⟩ : Fin 4) = wordOf eventType h := (hword _).mpr hi
    rw [hsame, Function.update_self, BitVec.getLsbD_or, Bool.or_eq_true, ← BitVec.twoPow_eq, BitVec.getLsbD_twoPow]
    refine or_congr Iff.rfl ?_
    rw [Bool.and_eq_true, decide_eq_true_eq, decide_eq_true_eq]
    omega
  · have hne : (⟨type.toNat / 64,by omega⟩ : Fin 4) ≠ wordOf eventType h := fun he => hi ((hword _).mp he)
    rw [Function.update_of_ne hne]
    refine (or_iff_left (fun he => hi ?_)).symm
    rw [he]

/-- One event after the other is added to a mask. -/
theorem enabled_foldl (type : BitVec 8) {events : List (BitVec 32)} (hevents : ∀ t ∈ events, t.toNat < 256) (mask : Mask) :
    ∃ mask', events.foldl (fun mask t => (mlxP1SetEvent mask t).2) (some mask) = some mask' ∧
      (Enabled mask' type ↔ Enabled mask type ∨ type.setWidth 32 ∈ events) := by
  induction events generalizing mask with
  | nil => exact ⟨mask,rfl,(or_iff_left (List.not_mem_nil)).symm⟩
  | cons t events ih =>
    have ht := hevents t List.mem_cons_self
    have hstep : (mlxP1SetEvent (some mask) t).2 =
        some (Function.update mask (wordOf t ht) (mask (wordOf t ht) ||| 1#64 <<< (t.toNat % 64))) := by
      rw [mlxP1SetEvent, dif_pos ht]
    obtain ⟨mask',hfold,hiff⟩ := ih (fun u hu => hevents u (List.mem_cons_of_mem t hu))
      (Function.update mask (wordOf t ht) (mask (wordOf t ht) ||| 1#64 <<< (t.toNat % 64)))
    refine ⟨mask',?_,?_⟩
    · rw [List.foldl_cons, hstep]
      exact hfold
    · rw [hiff, enabled_set mask ht, List.mem_cons, or_assoc]

theorem EqId.enabled_mask (q : EqId) (type : BitVec 8) : Enabled q.mask type ↔ type.setWidth 32 ∈ q.events := by
  have hall : q.events.all (fun t => t.toNat < 256) = true := by cases q <;> rfl
  have hevents : ∀ t ∈ q.events, t.toNat < 256 := fun t ht => of_decide_eq_true (List.all_eq_true.mp hall t ht)
  obtain ⟨mask,hfold,hiff⟩ := enabled_foldl type hevents (fun _ => 0)
  rw [EqId.mask, hfold]
  refine hiff.trans (or_iff_right (fun h => ?_))
  have hzero : (0#64).getLsbD (type.toNat % 64) = false := BitVec.getLsbD_zero
  exact Bool.false_ne_true (hzero.symm.trans h)

def eqOf (eventType : BitVec 32) : EqId :=
  if eventType = typeCmd then .cmd else if eventType = typePageRequest then .pages else .async

theorem EqId.eqOf_events (q : EqId) {t : BitVec 32} (ht : t ∈ q.events) : eqOf t = q := by
  have hall : q.events.all (fun t => eqOf t = q) = true := by cases q <;> rfl
  exact of_decide_eq_true (List.all_eq_true.mp hall t ht)

/-- What the device makes of the inputs of all CREATE_EQ commands. -/
structure Subscriptions (uarPage : BitVec 24) (pas : EqId → Pas) (rest : Hw.Buffer) : Prop where
  read : ∀ q : EqId, ∃ eq, Command.read (q.create uarPage (pas q)).inSize ((q.create uarPage (pas q)).received rest) =
    some (.createEq eq) ∧ ∀ type : BitVec 8, Enabled eq.mask type ↔ type.setWidth 32 ∈ q.events
  once : ∀ (q q' : EqId) (type : BitVec 8), Enabled q.mask type → Enabled q'.mask type → q = q'
  handled : ∀ type : BitVec 8, RoCE.subscribed type = true → type = EventQueue.completion ∨ Enabled EqId.async.mask type
  completion : ∀ q : EqId, ¬ Enabled q.mask EventQueue.completion

/-- An event is enabled at one queue at most, and every event that the RDMA device listens to at the queue whose
handler calls it; completions need no mask. -/
theorem subscriptions (uarPage : BitVec 24) (pas : EqId → Pas) (rest : Hw.Buffer) : Subscriptions uarPage pas rest where
  read := fun q => ⟨_,read_received (q.create uarPage (pas q)) rest,q.enabled_mask⟩
  once := by
    intro q q' type h h'
    rw [← q.eqOf_events ((q.enabled_mask type).mp h), ← q'.eqOf_events ((q'.enabled_mask type).mp h')]
  handled := by
    intro type h
    rw [RoCE.subscribed, List.contains_iff_mem] at h
    rw [EqId.enabled_mask]
    simp only [List.mem_cons, List.not_mem_nil, or_false] at h
    rcases h with rfl | rfl | rfl | rfl | rfl | rfl
    · exact Or.inr (of_decide_eq_true rfl)
    · exact Or.inr (of_decide_eq_true rfl)
    · exact Or.inr (of_decide_eq_true rfl)
    · exact Or.inl rfl
    · exact Or.inr (of_decide_eq_true rfl)
    · exact Or.inr (of_decide_eq_true rfl)
  completion := by
    intro q
    rw [q.enabled_mask]
    cases q <;> exact of_decide_eq_true rfl

end AppleMCX.EventMasks
