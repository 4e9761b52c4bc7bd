import AppleMCX.Interaction.Tally
import AppleMCX.Interaction.Transition
import Mathlib.Data.Multiset.Basic
import Mathlib.Data.Multiset.AddSub

/-! # Notifiers and their callbacks

A dispatch copies the notifiers of an event type under `fNotifierLock` and calls them without
it; meanwhile others edit the list or wait in `synchronizeCallbacks`. Every section under the lock, and
every beginning and end of a callback, is one step.
-/
namespace AppleMCX.Notifier
open Interaction

def eventTypeMax : ℕ := 256
def maxEventNotifiers : ℕ := 4

variable {N O : Type} [DecidableEq N]

/-- The event queues, each of which runs one dispatch at a time, and the objects behind the notifiers. -/
structure Config (N O : Type) where
  numEqs : ℕ
  notifierObject : N → Option O
  counted : numEqs * maxEventNotifiers < 2 ^ 32

/-- Where a dispatch stands with its current target. -/
inductive Stage
  | call | running | release | retire
  deriving DecidableEq, Repr

/-- The reference that dispatch `number` took for its target at `position`. -/
structure Token (O : Type) where
  number : ℕ
  position : ℕ
  object : O
  deriving DecidableEq, Repr

/-- A dispatch on its way: the targets from `position` on are left. -/
structure Dispatch (N O : Type) where
  number : ℕ
  type : ℕ
  position : ℕ
  targets : List (Option (N × O))
  stage : Stage
  deriving DecidableEq, Repr

structure State (c : Config N O) where
  fNotifiers : ℕ → ℕ → Option N
  fNotifierCounts : ℕ → ℕ
  fActiveCallbacks : BitVec 32
  fShuttingDown : Bool
  dispatches : Fin c.numEqs → Option (Dispatch N O)
  /-- The callers that are inside `synchronizeCallbacks`. -/
  synchronizing : ℕ → Bool
  /-- The dispatches so far, and the references they took and gave back. -/
  dispatched : ℕ
  retained : List (Token O)
  released : List (Token O)

variable {c : Config N O}

def initial (c : Config N O) : State c where
  fNotifiers := fun _ _ => none
  fNotifierCounts := fun _ => 0
  fActiveCallbacks := 0
  fShuttingDown := false
  dispatches := fun _ => none
  synchronizing := fun _ => false
  dispatched := 0
  retained := []
  released := []

/-- The entries from `i + 1` to `count - 1` move down by one. -/
def shiftDown (notifiers : ℕ → Option N) (i count : ℕ) : ℕ → Option N :=
  (List.range' (i + 1) (count - (i + 1))).foldl (fun a j => Function.update a (j - 1) (a j)) notifiers

/-- The references of the targets from `position` on. -/
def tokens (number : ℕ) : ℕ → List (Option (N × O)) → List (Token O)
  | _, [] => []
  | position, none :: targets => tokens number (position + 1) targets
  | position, some (_,o) :: targets => ⟨number,position,o⟩ :: tokens number (position + 1) targets

def numTargets (targets : List (Option (N × O))) : ℕ := targets.countP Option.isSome

namespace State

def registerNotifier (eventType : ℕ) (n : N) (s : State c) : State c :=
  let count := s.fNotifierCounts eventType
  if eventType ≥ eventTypeMax then s
  else if s.fShuttingDown then s
  else if ∃ i < count, s.fNotifiers eventType i = some n then s
  else if count < maxEventNotifiers then
    { s with
      fNotifiers := Function.update s.fNotifiers eventType (Function.update (s.fNotifiers eventType) count (some n))
      fNotifierCounts := Function.update s.fNotifierCounts eventType (count + 1) }
  else s

def unregisterNotifier (eventType : ℕ) (n : N) (s : State c) : State c :=
  let count := s.fNotifierCounts eventType
  if eventType ≥ eventTypeMax then s
  else match (List.range count).find? (fun i => s.fNotifiers eventType i = some n) with
    | none => s
    | some i =>
      { s with
        fNotifiers := Function.update s.fNotifiers eventType
          (Function.update (shiftDown (s.fNotifiers eventType) i count) (count - 1) none)
        fNotifierCounts := Function.update s.fNotifierCounts eventType (count - 1) }

/-- What a snapshot takes of entry `i`. -/
def target (type i : ℕ) (s : State c) : Option (N × O) :=
  match s.fNotifiers type i with
  | none => none
  | some nb =>
    match c.notifierObject nb with
    | none => none
    | some o => if s.fShuttingDown then none else some (nb,o)

/-- The locked section at the start of a dispatch. -/
def snapshot (i : Fin c.numEqs) (type : ℕ) (s : State c) : Option (State c) :=
  match s.dispatches i with
  | some _ => none
  | none =>
    let count := if type < eventTypeMax then s.fNotifierCounts type else 0
    let targets := (List.range count).map (fun j => s.target type j)
    some { s with
      dispatches := Function.update s.dispatches i (some ⟨s.dispatched,type,0,targets,.call⟩)
      fActiveCallbacks := s.fActiveCallbacks + BitVec.ofNat 32 (numTargets targets)
      dispatched := s.dispatched + 1
      retained := s.retained ++ tokens s.dispatched 0 targets }

def setDispatch (i : Fin c.numEqs) (d : Option (Dispatch N O)) (s : State c) : State c :=
  { s with dispatches := Function.update s.dispatches i d }

/-- The next step of a dispatch: `handleEvent` is entered, it returns, the object is released, and the
callback is retired under the lock. -/
def dispatch (i : Fin c.numEqs) (s : State c) : Option (State c) :=
  match s.dispatches i with
  | none => none
  | some d =>
    match d.targets, d.stage with
    | [], _ => some (s.setDispatch i none)
    | none :: targets, _ =>
      some (s.setDispatch i (some ⟨d.number,d.type,d.position + 1,targets,.call⟩))
    | some _ :: _, .call => some (s.setDispatch i (some { d with stage := .running }))
    | some _ :: _, .running => some (s.setDispatch i (some { d with stage := .release }))
    | some (_,o) :: _, .release =>
      some ({ s with released := s.released ++ [Token.mk d.number d.position o] }.setDispatch i
        (some { d with stage := .retire }))
    | some _ :: targets, .retire =>
      some ({ s with
        fActiveCallbacks := if s.fActiveCallbacks = 0 then 0 else s.fActiveCallbacks - 1 }.setDispatch i
          (some ⟨d.number,d.type,d.position + 1,targets,.call⟩))

/-- `synchronizeCallbacks` is entered. -/
def synchronize (j : ℕ) (s : State c) : Option (State c) :=
  if s.synchronizing j then none else some { s with synchronizing := Function.update s.synchronizing j true }

/-- Its loop finds no callback active, and it returns. -/
def returned (j : ℕ) (s : State c) : Option (State c) :=
  if s.synchronizing j ∧ s.fActiveCallbacks = 0 then
    some { s with synchronizing := Function.update s.synchronizing j false }
  else none

end State

inductive Action (c : Config N O)
  | registerNotifier (eventType : ℕ) (n : N)
  | unregisterNotifier (eventType : ℕ) (n : N)
  | snapshot (i : Fin c.numEqs) (type : ℕ)
  | dispatch (i : Fin c.numEqs)
  | synchronize (j : ℕ)
  | returned (j : ℕ)
  | shutdown
  deriving DecidableEq

def step (s : State c) : Action c → Option (State c)
  | .registerNotifier eventType n => some (s.registerNotifier eventType n)
  | .unregisterNotifier eventType n => some (s.unregisterNotifier eventType n)
  | .snapshot i type => s.snapshot i type
  | .dispatch i => s.dispatch i
  | .synchronize j => s.synchronize j
  | .returned j => s.returned j
  | .shutdown => some { s with fShuttingDown := true }

/-! ## The lists -/

/-- The first `count` entries are notifiers without a duplicate, and no other entry is. -/
structure ListOk (notifiers : ℕ → Option N) (count : ℕ) : Prop where
  le : count ≤ maxEventNotifiers
  isSome : ∀ j, (notifiers j).isSome = true ↔ j < count
  nodup : ∀ j k n, notifiers j = some n → notifiers k = some n → j = k

omit [DecidableEq N] in
theorem listOk_empty : ListOk (fun _ => (none : Option N)) 0 where
  le := Nat.zero_le _
  isSome := fun j => by simp
  nodup := fun j k n h => by cases h

omit [DecidableEq N] in
theorem ListOk.append {notifiers : ℕ → Option N} {count : ℕ} (h : ListOk notifiers count) {n : N}
    (hcount : count < maxEventNotifiers) (hn : ¬ ∃ i < count, notifiers i = some n) :
    ListOk (Function.update notifiers count (some n)) (count + 1) := by
  have hne : ∀ j, notifiers j ≠ some n := by
    intro j hj
    exact hn ⟨j,(h.isSome j).mp (by rw [hj]; rfl),hj⟩
  constructor
  · exact hcount
  · intro j
    by_cases he : j = count
    · subst he
      rw [Function.update_self]
      simp
    · rw [Function.update_of_ne he, h.isSome]
      omega
  · intro j k m hj hk
    rw [Function.update_apply] at hj hk
    split at hj <;> split at hk
    · omega
    · cases hj
      exact absurd hk (hne k)
    · cases hk
      exact absurd hj (hne j)
    · exact h.nodup j k m hj hk

omit [DecidableEq N] in
/-- The loop of `unregisterNotifier` in closed form. -/
theorem shift_apply (k : ℕ) : ∀ (i : ℕ) (notifiers : ℕ → Option N) (j : ℕ),
    (List.range' (i + 1) k).foldl (fun a j => Function.update a (j - 1) (a j)) notifiers j =
      if i ≤ j ∧ j < i + k then notifiers (j + 1) else notifiers j := by
  induction k with
  | zero =>
    intro i notifiers j
    rw [if_neg (by omega)]
    rfl
  | succ k ih =>
    intro i notifiers j
    rw [List.range'_succ, List.foldl_cons, ih (i + 1), Nat.add_sub_cancel]
    by_cases hij : j = i
    · subst hij
      rw [if_neg (show ¬ (j + 1 ≤ j ∧ j < j + 1 + k) by omega), if_pos (show j ≤ j ∧ j < j + (k + 1) by omega),
        Function.update_self]
    · rw [Function.update_of_ne hij]
      by_cases hin : i + 1 ≤ j ∧ j < i + 1 + k
      · rw [if_pos hin, if_pos (show i ≤ j ∧ j < i + (k + 1) by omega), Function.update_of_ne (by omega)]
      · rw [if_neg hin, if_neg (show ¬ (i ≤ j ∧ j < i + (k + 1)) by omega)]

omit [DecidableEq N] in
/-- The list after entry `i` was removed. -/
theorem ListOk.erase_apply {notifiers : ℕ → Option N} {count i : ℕ}
    (h : ListOk notifiers count) (hi : i < count) (j : ℕ) :
    Function.update (shiftDown notifiers i count) (count - 1) none j =
      if j < i then notifiers j else if j + 1 < count then notifiers (j + 1) else none := by
  unfold shiftDown
  by_cases hj : j = count - 1
  · subst hj
    rw [Function.update_self, if_neg (by omega), if_neg (by omega)]
  · rw [Function.update_of_ne hj, shift_apply]
    by_cases hji : j < i
    · rw [if_neg (by omega), if_pos hji]
    · rw [if_neg hji]
      by_cases hjc : j + 1 < count
      · rw [if_pos (show i ≤ j ∧ j < i + (count - (i + 1)) by omega), if_pos hjc]
      · rw [if_neg (by omega), if_neg hjc]
        have hnone := h.isSome j
        cases hv : notifiers j with
        | none => rfl
        | some n =>
          rw [hv] at hnone
          exact absurd (hnone.mp rfl) (by omega)

omit [DecidableEq N] in
theorem ListOk.erase {notifiers : ℕ → Option N} {count i : ℕ} (h : ListOk notifiers count) (hi : i < count) :
    ListOk (Function.update (shiftDown notifiers i count) (count - 1) none) (count - 1) := by
  constructor
  · exact (Nat.sub_le _ _).trans h.le
  · intro j
    rw [h.erase_apply hi]
    by_cases hji : j < i
    · rw [if_pos hji, h.isSome]
      omega
    · rw [if_neg hji]
      by_cases hjc : j + 1 < count
      · rw [if_pos hjc, h.isSome]
        omega
      · rw [if_neg hjc]
        simp only [Option.isSome_none, Bool.false_eq_true, false_iff]
        omega
  · intro j k n hj hk
    rw [h.erase_apply hi] at hj hk
    split at hj <;> split at hk
    · exact h.nodup j k n hj hk
    · split at hk
      · have he := h.nodup j (k + 1) n hj hk
        omega
      · cases hk
    · split at hj
      · have he := h.nodup (j + 1) k n hj hk
        omega
      · cases hj
    · split at hj
      · split at hk
        · have he := h.nodup (j + 1) (k + 1) n hj hk
          omega
        · cases hk
      · cases hj

omit [DecidableEq N] in
theorem ListOk.erase_mem {notifiers : ℕ → Option N} {count i j : ℕ} {n : N} (h : ListOk notifiers count) (hi : i < count)
    (hj : Function.update (shiftDown notifiers i count) (count - 1) none j = some n) :
    ∃ k < count, notifiers k = some n := by
  have hlt : ∀ k, notifiers k = some n → k < count := fun k hk => (h.isSome k).mp (by rw [hk]; rfl)
  rw [h.erase_apply hi] at hj
  split at hj
  · exact ⟨j,hlt j hj,hj⟩
  · split at hj
    · exact ⟨j + 1,hlt _ hj,hj⟩
    · cases hj

/-! ## Changes of a list -/

def State.setList (eventType : ℕ) (notifiers : ℕ → Option N) (count : ℕ) (s : State c) : State c where
  fNotifiers := Function.update s.fNotifiers eventType notifiers
  fNotifierCounts := Function.update s.fNotifierCounts eventType count
  fActiveCallbacks := s.fActiveCallbacks
  fShuttingDown := s.fShuttingDown
  dispatches := s.dispatches
  synchronizing := s.synchronizing
  dispatched := s.dispatched
  retained := s.retained
  released := s.released

theorem State.registerNotifier_cases (eventType : ℕ) (n : N) (s : State c) : s.registerNotifier eventType n = s ∨
    s.fNotifierCounts eventType < maxEventNotifiers ∧
      (¬ ∃ i < s.fNotifierCounts eventType, s.fNotifiers eventType i = some n) ∧
      s.registerNotifier eventType n = s.setList eventType
        (Function.update (s.fNotifiers eventType) (s.fNotifierCounts eventType) (some n)) (s.fNotifierCounts eventType + 1) := by
  unfold registerNotifier
  dsimp only
  split
  · exact .inl rfl
  · split
    · exact .inl rfl
    · split
      · exact .inl rfl
      · rename_i hn
        split
        · rename_i hcount
          exact .inr ⟨hcount,hn,rfl⟩
        · exact .inl rfl

theorem State.unregisterNotifier_cases (eventType : ℕ) (n : N) (s : State c) : s.unregisterNotifier eventType n = s ∨
    ∃ i < s.fNotifierCounts eventType, s.unregisterNotifier eventType n = s.setList eventType
      (Function.update (shiftDown (s.fNotifiers eventType) i (s.fNotifierCounts eventType))
      (s.fNotifierCounts eventType - 1) none)
      (s.fNotifierCounts eventType - 1) := by
  unfold unregisterNotifier
  dsimp only
  split
  · exact .inl rfl
  · split
    · exact .inl rfl
    · rename_i i hfind
      exact .inr ⟨i,List.mem_range.mp (List.mem_of_find?_eq_some hfind),rfl⟩

/-! ## The counter and the references -/

/-- The targets whose callback has not been retired. -/
def outstanding : Option (Dispatch N O) → ℕ
  | none => 0
  | some d => numTargets d.targets

/-- The references that a dispatch has taken and not given back. -/
def pending : Option (Dispatch N O) → Multiset (Token O)
  | none => 0
  | some d =>
    if d.stage = .retire then tokens d.number (d.position + 1) d.targets.tail else tokens d.number d.position d.targets

structure Inv (s : State c) : Prop where
  lists : ∀ type, ListOk (s.fNotifiers type) (s.fNotifierCounts type)
  few : ∀ i, outstanding (s.dispatches i) ≤ maxEventNotifiers
  active : s.fActiveCallbacks = BitVec.ofNat 32 (tally outstanding s.dispatches)
  ledger : (s.retained : Multiset (Token O)) = s.released + tally pending s.dispatches
  once : s.retained.Nodup
  fresh : ∀ token ∈ s.retained, token.number < s.dispatched

variable {s t : State c}

omit [DecidableEq N] in
theorem inv_initial : Inv (initial c) where
  lists := fun _ => listOk_empty
  few := fun _ => Nat.zero_le _
  active := by
    have hzero : tally outstanding (initial c).dispatches = 0 := tally_eq_zero.mpr (fun _ => rfl)
    rw [hzero]
    rfl
  ledger := by simp [initial, tally, pending]
  once := List.nodup_nil
  fresh := fun _ h => by cases h

omit [DecidableEq N] in
theorem Inv.outstanding_lt (h : Inv s) : tally outstanding s.dispatches < 2 ^ 32 := by
  have hle := tally_le h.few
  rw [Fintype.card_fin] at hle
  exact hle.trans_lt c.counted

omit [DecidableEq N] in
theorem Inv.active_toNat (h : Inv s) : s.fActiveCallbacks.toNat = tally outstanding s.dispatches := by
  rw [h.active, BitVec.toNat_ofNat, Nat.mod_eq_of_lt h.outstanding_lt]

omit [DecidableEq N] in
theorem tokens_mem {number position : ℕ} {targets : List (Option (N × O))} {token : Token O}
    (h : token ∈ tokens number position targets) : token.number = number ∧ position ≤ token.position := by
  induction targets generalizing position with
  | nil => cases h
  | cons target targets ih =>
    cases target with
    | none =>
      obtain ⟨hnumber,hposition⟩ := ih h
      exact ⟨hnumber,by omega⟩
    | some no =>
      rcases List.mem_cons.mp h with rfl | hmem
      · exact ⟨rfl,le_rfl⟩
      · obtain ⟨hnumber,hposition⟩ := ih hmem
        exact ⟨hnumber,by omega⟩

omit [DecidableEq N] in
theorem tokens_nodup (number position : ℕ) (targets : List (Option (N × O))) :
    (tokens number position targets).Nodup := by
  induction targets generalizing position with
  | nil => exact List.nodup_nil
  | cons target targets ih =>
    cases target with
    | none => exact ih _
    | some no =>
      apply List.nodup_cons.mpr
      constructor
      · intro hmem
        have hle := (tokens_mem hmem).2
        dsimp only at hle
        omega
      · exact ih _

omit [DecidableEq N] in
/-- One dispatch moves on: what the counter and the references lost or gained in it. -/
theorem Inv.move (h : Inv s) {i : Fin c.numEqs} {d : Option (Dispatch N O)} {active : BitVec 32} {released : List (Token O)}
    (hfew : outstanding d ≤ maxEventNotifiers)
    (hactive : active = BitVec.ofNat 32 (tally outstanding (Function.update s.dispatches i d)))
    (hledger : (s.retained : Multiset (Token O)) = released + tally pending (Function.update s.dispatches i d)) :
    Inv { s with
      fActiveCallbacks := active
      dispatches := Function.update s.dispatches i d
      released := released } :=
  { h with
    few := by
      intro j
      dsimp only
      rw [Function.update_apply]
      split
      · exact hfew
      · exact h.few j
    active := hactive
    ledger := hledger }

omit [DecidableEq N] in
theorem numTargets_cons (target : Option (N × O)) (targets : List (Option (N × O))) :
    numTargets (target :: targets) = numTargets targets + if target.isSome then 1 else 0 := List.countP_cons

omit [DecidableEq N] in
theorem Inv.keep (h : Inv s) {i : Fin c.numEqs} {d : Option (Dispatch N O)}
    (hout : outstanding d = outstanding (s.dispatches i)) (hpend : pending d = pending (s.dispatches i)) :
    Inv (s.setDispatch i d) := by
  apply h.move
  · rw [hout]
    exact h.few i
  · rw [tally_keep hout]
    exact h.active
  · rw [tally_keep hpend]
    exact h.ledger

omit [DecidableEq N] in
/-- The reference to the object of the handler that was called is given back. -/
theorem Inv.releases (h : Inv s) {i : Fin c.numEqs} {number type position : ℕ} {nb : N} {o : O}
    {targets : List (Option (N × O))} (hd : s.dispatches i = some ⟨number,type,position,some (nb,o) :: targets,.release⟩) :
    Inv ({ s with released := s.released ++ [Token.mk number position o] }.setDispatch i
      (some ⟨number,type,position,some (nb,o) :: targets,.retire⟩)) := by
  have hfew := h.few i
  have hgive : pending (s.dispatches i) =
      pending (some (Dispatch.mk number type position (some (nb,o) :: targets) .retire)) + {Token.mk number position o} := by
    rw [hd]
    simp only [pending, if_true, List.tail_cons, reduceCtorEq, if_false, tokens]
    rw [← Multiset.coe_singleton, Multiset.coe_add, Multiset.coe_eq_coe]
    exact (List.perm_append_singleton _ _).symm
  rw [hd] at hfew
  apply h.move
  · exact hfew
  · rw [tally_keep (by rw [hd]; rfl)]
    exact h.active
  · have happend : (↑(s.released ++ [Token.mk number position o]) : Multiset (Token O)) =
        s.released + {Token.mk number position o} := by
      rw [← Multiset.coe_add, Multiset.coe_singleton]
    rw [happend, h.ledger, ← tally_lose hgive]
    abel

omit [DecidableEq N] in
/-- The counter goes down with the callback that is over, and was not 0. -/
theorem Inv.retires (h : Inv s) {i : Fin c.numEqs} {number type position : ℕ} {no : N × O}
    {targets : List (Option (N × O))} (hd : s.dispatches i = some ⟨number,type,position,some no :: targets,.retire⟩) :
    Inv ({ s with fActiveCallbacks := if s.fActiveCallbacks = 0 then 0 else s.fActiveCallbacks - 1 }.setDispatch i
      (some ⟨number,type,position + 1,targets,.call⟩)) := by
  have hfew := h.few i
  have hout : outstanding (s.dispatches i) = numTargets targets + 1 := by
    rw [hd]
    exact numTargets_cons _ _
  have hlose := tally_lose (g := outstanding) (p := s.dispatches) (i := i)
    (a := some ⟨number,type,position + 1,targets,.call⟩) (x := 1) hout
  apply h.move
  · rw [hout] at hfew
    exact (Nat.le_succ _).trans hfew
  · have hne : s.fActiveCallbacks ≠ 0 := by
      intro hz
      have hnat := h.active_toNat
      rw [hz, ← hlose] at hnat
      cases hnat
    rw [if_neg hne, h.active, ← hlose, BitVec.ofNat_add]
    exact BitVec.add_sub_cancel _ _
  · rw [tally_keep (by rw [hd]; simp [pending])]
    exact h.ledger

omit [DecidableEq N] in
theorem dispatch_inv (h : Inv s) {i : Fin c.numEqs} (hs : s.dispatch i = some t) : Inv t := by
  unfold State.dispatch at hs
  cases hd : s.dispatches i with
  | none => simp [hd] at hs
  | some d =>
    obtain ⟨number,type,position,targets,stage⟩ := d
    simp only [hd] at hs
    cases targets with
    | nil =>
      cases hs
      exact h.keep (by rw [hd]; rfl) (by rw [hd]; simp [pending, tokens])
    | cons target targets =>
      cases target with
      | none =>
        cases hs
        exact h.keep (by rw [hd]; rfl) (by rw [hd]; simp [pending, tokens])
      | some no =>
        cases stage with
        | call =>
          cases hs
          exact h.keep (by rw [hd]; rfl) (by rw [hd]; simp [pending])
        | running =>
          cases hs
          exact h.keep (by rw [hd]; rfl) (by rw [hd]; simp [pending])
        | release =>
          cases hs
          exact h.releases hd
        | retire =>
          cases hs
          exact h.retires hd

omit [DecidableEq N] in
theorem snapshot_inv (h : Inv s) {i : Fin c.numEqs} {type : ℕ} (hs : s.snapshot i type = some t) : Inv t := by
  unfold State.snapshot at hs
  cases hd : s.dispatches i with
  | some d => simp [hd] at hs
  | none =>
    simp only [hd, Option.some.injEq] at hs
    generalize hcount : (if type < eventTypeMax then s.fNotifierCounts type else 0) = count at hs
    generalize htargets : (List.range count).map (fun j => s.target type j) = targets at hs
    have hfew : numTargets targets ≤ maxEventNotifiers := by
      have hlen : targets.length = count := by rw [← htargets, List.length_map, List.length_range]
      have hcountP : numTargets targets ≤ targets.length := List.countP_le_length
      have hle := (h.lists type).le
      rw [hlen, ← hcount] at hcountP
      split at hcountP <;> omega
    have houts := tally_gain (g := outstanding) (p := s.dispatches) (i := i)
      (a := some ⟨s.dispatched,type,0,targets,.call⟩) (x := numTargets targets) (by rw [hd]; exact (Nat.zero_add _).symm)
    have hpends := tally_gain (g := pending) (p := s.dispatches) (i := i)
      (a := some ⟨s.dispatched,type,0,targets,.call⟩) (x := (tokens s.dispatched 0 targets : Multiset (Token O)))
      (by rw [hd]; exact (zero_add _).symm)
    subst hs
    exact {
      lists := h.lists
      few := by
        intro j
        dsimp only
        rw [Function.update_apply]
        split
        · exact hfew
        · exact h.few j
      active := by
        dsimp only
        rw [houts, h.active, BitVec.ofNat_add]
      ledger := by
        dsimp only
        rw [hpends, ← Multiset.coe_add, h.ledger, add_assoc]
      once := by
        apply List.nodup_append.mpr
        refine ⟨h.once,tokens_nodup _ _ _,?_⟩
        intro a ha b hb he
        have hlt := h.fresh a ha
        rw [he, (tokens_mem hb).1] at hlt
        exact Nat.lt_irrefl _ hlt
      fresh := by
        intro token hmem
        rcases List.mem_append.mp hmem with hmem | hmem
        · exact Nat.lt_succ_of_lt (h.fresh token hmem)
        · rw [(tokens_mem hmem).1]
          exact Nat.lt_succ_self _ }

omit [DecidableEq N] in
theorem Inv.setList (h : Inv s) {eventType : ℕ} {notifiers : ℕ → Option N} {count : ℕ} (hlist : ListOk notifiers count) :
    Inv (s.setList eventType notifiers count) where
  lists := by
    intro type
    unfold State.setList
    by_cases he : type = eventType
    · subst he
      dsimp only
      rw [Function.update_self, Function.update_self]
      exact hlist
    · dsimp only
      rw [Function.update_of_ne he, Function.update_of_ne he]
      exact h.lists type
  few := h.few
  active := h.active
  ledger := h.ledger
  once := h.once
  fresh := h.fresh

theorem registerNotifier_inv (h : Inv s) (eventType : ℕ) (n : N) : Inv (s.registerNotifier eventType n) := by
  rcases s.registerNotifier_cases eventType n with hsame | ⟨hcount,hn,hset⟩
  · rw [hsame]
    exact h
  · rw [hset]
    exact h.setList ((h.lists eventType).append hcount hn)

theorem unregisterNotifier_inv (h : Inv s) (eventType : ℕ) (n : N) : Inv (s.unregisterNotifier eventType n) := by
  rcases s.unregisterNotifier_cases eventType n with hsame | ⟨i,hi,hset⟩
  · rw [hsame]
    exact h
  · rw [hset]
    exact h.setList ((h.lists eventType).erase hi)

theorem step_inv {a : Action c} (h : Inv s) (hs : step s a = some t) : Inv t := by
  cases a with
  | registerNotifier eventType n =>
    cases hs
    exact registerNotifier_inv h eventType n
  | unregisterNotifier eventType n =>
    cases hs
    exact unregisterNotifier_inv h eventType n
  | snapshot i type => exact snapshot_inv h hs
  | dispatch i => exact dispatch_inv h hs
  | synchronize j =>
    simp only [step, State.synchronize] at hs
    split at hs
    · cases hs
    · cases hs
      exact { h with }
  | returned j =>
    simp only [step, State.returned] at hs
    split at hs
    · cases hs
      exact { h with }
    · cases hs
  | shutdown =>
    cases hs
    exact { h with }

theorem reach_inv (hr : Reach step Free (initial c) s) : Inv s :=
  hr.invariant inv_initial (fun _ _ _ h _ hs => step_inv h hs)

/-! ## After `synchronizeCallbacks` -/

def State.Registered (n : N) (s : State c) : Prop :=
  ∃ type i, i < s.fNotifierCounts type ∧ s.fNotifiers type i = some n

/-- A `handleEvent` call on the notifier is running or will start. -/
def State.Calls (n : N) (s : State c) : Prop := ∃ i d o, s.dispatches i = some d ∧ some (n,o) ∈ d.targets

def Action.Registers (n : N) : Action c → Prop
  | .registerNotifier _ m => m = n
  | _ => False

/-- Neither a list nor a dispatch knows the notifier. -/
def Gone (n : N) (s : State c) : Prop := ¬ s.Registered n ∧ ¬ s.Calls n

variable {n : N}

/-- What a step of dispatch `i` leaves of the lists and of the targets. -/
structure Dispatched (i : Fin c.numEqs) (s t : State c) : Prop where
  fNotifiers : t.fNotifiers = s.fNotifiers
  fNotifierCounts : t.fNotifierCounts = s.fNotifierCounts
  others : ∀ j, j ≠ i → t.dispatches j = s.dispatches j
  targets : ∀ e, t.dispatches i = some e → ∃ d, s.dispatches i = some d ∧ e.targets ⊆ d.targets

omit [DecidableEq N] in
theorem dispatched_setDispatch {u : State c} {i : Fin c.numEqs} {d : Dispatch N O} {f : Option (Dispatch N O)}
    (hlists : u.fNotifiers = s.fNotifiers) (hcounts : u.fNotifierCounts = s.fNotifierCounts) (hu : u.dispatches = s.dispatches)
    (hd : s.dispatches i = some d) (hf : ∀ e, f = some e → e.targets ⊆ d.targets) :
    Dispatched i s (u.setDispatch i f) := by
  refine ⟨hlists,hcounts,fun j hj => ?_,fun e he => ⟨d,hd,hf e ?_⟩⟩
  · rw [← hu]
    exact Function.update_of_ne hj _ _
  · have hself : (u.setDispatch i f).dispatches i = f := Function.update_self _ _ _
    rwa [hself] at he

omit [DecidableEq N] in
theorem dispatch_dispatched {i : Fin c.numEqs} (hs : s.dispatch i = some t) : Dispatched i s t := by
  unfold State.dispatch at hs
  cases hd : s.dispatches i with
  | none => simp [hd] at hs
  | some d =>
    obtain ⟨number,type,position,targets,stage⟩ := d
    simp only [hd] at hs
    cases targets with
    | nil =>
      cases hs
      exact dispatched_setDispatch rfl rfl rfl hd (fun e he => by cases he)
    | cons target targets =>
      cases target with
      | none =>
        cases hs
        exact dispatched_setDispatch rfl rfl rfl hd (fun e he => by cases he; exact List.subset_cons_self _ _)
      | some no =>
        cases stage with
        | retire =>
          cases hs
          exact dispatched_setDispatch rfl rfl rfl hd (fun e he => by cases he; exact List.subset_cons_self _ _)
        | call | running | release =>
          cases hs
          exact dispatched_setDispatch rfl rfl rfl hd (fun e he => by cases he; exact List.Subset.refl _)

omit [DecidableEq N] in
theorem dispatch_calls {i : Fin c.numEqs} (hs : s.dispatch i = some t) (hcalls : t.Calls n) : s.Calls n := by
  have hstep := dispatch_dispatched hs
  obtain ⟨j,e,o,he,hmem⟩ := hcalls
  by_cases hj : j = i
  · rw [hj] at he
    obtain ⟨d,hd,hsub⟩ := hstep.targets e he
    exact ⟨i,d,o,hd,hsub hmem⟩
  · rw [hstep.others j hj] at he
    exact ⟨j,e,o,he,hmem⟩

omit [DecidableEq N] in
theorem dispatch_registered {i : Fin c.numEqs} (hs : s.dispatch i = some t) (hreg : t.Registered n) :
    s.Registered n := by
  have hstep := dispatch_dispatched hs
  obtain ⟨type,k,hk,hn⟩ := hreg
  rw [hstep.fNotifierCounts] at hk
  rw [hstep.fNotifiers] at hn
  exact ⟨type,k,hk,hn⟩

omit [DecidableEq N] in
theorem snapshot_calls {i : Fin c.numEqs} {type : ℕ} (hs : s.snapshot i type = some t) (hcalls : t.Calls n) :
    s.Calls n ∨ s.Registered n := by
  obtain ⟨j,e,o,he,hmem⟩ := hcalls
  unfold State.snapshot at hs
  cases hd : s.dispatches i with
  | some d => simp [hd] at hs
  | none =>
    simp only [hd, Option.some.injEq] at hs
    subst hs
    dsimp only at he
    rw [Function.update_apply] at he
    split at he
    · cases he
      obtain ⟨k,hk,htarget⟩ := List.mem_map.mp hmem
      have hlt := List.mem_range.mp hk
      split at hlt
      · right
        refine ⟨type,k,hlt,?_⟩
        unfold State.target at htarget
        split at htarget
        · cases htarget
        · rename_i nb hnb
          split at htarget
          · cases htarget
          · split at htarget
            · cases htarget
            · cases htarget
              exact hnb
      · exact absurd hlt (Nat.not_lt_zero _)
    · exact .inl ⟨j,e,o,he,hmem⟩

omit [DecidableEq N] in
/-- What is registered afterwards is in the new list, or was registered before. -/
theorem setList_registered {eventType : ℕ} {notifiers : ℕ → Option N} {count : ℕ}
    (hreg : (s.setList eventType notifiers count).Registered n) :
    (∃ i < count, notifiers i = some n) ∨ s.Registered n := by
  obtain ⟨type,i,hi,hn⟩ := hreg
  unfold State.setList at hi hn
  dsimp only at hi hn
  by_cases he : type = eventType
  · subst he
    rw [Function.update_self] at hi hn
    exact .inl ⟨i,hi,hn⟩
  · rw [Function.update_of_ne he] at hi hn
    exact .inr ⟨type,i,hi,hn⟩

omit [DecidableEq N] in
theorem Gone.setList {eventType : ℕ} {notifiers : ℕ → Option N} {count : ℕ} (h : Gone n s)
    (hlist : ∀ i < count, notifiers i ≠ some n) : Gone n (s.setList eventType notifiers count) := by
  refine ⟨fun hreg => ?_,h.2⟩
  rcases setList_registered hreg with ⟨i,hi,hn⟩ | hreg
  · exact hlist i hi hn
  · exact h.1 hreg

theorem registerNotifier_gone (h : Gone n s) {eventType : ℕ} {m : N} (hm : m ≠ n) :
    Gone n (s.registerNotifier eventType m) := by
  rcases s.registerNotifier_cases eventType m with hsame | ⟨-,-,hset⟩
  · rw [hsame]
    exact h
  · rw [hset]
    refine h.setList (fun i hi hn => ?_)
    by_cases hic : i = s.fNotifierCounts eventType
    · rw [hic, Function.update_self] at hn
      exact hm (Option.some.inj hn)
    · rw [Function.update_of_ne hic] at hn
      exact h.1 ⟨eventType,i,by omega,hn⟩

theorem unregisterNotifier_gone (hinv : Inv s) (h : Gone n s) (eventType : ℕ) (m : N) :
    Gone n (s.unregisterNotifier eventType m) := by
  rcases s.unregisterNotifier_cases eventType m with hsame | ⟨i,hi,hset⟩
  · rw [hsame]
    exact h
  · rw [hset]
    refine h.setList (fun j _ hn => ?_)
    obtain ⟨k,hk,hnk⟩ := (hinv.lists eventType).erase_mem hi hn
    exact h.1 ⟨eventType,k,hk,hnk⟩

theorem step_gone {a : Action c} (h : Inv s) (hgone : Gone n s) (ha : ¬ a.Registers n) (hs : step s a = some t) :
    Gone n t := by
  cases a with
  | registerNotifier eventType m =>
    cases hs
    exact registerNotifier_gone hgone ha
  | unregisterNotifier eventType m =>
    cases hs
    exact unregisterNotifier_gone h hgone eventType m
  | snapshot i type =>
    constructor
    · intro hreg
      apply hgone.1
      simp only [step, State.snapshot] at hs
      split at hs
      · cases hs
      · cases hs
        exact hreg
    · intro hcalls
      rcases snapshot_calls hs hcalls with hcalls | hreg
      · exact hgone.2 hcalls
      · exact hgone.1 hreg
  | dispatch i =>
    exact ⟨fun hreg => hgone.1 (dispatch_registered hs hreg),fun hcalls => hgone.2 (dispatch_calls hs hcalls)⟩
  | synchronize j =>
    simp only [step, State.synchronize] at hs
    split at hs
    · cases hs
    · cases hs
      exact hgone
  | returned j =>
    simp only [step, State.returned] at hs
    split at hs
    · cases hs
      exact hgone
    · cases hs
  | shutdown =>
    cases hs
    exact hgone

omit [DecidableEq N] in
/-- When `synchronizeCallbacks` returns, no dispatch has a target left. -/
theorem returned_calls (h : Inv s) {j : ℕ} (hs : s.returned j = some t) : ¬ t.Calls n := by
  unfold State.returned at hs
  split at hs
  · rename_i hc
    cases hs
    rintro ⟨i,d,o,hd,hmem⟩
    have hzero := h.active_toNat
    rw [hc.2] at hzero
    have hnone := tally_eq_zero.mp hzero.symm i
    dsimp only at hd
    rw [hd] at hnone
    have hcount := List.countP_eq_zero.mp hnone _ hmem
    exact hcount rfl
  · cases hs

/-! ## Runs -/

/-- The counter counts the callbacks that are not retired; every reference was taken once, and given back once unless it
is pending; the lists are in order; and where `synchronizeCallbacks` returns after a notifier was unregistered from
every type, the notifier is not called again until it is registered again. -/
structure Synchronized (s : State c) : Prop where
  active : s.fActiveCallbacks.toNat = tally outstanding s.dispatches
  once : s.retained.Nodup
  ledger : (s.retained : Multiset (Token O)) = s.released + tally pending s.dispatches
  nonNull : ∀ type i, i < s.fNotifierCounts type → (s.fNotifiers type i).isSome = true
  nodup : ∀ type i j n, s.fNotifiers type i = some n → s.fNotifiers type j = some n → i = j
  quiet : ∀ n j t u, ¬ s.Registered n → step s (.returned j) = some t → Reach step (fun _ a => ¬ a.Registers n) t u →
    ¬ u.Calls n

theorem notifier_run (hr : Reach step Free (initial c) s) : Synchronized s := by
  have h := reach_inv hr
  refine ⟨h.active_toNat,h.once,h.ledger,fun type i hi => ((h.lists type).isSome i).mpr hi,
    fun type => (h.lists type).nodup,?_⟩
  intro n j t u hreg hs hru
  have hcalls := returned_calls (n := n) h hs
  have hregt : ¬ t.Registered n := by
    simp only [step, State.returned] at hs
    split at hs
    · cases hs
      exact hreg
    · cases hs
  have hstart : Inv t ∧ Gone n t := ⟨step_inv h hs,hregt,hcalls⟩
  have hend := hru.invariant (J := fun s => Inv s ∧ Gone n s) hstart
    (fun _ _ _ hJ ha hs => ⟨step_inv hJ.1 hs,step_gone hJ.1 hJ.2 ha hs⟩)
  exact hend.2.2

/-- Four queues; a notifier is its own object. -/
def fourQueues : Config ℕ ℕ := ⟨4,some,by decide⟩

def firstQueue : Fin fourQueues.numEqs := ⟨0,by decide⟩

/-- Notifier 7 is called once for event type 11, unregistered, and waited for. -/
def oneEvent : List (Action fourQueues) :=
  [.registerNotifier 11 7,.snapshot firstQueue 11,.unregisterNotifier 11 7,.synchronize 0,
    .dispatch firstQueue,.dispatch firstQueue,.dispatch firstQueue,.dispatch firstQueue]

theorem notifier_run_oneEvent : ∃ s : State fourQueues, s.released = [⟨0,0,7⟩] ∧
    s.synchronizing 0 = true ∧ Synchronized s := by
  refine ⟨_,?_,?_,notifier_run (reach_of_after oneEvent .start rfl)⟩
  · rfl
  · rfl

end AppleMCX.Notifier
