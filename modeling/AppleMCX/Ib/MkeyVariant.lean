import AppleMCX.Ib.Verbs
import AppleMCX.Interaction.Transition

/-! # The keys of memory regions

Calls of `regMR` and `deregMR` next to each other on one `MlxMR`, as far as keys are concerned:
the sections under `fLock` and the commands are single steps. Every attempt to create an mkey
draws a variant, whatever becomes of it.
-/
namespace AppleMCX.MkeyVariant
open Interaction
open Verbs (mlxMkeyIndex mlxComposeMkey mlxMkeyIndex_compose)

/-- A region with its key, the attempt that created its mkey and the index that the firmware chose. -/
structure Region where
  mrHandle : ℕ
  attempt : ℕ
  index : BitVec 24
  deriving DecidableEq, Repr

/-- Where a call stands: `create` once it has drawn a variant, `record` once the mkey exists,
`discard` where it cannot be recorded, and `remove` once `deregMR` has destroyed one. -/
inductive CallPc
  | absent
  | create (attempt : ℕ) (variant : BitVec 8)
  | record (r : Region)
  | discard (r : Region)
  | dereg (mrHandle : ℕ)
  | remove (mrHandle : ℕ)
  deriving DecidableEq, Repr

/-- What CREATE_MKEY comes to; where it fails there may be an mkey all the same. -/
inductive Created
  | failed (index : Option (BitVec 24))
  | succeeded (index : BitVec 24)
  deriving DecidableEq, Repr

structure State where
  fMkeyVariant : BitVec 8
  /-- The handles in `fMrTable`. -/
  fMrTable : List ℕ
  calls : ℕ → CallPc
  /-- The mkeys of the firmware by their index, each with the attempt that created it. -/
  mkeys : ℕ → Option ℕ
  attempts : ℕ
  /-- What `regMR` has handed out. -/
  issued : List Region

def initial : State where
  fMkeyVariant := 0
  fMrTable := []
  calls := fun _ => .absent
  mkeys := fun _ => none
  attempts := 0
  issued := []

/-- `++fMkeyVariant`, once more where it gets zero. -/
def nextVariant (fMkeyVariant : BitVec 8) : BitVec 8 :=
  if fMkeyVariant + 1 = 0 then fMkeyVariant + 2 else fMkeyVariant + 1

theorem nextVariant_eq : Verbs.nextVariant = .read (fun s =>
    .write (fun s' => { s' with fMkeyVariant := nextVariant s.fMkeyVariant }) (.done (nextVariant s.fMkeyVariant))) := rfl

inductive Action
  | variant (c : ℕ)
  | create (c : ℕ) (reply : Created)
  | record (c : ℕ) (added : Bool)
  | discard (c : ℕ) (kr : IOReturn) (gone : Bool)
  | dereg (c : ℕ) (mrHandle : BitVec 32)
  | destroy (c : ℕ) (kr : IOReturn) (gone : Bool)
  | remove (c : ℕ)
  deriving DecidableEq, Repr

namespace State

def setCall (c : ℕ) (pc : CallPc) (s : State) : State := { s with calls := Function.update s.calls c pc }

/-- `cmdCreateMKey` up to the encoder. -/
def drawVariant (c : ℕ) (s : State) : State :=
  { s with fMkeyVariant := nextVariant s.fMkeyVariant, attempts := s.attempts + 1 }.setCall c
    (.create s.attempts (nextVariant s.fMkeyVariant))

/-- The firmware creates an mkey at an index that no other one has. -/
def addMkey (attempt : ℕ) (index : BitVec 24) (s : State) : Option State :=
  if s.mkeys index.toNat = none then
    some { s with mkeys := Function.update s.mkeys index.toNat (some attempt) }
  else none

/-- The rest of `cmdCreateMKey`. -/
def cmdCreateMKey (c attempt : ℕ) (variant : BitVec 8) (s : State) : Created → Option State
  | .failed none => some (s.setCall c .absent)
  | .failed (some index) => (s.addMkey attempt index).map (setCall c .absent)
  | .succeeded index =>
    (s.addMkey attempt index).map (setCall c (.record ⟨mlxComposeMkey index variant,attempt,index⟩))

/-- The end of `regMR`. -/
def record (c : ℕ) (r : Region) (s : State) (added : Bool) : State :=
  if added then
    { s with fMrTable := s.fMrTable ++ [r.mrHandle], issued := s.issued ++ [r] }.setCall c .absent
  else s.setCall c (.discard r)

/-- `cmdDestroyMKey`; one that fails may have destroyed the mkey all the same. -/
def cmdDestroyMKey (mrHandle : ℕ) (kr : IOReturn) (gone : Bool) (s : State) : State :=
  if kr = .success ∨ gone then { s with mkeys := Function.update s.mkeys (mlxMkeyIndex mrHandle) none } else s

def step (s : State) : Action → Option State
  | .variant c =>
    match s.calls c with
    | .absent => some (s.drawVariant c)
    | _ => none
  | .create c reply =>
    match s.calls c with
    | .create attempt variant => s.cmdCreateMKey c attempt variant reply
    | _ => none
  | .record c added =>
    match s.calls c with
    | .record r => some (s.record c r added)
    | _ => none
  | .discard c kr gone =>
    match s.calls c with
    | .discard r => some ((s.cmdDestroyMKey r.mrHandle kr gone).setCall c .absent)
    | _ => none
  | .dereg c mrHandle =>
    match s.calls c with
    | .absent => some (s.setCall c (.dereg mrHandle.toNat))
    | _ => none
  | .destroy c kr gone =>
    match s.calls c with
    | .dereg mrHandle =>
      some ((s.cmdDestroyMKey mrHandle kr gone).setCall c (if kr = .success then .remove mrHandle else .absent))
    | _ => none
  | .remove c =>
    match s.calls c with
    | .remove mrHandle => some ({ s with fMrTable := s.fMrTable.erase mrHandle }.setCall c .absent)
    | _ => none

end State

/-! ## The variants -/

/-- The variant of the attempt with the number. -/
def variantOf (attempt : ℕ) : BitVec 8 := nextVariant^[attempt + 1] 0

theorem nextVariant_toNat (v : BitVec 8) : (nextVariant v).toNat = v.toNat % 255 + 1 := by
  have hv := v.isLt
  have h₁ : (v + 1).toNat = (v.toNat + 1) % 2 ^ 8 := BitVec.toNat_add v 1
  have h₂ : (v + 2).toNat = (v.toNat + 2) % 2 ^ 8 := BitVec.toNat_add v 2
  unfold nextVariant
  split
  · rename_i hz
    rw [hz] at h₁
    have hz₁ : 0 = (v.toNat + 1) % 2 ^ 8 := h₁
    omega
  · rename_i hz
    have hz₁ : (v + 1).toNat ≠ 0 := fun h => hz (BitVec.eq_of_toNat_eq h)
    omega

/-- The variants go round without zero. -/
theorem variantOf_toNat (attempt : ℕ) : (variantOf attempt).toNat = attempt % 255 + 1 := by
  induction attempt with
  | zero => exact nextVariant_toNat 0
  | succ attempt ih =>
    have hnext : variantOf (attempt + 1) = nextVariant (variantOf attempt) :=
      Function.iterate_succ_apply' nextVariant (attempt + 1) 0
    rw [hnext, nextVariant_toNat, ih]
    omega

/-- The key of the region is the one that its attempt and its index make. -/
def Region.Made (r : Region) : Prop := r.mrHandle = mlxComposeMkey r.index (variantOf r.attempt)

theorem mlxComposeMkey_eq (index : BitVec 24) (variant : BitVec 8) :
    mlxComposeMkey index variant = 2 ^ 8 * index.toNat + variant.toNat := by
  rw [mlxComposeMkey, Nat.shiftLeft_eq, Nat.mul_comm]
  exact (Nat.two_pow_add_eq_or_of_lt variant.isLt _).symm

namespace Region
variable {r r' : Region}

theorem Made.index (h : r.Made) : mlxMkeyIndex r.mrHandle = r.index.toNat := by
  rw [h, mlxMkeyIndex_compose]

theorem Made.variant (h : r.Made) : r.mrHandle % 2 ^ 8 = r.attempt % 255 + 1 := by
  rw [h, mlxComposeMkey_eq, Nat.mul_add_mod, variantOf_toNat]
  omega

/-- Two attempts that are not a round apart make different keys. -/
theorem Made.ne (h : r.Made) (h' : r'.Made) (hne : r.attempt ≠ r'.attempt) (hlt : r.attempt < r'.attempt + 255)
    (hgt : r'.attempt < r.attempt + 255) : r.mrHandle ≠ r'.mrHandle := by
  intro hk
  have hv := h.variant
  rw [hk, h'.variant] at hv
  omega

theorem Made.index_eq (h : r.Made) (h' : r'.Made) (hk : r.mrHandle = r'.mrHandle) : r.index.toNat = r'.index.toNat := by
  rw [← h.index, ← h'.index, hk]

end Region

/-! ## Attempts and calls -/

/-- The attempt that a call has still to hand out. -/
def CallPc.attempt : CallPc → Option ℕ
  | .create attempt _ => some attempt
  | .record r => some r.attempt
  | _ => none

def CallPc.Sound : CallPc → Prop
  | .create attempt variant => variant = variantOf attempt
  | .record r => r.Made
  | _ => True

namespace State

/-- No attempt is handed out twice, and every key is the one that its attempt makes. -/
structure Counted (s : State) : Prop where
  variant : s.fMkeyVariant = nextVariant^[s.attempts] 0
  sound : ∀ c, (s.calls c).Sound
  made : ∀ r ∈ s.issued, r.Made
  below : ∀ r ∈ s.issued, r.attempt < s.attempts
  distinct : s.issued.Pairwise (fun r r' => r.attempt ≠ r'.attempt)
  pending : ∀ c a, (s.calls c).attempt = some a → a < s.attempts ∧ ∀ r ∈ s.issued, r.attempt ≠ a
  own : ∀ c c' a, (s.calls c).attempt = some a → (s.calls c').attempt = some a → c = c'

variable {s t : State}

theorem counted_initial : initial.Counted where
  variant := rfl
  sound := fun _ => trivial
  made := fun _ h => absurd h List.not_mem_nil
  below := fun _ h => absurd h List.not_mem_nil
  distinct := .nil
  pending := fun _ _ h => by cases h
  own := fun _ _ _ h => by cases h

theorem setCall_calls (c c' : ℕ) (pc : CallPc) (s : State) :
    (s.setCall c pc).calls c' = if c' = c then pc else s.calls c' := Function.update_apply s.calls c pc c'

/-- What only the commands and the table change does not matter here. -/
theorem Counted.frame (h : s.Counted) (hv : t.fMkeyVariant = s.fMkeyVariant) (hn : t.attempts = s.attempts)
    (hi : t.issued = s.issued) (hc : t.calls = s.calls) : t.Counted := by
  obtain ⟨variant,sound,made,below,distinct,pending,own⟩ := h
  rw [← hv, ← hn] at variant
  rw [← hc] at sound own
  rw [← hi] at made below distinct
  rw [← hn] at below
  rw [← hc, ← hn, ← hi] at pending
  exact ⟨variant,sound,made,below,distinct,pending,own⟩

theorem Counted.carry {c : ℕ} {pc : CallPc} (h : s.Counted) (hpc : pc.Sound)
    (ha : pc.attempt = none ∨ pc.attempt = (s.calls c).attempt) : (s.setCall c pc).Counted := by
  have hold : ∀ c' a, ((s.setCall c pc).calls c').attempt = some a → (s.calls c').attempt = some a := by
    intro c' a hc'
    rw [setCall_calls] at hc'
    split at hc'
    · rename_i he
      rcases ha with ha | ha
      · rw [ha] at hc'
        cases hc'
      · rwa [ha, ← he] at hc'
    · exact hc'
  refine ⟨h.variant,fun c' => ?_,h.made,h.below,h.distinct,fun c' a hc' => h.pending c' a (hold c' a hc'),
    fun c₁ c₂ a h₁ h₂ => h.own c₁ c₂ a (hold c₁ a h₁) (hold c₂ a h₂)⟩
  rw [setCall_calls]
  split
  · exact hpc
  · exact h.sound c'

theorem drawVariant_counted (h : s.Counted) (c : ℕ) : (s.drawVariant c).Counted := by
  have hnext : nextVariant s.fMkeyVariant = variantOf s.attempts := by
    rw [h.variant]
    exact (Function.iterate_succ_apply' nextVariant s.attempts 0).symm
  have hcalls : ∀ c' a, ((s.drawVariant c).calls c').attempt = some a →
      c' = c ∧ a = s.attempts ∨ c' ≠ c ∧ (s.calls c').attempt = some a := by
    intro c' a hc'
    rw [drawVariant, setCall_calls] at hc'
    split at hc'
    · rename_i he
      exact Or.inl ⟨he,(Option.some.inj hc').symm⟩
    · rename_i he
      exact Or.inr ⟨he,hc'⟩
  refine ⟨hnext,fun c' => ?_,h.made,fun r hr => Nat.lt_succ_of_lt (h.below r hr),h.distinct,fun c' a hc' => ?_,
    fun c₁ c₂ a h₁ h₂ => ?_⟩
  · rw [drawVariant, setCall_calls]
    split
    · exact hnext
    · exact h.sound c'
  · rcases hcalls c' a hc' with ⟨-,rfl⟩ | ⟨-,hold⟩
    · exact ⟨Nat.lt_succ_self _,fun r hr => Nat.ne_of_lt (h.below r hr)⟩
    · obtain ⟨hlt,hne⟩ := h.pending c' a hold
      exact ⟨Nat.lt_succ_of_lt hlt,hne⟩
  · rcases hcalls c₁ a h₁ with ⟨h₁,ha₁⟩ | ⟨-,hold₁⟩ <;>
      rcases hcalls c₂ a h₂ with ⟨h₂,ha₂⟩ | ⟨-,hold₂⟩
    · rw [h₁, h₂]
    · exact absurd ha₁ (Nat.ne_of_lt (h.pending c₂ a hold₂).1)
    · exact absurd ha₂ (Nat.ne_of_lt (h.pending c₁ a hold₁).1)
    · exact h.own c₁ c₂ a hold₁ hold₂

theorem record_counted {c : ℕ} {r : Region} (h : s.Counted) (hc : s.calls c = .record r) (added : Bool) :
    (s.record c r added).Counted := by
  unfold record
  split
  · have hown : ∀ c', (s.calls c').attempt = some r.attempt → c' = c :=
      fun c' hc' => h.own c' c r.attempt hc' (by rw [hc]; rfl)
    obtain ⟨hlt,hne⟩ := h.pending c r.attempt (by rw [hc]; rfl)
    have hsound := h.sound c
    rw [hc] at hsound
    have hdrop : (s.setCall c .absent).Counted := h.carry trivial (Or.inl rfl)
    refine ⟨h.variant,hdrop.sound,?_,?_,?_,fun c' a hc' => ⟨(hdrop.pending c' a hc').1,?_⟩,hdrop.own⟩
    · exact fun r' hr' => (List.mem_append.mp hr').elim (h.made r') (fun he => List.mem_singleton.mp he ▸ hsound)
    · exact fun r' hr' => (List.mem_append.mp hr').elim (h.below r') (fun he => List.mem_singleton.mp he ▸ hlt)
    · refine List.pairwise_append.mpr ⟨h.distinct,List.pairwise_singleton _ _,fun r₁ hr₁ r₂ hr₂ => ?_⟩
      rw [List.mem_singleton.mp hr₂]
      exact hne r₁ hr₁
    · intro r' hr'
      rcases List.mem_append.mp hr' with hr' | hr'
      · exact (hdrop.pending c' a hc').2 r' hr'
      · -- no other call has the attempt that is handed out here
        intro he
        rw [List.mem_singleton.mp hr'] at he
        have hcall : ((s.setCall c .absent).calls c').attempt = some a := hc'
        rw [setCall_calls] at hcall
        split at hcall
        · cases hcall
        · rename_i hneq
          exact hneq (hown c' (by rw [hcall, he]))
  · exact h.carry trivial (Or.inl rfl)

inductive Does (s : State) : Action → State → Prop
  | variant {c : ℕ} (hc : s.calls c = .absent) : Does s (.variant c) (s.drawVariant c)
  | create {c attempt : ℕ} {variant : BitVec 8} {reply : Created} {t : State} (hc : s.calls c = .create attempt variant)
      (h : s.cmdCreateMKey c attempt variant reply = some t) : Does s (.create c reply) t
  | record {c : ℕ} {r : Region} {added : Bool} (hc : s.calls c = .record r) :
      Does s (.record c added) (s.record c r added)
  | discard {c : ℕ} {r : Region} {kr : IOReturn} {gone : Bool} (hc : s.calls c = .discard r) :
      Does s (.discard c kr gone) ((s.cmdDestroyMKey r.mrHandle kr gone).setCall c .absent)
  | dereg {c : ℕ} {mrHandle : BitVec 32} (hc : s.calls c = .absent) :
      Does s (.dereg c mrHandle) (s.setCall c (.dereg mrHandle.toNat))
  | destroy {c mrHandle : ℕ} {kr : IOReturn} {gone : Bool} (hc : s.calls c = .dereg mrHandle) :
      Does s (.destroy c kr gone)
        ((s.cmdDestroyMKey mrHandle kr gone).setCall c (if kr = .success then .remove mrHandle else .absent))
  | remove {c mrHandle : ℕ} (hc : s.calls c = .remove mrHandle) :
      Does s (.remove c) ({ s with fMrTable := s.fMrTable.erase mrHandle }.setCall c .absent)

theorem step_does {a : Action} (hs : s.step a = some t) : s.Does a t := by
  cases a with
  | variant c =>
    simp only [step] at hs
    split at hs
    · cases hs
      exact .variant ‹_›
    · cases hs
  | create c reply =>
    simp only [step] at hs
    split at hs
    · exact .create ‹_› hs
    · cases hs
  | record c added =>
    simp only [step] at hs
    split at hs
    · cases hs
      exact .record ‹_›
    · cases hs
  | discard c kr gone =>
    simp only [step] at hs
    split at hs
    · cases hs
      exact .discard ‹_›
    · cases hs
  | dereg c mrHandle =>
    simp only [step] at hs
    split at hs
    · cases hs
      exact .dereg ‹_›
    · cases hs
  | destroy c kr gone =>
    simp only [step] at hs
    split at hs
    · cases hs
      exact .destroy ‹_›
    · cases hs
  | remove c =>
    simp only [step] at hs
    split at hs
    · cases hs
      exact .remove ‹_›
    · cases hs

theorem addMkey_eq {attempt : ℕ} {index : BitVec 24} (h : s.addMkey attempt index = some t) :
    s.mkeys index.toNat = none ∧ t = { s with mkeys := Function.update s.mkeys index.toNat (some attempt) } := by
  unfold addMkey at h
  split at h
  · rename_i hnone
    exact ⟨hnone,(Option.some.inj h).symm⟩
  · cases h

theorem cmdCreateMKey_counted {c attempt : ℕ} {variant : BitVec 8} {reply : Created} (h : s.Counted)
    (hc : s.calls c = .create attempt variant) (hs : s.cmdCreateMKey c attempt variant reply = some t) : t.Counted := by
  have hvariant := h.sound c
  rw [hc] at hvariant
  have hframe : ∀ mkeys, State.Counted { s with mkeys := mkeys } := fun _ => h.frame rfl rfl rfl rfl
  rcases reply with (_ | index) | index
  · cases hs
    exact h.carry trivial (Or.inl rfl)
  · obtain ⟨u,hu,rfl⟩ := Option.map_eq_some_iff.mp hs
    obtain ⟨-,rfl⟩ := addMkey_eq hu
    exact (hframe _).carry trivial (Or.inl rfl)
  · obtain ⟨u,hu,rfl⟩ := Option.map_eq_some_iff.mp hs
    obtain ⟨-,rfl⟩ := addMkey_eq hu
    refine (hframe _).carry ?_ (Or.inr ?_)
    · show mlxComposeMkey index variant = _
      rw [hvariant]
    · show some attempt = (s.calls c).attempt
      rw [hc]
      rfl

theorem cmdDestroyMKey_eq (mrHandle : ℕ) (kr : IOReturn) (gone : Bool) (s : State) : s.cmdDestroyMKey mrHandle kr gone =
    { s with mkeys := if kr = .success ∨ gone then Function.update s.mkeys (mlxMkeyIndex mrHandle) none else s.mkeys } := by
  unfold cmdDestroyMKey
  split <;> rfl

theorem cmdDestroyMKey_counted (h : s.Counted) (mrHandle : ℕ) (kr : IOReturn) (gone : Bool) :
    (s.cmdDestroyMKey mrHandle kr gone).Counted := by
  rw [cmdDestroyMKey_eq]
  exact h.frame rfl rfl rfl rfl

theorem step_counted {a : Action} (h : s.Counted) (hs : s.step a = some t) : t.Counted := by
  cases step_does hs with
  | variant hc => exact drawVariant_counted h _
  | create hc hcreate => exact cmdCreateMKey_counted h hc hcreate
  | record hc => exact record_counted h hc _
  | discard hc => exact (cmdDestroyMKey_counted h _ _ _).carry trivial (Or.inl rfl)
  | dereg hc => exact h.carry trivial (Or.inl rfl)
  | destroy hc =>
    refine (cmdDestroyMKey_counted h _ _ _).carry ?_ (Or.inl ?_)
    · split <;> trivial
    · split <;> rfl
  | @remove c mrHandle hc =>
    have hframe : State.Counted { s with fMrTable := s.fMrTable.erase mrHandle } := h.frame rfl rfl rfl rfl
    exact hframe.carry trivial (Or.inl rfl)

/-! ## Live regions -/

def Live (s : State) (r : Region) : Prop := s.mkeys r.index.toNat = some r.attempt

instance (s : State) (r : Region) : Decidable (s.Live r) := inferInstanceAs (Decidable (_ = _))

end State

/-- The index in the command with which a call destroys an mkey. -/
def CallPc.destroys : CallPc → Option ℕ
  | .discard r => some (mlxMkeyIndex r.mrHandle)
  | .dereg mrHandle => some (mlxMkeyIndex mrHandle)
  | _ => none

def Action.call : Action → ℕ
  | .variant c | .create c _ | .record c _ | .discard c _ _ | .dereg c _ | .destroy c _ _ | .remove c => c

namespace State
variable {s t : State} {r r' : Region}

theorem addMkey_live {attempt : ℕ} {index : BitVec 24} (h : s.addMkey attempt index = some t) (hl : s.Live r) :
    t.Live r := by
  obtain ⟨hnone,rfl⟩ := addMkey_eq h
  have hne : r.index.toNat ≠ index.toNat := by
    intro he
    rw [Live, he, hnone] at hl
    cases hl
  exact (Function.update_of_ne hne _ _).trans hl

theorem cmdDestroyMKey_live (mrHandle : ℕ) (kr : IOReturn) (gone : Bool) (hl : s.Live r) :
    (s.cmdDestroyMKey mrHandle kr gone).Live r ∨ mlxMkeyIndex mrHandle = r.index.toNat := by
  by_cases he : mlxMkeyIndex mrHandle = r.index.toNat
  · exact Or.inr he
  · refine Or.inl ?_
    rw [cmdDestroyMKey_eq]
    unfold Live
    dsimp only
    split
    · exact (Function.update_of_ne (Ne.symm he) _ _).trans hl
    · exact hl

/-- A region is live until a command destroys the mkey at its index. -/
theorem step_live {a : Action} (hs : s.step a = some t) (hl : s.Live r) :
    t.Live r ∨ (s.calls a.call).destroys = some r.index.toNat := by
  cases step_does hs with
  | variant hc => exact Or.inl hl
  | @create _ _ _ reply _ hc hcreate =>
    refine Or.inl ?_
    rcases reply with (_ | index) | index
    · cases hcreate
      exact hl
    · obtain ⟨u,hu,rfl⟩ := Option.map_eq_some_iff.mp hcreate
      have hkeep : u.Live r := addMkey_live hu hl
      exact hkeep
    · obtain ⟨u,hu,rfl⟩ := Option.map_eq_some_iff.mp hcreate
      have hkeep : u.Live r := addMkey_live hu hl
      exact hkeep
  | record hc =>
    refine Or.inl ?_
    unfold record
    split <;> exact hl
  | @discard _ _ kr gone hc =>
    rw [Action.call, hc]
    exact (cmdDestroyMKey_live _ kr gone hl).imp id (congrArg some)
  | dereg hc => exact Or.inl hl
  | @destroy _ _ kr gone hc =>
    rw [Action.call, hc]
    exact (cmdDestroyMKey_live _ kr gone hl).imp id (congrArg some)
  | remove hc => exact Or.inl hl

/-- What `deregMR` destroys when its command succeeds. -/
theorem destroy_mkeys {c mrHandle : ℕ} {gone : Bool} (hc : s.calls c = .dereg mrHandle)
    (hs : s.step (.destroy c .success gone) = some t) :
    t.mkeys = Function.update s.mkeys (mlxMkeyIndex mrHandle) none := by
  simp only [step, hc] at hs
  cases hs
  rfl

/-- What the keys that have been handed out are good for. -/
structure Sound (s : State) : Prop where
  variant : ∀ r ∈ s.issued, r.mrHandle % 2 ^ 8 ≠ 0
  index : ∀ r ∈ s.issued, mlxMkeyIndex r.mrHandle = r.index.toNat
  /-- A `deregMR` of the key that succeeds destroys the mkey of the region and no other. -/
  destroys : ∀ r ∈ s.issued, ∀ c gone t, s.calls c = .dereg r.mrHandle → s.step (.destroy c .success gone) = some t →
    t.mkeys = Function.update s.mkeys r.index.toNat none
  /-- Less than 255 attempts from one to the other, the keys differ. -/
  fresh : s.issued.Pairwise (fun r r' => r.attempt ≠ r'.attempt ∧
    (r.attempt < r'.attempt + 255 → r'.attempt < r.attempt + 255 → r.mrHandle ≠ r'.mrHandle))
  live : s.issued.Pairwise (fun r r' => s.Live r → s.Live r' → r.mrHandle ≠ r'.mrHandle)
  /-- A region stays live until a command destroys the mkey at its index. -/
  stays : ∀ r ∈ s.issued, s.Live r → ∀ a t, s.step a = some t →
    t.Live r ∨ (s.calls a.call).destroys = some (mlxMkeyIndex r.mrHandle)

theorem Counted.sound_keys (h : s.Counted) : s.Sound where
  variant r hr := by
    rw [(h.made r hr).variant]
    omega
  index r hr := (h.made r hr).index
  destroys r hr c gone t hc hs := by
    rw [destroy_mkeys hc hs, (h.made r hr).index]
  fresh := h.distinct.imp_of_mem (fun {r r'} hr hr' hne =>
    ⟨hne,(h.made r hr).ne (h.made r' hr') hne⟩)
  live := h.distinct.imp_of_mem (fun {r r'} hr hr' hne hl hl' hk => by
    -- one index has one mkey, made by one attempt
    have hindex := (h.made r hr).index_eq (h.made r' hr') hk
    rw [Live, hindex, hl'] at hl
    exact hne (Option.some.inj hl).symm)
  stays r hr hl a t hs := by
    rw [(h.made r hr).index]
    exact step_live hs hl

theorem keys_run (s : State) (h : Reach step Free initial s) : s.Sound :=
  (h.invariant counted_initial (fun _ _ _ h _ hs => step_counted h hs)).sound_keys

/-- A region is registered and deregistered, and another one gets its index. -/
def reuseActions : List Action :=
  [.variant 0,.create 0 (.succeeded 5),.record 0 true,.dereg 0 1281,.destroy 0 .success true,.remove 0,
    .variant 0,.create 0 (.failed none),.variant 1,.create 1 (.succeeded 5),.record 1 true]

theorem keys_run_reusedIndex : ∃ s, after step reuseActions initial = some s ∧
    s.issued = [⟨1281,0,5⟩,⟨1283,2,5⟩] ∧ s.Sound :=
  ⟨_,rfl,rfl,keys_run _ (reach_of_after reuseActions .start rfl)⟩

end State

end AppleMCX.MkeyVariant
