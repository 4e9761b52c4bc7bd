import AppleMCX.Core.Command
import AppleMCX.Interaction.Bytes
import Mathlib.Data.BitVec

/-! # The table of source addresses

`MlxGID` with the entries of the device beside its two tables, from `MlxRoCE::stageGID` on.
-/
namespace AppleMCX.Gid
open Interaction

structure GidEntry where
  used : Bool
  index : ℕ
  gid : Block 16
  mac : Block 6
  roceVersion : BitVec 8
  l3Type : BitVec 8
  vlanId : BitVec 16
  vlanEn : Bool
  deriving DecidableEq

/-- `fTable` and `fUsed`, both of `fTableSize` elements, and the address that the device has at
every index. -/
structure State where
  fTable : List GidEntry
  fUsed : List Bool
  device : ℕ → Block 16

/-- What `exec` returns for SET_ROCE_ADDRESS, and whether one that timed out took effect. -/
structure Outcome where
  kr : IOReturn
  tookEffect : Bool

def Outcome.effect (o : Outcome) : Bool := o.kr = .success ∨ (o.kr = .timeout ∧ o.tookEffect)

namespace State

/-- The bit of an index; there is none behind the table. -/
def used (s : State) (i : ℕ) : Bool := s.fUsed.getD i false

/-- `allocGIDIndex`; `none` stands for 0xFFFFFFFF. -/
def allocGIDIndex (s : State) : Option ℕ × State :=
  match s.fUsed.findIdx? (fun used => !used) with
  | some i => (some i,{ s with fUsed := s.fUsed.set i true })
  | none => (none,s)

def freeGIDIndex (index : ℕ) (s : State) : State :=
  { s with fUsed := s.fUsed.set index false, fTable := s.fTable.modify index (fun e => { e with used := false }) }

/-- `cmdSetRoceAddr`, of which the device keeps the address. -/
def cmdSetRoceAddr (index : ℕ) (gid : Block 16) (o : Outcome) (s : State) : IOReturn × State :=
  (o.kr,if o.effect then { s with device := Function.update s.device index gid } else s)

def setGID (index : ℕ) (gid : Block 16) (mac : Block 6) (roceVersion l3Type : BitVec 8) (vlanEn : Bool) (vlanId : BitVec 16)
    (o : Outcome) (s : State) : IOReturn × State :=
  let (kr,s) := s.cmdSetRoceAddr index gid o
  if kr ≠ .success then (kr,s)
  else (.success,{ s with fTable := s.fTable.set index ⟨true,index,gid,mac,roceVersion,l3Type,vlanId,vlanEn⟩ })

def delGID (index : ℕ) (o : Outcome) (s : State) : IOReturn × State :=
  let (kr,s) := s.cmdSetRoceAddr index (.zero 16) o
  (kr,s.freeGIDIndex index)

/-- `MlxGID::init`, before anything has been written to the device. -/
def init (tableSize : ℕ) : State where
  fTable := List.replicate tableSize ⟨false,0,.zero 16,.zero 6,0,0,0,false⟩
  fUsed := List.replicate tableSize false
  device := fun _ => .zero 16

end State

/-- `getLocalAddr`: the link-local address and the MAC that it is made from. -/
def localGid : Block 16 := ⟨[0xfe,0x80,0,0,0,0,0,0,0x02,0x02,0xc9,0xff,0xfe,0,0,0x01],rfl⟩

def localMac : Block 6 := ⟨[0x02,0x02,0xc9,0,0,0x01],rfl⟩

def tableSize (roceMaxGid : ℕ) : ℕ := if roceMaxGid ≠ 0 then roceMaxGid else 128

/-- `MlxRoCE::stageGID` of an Ethernet port; false ends the start of the driver. -/
def stageGID (roceMaxGid : ℕ) (o : Outcome) : Bool × State :=
  let (kr,s) := (State.init (tableSize roceMaxGid)).setGID 0 localGid localMac 0 0 false 0 o
  (kr = .success,s)

inductive Call
  | allocGIDIndex
  | setGID (index : ℕ) (gid : Block 16) (mac : Block 6) (roceVersion l3Type : BitVec 8) (vlanEn : Bool)
      (vlanId : BitVec 16) (o : Outcome)
  | delGID (index : ℕ) (o : Outcome)
  | freeGIDIndex (index : ℕ)

def State.step (s : State) : Call → State
  | .allocGIDIndex => s.allocGIDIndex.2
  | .setGID index gid mac roceVersion l3Type vlanEn vlanId o => (s.setGID index gid mac roceVersion l3Type vlanEn vlanId o).2
  | .delGID index o => (s.delGID index o).2
  | .freeGIDIndex index => s.freeGIDIndex index

/-! ## Bitmap and device -/

variable {s : State} {i index : ℕ} {o : Outcome} {c : Call}

/-- The device has an address at the index. -/
def State.Programmed (s : State) (i : ℕ) : Prop := s.device i ≠ .zero 16

/-- Every programmed index is marked, and `allocGIDIndex` returns one that is neither. -/
structure Synchronized (s : State) : Prop where
  marked : ∀ i, s.Programmed i → s.used i = true
  fresh : ∀ i, s.allocGIDIndex.1 = some i → s.used i = false ∧ ¬ s.Programmed i

theorem allocGIDIndex_unused (h : s.allocGIDIndex.1 = some i) : s.used i = false := by
  unfold State.allocGIDIndex at h
  cases hfind : s.fUsed.findIdx? (fun used => !used) with
  | none => rw [hfind] at h; cases h
  | some j =>
    rw [hfind] at h
    cases h
    obtain ⟨hlt,hunused,-⟩ := List.findIdx?_eq_some_iff_getElem.1 hfind
    rw [State.used, List.getD_eq_getElem?_getD, List.getElem?_eq_getElem hlt]
    simpa using hunused

/-- The second part follows from the first. -/
theorem synchronized_iff : Synchronized s ↔ ∀ i, s.Programmed i → s.used i = true := by
  constructor
  · exact fun h => h.marked
  · intro h
    refine ⟨h,fun i hi => ?_⟩
    have hunused := allocGIDIndex_unused hi
    refine ⟨hunused,fun hprog => ?_⟩
    rw [h i hprog] at hunused
    cases hunused

/-- What a call may do without leaving a programmed index unmarked. -/
def Orderly (s : State) : Call → Prop
  | .allocGIDIndex => True
  | .setGID index gid _ _ _ _ _ o => o.effect = true → gid = .zero 16 ∨ s.used index = true
  | .delGID index o => o.effect = true ∨ ¬ s.Programmed index
  | .freeGIDIndex index => ¬ s.Programmed index

/-! ## One call -/

theorem getD_set {l : List Bool} {k i : ℕ} {b : Bool} :
    (l.set k b).getD i false = if i = k then (decide (k < l.length) && b) else l.getD i false := by
  rw [List.getD_eq_getElem?_getD, List.getD_eq_getElem?_getD, List.getElem?_set]
  by_cases hik : i = k
  · subst hik
    rw [if_pos rfl, if_pos rfl]
    by_cases hlt : i < l.length
    · simp [hlt]
    · simp [hlt]
  · rw [if_neg (Ne.symm hik), if_neg hik]

@[simp] theorem freeGIDIndex_used : (s.freeGIDIndex index).used i = if i = index then false else s.used i := by
  unfold State.freeGIDIndex State.used
  rw [getD_set, Bool.and_false]

@[simp] theorem freeGIDIndex_device : (s.freeGIDIndex index).device = s.device := rfl

@[simp] theorem cmdSetRoceAddr_used {gid : Block 16} : (s.cmdSetRoceAddr index gid o).2.used = s.used := by
  unfold State.cmdSetRoceAddr
  dsimp only
  split <;> rfl

theorem cmdSetRoceAddr_device {gid : Block 16} :
    (s.cmdSetRoceAddr index gid o).2.device = if o.effect = true then Function.update s.device index gid else s.device := by
  unfold State.cmdSetRoceAddr
  dsimp only
  split <;> rfl

theorem setGID_frame (gid : Block 16) (mac : Block 6) (roceVersion l3Type : BitVec 8) (vlanEn : Bool) (vlanId : BitVec 16)
    (o : Outcome) :
    (s.setGID index gid mac roceVersion l3Type vlanEn vlanId o).2.used = s.used ∧
      (s.setGID index gid mac roceVersion l3Type vlanEn vlanId o).2.device =
        if o.effect = true then Function.update s.device index gid else s.device := by
  have hused : (s.cmdSetRoceAddr index gid o).2.used = s.used := cmdSetRoceAddr_used
  rw [← cmdSetRoceAddr_device, ← hused]
  unfold State.setGID
  dsimp only
  split <;> exact ⟨rfl,rfl⟩

/-- Marking never hurts. -/
theorem allocGIDIndex_marks (h : s.used i = true) : s.allocGIDIndex.2.used i = true := by
  unfold State.allocGIDIndex
  cases hfind : s.fUsed.findIdx? (fun used => !used) with
  | none => exact h
  | some j =>
    have hlt := (List.findIdx?_eq_some_iff_getElem.1 hfind).1
    unfold State.used at h ⊢
    rw [getD_set, Bool.and_true]
    split
    · exact decide_eq_true hlt
    · exact h

theorem allocGIDIndex_device : s.allocGIDIndex.2.device = s.device := by
  unfold State.allocGIDIndex
  split <;> rfl

theorem programmed_iff {used : ℕ → Bool} {device : ℕ → Block 16} (h : ∀ i, device i ≠ .zero 16 → used i = true)
    (gid : Block 16) :
    (∀ i, Function.update device index gid i ≠ .zero 16 → used i = true) ↔ gid = .zero 16 ∨ used index = true := by
  constructor
  · intro hmarked
    have hindex := hmarked index
    rw [Function.update_self] at hindex
    exact or_iff_not_imp_left.2 hindex
  · intro horderly i hi
    by_cases hindex : i = index
    · rw [hindex, Function.update_self] at hi
      rw [hindex]
      exact horderly.resolve_left hi
    · rw [Function.update_of_ne hindex] at hi
      exact h i hi

theorem unmarked_iff {used : ℕ → Bool} {device : ℕ → Block 16} (h : ∀ i, device i ≠ .zero 16 → used i = true) :
    (∀ i, device i ≠ .zero 16 → (if i = index then false else used i) = true) ↔ ¬ device index ≠ .zero 16 := by
  constructor
  · intro hmarked hprog
    have hindex := hmarked index hprog
    rw [if_pos rfl] at hindex
    cases hindex
  · intro hfree i hi
    have hindex : i ≠ index := by
      rintro rfl
      exact hfree hi
    rw [if_neg hindex]
    exact h i hi

/-- A call keeps bitmap and device synchronized exactly if it is orderly. -/
theorem step_synchronized_iff (h : Synchronized s) : Synchronized (s.step c) ↔ Orderly s c := by
  rw [synchronized_iff] at h ⊢
  unfold State.Programmed at h ⊢
  cases c with
  | allocGIDIndex =>
    refine ⟨fun _ => trivial,fun _ i hi => allocGIDIndex_marks (h i ?_)⟩
    rwa [State.step, allocGIDIndex_device] at hi
  | setGID index gid mac roceVersion l3Type vlanEn vlanId o =>
    obtain ⟨hused,hdevice⟩ := @setGID_frame s index gid mac roceVersion l3Type vlanEn vlanId o
    rw [State.step, hused, hdevice, Orderly]
    by_cases heffect : o.effect = true
    · rw [if_pos heffect, programmed_iff h]
      exact ⟨fun horderly _ => horderly,fun horderly => horderly heffect⟩
    · rw [if_neg heffect]
      exact iff_of_true h (fun htrue => absurd htrue heffect)
  | delGID index o =>
    have hdevice : (s.step (.delGID index o)).device =
        if o.effect = true then Function.update s.device index (.zero 16) else s.device := cmdSetRoceAddr_device
    have hused : ∀ i, (s.step (.delGID index o)).used i = if i = index then false else s.used i := by
      intro i
      rw [State.step, State.delGID, freeGIDIndex_used, cmdSetRoceAddr_used]
    simp only [hdevice, hused]
    by_cases heffect : o.effect = true
    · rw [if_pos heffect, unmarked_iff ((programmed_iff h (.zero 16)).2 (.inl rfl)), Function.update_self]
      exact iff_of_true (not_not.2 rfl) (.inl heffect)
    · rw [if_neg heffect, unmarked_iff h]
      exact (or_iff_right heffect).symm
  | freeGIDIndex index =>
    simp only [State.step, freeGIDIndex_device, freeGIDIndex_used]
    exact unmarked_iff h

/-! ## Runs -/

def OrderlyRun : State → List Call → Prop
  | _, [] => True
  | s, c :: calls => Orderly s c ∧ OrderlyRun (s.step c) calls

theorem run_synchronized_iff (h : Synchronized s) (calls : List Call) :
    (∀ k, Synchronized ((calls.take k).foldl State.step s)) ↔ OrderlyRun s calls := by
  induction calls generalizing s with
  | nil => exact ⟨fun _ => trivial,fun _ k => by rw [List.take_nil]; exact h⟩
  | cons c calls ih =>
    constructor
    · intro hall
      have hstep : Synchronized (s.step c) := by simpa using hall 1
      exact ⟨(step_synchronized_iff h).1 hstep,(ih hstep).1 fun k => hall (k + 1)⟩
    · rintro ⟨hc,hcalls⟩ k
      cases k with
      | zero => exact h
      | succ k => exact (ih ((step_synchronized_iff h).2 hc)).2 hcalls k

theorem init_used (n i : ℕ) : (State.init n).used i = false := by
  unfold State.init State.used
  rw [List.getD_eq_getElem?_getD, List.getElem?_replicate]
  split <;> rfl

/-- The address of the start goes to an index that nobody has allocated. -/
theorem stageGID_synchronized_iff (roceMaxGid : ℕ) (o : Outcome) :
    Synchronized (stageGID roceMaxGid o).2 ↔ o.effect = false := by
  obtain ⟨hused,hdevice⟩ := @setGID_frame (.init (tableSize roceMaxGid)) 0 localGid localMac 0 0 false 0 o
  have hlocal : localGid ≠ .zero 16 := by decide
  rw [synchronized_iff]
  unfold State.Programmed stageGID
  dsimp only
  rw [hused, hdevice]
  cases heffect : o.effect with
  | true =>
    refine ⟨fun h => ?_,fun h => by cases h⟩
    have hzero := h 0
    rw [if_pos rfl, Function.update_self, init_used] at hzero
    exact absurd (hzero hlocal) (by simp)
  | false => exact ⟨fun _ => rfl,fun _ i hi => absurd rfl hi⟩

/-- In a driver that has started, index 0 is programmed and the first to be allocated. -/
theorem stageGID_started {roceMaxGid : ℕ} (h : (stageGID roceMaxGid o).1 = true) :
    (stageGID roceMaxGid o).2.allocGIDIndex.1 = some 0 ∧ (stageGID roceMaxGid o).2.Programmed 0 := by
  have hkr : o.kr = .success := by
    by_contra hkr
    simp [stageGID, State.setGID, State.cmdSetRoceAddr, hkr] at h
  have heffect : o.effect = true := by simp [Outcome.effect, hkr]
  obtain ⟨n,hn⟩ : ∃ n, tableSize roceMaxGid = n + 1 := by
    unfold tableSize
    split
    · exact ⟨roceMaxGid - 1,by omega⟩
    · exact ⟨127,rfl⟩
  have hlocal : localGid ≠ .zero 16 := by decide
  constructor
  · simp [stageGID, State.setGID, State.cmdSetRoceAddr, hkr, heffect, State.allocGIDIndex, State.init, hn, List.replicate_succ,
      List.findIdx?_cons]
  · simpa [State.Programmed, stageGID, State.setGID, State.cmdSetRoceAddr, hkr, heffect] using hlocal

/-- Bitmap and device are synchronized throughout a run exactly if the command of `stageGID` has had
no effect and all calls are orderly; they are not in a driver that has started. -/
theorem gid_synchronized_iff (roceMaxGid : ℕ) (o : Outcome) (calls : List Call) :
    ((∀ k, Synchronized ((calls.take k).foldl State.step (stageGID roceMaxGid o).2)) ↔
      o.effect = false ∧ OrderlyRun (stageGID roceMaxGid o).2 calls) ∧
    ((stageGID roceMaxGid o).1 = true → ¬ Synchronized (stageGID roceMaxGid o).2) := by
  constructor
  · constructor
    · intro hall
      have hstart := hall 0
      exact ⟨(stageGID_synchronized_iff roceMaxGid o).1 hstart,(run_synchronized_iff hstart calls).1 hall⟩
    · rintro ⟨heffect,horderly⟩
      exact (run_synchronized_iff ((stageGID_synchronized_iff roceMaxGid o).2 heffect) calls).2 horderly
  · intro h hsync
    obtain ⟨halloc,hprog⟩ := stageGID_started h
    exact (hsync.fresh 0 halloc).2 hprog

/-- The first allocation of all returns the index of the link-local address. -/
theorem gid_synchronized_first : ¬ ∀ (roceMaxGid : ℕ) (o : Outcome) (calls : List Call), (stageGID roceMaxGid o).1 = true →
    ∀ k, Synchronized ((calls.take k).foldl State.step (stageGID roceMaxGid o).2) := by
  intro hall
  have hsync := hall 4 ⟨.success,true⟩ [] (by decide) 0
  exact absurd ((stageGID_synchronized_iff 4 ⟨.success,true⟩).1 hsync) (by decide)

end AppleMCX.Gid
