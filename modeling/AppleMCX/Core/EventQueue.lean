import AppleMCX.Interaction.LapRing
import AppleMCX.Interaction.Transition

/-! # One event queue

`handleAsyncEqe` and `handleCompEqe`, next to a device that writes events into the ring. The
two walk the ring in the same way and differ in the type that they dispatch an event under.
How the notifiers of a type are kept is left open: an event has any number of targets.
-/
namespace AppleMCX.EventQueue
open Interaction

def completion : BitVec 8 := 0x00
def deviceFatal : BitVec 8 := 0x08

/-- `MlxEqe`; the payload is one word. -/
structure Eqe where
  type : BitVec 8
  subType : BitVec 8
  data : BitVec 224
  signature : BitVec 8
  owner : BitVec 8
  deriving DecidableEq, Repr

inductive Kind
  | async | comp
  deriving DecidableEq, Repr

/-- What `createEq` leaves fixed; the UAR was mapped before. -/
structure Config where
  kind : Kind
  logSize : ℕ
  eqNumber : BitVec 32
  logSize_lt : logSize < 32

def Config.size (c : Config) : ℕ := 2 ^ c.logSize

/-- Where a handler stands in round `i` of its loop: the name is that of its next step. -/
inductive Pc
  | idle
  | scan (i : ℕ)
  | dispatch (i : ℕ)
  /-- `left` of the snapshotted targets are still to be called. -/
  | callbacks (i left : ℕ) (type : BitVec 8)
  | advance (i : ℕ)
  | doorbell (i : ℕ)
  | arm
  deriving DecidableEq, Repr

/-- A call of `handleEvent` and the event number it was made for. -/
structure Call where
  number : ℕ
  type : BitVec 8
  eqe : Eqe
  deriving DecidableEq, Repr

structure State where
  ringBuf : ℕ → Eqe
  consIndex : BitVec 32
  pc : Pc
  /-- The doorbell register last written, and whether it was the arming one. -/
  doorbell : Option (BitVec 32 × Bool)
  dmaQuarantine : Bool
  dispatched : List Eqe
  calls : List Call
  /-- The events that the device has written. -/
  produced : List Eqe
  /-- The consumer index, and its value at the last doorbell, without wraparound. -/
  consumed : ℕ
  told : ℕ

/-- What `init_eq_buf` leaves in every slot after `allocEqBuf` cleared the ring. -/
def initEqe : Eqe := ⟨0,0,0,0,1⟩

def initial : State where
  ringBuf := fun _ => initEqe
  consIndex := 0
  pc := .idle
  doorbell := none
  dmaQuarantine := false
  dispatched := []
  calls := []
  produced := []
  consumed := 0
  told := 0

variable (c : Config)

/-- The type that the notifiers are looked up by. -/
def Config.dispatchType (eqe : Eqe) : BitVec 8 :=
  match c.kind with
  | .async => eqe.type
  | .comp => completion

namespace State

def eqe (s : State) : Eqe := s.ringBuf (s.consIndex &&& BitVec.ofNat 32 (c.size - 1)).toNat

def isNewEqe (s : State) : Bool :=
  let owner : BitVec 32 := (s.eqe c).owner.setWidth 32 &&& 1
  let expected := s.consIndex >>> c.logSize &&& 1
  owner ^^^ expected = 0

def updateCi (arm : Bool) (s : State) : State :=
  { s with
    doorbell := some (s.consIndex &&& 0xffffff ||| c.eqNumber <<< 24,arm)
    told := s.consumed }

/-- `DEVICE_FATAL` quarantines the device before it is dispatched, on an asynchronous queue. -/
def quarantines (s : State) : Bool := c.kind = .async ∧ (s.eqe c).type = deviceFatal

/-- The next step of the handler; `targets` is the number of targets that a snapshot takes. -/
def handle (targets : ℕ) (s : State) : State :=
  match s.pc with
  | .idle => { s with pc := .scan 0 }
  | .scan i => { s with pc := if i < c.size ∧ s.isNewEqe c then .dispatch i else .arm }
  | .dispatch i => { s with
      dmaQuarantine := s.dmaQuarantine || s.quarantines c
      dispatched := s.dispatched ++ [s.eqe c]
      pc := .callbacks i targets (c.dispatchType (s.eqe c)) }
  | .callbacks i 0 _ => { s with pc := .advance i }
  | .callbacks i (left + 1) type => { s with
      calls := s.calls ++ [⟨s.consumed,type,s.eqe c⟩]
      pc := .callbacks i left type }
  | .advance i => { s with
      consIndex := s.consIndex + 1
      consumed := s.consumed + 1
      pc := .doorbell i }
  | .doorbell i =>
    if s.consIndex &&& 63 = 0 then { s.updateCi c false with pc := .scan (i + 1) }
    else { s with pc := .scan (i + 1) }
  | .arm => { s.updateCi c true with pc := .idle }

/-- The device writes its next event, at most one ring ahead of the index it was told. -/
def write (eqe : Eqe) (s : State) : Option State :=
  if s.produced.length < s.told + c.size ∧ eqe.owner.getLsbD 0 = s.produced.length.testBit c.logSize then
    some { s with
      ringBuf := Function.update s.ringBuf (s.produced.length % c.size) eqe
      produced := s.produced ++ [eqe] }
  else none

end State

inductive Action
  | handle (targets : ℕ)
  | write (eqe : Eqe)
  deriving DecidableEq, Repr

def step (s : State) : Action → Option State
  | .handle targets => some (s.handle c targets)
  | .write eqe => s.write c eqe

/-! ## Delivery -/

/-- The event at the consumer index was found to be new. -/
def Pc.found : Pc → Bool
  | .dispatch _ | .callbacks _ _ _ | .advance _ => true
  | _ => false

/-- The event at the consumer index was dispatched. -/
def Pc.dispatched : Pc → ℕ
  | .callbacks _ _ _ | .advance _ => 1
  | _ => 0

/-- Event number `p` as it stands in the ring. -/
def Entry (logSize : ℕ) (produced : List Eqe) (p : ℕ) (eqe : Eqe) : Prop :=
  produced[p]? = some eqe ∧ eqe.owner.getLsbD 0 = p.testBit logSize

/-- The index last told is in the same block of 64 as the events handled with. -/
def Told (told consumed : ℕ) : Pc → Prop
  | .idle => told = consumed
  | .doorbell _ => told < consumed ∧ told / 64 = (consumed - 1) / 64
  | _ => told ≤ consumed ∧ told / 64 = consumed / 64

structure Inv (s : State) : Prop where
  consIndex : s.consIndex = BitVec.ofNat 32 s.consumed
  consumed : s.consumed ≤ s.produced.length
  found : s.pc.found = true → s.consumed < s.produced.length
  room : s.produced.length ≤ s.told + c.size
  told : Told s.told s.consumed s.pc
  doorbell : ∀ w arm, s.doorbell = some (w,arm) → w.setWidth 24 = BitVec.ofNat 24 s.told
  ring : RingWritten c.size (Entry c.logSize s.produced) (· = initEqe) s.ringBuf s.produced.length
  dispatched : s.dispatched = s.produced.take (s.consumed + s.pc.dispatched)
  calls : ∀ call ∈ s.calls, s.produced[call.number]? = some call.eqe ∧ call.type = c.dispatchType call.eqe
  type : ∀ i left type, s.pc = .callbacks i left type → type = c.dispatchType (s.eqe c)

variable {c} {s t : State}

theorem Told.le {told consumed : ℕ} {pc : Pc} (h : Told told consumed pc) : told ≤ consumed := by
  cases pc with
  | idle => exact le_of_eq h
  | doorbell i => exact h.1.le
  | _ => exact h.1

theorem Told.near {told consumed : ℕ} {pc : Pc} (h : Told told consumed pc) : consumed ≤ told + 64 := by
  cases pc <;> simp only [Told] at h <;> omega

theorem inv_initial : Inv c initial where
  consIndex := rfl
  consumed := le_rfl
  found := fun h => by cases h
  room := Nat.zero_le _
  told := rfl
  doorbell := fun _ _ h => by cases h
  ring := ringWritten_zero (fun _ _ => rfl)
  dispatched := rfl
  calls := fun _ h => by cases h
  type := fun _ _ _ h => by cases h

theorem eqe_eq (h : Inv c s) : s.eqe c = s.ringBuf (s.consumed % c.size) := by
  unfold State.eqe Config.size
  rw [h.consIndex, counter_mask c.logSize_lt.le]

theorem lap (h : Inv c s) : s.produced.length ≤ s.consumed + c.size := by
  have hroom := h.room
  have hle := h.told.le
  omega

/-- The events that were written and not consumed still stand in the ring. -/
theorem eqe_produced (h : Inv c s) (hlt : s.consumed < s.produced.length) :
    s.produced[s.consumed]? = some (s.eqe c) := by
  rw [eqe_eq h]
  exact (h.ring.written s.consumed hlt (lap h)).1

theorem isNewEqe_iff (s : State) : s.isNewEqe c = true ↔
    (s.eqe c).owner.getLsbD 0 = s.consIndex.getLsbD c.logSize := by
  have howner := shift_and_one (n := 0) ((s.eqe c).owner.setWidth 32) (by omega)
  have hexpected := shift_and_one s.consIndex c.logSize_lt
  have hinj : ∀ a b : Bool, a.toNat = b.toNat ↔ a = b := by decide
  rw [BitVec.ushiftRight_zero, BitVec.getLsbD_setWidth, decide_eq_true (by omega), Bool.true_and] at howner
  have hxor : s.isNewEqe c = true ↔ (s.eqe c).owner.setWidth 32 &&& 1 = s.consIndex >>> c.logSize &&& 1 := by
    simp only [State.isNewEqe, decide_eq_true_eq]
    exact BitVec.xor_eq_zero_iff
  rw [hxor, ← BitVec.toNat_inj, howner, hexpected, hinj]

/-- The handler stops exactly where the device has written nothing yet. -/
theorem isNewEqe_produced (h : Inv c s) : s.isNewEqe c = true ↔ s.consumed < s.produced.length := by
  rw [isNewEqe_iff, eqe_eq h, h.consIndex, BitVec.getLsbD_ofNat, decide_eq_true c.logSize_lt, Bool.true_and]
  refine h.ring.current_iff (C := fun p eqe => eqe.owner.getLsbD 0 = p.testBit c.logSize) (fun p q eqe he => ?_)
    (fun p eqe hp he => ?_) h.consumed (lap h)
  · rw [he.2]
  · rw [he, Nat.testBit_lt_two_pow hp]
    decide

/-- Only the program counter moves, to a place with the same duties. -/
theorem Inv.move (h : Inv c s) {pc : Pc} (hfound : pc.found = true → s.consumed < s.produced.length)
    (htold : Told s.told s.consumed pc) (hdisp : pc.dispatched = s.pc.dispatched)
    (htype : ∀ i left type, pc = .callbacks i left type → type = c.dispatchType (s.eqe c)) :
    Inv c { s with pc := pc } :=
  { h with
    found := hfound
    told := htold
    dispatched := hdisp ▸ h.dispatched
    type := htype }

/-- The doorbell word tells the low bits of the consumer index. -/
theorem updateCi_word (n : ℕ) (eqNumber : BitVec 32) :
    (BitVec.ofNat 32 n &&& 0xffffff ||| eqNumber <<< 24).setWidth 24 = BitVec.ofNat 24 n := by
  apply BitVec.eq_of_getLsbD_eq
  intro i hi
  have hones : (16777215#24)[i] = true := by
    rw [show (16777215#24) = BitVec.allOnes 24 from rfl, BitVec.getElem_allOnes]
  simp [hi, hones]

theorem updateCi_inv (h : Inv c s) (armed : Bool) {pc : Pc} (hpc : pc.dispatched = s.pc.dispatched) (hfound : pc.found = false)
    (htold : Told s.consumed s.consumed pc) (htype : ∀ i left type, pc ≠ .callbacks i left type) :
    Inv c { s.updateCi c armed with pc := pc } where
  consIndex := h.consIndex
  consumed := h.consumed
  found := fun he => by rw [hfound] at he; cases he
  room := by
    have hlap := lap h
    exact hlap
  told := htold
  doorbell := by
    intro w arm he
    obtain ⟨rfl,-⟩ := Prod.mk.inj (Option.some.inj he)
    rw [h.consIndex]
    exact updateCi_word s.consumed c.eqNumber
  ring := h.ring
  dispatched := hpc ▸ h.dispatched
  calls := h.calls
  type := fun i left type he => absurd he (htype i left type)

theorem take_succ_of_getElem? {l : List Eqe} {n : ℕ} {a : Eqe} (h : l[n]? = some a) :
    l.take (n + 1) = l.take n ++ [a] := by
  rw [List.take_add_one, h, Option.toList_some]

theorem dispatch_inv (h : Inv c s) {i : ℕ} (hpc : s.pc = .dispatch i) (targets : ℕ) : Inv c (s.handle c targets) := by
  have htold := h.told
  have hdisp := h.dispatched
  have hlt := h.found (by rw [hpc]; rfl)
  rw [hpc] at htold hdisp
  simp only [State.handle, hpc]
  exact { h with
    found := fun _ => hlt
    told := htold
    dispatched := by
      dsimp only [Pc.dispatched] at hdisp ⊢
      rw [take_succ_of_getElem? (eqe_produced h hlt), hdisp, Nat.add_zero]
    type := fun _ _ _ he => by cases he; rfl }

theorem callback_inv (h : Inv c s) {i left : ℕ} {type : BitVec 8} (hpc : s.pc = .callbacks i (left + 1) type) (targets : ℕ) :
    Inv c (s.handle c targets) := by
  have htold := h.told
  have hdisp := h.dispatched
  have hlt := h.found (by rw [hpc]; rfl)
  have htype := h.type i (left + 1) type hpc
  have hcall := eqe_produced h hlt
  rw [hpc] at htold hdisp
  simp only [State.handle, hpc]
  exact { h with
    found := fun _ => hlt
    told := htold
    dispatched := hdisp
    calls := by
      intro call hmem
      rcases List.mem_append.mp hmem with hmem | hmem
      · exact h.calls call hmem
      · rw [List.mem_singleton.mp hmem]
        exact ⟨hcall,htype⟩
    type := fun _ _ _ he => by cases he; exact htype }

theorem advance_inv (h : Inv c s) {i : ℕ} (hpc : s.pc = .advance i) (targets : ℕ) : Inv c (s.handle c targets) := by
  have htold := h.told
  have hdisp := h.dispatched
  have hlt := h.found (by rw [hpc]; rfl)
  rw [hpc] at htold hdisp
  simp only [State.handle, hpc]
  exact { h with
    consIndex := by
      dsimp only
      rw [h.consIndex, counter_succ]
    consumed := hlt
    found := fun he => by cases he
    told := ⟨Nat.lt_succ_of_le htold.1,htold.2⟩
    dispatched := hdisp
    type := fun _ _ _ he => by cases he }

/-- The doorbell is due after each block of 64 events. -/
theorem consIndex_mask (h : Inv c s) : s.consIndex &&& 63 = 0 ↔ s.consumed % 64 = 0 := by
  have hslot := counter_mask (w := 32) (k := 6) (by omega) s.consumed
  rw [← h.consIndex] at hslot
  rw [← BitVec.toNat_inj, show (63 : BitVec 32) = BitVec.ofNat 32 (2 ^ 6 - 1) from rfl, hslot]
  exact Iff.rfl

theorem handle_inv (h : Inv c s) (targets : ℕ) : Inv c (s.handle c targets) := by
  have htold := h.told
  cases hpc : s.pc with
  | idle =>
    rw [hpc] at htold
    simp only [State.handle, hpc]
    apply h.move
    · intro he
      cases he
    · exact ⟨le_of_eq htold,by rw [show s.told = s.consumed from htold]⟩
    · rw [hpc]
      rfl
    · intro i left type he
      cases he
  | scan i =>
    rw [hpc] at htold
    simp only [State.handle, hpc]
    split
    · rename_i hnew
      apply h.move
      · exact fun _ => (isNewEqe_produced h).mp hnew.2
      · exact htold
      · rw [hpc]
        rfl
      · intro i left type he
        cases he
    · apply h.move
      · intro he
        cases he
      · exact htold
      · rw [hpc]
        rfl
      · intro i left type he
        cases he
  | dispatch i => exact dispatch_inv h hpc targets
  | callbacks i left type =>
    cases left with
    | zero =>
      have hlt := h.found (by rw [hpc]; rfl)
      rw [hpc] at htold
      simp only [State.handle, hpc]
      apply h.move
      · exact fun _ => hlt
      · exact htold
      · rw [hpc]
        rfl
      · intro i left type he
        cases he
    | succ left => exact callback_inv h hpc targets
  | advance i => exact advance_inv h hpc targets
  | doorbell i =>
    rw [hpc] at htold
    simp only [State.handle, hpc]
    split
    · apply updateCi_inv h
      · rw [hpc]
        rfl
      · rfl
      · exact ⟨le_rfl,rfl⟩
      · intro i left type he
        cases he
    · rename_i hmask
      have hblock : s.consumed % 64 ≠ 0 := fun hz => hmask ((consIndex_mask h).mpr hz)
      apply h.move
      · intro he
        cases he
      · simp only [Told] at htold ⊢
        omega
      · rw [hpc]
        rfl
      · intro i left type he
        cases he
  | arm =>
    simp only [State.handle, hpc]
    apply updateCi_inv h
    · rw [hpc]
      rfl
    · rfl
    · rfl
    · intro i left type he
      cases he

theorem write_inv (h : Inv c s) {eqe : Eqe} (hs : s.write c eqe = some t) : Inv c t := by
  unfold State.write at hs
  split at hs
  · rename_i hc
    cases hs
    have hmono : ∀ (p : ℕ) (a : Eqe), s.produced[p]? = some a → (s.produced ++ [eqe])[p]? = some a := by
      intro p a ha
      rw [List.getElem?_append_left (List.getElem?_eq_some_iff.mp ha).1]
      exact ha
    have hlen : (s.produced ++ [eqe]).length = s.produced.length + 1 := List.length_append
    have hcons := h.consumed
    have hsame : s.pc.found = true →
        (Function.update s.ringBuf (s.produced.length % c.size) eqe) (s.consumed % c.size) = s.ringBuf (s.consumed % c.size) := by
      intro hfound
      have hlt := h.found hfound
      have hle := h.told.le
      exact Function.update_of_ne (slot_ne hlt (by omega)).symm _ _
    exact { h with
      consumed := by
        dsimp only
        omega
      found := fun he => by
        have hlt := h.found he
        dsimp only
        omega
      room := by
        dsimp only
        omega
      ring := by
        dsimp only
        rw [hlen]
        refine (h.ring.imp (fun p a _ ha => ⟨hmono p a ha.1,ha.2⟩)).write ⟨?_,hc.2⟩
        rw [List.getElem?_append_right le_rfl, Nat.sub_self]
        rfl
      dispatched := by
        have hbound : s.consumed + s.pc.dispatched ≤ s.produced.length := by
          cases hpc : s.pc <;> first | exact hcons | exact h.found (by rw [hpc]; rfl)
        dsimp only
        rw [List.take_append_of_le_length hbound]
        exact h.dispatched
      calls := fun call hcall => ⟨hmono _ _ (h.calls call hcall).1,(h.calls call hcall).2⟩
      type := by
        intro i left type he
        dsimp only at he
        have hring := hsame (by rw [he]; rfl)
        have htype := h.type i left type he
        rw [eqe_eq h] at htype
        unfold State.eqe Config.size
        dsimp only
        rw [h.consIndex, counter_mask c.logSize_lt.le, ← Config.size, hring]
        exact htype }
  · cases hs

theorem step_inv {a : Action} (h : Inv c s) (hs : step c s a = some t) : Inv c t := by
  cases a with
  | handle targets =>
    cases hs
    exact handle_inv h targets
  | write eqe => exact write_inv h hs

theorem reach_inv (hr : Reach (step c) Free initial s) : Inv c s :=
  hr.invariant inv_initial (fun _ _ _ h _ hs => step_inv h hs)

/-! ## Draining -/

/-- The handler alone comes to rest with everything dispatched. -/
def Drains (c : Config) (targets : ℕ) (s : State) : Prop :=
  ∃ n, ((State.handle c targets)^[n] s).pc = .idle ∧ ((State.handle c targets)^[n] s).dispatched = s.produced

variable {targets : ℕ}

theorem handle_produced (s : State) : (s.handle c targets).produced = s.produced := by
  unfold State.handle
  split <;> first | rfl | (split <;> rfl)

theorem Drains.handle (h : Drains c targets (s.handle c targets)) : Drains c targets s := by
  obtain ⟨n,hidle,hall⟩ := h
  rw [handle_produced] at hall
  exact ⟨n + 1,hidle,hall⟩

/-- The end of a call after which nothing is left. -/
theorem drains_arm (h : Inv c s) (hpc : s.pc = .arm) (hall : s.consumed = s.produced.length) : Drains c targets s := by
  have hdisp := h.dispatched
  rw [hpc, hall] at hdisp
  have hs : s.handle c targets = { s.updateCi c true with pc := .idle } := by simp only [State.handle, hpc]
  refine ⟨1,?_,?_⟩
  · rw [Function.iterate_one, hs]
  · rw [Function.iterate_one, hs]
    exact hdisp.trans (List.take_length)

/-- An event that was found is handled to the end. -/
theorem drains_found (h : Inv c s) (hfound : s.pc.found = true)
    (hnext : ∀ t i, Inv c t → t.pc = .scan i → t.consumed = s.consumed + 1 →
    t.produced = s.produced → Drains c targets t) :
    Drains c targets s := by
  have hadvance : ∀ t i, Inv c t → t.pc = .advance i → t.consumed = s.consumed →
    t.produced = s.produced → Drains c targets t := by
    intro t i ht hpc hcons hprod
    apply Drains.handle
    apply Drains.handle
    have hu := handle_inv (handle_inv ht targets) targets
    have hs : t.handle c targets = { t with consIndex := t.consIndex + 1, consumed := t.consumed + 1, pc := .doorbell i } := by
      simp only [State.handle, hpc]
    apply hnext _ (i + 1) hu
    · rw [hs]
      simp only [State.handle]
      split <;> rfl
    · rw [hs, ← hcons]
      simp only [State.handle]
      split <;> rfl
    · rw [handle_produced, handle_produced, hprod]
  have hcallbacks : ∀ left t i type, Inv c t → t.pc = .callbacks i left type → t.consumed = s.consumed →
      t.produced = s.produced → Drains c targets t := by
    intro left
    induction left with
    | zero =>
      intro t i type ht hpc hcons hprod
      have hs : t.handle c targets = { t with pc := .advance i } := by simp only [State.handle, hpc]
      apply Drains.handle
      apply hadvance _ i (handle_inv ht targets)
      · rw [hs]
      · rw [hs, ← hcons]
      · rw [handle_produced, hprod]
    | succ left ih =>
      intro t i type ht hpc hcons hprod
      have hs : t.handle c targets =
          { t with calls := t.calls ++ [⟨t.consumed,type,t.eqe c⟩], pc := .callbacks i left type } := by
        simp only [State.handle, hpc]
      apply Drains.handle
      apply ih _ i type (handle_inv ht targets)
      · rw [hs]
      · rw [hs, ← hcons]
      · rw [handle_produced, hprod]
  cases hpc : s.pc with
  | dispatch i =>
    apply Drains.handle
    apply hcallbacks targets _ i (c.dispatchType (s.eqe c)) (handle_inv h targets)
    · simp only [State.handle, hpc]
    · simp only [State.handle, hpc]
    · exact handle_produced s
  | callbacks i left type => exact hcallbacks left s i type h hpc rfl rfl
  | advance i => exact hadvance s i h hpc rfl rfl
  | _ => rw [hpc] at hfound; cases hfound

theorem scan_handle {i : ℕ} (hpc : s.pc = .scan i) (hnew : ¬ (i < c.size ∧ s.isNewEqe c = true)) :
    s.handle c targets = { s with pc := .arm } := by
  simp only [State.handle, hpc, if_neg hnew]

/-- The events that are left decrease from one scan to the next; a call that was cut off by its bound is followed by another. -/
theorem drains_scan (left : ℕ) : ∀ s, Inv c s → ∀ i, s.pc = .scan i → s.produced.length ≤ s.consumed + left →
    Drains c targets s := by
  induction left with
  | zero =>
    intro s h i hpc hleft
    have hall : s.consumed = s.produced.length := le_antisymm h.consumed hleft
    have hnew : ¬ (i < c.size ∧ s.isNewEqe c = true) := by
      rintro ⟨-,hnew⟩
      exact absurd ((isNewEqe_produced h).mp hnew) (by omega)
    apply Drains.handle
    have ht := handle_inv h targets
    rw [scan_handle hpc hnew] at ht ⊢
    exact drains_arm ht rfl hall
  | succ left ih =>
    have hwithin : ∀ s, Inv c s → ∀ i, s.pc = .scan i → i < c.size → s.consumed < s.produced.length →
        s.produced.length ≤ s.consumed + (left + 1) → Drains c targets s := by
      intro s h i hpc hi hlt hleft
      have hs : s.handle c targets = { s with pc := .dispatch i } := by
        simp only [State.handle, hpc, if_pos (And.intro hi ((isNewEqe_produced h).mpr hlt))]
      apply Drains.handle
      have ht := handle_inv h targets
      rw [hs] at ht ⊢
      apply drains_found ht rfl
      intro u j hu hj hcons hprod
      apply ih u hu j hj
      rw [hcons, hprod]
      dsimp only
      omega
    intro s h i hpc hleft
    by_cases hlt : s.consumed < s.produced.length
    · by_cases hi : i < c.size
      · exact hwithin s h i hpc hi hlt hleft
      · have hs : s.handle c targets = { s with pc := .arm } := scan_handle hpc (fun hnew => hi hnew.1)
        apply Drains.handle
        apply Drains.handle
        apply Drains.handle
        have hu := handle_inv (handle_inv (handle_inv h targets) targets) targets
        rw [hs] at hu ⊢
        exact hwithin _ hu 0 rfl (Nat.two_pow_pos c.logSize) hlt hleft
    · exact ih s h i hpc (by omega)

theorem drains (h : Inv c s) : Drains c targets s := by
  have hscan : ∀ t i, Inv c t → t.pc = .scan i → Drains c targets t :=
    fun t i ht hpc => drains_scan t.produced.length t ht i hpc (by omega)
  cases hpc : s.pc with
  | idle =>
    apply Drains.handle
    apply hscan _ 0 (handle_inv h targets)
    simp only [State.handle, hpc]
  | scan i => exact hscan s i h hpc
  | doorbell i =>
    apply Drains.handle
    apply hscan _ (i + 1) (handle_inv h targets)
    simp only [State.handle, hpc]
    split <;> rfl
  | arm =>
    apply Drains.handle
    apply Drains.handle
    apply hscan _ 0 (handle_inv (handle_inv h targets) targets)
    have hs : s.handle c targets = { s.updateCi c true with pc := .idle } := by simp only [State.handle, hpc]
    rw [hs]
    rfl
  | _ => exact drains_found h (by rw [hpc]; rfl) (fun t i ht hi _ _ => hscan t i ht hi)

/-! ## Runs -/

/-- The events dispatched are those produced, in their order; the handler stops only when none is left,
no event changes under its callbacks, and the doorbell is at most 64 events behind. -/
structure Delivered (c : Config) (s : State) : Prop where
  inOrder : s.dispatched <+: s.produced
  findsNew : ∀ i, s.pc = .scan i → (s.isNewEqe c = true ↔ s.dispatched.length < s.produced.length)
  unchanged : ∀ i left type, s.pc = .callbacks i left type → s.dispatched.getLast? = some (s.eqe c)
  calls : ∀ call ∈ s.calls, s.produced[call.number]? = some call.eqe ∧ call.type = c.dispatchType call.eqe
  told : s.told ≤ s.consumed ∧ s.consumed ≤ s.told + 64
  doorbell : ∀ w arm, s.doorbell = some (w,arm) → (s.consIndex.setWidth 24 - w.setWidth 24).toNat ≤ 64

theorem Inv.delivered (h : Inv c s) : Delivered c s where
  inOrder := by
    rw [h.dispatched]
    exact List.take_prefix _ _
  findsNew := by
    intro i hpc
    rw [isNewEqe_produced h, h.dispatched, hpc, List.length_take]
    have hcons := h.consumed
    simp only [Pc.dispatched]
    omega
  unchanged := by
    intro i left type hpc
    have hlt := h.found (by rw [hpc]; rfl)
    rw [h.dispatched, hpc]
    dsimp only [Pc.dispatched]
    rw [take_succ_of_getElem? (eqe_produced h hlt), List.getLast?_concat]
  calls := h.calls
  told := ⟨h.told.le,h.told.near⟩
  doorbell := by
    intro w arm hw
    have hle := h.told.le
    have hnear := h.told.near
    rw [h.doorbell w arm hw, h.consIndex, BitVec.setWidth_ofNat_of_le (by omega), counter_sub hle (by omega)]
    omega

theorem eventQueue_run (targets : ℕ) (hr : Reach (step c) Free initial s) : Delivered c s ∧ Drains c targets s := by
  have h := reach_inv hr
  exact ⟨h.delivered,drains h⟩

def twoEntries : Config := ⟨.async,1,3,by decide⟩

/-- A fatal event reaches the first of its two targets. -/
def fatalEvent : List Action :=
  [.write ⟨deviceFatal,0,0,0,0⟩,.handle 2,.handle 2,.handle 2,.handle 2]

theorem eventQueue_run_fatalEvent : ∃ s, s.calls.length = 1 ∧ s.dmaQuarantine = true ∧ Delivered twoEntries s ∧
    Drains twoEntries 2 s := by
  refine ⟨_,?_,?_,eventQueue_run 2 (reach_of_after fatalEvent .start rfl)⟩
  · rfl
  · rfl

end AppleMCX.EventQueue
