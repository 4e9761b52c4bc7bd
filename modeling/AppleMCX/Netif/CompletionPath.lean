import AppleMCX.Interaction.Arming
import AppleMCX.Netif.RxRecycling
import AppleMCX.Netif.TxFrames
import AppleMCX.Usermode.EventDelivery

/-! # From a completion to the poll of its queue

The send and the receive queue of the interface, their completion queues in the device, and the completion event
queue with its interrupt. A completion queue writes an event once for each doorbell of `armCq`, and the event
queue interrupts once for each doorbell of `updateCi` that arms it.
-/
namespace AppleMCX.CompletionPath
open Hw Interaction EventQueue

/-- The objects and mappings of the interface. -/
structure Setup where
  eqNumber : BitVec 32
  tx : TxQueue.Setup
  fTisn : BitVec 32
  fTxCqn : BitVec 24
  fRxCqn : BitVec 24
  distinct : fTxCqn ≠ fRxCqn
  fRxBufDMA : BitVec 64
  mapped : fRxBufDMA ≠ 0
  rx : RxQueue.State
  created : RxQueue.State.createRxResources tx.fLkey fRxBufDMA = some rx

theorem compEqs_logSize : 10 < 32 := by decide

/-- The queue that `createCompEqs` makes for vector 0. -/
def Setup.eq (c : Setup) : Config := ⟨.comp,10,c.eqNumber,compEqs_logSize⟩

structure System where
  eq : EventQueue.State
  /-- The consumer index of the arming doorbell that the device has not answered yet. -/
  eqArm : Option (BitVec 24)
  /-- The interrupt of the completion vector is pending. -/
  interrupt : Bool
  /-- The callbacks that come after that of the interface in the current dispatch, until it is made. -/
  due : Option ℕ
  fNotifierRegistered : Bool
  tx : TxQueue.State
  rx : RxQueue.Run
  txUnit : ArmUnit 2 24
  rxUnit : ArmUnit 2 24

variable (c : Setup)

/-- After `setupInterrupts`, `createTxResources` and `createRxResources`. -/
def initial : System where
  eq := EventQueue.initial
  eqArm := some 0
  interrupt := false
  due := none
  fNotifierRegistered := false
  tx := TxQueue.initial c.tx.fSqn (c.fTxCqn.setWidth 32) c.fTisn c.tx.fLkey c.tx.fTxBufDMA c.tx.fTxMinInlineMode
  rx := .start c.rx
  txUnit := .idle
  rxUnit := .idle

/-- What the device does with the word of `armCq`. -/
def doorbell (word : BitVec 32) (u : ArmUnit 2 24) : ArmUnit 2 24 :=
  u.request (word.extractLsb' 28 2) (word.setWidth 24)

/-- The number of the completion queue, as `handleEvent` reads it. -/
def cqnOf (eqe : Eqe) : BitVec 32 := RoCE.compCqn eqe &&& 0xffffff

namespace System

/-- `enable` registers the interface and arms both queues. -/
def enable (s : System) : System :=
  { s with
    fNotifierRegistered := true
    txUnit := doorbell (armWord s.tx.fTxArmSn s.tx.fTxCqCc) s.txUnit
    rxUnit := doorbell (armWord s.rx.queue.fRxArmSn s.rx.queue.fRxCqCc) s.rxUnit }

/-- `handleEvent` for an event other than one of the port, up to the beginning of the poll. -/
def handleEvent (type : BitVec 8) (eqe : Eqe) (s : System) : System :=
  if type ≠ completion then s
  else if cqnOf eqe = c.fTxCqn.setWidth 32 then { s with tx := (s.tx.step .poll).getD s.tx }
  else if cqnOf eqe = c.fRxCqn.setWidth 32 then { s with rx := s.rx.poll false }
  else s

/-- The callback of the interface has not returned. -/
def polling (s : System) : Prop := s.tx.polling = true ∨ s.rx.queue.pc ≠ .idle

instance (s : System) : Decidable s.polling := inferInstanceAs (Decidable (_ ∨ _))

/-- A step of `handleCompEqe`, which begins with the interrupt. Among the notifiers for completions, `before` ones are
called before the interface and `after` ones after it. -/
def handle (before after : ℕ) (s : System) : Option System :=
  if s.polling then none
  else match s.eq.pc with
  | .idle => if s.interrupt then some { s with eq := s.eq.handle c.eq 0, interrupt := false } else none
  | .dispatch _ => some { s with
      eq := s.eq.handle c.eq (before + after + s.fNotifierRegistered.toNat)
      due := if s.fNotifierRegistered then some after else none }
  | .callbacks _ (left + 1) type =>
    if s.due = some left then
      some { s.handleEvent c type (s.eq.eqe c.eq) with eq := s.eq.handle c.eq 0, due := none }
    else some { s with eq := s.eq.handle c.eq 0 }
  | .arm => some { s with
      eq := s.eq.handle c.eq 0
      eqArm := (s.eq.handle c.eq 0).doorbell.map (fun d => d.1.setWidth 24) }
  | _ => some { s with eq := s.eq.handle c.eq 0 }

/-- A round of `pollTxCq`; the last one rings the doorbell. -/
def pollTx (s : System) : Option System :=
  if s.tx.polling then
    some { s with
      tx := s.tx.pollCqe
      txUnit := if s.tx.pollCqe.polling then s.txUnit else doorbell s.tx.pollCqe.cqArm s.txUnit }
  else none

/-- A step of `pollRxCq`; the last one rings the doorbell. -/
def pollRx (mbuf : Bool) (s : System) : Option System :=
  if s.rx.queue.pc ≠ .idle then
    some { s with
      rx := s.rx.poll mbuf
      rxUnit := if (s.rx.poll mbuf).queue.pc ≠ .idle then s.rxUnit else doorbell (s.rx.poll mbuf).queue.cqArm s.rxUnit }
  else none

/-- The device raises the interrupt where there are events that the handler has not seen. -/
def raise (s : System) : Option System :=
  match s.eqArm with
  | some ci => if ci = BitVec.ofNat 24 s.eq.produced.length then none else some { s with eqArm := none, interrupt := true }
  | none => none

/-- The device writes the event of a completion queue that is armed and has new entries. -/
def notifyTx (eqe : Eqe) (s : System) : Option System :=
  if eqe.type = completion ∧ cqnOf eqe = c.fTxCqn.setWidth 32 then
    (s.txUnit.answer s.tx.produced).bind (fun u => (s.eq.write c.eq eqe).map (fun eq => { s with eq, txUnit := u }))
  else none

def notifyRx (eqe : Eqe) (s : System) : Option System :=
  if eqe.type = completion ∧ cqnOf eqe = c.fRxCqn.setWidth 32 then
    (s.rxUnit.answer s.rx.queue.produced).bind (fun u => (s.eq.write c.eq eqe).map (fun eq => { s with eq, rxUnit := u }))
  else none

/-- The device writes the event of another completion queue. -/
def write (eqe : Eqe) (s : System) : Option System :=
  if cqnOf eqe ≠ c.fTxCqn.setWidth 32 ∧ cqnOf eqe ≠ c.fRxCqn.setWidth 32 then
    (s.eq.write c.eq eqe).map (fun eq => { s with eq })
  else none

end System

inductive Action
  | enable
  | handle (before after : ℕ)
  | pollTx
  | pollRx (mbuf : Bool)
  | raise
  | notifyTx (eqe : Eqe)
  | notifyRx (eqe : Eqe)
  | write (eqe : Eqe)
  | tx (a : TxQueue.Action)
  | rx (e : RxQueue.Event)
  deriving DecidableEq, Repr

/-- The part of the interrupt, from the device to the polls. -/
def Action.path : Action → Bool
  | .handle _ _ | .pollTx | .pollRx _ | .raise | .notifyTx _ | .notifyRx _ => true
  | _ => false

def sends : TxQueue.Action → Bool
  | .output _ _ | .locked _ | .complete _ => true
  | _ => false

def receives : RxQueue.Event → Bool
  | .poll _ => false
  | _ => true

def step (s : System) : Action → Option System
  | .enable => if s.fNotifierRegistered then none else some s.enable
  | .handle before after => s.handle c before after
  | .pollTx => s.pollTx
  | .pollRx mbuf => s.pollRx mbuf
  | .raise => s.raise
  | .notifyTx eqe => s.notifyTx c eqe
  | .notifyRx eqe => s.notifyRx c eqe
  | .write eqe => s.write c eqe
  | .tx a => if s.fNotifierRegistered ∧ sends a then (s.tx.step a).map (fun tx => { s with tx }) else none
  | .rx e => if s.fNotifierRegistered ∧ receives e then (s.rx.step e).map (fun rx => { s with rx }) else none

/-! ## The doorbells -/

/-- The device reads the number of the request and the consumer index from the word of `armCq`. -/
theorem doorbell_armWord (armSn consumer : BitVec 32) (u : ArmUnit 2 24) :
    doorbell (armWord armSn consumer) u = u.request (armSn.setWidth 2) (consumer.setWidth 24) := by
  have hsn : (armWord armSn consumer).extractLsb' 28 2 = armSn.setWidth 2 := by
    apply BitVec.eq_of_getLsbD_eq
    intro i hi
    have hbit : i = 0 ∨ i = 1 := by omega
    rcases hbit with rfl | rfl <;> simp [armWord]
  have hci : (armWord armSn consumer).setWidth 24 = consumer.setWidth 24 := by
    apply BitVec.eq_of_getLsbD_eq
    intro i hi
    have hones : (16777215#24)[i] = true := by
      rw [show (16777215#24) = BitVec.allOnes 24 from rfl, BitVec.getElem_allOnes]
    simp [armWord, hi, hones]
  rw [doorbell, hsn, hci]

theorem setWidth_succ (armSn : BitVec 32) : (armSn + 1).setWidth 2 = armSn.setWidth 2 + 1 := by
  rw [BitVec.setWidth_add _ _ (by decide)]
  rfl

theorem armed {u : ArmUnit 2 24} {armSn : BitVec 32} {k pending : ℕ}
    {n : Notice} (h : Line u (armSn.setWidth 2) k pending true n) :
    Line (doorbell (armWord armSn (BitVec.ofNat 32 k)) u) (armSn.setWidth 2) k pending false .asked := by
  have hci : (BitVec.ofNat 32 k).setWidth 24 = BitVec.ofNat 24 k := BitVec.setWidth_ofNat_of_le (by decide) _
  rw [doorbell_armWord, hci]
  exact h.ask

/-! ## The send queue -/

theorem tx_sends {s t : TxQueue.State} {a : TxQueue.Action} (ha : sends a = true) (h : s.step a = some t) :
    t.fTxArmSn = s.fTxArmSn ∧ t.polling = s.polling ∧ t.consumed = s.consumed ∧
      t.fNotifierRegistered = s.fNotifierRegistered := by
  cases a with
  | output m p =>
    simp only [TxQueue.State.step] at h
    split at h
    · cases h
      unfold TxQueue.State.output
      split_ifs <;> exact ⟨rfl,rfl,rfl,rfl⟩
    · cases h
      unfold TxQueue.State.output
      split_ifs <;> exact ⟨rfl,rfl,rfl,rfl⟩
    · cases h
  | locked m =>
    simp only [TxQueue.State.step] at h
    split at h
    · split at h
      · cases h
      · cases h
        unfold TxQueue.State.locked
        split
        · exact ⟨rfl,rfl,rfl,rfl⟩
        · dsimp only
          split_ifs <;> exact ⟨rfl,rfl,rfl,rfl⟩
    · cases h
  | complete cqe =>
    simp only [TxQueue.State.step, TxQueue.State.complete] at h
    split at h
    · cases h
      exact ⟨rfl,rfl,rfl,rfl⟩
    · cases h
  | _ => cases ha

theorem tx_live {s : TxQueue.State} (h : s.Inv) (hreg : s.fNotifierRegistered = true) : s.Live := by
  refine h.live (Option.isSome_iff_ne_none.mpr (fun hd => ?_))
  rw [(h.dead hd).unregistered] at hreg
  cases hreg

/-- A round of the poll retires an entry, or it is the last one and finds that there is none left. -/
theorem tx_pollCqe {s : TxQueue.State} (h : s.Inv) (hreg : s.fNotifierRegistered = true) :
    s.consumed < s.produced ∧ s.pollCqe.consumed = s.consumed + 1 ∧ s.pollCqe.produced = s.produced ∧
      s.pollCqe.polling = s.polling ∧ s.pollCqe.fTxArmSn = s.fTxArmSn ∧
      s.pollCqe.fNotifierRegistered = s.fNotifierRegistered ∨
    s.consumed = s.produced ∧ s.pollCqe = { s with
      cqDb := s.fTxCqCc.setWidth 24
      cqArm := armWord s.fTxArmSn s.fTxCqCc
      polling := false } := by
  have hl := tx_live h hreg
  have hready := h.ready_iff hl
  unfold TxQueue.State.pollCqe
  split
  · rename_i hfound
    have hlt := hready.mp hfound
    obtain ⟨m,-,hone⟩ := hl.retireOne ⟨le_rfl,lt_of_lt_of_le hlt h.produced_le⟩
    rw [h.target hl hlt, show 2 ^ 16 = 65535 + 1 from rfl, TxQueue.State.retire_target rfl, hone]
    exact Or.inl ⟨hlt,rfl,rfl,rfl,rfl,rfl⟩
  · rename_i hnone
    have hge : ¬ s.consumed < s.produced := fun hlt => hnone (hready.mpr hlt)
    exact Or.inr ⟨Nat.le_antisymm h.consumed_le (Nat.le_of_not_lt hge),rfl⟩

/-! ## The receive queue -/

theorem rx_receives {r r' : RxQueue.Run} {e : RxQueue.Event} (he : receives e = true) (h : r.step e = some r') :
    r'.queue.fRxArmSn = r.queue.fRxArmSn ∧ r'.queue.pc = r.queue.pc ∧ r'.handled = r.handled := by
  cases e with
  | poll mbuf => cases he
  | dma n j b =>
    simp only [RxQueue.Run.step, RxQueue.Run.dma] at h
    split at h
    · cases h
      exact ⟨rfl,rfl,rfl⟩
    · cases h
  | complete cqe =>
    obtain ⟨queue,hqueue,rfl⟩ := Option.map_eq_some_iff.mp h
    obtain ⟨-,rfl⟩ := RxQueue.Run.complete_eq hqueue
    exact ⟨rfl,rfl,rfl⟩
  | enabled up =>
    cases h
    exact ⟨rfl,rfl,rfl⟩

/-- The steps that a poll can still take. -/
def rxRank (r : RxQueue.Run) : ℕ :=
  match r.queue.pc with
  | .idle => 0
  | .scan => 6 * (r.queue.produced - r.handled) + 6
  | .handle => 6 * (r.queue.produced - r.handled) + 5
  | .post _ => 6 * (r.queue.produced - r.handled) + 4
  | .publish _ => 6 * (r.queue.produced - r.handled) + 3
  | .finish _ => 6 * (r.queue.produced - r.handled) + 2

/-- A step of the poll brings it nearer to its end, where all entries are handled and the queue is armed. -/
theorem rx_poll {r : RxQueue.Run} (h : r.Kept) (hpc : r.queue.pc ≠ .idle) (mbuf : Bool) :
    rxRank (r.poll mbuf) < rxRank r ∧ (r.poll mbuf).queue.produced = r.queue.produced ∧
    (r.poll mbuf).queue.fRxArmSn = r.queue.fRxArmSn ∧ ((r.poll mbuf).queue.pc = .idle →
      r.handled = r.queue.produced ∧ (r.poll mbuf).handled = r.handled ∧
      (r.poll mbuf).queue.cqArm = armWord r.queue.fRxArmSn r.queue.fRxCqCc) := by
  have hge := h.counting.handled_le
  cases hqueue : r.queue.pc with
  | idle => exact absurd hqueue hpc
  | scan =>
    have hfinds := h.findsCqe (by rw [hqueue]; rfl)
    cases hfound : r.queue.findsCqe with
    | true =>
      simp only [RxQueue.Run.poll, RxQueue.State.poll, hqueue, hfound, if_true, rxRank]
      exact ⟨Nat.lt_succ_self _,trivial,trivial,fun hidle => (by cases hidle)⟩
    | false =>
      have hall : ¬ r.handled < r.queue.produced := by
        rw [← hfinds, hfound]
        exact Bool.false_ne_true
      simp only [RxQueue.Run.poll, RxQueue.State.poll, hqueue, hfound, Bool.false_eq_true, if_false, rxRank]
      refine ⟨Nat.succ_pos _,rfl,rfl,fun _ => ⟨?_,trivial,rfl⟩⟩
      rw [hqueue] at hge
      exact Nat.le_antisymm hge (Nat.le_of_not_lt hall)
  | handle =>
    simp only [RxQueue.Run.poll, RxQueue.State.poll, hqueue, h.mapped, if_false, reduceCtorEq, rxRank]
    exact ⟨Nat.lt_succ_self _,trivial,trivial,fun hidle => (by cases hidle)⟩
  | post k =>
    simp only [RxQueue.Run.poll, RxQueue.State.poll, hqueue, RxQueue.State.postRxWqe_lt (RxQueue.State.slot_lt r.queue.fRxPc),
      Option.isSome_some, if_true, rxRank]
    exact ⟨Nat.lt_succ_self _,trivial,trivial,fun hidle => (by cases hidle)⟩
  | publish k =>
    simp only [RxQueue.Run.poll, RxQueue.State.poll, hqueue, rxRank]
    exact ⟨Nat.lt_succ_self _,trivial,trivial,fun hidle => (by cases hidle)⟩
  | finish k =>
    rw [hqueue] at hge
    have hlt : r.handled < r.queue.produced := hge
    simp only [RxQueue.Run.poll, RxQueue.State.poll, hqueue, rxRank]
    rw [RxQueue.State.receivePacket_frame]
    refine ⟨?_,rfl,rfl,fun hidle => (by cases hidle)⟩
    dsimp only
    omega

/-! ## Where the notices are -/

/-- The interrupt of the event queue is asked for, or it is pending, or its handler is at work. -/
def Waits (eqArm : Option (BitVec 24)) (interrupt : Bool) (consumed : ℕ) : Pc → Prop
  | .idle => eqArm = some (BitVec.ofNat 24 consumed) ∧ interrupt = false ∨ eqArm = none ∧ interrupt = true
  | _ => eqArm = none ∧ interrupt = false

def eventsOf (cqn : BitVec 24) (events : List Eqe) : ℕ := events.countP (fun eqe => cqnOf eqe = cqn.setWidth 32)

/-- The events that the interface has not been called with. -/
def System.ahead (s : System) : List Eqe := s.eq.produced.drop (EventDelivery.handled s.due s.eq)

structure Inv (s : System) : Prop where
  eq : EventQueue.Inv c.eq s.eq
  due : EventDelivery.Due s.due s.eq.pc
  waits : Waits s.eqArm s.interrupt s.eq.consumed s.eq.pc
  tx : s.tx.Inv
  registered : s.tx.fNotifierRegistered = true
  rx : s.rx.Kept
  early : s.fNotifierRegistered = false → ¬ s.polling
  txLine : ∃ n, Line s.txUnit (s.tx.fTxArmSn.setWidth 2) s.tx.consumed (eventsOf c.fTxCqn s.ahead)
    (s.tx.polling || !s.fNotifierRegistered) n
  rxLine : ∃ n, Line s.rxUnit (s.rx.queue.fRxArmSn.setWidth 2) s.rx.handled (eventsOf c.fRxCqn s.ahead)
    (decide (s.rx.queue.pc ≠ .idle) || !s.fNotifierRegistered) n

variable {c} {s t : System} {eqe : Eqe}

theorem inv_initial : Inv c (initial c) where
  eq := EventQueue.inv_initial
  due := EventDelivery.Due.none _
  waits := Or.inl ⟨rfl,rfl⟩
  tx := TxQueue.State.inv_initial ..
  registered := rfl
  rx := RxQueue.Run.start_kept c.mapped c.created
  early := by
    rintro - (hpoll | hpoll)
    · cases hpoll
    · exact hpoll (RxQueue.State.idle_start c.created)
  txLine := ⟨.held,⟨rfl,fun he => (by cases he)⟩,rfl,iff_of_true rfl rfl⟩
  rxLine := ⟨.held,⟨rfl,fun he => (by cases he)⟩,rfl,iff_of_true (Bool.or_true _) rfl⟩

theorem Waits.of_ne {eqArm : Option (BitVec 24)} {interrupt : Bool} {consumed : ℕ} {pc : Pc} (hpc : pc ≠ .idle) :
    Waits eqArm interrupt consumed pc ↔ eqArm = none ∧ interrupt = false := by
  cases pc with
  | idle => exact absurd rfl hpc
  | _ => exact Iff.rfl

theorem eventsOf_cons (cqn : BitVec 24) (eqe : Eqe) (events : List Eqe) : eventsOf cqn (eqe :: events) =
    eventsOf cqn events + if cqnOf eqe = cqn.setWidth 32 then 1 else 0 := by
  unfold eventsOf
  rw [List.countP_cons]
  simp only [decide_eq_true_eq]

theorem eventsOf_concat (cqn : BitVec 24) (eqe : Eqe) (events : List Eqe) : eventsOf cqn (events ++ [eqe]) =
    eventsOf cqn events + if cqnOf eqe = cqn.setWidth 32 then 1 else 0 := by
  unfold eventsOf
  rw [List.countP_append, List.countP_singleton]
  simp only [decide_eq_true_eq]

/-! ## The event queue -/

/-- The event queue moves on, and no event of the two queues with it. -/
theorem Inv.moved (h : Inv c s) {eq : EventQueue.State} {eqArm : Option (BitVec 24)} {interrupt : Bool} {due : Option ℕ}
    (heq : EventQueue.Inv c.eq eq) (hdue : EventDelivery.Due due eq.pc) (hwaits : Waits eqArm interrupt eq.consumed eq.pc)
    (htx : eventsOf c.fTxCqn (eq.produced.drop (EventDelivery.handled due eq)) = eventsOf c.fTxCqn s.ahead)
    (hrx : eventsOf c.fRxCqn (eq.produced.drop (EventDelivery.handled due eq)) = eventsOf c.fRxCqn s.ahead) :
    Inv c { s with eq, eqArm, interrupt, due } where
  eq := heq
  due := hdue
  waits := hwaits
  tx := h.tx
  registered := h.registered
  rx := h.rx
  early := h.early
  txLine := by
    obtain ⟨n,hn⟩ := h.txLine
    rw [← htx] at hn
    exact ⟨n,hn⟩
  rxLine := by
    obtain ⟨n,hn⟩ := h.rxLine
    rw [← hrx] at hn
    exact ⟨n,hn⟩

/-- A step of the handler in which no notice moves. -/
def Quiet (due : Option ℕ) : Pc → Prop
  | .idle | .dispatch _ | .arm => False
  | .callbacks _ (left + 1) _ => due ≠ some left
  | _ => True

/-- What a step of the handler can do. -/
theorem handle_cases {before after : ℕ} (hs : s.handle c before after = some t) : ¬ s.polling ∧
    (s.eq.pc = .idle ∧ s.interrupt = true ∧ t = { s with eq := s.eq.handle c.eq 0, interrupt := false } ∨
    (∃ i, s.eq.pc = .dispatch i) ∧ t = { s with
      eq := s.eq.handle c.eq (before + after + s.fNotifierRegistered.toNat)
      due := if s.fNotifierRegistered then some after else none } ∨
    (∃ i left type, s.eq.pc = .callbacks i (left + 1) type ∧ s.due = some left ∧
      t = { s.handleEvent c type (s.eq.eqe c.eq) with eq := s.eq.handle c.eq 0, due := none }) ∨
    s.eq.pc = .arm ∧ t = { s with
      eq := s.eq.handle c.eq 0
      eqArm := (s.eq.handle c.eq 0).doorbell.map (fun d => d.1.setWidth 24) } ∨
    Quiet s.due s.eq.pc ∧ t = { s with eq := s.eq.handle c.eq 0 }) := by
  unfold System.handle at hs
  split at hs
  · cases hs
  · rename_i hpoll
    refine ⟨hpoll,?_⟩
    cases hpc : s.eq.pc with
    | idle =>
      rw [hpc] at hs
      dsimp only at hs
      split at hs
      · rename_i hint
        cases hs
        exact Or.inl ⟨rfl,hint,rfl⟩
      · cases hs
    | dispatch i =>
      rw [hpc] at hs
      cases hs
      exact Or.inr (Or.inl ⟨⟨i,rfl⟩,rfl⟩)
    | callbacks i left type =>
      cases left with
      | zero =>
        rw [hpc] at hs
        cases hs
        exact Or.inr (Or.inr (Or.inr (Or.inr ⟨trivial,rfl⟩)))
      | succ left =>
        rw [hpc] at hs
        dsimp only at hs
        split at hs
        · rename_i hmine
          cases hs
          exact Or.inr (Or.inr (Or.inl ⟨i,left,type,rfl,hmine,rfl⟩))
        · rename_i hmine
          cases hs
          exact Or.inr (Or.inr (Or.inr (Or.inr ⟨hmine,rfl⟩)))
    | arm =>
      rw [hpc] at hs
      cases hs
      exact Or.inr (Or.inr (Or.inr (Or.inl ⟨rfl,rfl⟩)))
    | _ =>
      rw [hpc] at hs
      cases hs
      exact Or.inr (Or.inr (Or.inr (Or.inr ⟨trivial,rfl⟩)))

theorem Quiet.ne {due : Option ℕ} {pc : Pc} (h : Quiet due pc) :
    pc ≠ .idle ∧ pc ≠ .arm ∧ ∀ i, pc ≠ .dispatch i := by
  cases pc with
  | idle | dispatch | arm => cases h
  | _ => exact ⟨fun he => (by cases he),fun he => (by cases he),fun i he => (by cases he)⟩

theorem handle_ne_idle {cfg : Config} {eq : EventQueue.State} (hpc : eq.pc ≠ .arm) (targets : ℕ) :
    (eq.handle cfg targets).pc ≠ .idle := by
  intro hidle
  cases he : eq.pc with
  | arm => exact hpc he
  | callbacks i left type => cases left <;> simp only [EventQueue.State.handle, he] at hidle <;> cases hidle
  | scan i =>
    simp only [EventQueue.State.handle, he] at hidle
    split at hidle <;> cases hidle
  | doorbell i =>
    simp only [EventQueue.State.handle, he] at hidle
    split at hidle <;> cases hidle
  | _ =>
    simp only [EventQueue.State.handle, he] at hidle
    cases hidle

theorem Inv.handled (h : Inv c s) (hdispatch : ∀ n, s.eq.pc ≠ .dispatch n)
    (hmine : ∀ n left type, s.eq.pc = .callbacks n (left + 1) type → s.due ≠ some left) {eqArm : Option (BitVec 24)}
    {interrupt : Bool} (hwaits : Waits eqArm interrupt (s.eq.handle c.eq 0).consumed (s.eq.handle c.eq 0).pc) :
    Inv c { s with eq := s.eq.handle c.eq 0, eqArm, interrupt } := by
  obtain ⟨hdue,hsame⟩ := EventDelivery.handled_move h.due hdispatch hmine
  refine h.moved (EventQueue.handle_inv h.eq 0) hdue hwaits ?_ ?_
  · rw [EventQueue.handle_produced, hsame]
    rfl
  · rw [EventQueue.handle_produced, hsame]
    rfl

theorem quiet_inv (h : Inv c s) (hq : Quiet s.due s.eq.pc) : Inv c { s with eq := s.eq.handle c.eq 0 } := by
  obtain ⟨hidle,harm,hdispatch⟩ := hq.ne
  refine h.handled hdispatch (fun n left type hpc => ?_) ?_
  · rw [hpc] at hq
    exact hq
  · rw [Waits.of_ne (handle_ne_idle harm 0)]
    exact (Waits.of_ne hidle).mp h.waits

theorem idle_inv (h : Inv c s) (hpc : s.eq.pc = .idle) (hint : s.interrupt = true) :
    Inv c { s with eq := s.eq.handle c.eq 0, interrupt := false } := by
  have hwaits := h.waits
  rw [hpc] at hwaits
  obtain ⟨-,hfalse⟩ | ⟨hnone,-⟩ := hwaits
  · rw [hint] at hfalse
    cases hfalse
  · refine h.handled (fun n he => ?_) (fun n left type he => ?_) ?_
    · rw [hpc] at he
      cases he
    · rw [hpc] at he
      cases he
    · simp only [EventQueue.State.handle, hpc]
      exact ⟨hnone,rfl⟩

/-- The device reads the consumer index from the arming doorbell. -/
theorem arm_inv (h : Inv c s) (hpc : s.eq.pc = .arm) : Inv c { s with
    eq := s.eq.handle c.eq 0
    eqArm := (s.eq.handle c.eq 0).doorbell.map (fun d => d.1.setWidth 24) } := by
  have hwaits := h.waits
  rw [hpc] at hwaits
  have hword := EventQueue.updateCi_word s.eq.consumed c.eqNumber
  rw [← h.eq.consIndex] at hword
  refine h.handled (fun n he => ?_) (fun n left type he => ?_) ?_
  · rw [hpc] at he
    cases he
  · rw [hpc] at he
    cases he
  · simp only [EventQueue.State.handle, hpc]
    exact Or.inl ⟨congrArg some hword,hwaits.2⟩

/-- The events from the consumer index on, where there is one. -/
theorem drop_consumed (h : Inv c s) (hlt : s.eq.consumed < s.eq.produced.length) : s.eq.produced.drop s.eq.consumed =
    s.eq.eqe c.eq :: s.eq.produced.drop (s.eq.consumed + 1) := by
  have hnew := EventQueue.eqe_produced h.eq hlt
  obtain ⟨hlt',he⟩ := List.getElem?_eq_some_iff.mp hnew
  rw [List.drop_eq_getElem_cons hlt', he]

/-- Nothing has been written for a queue that was never armed. -/
theorem Inv.none_ahead (h : Inv c s) (hreg : s.fNotifierRegistered = false) :
    eventsOf c.fTxCqn s.ahead = 0 ∧ eventsOf c.fRxCqn s.ahead = 0 := by
  have hheld : ∀ {u : ArmUnit 2 24} {sn : BitVec 2} {k pending : ℕ} {b : Bool} {n : Notice},
      Line u sn k pending (b || !s.fNotifierRegistered) n → pending = 0 := by
    intro u sn k pending b n hn
    have hbusy := hn.busy.mp (by rw [hreg]; exact Bool.or_true b)
    rw [hn.pending, hbusy]
    rfl
  obtain ⟨n,hn⟩ := h.txLine
  obtain ⟨k,hk⟩ := h.rxLine
  exact ⟨hheld hn,hheld hk⟩

theorem dispatch_inv (h : Inv c s) {i : ℕ} (hpc : s.eq.pc = .dispatch i) (before after : ℕ) : Inv c { s with
    eq := s.eq.handle c.eq (before + after + s.fNotifierRegistered.toNat)
    due := if s.fNotifierRegistered then some after else none } := by
  have hwaits := h.waits
  rw [hpc] at hwaits
  have hlt := h.eq.found (by rw [hpc]; rfl)
  obtain ⟨hold,hdue,hnew⟩ := EventDelivery.handled_dispatch h.due hpc before after s.fNotifierRegistered
  have hahead : s.ahead = s.eq.eqe c.eq :: s.eq.produced.drop (s.eq.consumed + 1) := by
    rw [System.ahead, hold, drop_consumed h hlt]
  have hsame : ∀ cqn, (s.fNotifierRegistered = false → eventsOf cqn s.ahead = 0) →
      eventsOf cqn (s.eq.produced.drop (s.eq.consumed + (!s.fNotifierRegistered).toNat)) = eventsOf cqn s.ahead := by
    intro cqn hzero
    cases hreg : s.fNotifierRegistered with
    | true => rw [System.ahead, hold]; rfl
    | false =>
      -- the entry is for another queue
      have hnone := hzero hreg
      rw [hahead, eventsOf_cons] at hnone ⊢
      rw [hnone]
      exact (Nat.add_eq_zero_iff.mp hnone).1
  refine h.moved (EventQueue.handle_inv h.eq _) hdue ?_ ?_ ?_
  · simp only [EventQueue.State.handle, hpc]
    exact hwaits
  · rw [EventQueue.handle_produced, hnew]
    exact hsame _ (fun hreg => (h.none_ahead hreg).1)
  · rw [EventQueue.handle_produced, hnew]
    exact hsame _ (fun hreg => (h.none_ahead hreg).2)

/-! ## The callback of the interface -/

theorem cqn_ne (c : Setup) : c.fTxCqn.setWidth 32 ≠ c.fRxCqn.setWidth 32 := by
  intro he
  refine c.distinct ?_
  have hval := congrArg BitVec.toNat he
  rw [BitVec.toNat_setWidth, BitVec.toNat_setWidth, Nat.mod_eq_of_lt (by omega), Nat.mod_eq_of_lt (by omega)] at hval
  exact BitVec.eq_of_toNat_eq hval

theorem callback_inv (h : Inv c s) (hpoll : ¬ s.polling) {i left : ℕ} {type : BitVec 8}
    (hpc : s.eq.pc = .callbacks i (left + 1) type) (hmine : s.due = some left) :
    Inv c { s.handleEvent c type (s.eq.eqe c.eq) with eq := s.eq.handle c.eq 0, due := none } := by
  have hlt := h.eq.found (by rw [hpc]; rfl)
  obtain ⟨hold,hnew⟩ := EventDelivery.handled_callback hpc hmine
  have hahead : s.ahead = s.eq.eqe c.eq :: s.eq.produced.drop (s.eq.consumed + 1) := by
    rw [System.ahead, hold, drop_consumed h hlt]
  have htype : type = completion := h.eq.type i (left + 1) type hpc
  have heq : EventQueue.Inv c.eq (s.eq.handle c.eq 0) := EventQueue.handle_inv h.eq 0
  have hwaits : Waits s.eqArm s.interrupt (s.eq.handle c.eq 0).consumed (s.eq.handle c.eq 0).pc := by
    rw [Waits.of_ne (handle_ne_idle (by rw [hpc]; exact fun he => by cases he) 0)]
    exact (Waits.of_ne (by rw [hpc]; exact fun he => by cases he)).mp h.waits
  have hidle : s.tx.polling = false ∧ s.rx.queue.pc = .idle := by
    refine ⟨Bool.eq_false_iff.mpr (fun hp => hpoll (Or.inl hp)),?_⟩
    by_contra hp
    exact hpoll (Or.inr hp)
  have hleft : ∀ t : System, t.eq = s.eq.handle c.eq 0 → t.due = none →
      t.ahead = s.eq.produced.drop (s.eq.consumed + 1) := by
    intro t ht hdue
    rw [System.ahead, ht, hdue, EventQueue.handle_produced, hnew]
  obtain ⟨n,hn⟩ := h.txLine
  obtain ⟨k,hk⟩ := h.rxLine
  rw [hahead, eventsOf_cons] at hn hk
  unfold System.handleEvent
  rw [if_neg (not_not_intro htype)]
  split_ifs with htx hrx
  · have hne : cqnOf (s.eq.eqe c.eq) ≠ c.fRxCqn.setWidth 32 := fun he => cqn_ne c (htx.symm.trans he)
    rw [if_pos htx] at hn
    rw [if_neg hne] at hk
    obtain ⟨hbusy,hheld⟩ := hn.arrive (by decide)
    rw [← setWidth_succ] at hheld
    have hreg : s.fNotifierRegistered = true := by
      cases hr : s.fNotifierRegistered with
      | true => rfl
      | false => rw [hr, Bool.not_false, Bool.or_true] at hbusy; cases hbusy
    have hstart : s.tx.step .poll = some { s.tx with fTxArmSn := s.tx.fTxArmSn + 1, polling := true } :=
      if_pos ⟨h.registered,by rw [hidle.1]; rfl⟩
    have hinv := TxQueue.State.step_inv h.tx hstart
    rw [hstart]
    refine ⟨heq,EventDelivery.Due.none _,hwaits,hinv,h.registered,h.rx,fun hr => ?_,⟨.held,?_⟩,⟨k,?_⟩⟩
    · rw [show s.fNotifierRegistered = false from hr] at hreg
      cases hreg
    · rw [hleft _ rfl rfl]
      exact hheld
    · rw [hleft _ rfl rfl]
      exact hk
  · rw [if_neg htx] at hn
    rw [if_pos hrx] at hk
    obtain ⟨hbusy,hheld⟩ := hk.arrive (by decide)
    rw [← setWidth_succ] at hheld
    have hreg : s.fNotifierRegistered = true := by
      cases hr : s.fNotifierRegistered with
      | true => rfl
      | false => rw [hr, Bool.not_false, Bool.or_true] at hbusy; cases hbusy
    have hstart : s.rx.poll false = { s.rx with
        queue := { s.rx.queue with fRxArmSn := s.rx.queue.fRxArmSn + 1, pc := .scan } } := by
      simp only [RxQueue.Run.poll, RxQueue.State.poll, hidle.2]
    have hinv := RxQueue.Run.poll_kept h.rx false
    rw [hstart] at hinv ⊢
    refine ⟨heq,EventDelivery.Due.none _,hwaits,h.tx,h.registered,hinv,fun hr => ?_,⟨n,?_⟩,⟨.held,?_⟩⟩
    · rw [show s.fNotifierRegistered = false from hr] at hreg
      cases hreg
    · rw [hleft _ rfl rfl]
      exact hn
    · rw [hleft _ rfl rfl]
      exact hheld
  · rw [if_neg htx] at hn
    rw [if_neg hrx] at hk
    refine ⟨heq,EventDelivery.Due.none _,hwaits,h.tx,h.registered,h.rx,h.early,⟨n,?_⟩,⟨k,?_⟩⟩
    · rw [hleft _ rfl rfl]
      exact hn
    · rw [hleft _ rfl rfl]
      exact hk

theorem handle_inv {before after : ℕ} (h : Inv c s) (hs : s.handle c before after = some t) : Inv c t := by
  obtain ⟨hpoll,⟨hpc,hint,rfl⟩ | ⟨⟨i,hpc⟩,rfl⟩ | ⟨i,left,type,hpc,
    hmine,rfl⟩ | ⟨hpc,rfl⟩ | ⟨hq,rfl⟩⟩ := handle_cases hs
  · exact idle_inv h hpc hint
  · exact dispatch_inv h hpc before after
  · exact callback_inv h hpoll hpc hmine
  · exact arm_inv h hpc
  · exact quiet_inv h hq

/-! ## The polls -/

theorem polling_registered (h : Inv c s) (hpoll : s.polling) : s.fNotifierRegistered = true := by
  cases hreg : s.fNotifierRegistered with
  | true => rfl
  | false => exact absurd hpoll (h.early hreg)

theorem pollTx_inv (h : Inv c s) (hs : s.pollTx = some t) : Inv c t := by
  unfold System.pollTx at hs
  split at hs
  · rename_i hpoll
    cases hs
    have hreg := polling_registered h (Or.inl hpoll)
    have hinv := h.tx.pollCqe hpoll
    obtain ⟨n,hn⟩ := h.txLine
    rw [hpoll, Bool.true_or] at hn
    have hearly : ∀ b : Bool, s.fNotifierRegistered = false → ¬ (b = true ∨ s.rx.queue.pc ≠ .idle) := by
      intro b hr
      rw [hreg] at hr
      cases hr
    obtain ⟨-,-,-,hstill,harmSn,hregistered⟩ | ⟨hall,hlast⟩ := tx_pollCqe h.tx h.registered
    · refine ⟨h.eq,h.due,h.waits,hinv,hregistered.trans h.registered,h.rx,hearly _,⟨.held,?_⟩,h.rxLine⟩
      dsimp only
      rw [hstill, hpoll, if_pos rfl, harmSn, Bool.true_or]
      exact hn.advance
    · have hl := tx_live h.tx h.registered
      have hasked := armed hn
      rw [← hl.cqCc] at hasked
      rw [hlast] at hinv ⊢
      refine ⟨h.eq,h.due,h.waits,hinv,h.registered,h.rx,hearly _,⟨.asked,?_⟩,h.rxLine⟩
      dsimp only
      rw [hreg, if_neg Bool.false_ne_true]
      exact hasked
  · cases hs

theorem pollRx_inv {mbuf : Bool} (h : Inv c s) (hs : s.pollRx mbuf = some t) : Inv c t := by
  unfold System.pollRx at hs
  split at hs
  · rename_i hpoll
    cases hs
    have hreg := polling_registered h (Or.inr hpoll)
    have hinv := RxQueue.Run.poll_kept h.rx mbuf
    obtain ⟨-,-,harmSn,hend⟩ := rx_poll h.rx hpoll mbuf
    obtain ⟨n,hn⟩ := h.rxLine
    rw [decide_eq_true hpoll, Bool.true_or] at hn
    refine ⟨h.eq,h.due,h.waits,h.tx,h.registered,hinv,fun hr => ?_,h.txLine,?_⟩
    · rw [show s.fNotifierRegistered = false from hr] at hreg
      cases hreg
    · dsimp only
      rw [harmSn]
      by_cases hidle : (s.rx.poll mbuf).queue.pc = .idle
      · obtain ⟨hall,hhandled,hword⟩ := hend hidle
        have hasked := armed hn
        rw [← h.rx.counting.fRxCqCc] at hasked
        rw [if_neg (not_not_intro hidle), hword, hhandled, hreg, decide_eq_false (not_not_intro hidle)]
        exact ⟨.asked,hasked⟩
      · rw [if_pos hidle, decide_eq_true hidle, Bool.true_or]
        exact ⟨.held,hn.advance⟩
  · cases hs

/-! ## The device -/

theorem raise_cases (hs : s.raise = some t) : (∃ ci, s.eqArm = some ci ∧ ci ≠ BitVec.ofNat 24 s.eq.produced.length) ∧
    t = { s with eqArm := none, interrupt := true } := by
  unfold System.raise at hs
  cases harm : s.eqArm with
  | none =>
    rw [harm] at hs
    cases hs
  | some ci =>
    rw [harm] at hs
    dsimp only at hs
    split at hs
    · cases hs
    · rename_i hne
      cases hs
      exact ⟨⟨ci,rfl,hne⟩,rfl⟩

theorem raise_inv (h : Inv c s) (hs : s.raise = some t) : Inv c t := by
  obtain ⟨⟨ci,harm,-⟩,rfl⟩ := raise_cases hs
  have hwaits := h.waits
  refine h.moved h.eq h.due ?_ rfl rfl
  cases hpc : s.eq.pc with
  | idle => exact Or.inr ⟨rfl,rfl⟩
  | _ =>
    -- the event queue is not armed while its handler is at work
    rw [hpc, Waits.of_ne (fun he => by cases he), harm] at hwaits
    cases hwaits.1

theorem write_eq {cfg : Config} {eq eq' : EventQueue.State} (hw : eq.write cfg eqe = some eq') :
    eq'.pc = eq.pc ∧ eq'.consumed = eq.consumed ∧ eq'.produced = eq.produced ++ [eqe] := by
  unfold EventQueue.State.write at hw
  split at hw
  · cases hw
    exact ⟨rfl,rfl,rfl⟩
  · cases hw

/-- An event is written, for one of the queues or for another one. -/
theorem Inv.wrote (h : Inv c s) {eq : EventQueue.State} (hw : s.eq.write c.eq eqe = some eq) {txUnit rxUnit : ArmUnit 2 24}
    (htx : ∃ n, Line txUnit (s.tx.fTxArmSn.setWidth 2) s.tx.consumed
      (eventsOf c.fTxCqn s.ahead + if cqnOf eqe = c.fTxCqn.setWidth 32 then 1 else 0) (s.tx.polling || !s.fNotifierRegistered) n)
    (hrx : ∃ n, Line rxUnit (s.rx.queue.fRxArmSn.setWidth 2) s.rx.handled
      (eventsOf c.fRxCqn s.ahead + if cqnOf eqe = c.fRxCqn.setWidth 32 then 1 else 0)
      (decide (s.rx.queue.pc ≠ .idle) || !s.fNotifierRegistered) n) : Inv c { s with eq, txUnit, rxUnit } := by
  obtain ⟨hpc,hconsumed,hproduced⟩ := write_eq hw
  have hahead : ({ s with eq, txUnit, rxUnit } : System).ahead = s.ahead ++ [eqe] := by
    have hhandled : EventDelivery.handled s.due eq = EventDelivery.handled s.due s.eq := by
      unfold EventDelivery.handled
      rw [hpc, hconsumed]
    unfold System.ahead
    dsimp only
    rw [hhandled, hproduced, List.drop_append_of_le_length (EventDelivery.handled_le h.eq)]
  refine ⟨EventQueue.write_inv h.eq hw,?_,?_,h.tx,h.registered,h.rx,h.early,?_,?_⟩
  · dsimp only
    rw [hpc]
    exact h.due
  · dsimp only
    rw [hpc, hconsumed]
    exact h.waits
  · rw [hahead, eventsOf_concat]
    exact htx
  · rw [hahead, eventsOf_concat]
    exact hrx

theorem notifyTx_cases (hs : s.notifyTx c eqe = some t) : cqnOf eqe = c.fTxCqn.setWidth 32 ∧
    ∃ u eq, s.txUnit.answer s.tx.produced = some u ∧ s.eq.write c.eq eqe = some eq ∧ t = { s with eq, txUnit := u } := by
  unfold System.notifyTx at hs
  split at hs
  · rename_i hmine
    obtain ⟨u,hu,hs⟩ := Option.bind_eq_some_iff.mp hs
    obtain ⟨eq,heq,rfl⟩ := Option.map_eq_some_iff.mp hs
    exact ⟨hmine.2,u,eq,hu,heq,rfl⟩
  · cases hs

theorem notifyRx_cases (hs : s.notifyRx c eqe = some t) : cqnOf eqe = c.fRxCqn.setWidth 32 ∧
    ∃ u eq, s.rxUnit.answer s.rx.queue.produced = some u ∧ s.eq.write c.eq eqe = some eq ∧
    t = { s with eq, rxUnit := u } := by
  unfold System.notifyRx at hs
  split at hs
  · rename_i hmine
    obtain ⟨u,hu,hs⟩ := Option.bind_eq_some_iff.mp hs
    obtain ⟨eq,heq,rfl⟩ := Option.map_eq_some_iff.mp hs
    exact ⟨hmine.2,u,eq,hu,heq,rfl⟩
  · cases hs

theorem notifyTx_inv (h : Inv c s) (hs : s.notifyTx c eqe = some t) : Inv c t := by
  obtain ⟨hcqn,u,eq,hu,heq,rfl⟩ := notifyTx_cases hs
  obtain ⟨n,hn⟩ := h.txLine
  obtain ⟨-,-,-,hsent⟩ := hn.send hu
  have hother : cqnOf eqe ≠ c.fRxCqn.setWidth 32 := fun he => cqn_ne c (hcqn.symm.trans he)
  refine h.wrote heq ⟨.sent,?_⟩ ?_
  · rw [if_pos hcqn]
    exact hsent
  · rw [if_neg hother]
    exact h.rxLine

theorem notifyRx_inv (h : Inv c s) (hs : s.notifyRx c eqe = some t) : Inv c t := by
  obtain ⟨hcqn,u,eq,hu,heq,rfl⟩ := notifyRx_cases hs
  obtain ⟨n,hn⟩ := h.rxLine
  obtain ⟨-,-,-,hsent⟩ := hn.send hu
  have hother : cqnOf eqe ≠ c.fTxCqn.setWidth 32 := fun he => cqn_ne c (he.symm.trans hcqn)
  refine h.wrote heq ?_ ⟨.sent,?_⟩
  · rw [if_neg hother]
    exact h.txLine
  · rw [if_pos hcqn]
    exact hsent

theorem write_inv (h : Inv c s) (hs : s.write c eqe = some t) : Inv c t := by
  unfold System.write at hs
  split at hs
  · rename_i hother
    obtain ⟨eq,heq,rfl⟩ := Option.map_eq_some_iff.mp hs
    refine h.wrote heq ?_ ?_
    · rw [if_neg hother.1]
      exact h.txLine
    · rw [if_neg hother.2]
      exact h.rxLine
  · cases hs

/-! ## The interface -/

theorem enable_inv (h : Inv c s) (hreg : s.fNotifierRegistered = false) : Inv c s.enable := by
  have hidle := h.early hreg
  have htx : s.tx.polling = false := Bool.eq_false_iff.mpr (fun hp => hidle (Or.inl hp))
  have hrx : decide (s.rx.queue.pc ≠ .idle) = false := decide_eq_false (fun hp => hidle (Or.inr hp))
  obtain ⟨n,hn⟩ := h.txLine
  obtain ⟨k,hk⟩ := h.rxLine
  rw [hreg, Bool.not_false, Bool.or_true] at hn hk
  have hnAsked := armed hn
  have hkAsked := armed hk
  rw [← (tx_live h.tx h.registered).cqCc] at hnAsked
  rw [← h.rx.counting.fRxCqCc] at hkAsked
  refine ⟨h.eq,h.due,h.waits,h.tx,h.registered,h.rx,fun hr => (by cases hr),⟨.asked,?_⟩,⟨.asked,?_⟩⟩
  · unfold System.enable
    dsimp only
    rw [htx]
    exact hnAsked
  · unfold System.enable
    dsimp only
    rw [hrx]
    exact hkAsked

theorem sends_inv (h : Inv c s) {a : TxQueue.Action} (ha : sends a = true) {tx : TxQueue.State} (hs : s.tx.step a = some tx) :
    Inv c { s with tx } := by
  obtain ⟨harmSn,hpolling,hconsumed,hregistered⟩ := tx_sends ha hs
  refine ⟨h.eq,h.due,h.waits,TxQueue.State.step_inv h.tx hs,hregistered.trans h.registered,h.rx,fun hr => ?_,?_,h.rxLine⟩
  · have hidle := h.early hr
    unfold System.polling at hidle ⊢
    rw [hpolling]
    exact hidle
  · dsimp only
    rw [harmSn, hpolling, hconsumed]
    exact h.txLine

theorem receives_inv (h : Inv c s) {e : RxQueue.Event} (he : receives e = true) {rx : RxQueue.Run}
    (hs : s.rx.step e = some rx) : Inv c { s with rx } := by
  obtain ⟨harmSn,hpc,hhandled⟩ := rx_receives he hs
  refine ⟨h.eq,h.due,h.waits,h.tx,h.registered,RxQueue.Run.step_kept h.rx hs,fun hr => ?_,h.txLine,?_⟩
  · have hidle := h.early hr
    unfold System.polling at hidle ⊢
    rw [hpc]
    exact hidle
  · dsimp only
    rw [harmSn, hpc, hhandled]
    exact h.rxLine

theorem step_inv {a : Action} (h : Inv c s) (hs : step c s a = some t) : Inv c t := by
  cases a with
  | enable =>
    simp only [step] at hs
    split at hs
    · cases hs
    · rename_i hreg
      cases hs
      exact enable_inv h (Bool.eq_false_iff.mpr hreg)
  | handle before after => exact handle_inv h hs
  | pollTx => exact pollTx_inv h hs
  | pollRx mbuf => exact pollRx_inv h hs
  | raise => exact raise_inv h hs
  | notifyTx eqe => exact notifyTx_inv h hs
  | notifyRx eqe => exact notifyRx_inv h hs
  | write eqe => exact write_inv h hs
  | tx a =>
    simp only [step] at hs
    split at hs
    · rename_i hsends
      obtain ⟨tx,htx,rfl⟩ := Option.map_eq_some_iff.mp hs
      exact sends_inv h hsends.2 htx
    · cases hs
  | rx e =>
    simp only [step] at hs
    split at hs
    · rename_i hreceives
      obtain ⟨rx,hrx,rfl⟩ := Option.map_eq_some_iff.mp hs
      exact receives_inv h hreceives.2 hrx
    · cases hs

theorem reach_inv (hr : Reach (step c) Free (initial c) s) : Inv c s :=
  hr.invariant inv_initial (fun _ _ _ h _ hs => step_inv h hs)

end AppleMCX.CompletionPath
