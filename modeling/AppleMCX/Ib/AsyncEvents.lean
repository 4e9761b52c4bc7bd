import AppleMCX.Core.Command
import AppleMCX.Core.EventQueue
import AppleMCX.Interaction.Ring

/-! # Asynchronous events of the RDMA device

`MlxRoCE::handleEvent` turns the events of the hardware into those of the verbs interface and
keeps them in a ring of 16 slots, from which `getAsyncEvent` hands them out. A completion goes
to the completion queue that it names.
-/
namespace AppleMCX.RoCE
open Interaction
open EventQueue (Eqe)

/-! ## What an event of the hardware means -/

/-- `MLX_EVENT_TYPE_…` -/
def typePathMig : BitVec 8 := 0x01
def typeCommEst : BitVec 8 := 0x02
def typeWqCatasError : BitVec 8 := 0x05
def typePortStateChange : BitVec 8 := 0x09

/-- `MLX_EVENT_…`, as user space knows them -/
def eventQpFatal : BitVec 32 := 1
def eventCommEst : BitVec 32 := 4
def eventPathMig : BitVec 32 := 6
def eventDeviceFatal : BitVec 32 := 8
def eventPortActive : BitVec 32 := 9
def eventPortErr : BitVec 32 := 10
def eventGidChange : BitVec 32 := 18

/-- `MLX_ASYNC_ELEMENT_…` -/
def elementDevice : BitVec 32 := 0
def elementCq : BitVec 32 := 1
def elementQp : BitVec 32 := 2
def elementPort : BitVec 32 := 3

structure AsyncEvent where
  eventType : BitVec 32
  elementType : BitVec 32
  elementHandle : BitVec 32
  deriving DecidableEq, Repr

/-- What `handleEvent` does with an event. -/
inductive Handled
  | queue (event : AsyncEvent)
  | completion (cqn : BitVec 32)
  | nothing
  deriving DecidableEq, Repr

/-- `data.comp.cqn`, the last word of the payload, in the order of the host -/
def compCqn (eqe : Eqe) : BitVec 32 := eqe.data.setWidth 32

/-- The switch of `handleEvent`; `eqe` may be missing. -/
def handleEvent (type : BitVec 8) (eqe : Option Eqe) : Handled :=
  if type = typeWqCatasError then .queue ⟨eventQpFatal,elementQp,0⟩
  else if type = typePathMig then .queue ⟨eventPathMig,elementQp,0⟩
  else if type = typeCommEst then .queue ⟨eventCommEst,elementQp,0⟩
  else if type = EventQueue.deviceFatal then .queue ⟨eventDeviceFatal,elementDevice,0⟩
  else if type = typePortStateChange then
    let sub : BitVec 8 := (eqe.map Eqe.subType).getD 0
    if sub = 4 ∨ sub = 1 then .queue ⟨if sub = 4 then eventPortActive else eventPortErr,elementPort,1⟩
    else if sub = 8 then .queue ⟨eventGidChange,elementPort,1⟩
    else if sub = 9 then .queue ⟨eventDeviceFatal,elementPort,1⟩
    else .nothing
  else if type = EventQueue.completion then .completion ((eqe.map compCqn).getD 0 &&& 0xffffff)
  else .nothing

/-- The types for which `stageDevRes` registers the device. -/
def subscribed (type : BitVec 8) : Bool :=
  [typeWqCatasError,typePathMig,typeCommEst,EventQueue.completion,EventQueue.deviceFatal,typePortStateChange].contains type

/-! ## The ring -/

def eventRingSize : ℕ := 16

/-- The ring of the device; `fEventLock` makes each operation one step. -/
structure Events where
  fEventRing : ℕ → AsyncEvent
  fEventHead : ℕ
  fEventTail : ℕ

namespace Events

def initial : Events := ⟨fun _ => ⟨0,0,0⟩,0,0⟩

def queueAsyncEvent (event : AsyncEvent) (s : Events) : Events :=
  let next := (s.fEventHead + 1) % eventRingSize
  if next ≠ s.fEventTail then
    { s with
      fEventRing := Function.update s.fEventRing s.fEventHead event
      fEventHead := next }
  else s

/-- The second value is what the caller's structure holds afterwards, where it was written. -/
def getAsyncEvent (event : Bool) (s : Events) : IOReturn × Option AsyncEvent × Events :=
  if !event then (.badArgument,none,s)
  else if s.fEventTail = s.fEventHead then (.notFound,none,s)
  else (.success,some (s.fEventRing s.fEventTail),{ s with fEventTail := (s.fEventTail + 1) % eventRingSize })

/-- The events that were queued and not handed out, oldest first. -/
def pending (s : Events) : List AsyncEvent :=
  ringContents eventRingSize s.fEventRing s.fEventTail (ringCount eventRingSize s.fEventTail s.fEventHead)

structure InRing (s : Events) : Prop where
  head : s.fEventHead < eventRingSize
  tail : s.fEventTail < eventRingSize

variable {s : Events}

theorem inRing_initial : InRing initial := ⟨by decide,by decide⟩

theorem InRing.queueAsyncEvent (h : InRing s) (event : AsyncEvent) : InRing (s.queueAsyncEvent event) := by
  unfold Events.queueAsyncEvent
  dsimp only
  split
  · exact ⟨Nat.mod_lt _ (by decide),h.tail⟩
  · exact h

theorem InRing.getAsyncEvent (h : InRing s) (event : Bool) : InRing (s.getAsyncEvent event).2.2 := by
  unfold Events.getAsyncEvent
  split
  · exact h
  · split
    · exact h
    · exact ⟨h.head,Nat.mod_lt _ (by decide)⟩

theorem InRing.pending_lt (h : InRing s) : s.pending.length < eventRingSize := by
  rw [pending, ringContents_length]
  exact ringCount_lt h.tail h.head

/-- One slot stays free. -/
theorem queueAsyncEvent_pending (h : InRing s) (event : AsyncEvent) :
    (s.queueAsyncEvent event).pending =
      if s.pending.length + 1 < eventRingSize then s.pending ++ [event] else s.pending := by
  have hlen : s.pending.length = ringCount eventRingSize s.fEventTail s.fEventHead := ringContents_length ..
  have hlt := ringCount_lt h.tail h.head
  have hfull := ringCount_full h.tail h.head
  rw [hlen]
  unfold queueAsyncEvent
  dsimp only
  by_cases hne : (s.fEventHead + 1) % eventRingSize ≠ s.fEventTail
  · have hroom : ringCount eventRingSize s.fEventTail s.fEventHead + 1 < eventRingSize := by
      have hnot := mt hfull.mpr hne
      omega
    have hpush := ringContents_push s.fEventRing s.fEventTail event hlt
    rw [ringCount_head h.tail h.head] at hpush
    rw [if_pos hne, if_pos hroom]
    unfold pending
    dsimp only
    rw [ringCount_push h.tail h.head hne, hpush]
  · have hroom : ¬ ringCount eventRingSize s.fEventTail s.fEventHead + 1 < eventRingSize := by
      have hcount := hfull.mp (not_not.mp hne)
      omega
    rw [if_neg hne, if_neg hroom]

/-- The oldest event is handed out, where there is one. -/
theorem getAsyncEvent_pending (h : InRing s) : s.pending.head? = (s.getAsyncEvent true).2.1 ∧
    s.pending.tail = (s.getAsyncEvent true).2.2.pending := by
  unfold getAsyncEvent
  rw [if_neg (by decide)]
  by_cases he : s.fEventTail = s.fEventHead
  · have hzero : ringCount _ s.fEventTail s.fEventHead = 0 := (ringCount_eq_zero h.tail).mpr he
    have hnil : s.pending = [] := by rw [pending, hzero, ringContents_zero]
    rw [if_pos he, hnil]
    exact ⟨rfl,rfl⟩
  · have hpop : s.pending = s.fEventRing s.fEventTail :: ringContents eventRingSize s.fEventRing
        ((s.fEventTail + 1) % eventRingSize) (ringCount eventRingSize ((s.fEventTail + 1) % eventRingSize) s.fEventHead) := by
      rw [pending, ringCount_pop h.tail h.head he, ringContents_pop, Nat.mod_eq_of_lt h.tail]
    rw [if_neg he, hpop]
    exact ⟨rfl,rfl⟩

end Events
end AppleMCX.RoCE
