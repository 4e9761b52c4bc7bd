import AppleMCX.Ib.AsyncEvents

/-! # Events on their way to user space

Any number of event queues, the handlers that empty them, the ring of the RDMA device behind
their callbacks, and programs that read it with `ibv_get_async_event`.
-/
namespace AppleMCX.EventDelivery
open Interaction EventQueue RoCE

/-! ## The verbs interface -/

/-- `ibv_event_type`, in its order -/
inductive IbvEventType
  | cqErr | qpFatal | qpReqErr | qpAccessErr | commEst | sqDrained | pathMig | pathMigErr | deviceFatal | portActive
  | portErr | lidChange | pkeyChange | smChange | srqErr | srqLimitReached | qpLastWqeReached | clientReregister
  | gidChange | wqFatal
  deriving DecidableEq, Repr

def IbvEventType.value (type : IbvEventType) : BitVec 32 := BitVec.ofNat 32 type.ctorIdx

/-- The union of `ibv_async_event`, by the member that was written to. -/
inductive Element
  | none | cqNull | qpNull
  | portNum (port : BitVec 32)
  deriving DecidableEq, Repr

structure IbvAsyncEvent where
  eventType : BitVec 32
  element : Element
  deriving DecidableEq, Repr

/-- The error numbers of `mlx_get_async_event` -/
inductive Errno
  | ok | einval | eagain | eio
  deriving DecidableEq, Repr

/-- `mlx_get_async_event`, over a connection to the kernel. -/
def mlxGetAsyncEvent (ctx event : Bool) (s : Events) : Errno × Option AsyncEvent × Events :=
  if !ctx ∨ !event then (.einval,none,s)
  else
    let (kr,mev,s) := s.getAsyncEvent true
    if kr = .notFound then (.eagain,mev,s)
    else (if kr = .success then .ok else .eio,mev,s)

/-- The event of the verbs interface behind one of the kernel. -/
def ibvEvent (mev : AsyncEvent) : IbvAsyncEvent where
  eventType := mev.eventType
  element :=
    if mev.elementType = elementCq then .cqNull
    else if mev.elementType = elementQp then .qpNull
    else if mev.elementType = elementPort then .portNum mev.elementHandle
    else .none

/-- `ibv_get_async_event`; `none` stands for -1. -/
def ibvGetAsyncEvent (context event mlxCtx : Bool) (s : Events) : Option IbvAsyncEvent × Events :=
  if !context ∨ !event then (none,s)
  else if mlxCtx then
    let (kr,mev,s) := mlxGetAsyncEvent true true s
    (if kr = .ok then mev.map ibvEvent else none,s)
  else (none,s)

/-! ## What an event means to a program -/

def portMeaning (subType : BitVec 8) : Option IbvEventType :=
  if subType = 1 then some .portErr
  else if subType = 4 then some .portActive
  else if subType = 8 then some .gidChange
  else if subType = 9 then some .deviceFatal
  else none

/-- The verbs event that an entry of an event queue stands for. -/
def meaning (type : BitVec 8) (eqe : Eqe) : Option IbvAsyncEvent :=
  if type = 0x01 then some ⟨IbvEventType.pathMig.value,.qpNull⟩
  else if type = 0x02 then some ⟨IbvEventType.commEst.value,.qpNull⟩
  else if type = 0x05 then some ⟨IbvEventType.qpFatal.value,.qpNull⟩
  else if type = 0x08 then some ⟨IbvEventType.deviceFatal.value,.none⟩
  else if type = 0x09 then (portMeaning eqe.subType).map (fun type => ⟨type.value,.portNum 1⟩)
  else none

/-! ## The system -/

variable {ι : Type} [DecidableEq ι]

/-- A call of `queueAsyncEvent`: the queue and the number of its event, and what was waiting when it was made. -/
structure Raised (ι : Type) where
  queue : ι
  number : ℕ
  event : AsyncEvent
  waiting : ℕ
  deriving DecidableEq

structure System (ι : Type) where
  eqs : ι → EventQueue.State
  /-- The callbacks that come after that of the device in the current dispatch, until it is made. -/
  due : ι → Option ℕ
  events : Events
  raised : List (Raised ι)
  read : List IbvAsyncEvent

def initial : System ι := ⟨fun _ => EventQueue.initial,fun _ => none,.initial,[],[]⟩

variable (c : ι → Config)

namespace System

/-- The callback of the device with the entry at the consumer index of a queue. -/
def callback (i : ι) (s : System ι) : System ι :=
  match handleEvent ((c i).dispatchType ((s.eqs i).eqe (c i))) (some ((s.eqs i).eqe (c i))) with
  | .queue event => { s with
      events := s.events.queueAsyncEvent event
      raised := s.raised ++ [⟨i,(s.eqs i).consumed,event,s.events.pending.length⟩] }
  | _ => s

/-- A step of the handler of a queue. Among the notifiers of a type that the device is registered for, `before` ones
are called before it and `after` ones after it. -/
def handle (i : ι) (before after : ℕ) (s : System ι) : System ι :=
  match (s.eqs i).pc with
  | .dispatch _ =>
    let mine := subscribed ((c i).dispatchType ((s.eqs i).eqe (c i)))
    { s with
      eqs := Function.update s.eqs i ((s.eqs i).handle (c i) (before + after + mine.toNat))
      due := Function.update s.due i (if mine then some after else none) }
  | .callbacks _ (left + 1) _ =>
    if s.due i = some left then
      { s.callback c i with
        eqs := Function.update s.eqs i ((s.eqs i).handle (c i) 0)
        due := Function.update s.due i none }
    else { s with eqs := Function.update s.eqs i ((s.eqs i).handle (c i) 0) }
  | _ => { s with eqs := Function.update s.eqs i ((s.eqs i).handle (c i) 0) }

/-- The device writes its next event into a queue. -/
def write (i : ι) (eqe : Eqe) (s : System ι) : Option (System ι) :=
  ((s.eqs i).write (c i) eqe).map (fun eq => { s with eqs := Function.update s.eqs i eq })

def get (s : System ι) : System ι :=
  let (event,events) := ibvGetAsyncEvent true true true s.events
  { s with
    events
    read := s.read ++ event.toList }

end System

inductive Action (ι : Type)
  | handle (i : ι) (before after : ℕ)
  | write (i : ι) (eqe : Eqe)
  | get
  deriving DecidableEq

def step (s : System ι) : Action ι → Option (System ι)
  | .handle i before after => some (s.handle c i before after)
  | .write i eqe => s.write c i eqe
  | .get => some s.get

/-! ## Delivery -/

variable {c} {s t : System ι} {i j : ι} {eqe : Eqe} {type : BitVec 8}

/-- What a program will read of an event that `handleEvent` has handled. -/
def toUser : Handled → Option IbvAsyncEvent
  | .queue event => some (ibvEvent event)
  | .completion _ => none
  | .nothing => none

theorem meaning_port (eqe : Eqe) : toUser (handleEvent typePortStateChange (some eqe)) =
    (portMeaning eqe.subType).map (fun type => ⟨type.value,.portNum 1⟩) := by
  obtain ⟨type,sub,data,signature,owner⟩ := eqe
  by_cases h1 : sub = 1#8
  · subst h1
    rfl
  by_cases h4 : sub = 4#8
  · subst h4
    rfl
  by_cases h8 : sub = 8#8
  · subst h8
    rfl
  by_cases h9 : sub = 9#8
  · subst h9
    rfl
  have hnothing : handleEvent typePortStateChange (some ⟨type,sub,data,signature,owner⟩) = .nothing := by
    simp [handleEvent, typePortStateChange, typeWqCatasError, typePathMig, typeCommEst, EventQueue.deviceFatal, h1, h4,
      h8, h9]
  have hnone : portMeaning sub = none := by simp [portMeaning, h1, h4, h8, h9]
  rw [hnothing, hnone]
  rfl

/-- `handleEvent` and the library say together what an event means. -/
theorem toUser_handleEvent (type : BitVec 8) (eqe : Eqe) : toUser (handleEvent type (some eqe)) = meaning type eqe := by
  by_cases h1 : type = 1#8
  · subst h1
    rfl
  by_cases h2 : type = 2#8
  · subst h2
    rfl
  by_cases h5 : type = 5#8
  · subst h5
    rfl
  by_cases h8 : type = 8#8
  · subst h8
    rfl
  by_cases h9 : type = 9#8
  · subst h9
    exact meaning_port eqe
  have hnone : meaning type eqe = none := by simp [meaning, h1, h2, h5, h8, h9]
  have hrest : handleEvent type (some eqe) =
      if type = EventQueue.completion then .completion (compCqn eqe &&& 0xffffff) else .nothing := by
    simp [handleEvent, typePortStateChange, typeWqCatasError, typePathMig, typeCommEst, EventQueue.deviceFatal, h1, h2, h5,
      h8, h9]
  rw [hnone, hrest]
  split <;> rfl

theorem meaning_unsubscribed (h : subscribed type = false) (eqe : Eqe) : meaning type eqe = none := by
  have hne : ∀ a ∈ [typeWqCatasError,typePathMig,typeCommEst,EventQueue.completion,EventQueue.deviceFatal,
      typePortStateChange], type ≠ a := by
    intro a ha he
    rw [subscribed, he, List.contains_iff_mem.mpr ha] at h
    cases h
  have h1 : type ≠ 1#8 := hne _ (by decide)
  have h2 : type ≠ 2#8 := hne _ (by decide)
  have h5 : type ≠ 5#8 := hne _ (by decide)
  have h8 : type ≠ 8#8 := hne _ (by decide)
  have h9 : type ≠ 9#8 := hne _ (by decide)
  simp [meaning, h1, h2, h5, h8, h9]

theorem ibvGetAsyncEvent_eq (events : Events) : ibvGetAsyncEvent true true true events =
    ((events.getAsyncEvent true).2.1.map ibvEvent,(events.getAsyncEvent true).2.2) := by
  unfold ibvGetAsyncEvent mlxGetAsyncEvent Events.getAsyncEvent
  by_cases he : events.fEventTail = events.fEventHead
  · simp [he]
  · simp [he]

/-- `ibv_get_async_event` takes the oldest event. -/
theorem ibvGetAsyncEvent_pending {events : Events} (h : events.InRing) :
    (ibvGetAsyncEvent true true true events).1 = events.pending.head?.map ibvEvent ∧
      (ibvGetAsyncEvent true true true events).2.pending = events.pending.tail := by
  obtain ⟨hhead,htail⟩ := Events.getAsyncEvent_pending h
  rw [hhead, htail, ibvGetAsyncEvent_eq]
  exact ⟨rfl,rfl⟩

/-- The callback of the device has been made for so many events of a queue. -/
def handled (due : Option ℕ) (eq : EventQueue.State) : ℕ := eq.consumed + if due = none then eq.pc.dispatched else 0

/-- The events among the first `n` that mean something to a program, with their numbers. -/
def meanings (c : Config) (produced : List Eqe) (n : ℕ) : List (ℕ × IbvAsyncEvent) :=
  (produced.take n).zipIdx.filterMap (fun (eqe,p) => (meaning (c.dispatchType eqe) eqe).map (fun event => (p,event)))

/-- The callback of the device comes only where there is one to come. -/
def Due (due : Option ℕ) : Pc → Prop
  | .callbacks _ left _ => ∀ after, due = some after → after < left
  | _ => due = none

/-- The events of the calls made for one queue. -/
def raisedFor (i : ι) (raised : List (Raised ι)) : List (ℕ × IbvAsyncEvent) :=
  (raised.filter (fun r => r.queue = i)).map (fun r => (r.number,ibvEvent r.event))

/-- The events of the calls that found room, in the order of the calls. -/
def recorded (raised : List (Raised ι)) : List IbvAsyncEvent :=
  (raised.filter (fun r => r.waiting < 15)).map (fun r => ibvEvent r.event)

/-- One queue, and what was raised for it. -/
structure Queue (c : Config) (eq : EventQueue.State) (due : Option ℕ) (raised : List (ℕ × IbvAsyncEvent)) : Prop where
  inv : EventQueue.Inv c eq
  place : Due due eq.pc
  raised : raised = meanings c eq.produced (handled due eq)

variable (c) in
structure Inv (s : System ι) : Prop where
  queues : ∀ i, Queue (c i) (s.eqs i) (s.due i) (raisedFor i s.raised)
  inRing : s.events.InRing
  inOrder : s.read ++ s.events.pending.map ibvEvent = recorded s.raised

theorem inv_initial : Inv c initial where
  queues _ := ⟨EventQueue.inv_initial,rfl,rfl⟩
  inRing := Events.inRing_initial
  inOrder := rfl

theorem meanings_succ {c : Config} {produced : List Eqe} {n : ℕ} (h : produced[n]? = some eqe) :
    meanings c produced (n + 1) = meanings c produced n ++
      ((meaning (c.dispatchType eqe) eqe).map (fun event => (n,event))).toList := by
  have hlen : (produced.take n).length = n := List.length_take_of_le (List.getElem?_eq_some_iff.mp h).1.le
  unfold meanings
  rw [EventQueue.take_succ_of_getElem? h, List.zipIdx_append, List.filterMap_append, hlen]
  congr 1
  rw [List.zipIdx_singleton, Nat.zero_add]
  simp only [List.filterMap_cons, List.filterMap_nil]
  cases meaning (c.dispatchType eqe) eqe <;> rfl

theorem meanings_append {c : Config} {produced : List Eqe} {n : ℕ} (h : n ≤ produced.length) (eqe : Eqe) :
    meanings c (produced ++ [eqe]) n = meanings c produced n := by
  rw [meanings, List.take_append_of_le_length h]
  rfl

theorem Due.none (pc : Pc) : Due none pc := by
  cases pc <;> first | rfl | (intro after h; cases h)

/-- One queue moves on, and the ledgers with it. -/
theorem Inv.update (h : Inv c s) (i : ι) {eq : EventQueue.State} {due : Option ℕ} {events : Events} {raised : List (Raised ι)}
    (hq : Queue (c i) eq due (raisedFor i raised)) (hother : ∀ j, j ≠ i → raisedFor j raised = raisedFor j s.raised)
    (hin : events.InRing) (hord : s.read ++ events.pending.map ibvEvent = recorded raised) :
    Inv c { s with
      eqs := Function.update s.eqs i eq
      due := Function.update s.due i due
      events := events
      raised := raised } where
  queues j := by
    dsimp only
    by_cases hj : j = i
    · subst hj
      rw [Function.update_self, Function.update_self]
      exact hq
    · rw [Function.update_of_ne hj, Function.update_of_ne hj, hother j hj]
      exact h.queues j
  inRing := hin
  inOrder := hord

variable {eq : EventQueue.State} {due : Option ℕ} {raised : List (ℕ × IbvAsyncEvent)} {cfg : Config}

/-- An entry is dispatched, to the device or not. -/
theorem handled_dispatch (hdue : Due due eq.pc) {n : ℕ} (hpc : eq.pc = .dispatch n) (before after : ℕ) (mine : Bool) :
    handled due eq = eq.consumed ∧ Due (if mine then some after else none) (eq.handle cfg (before + after + mine.toNat)).pc ∧
    handled (if mine then some after else none) (eq.handle cfg (before + after + mine.toNat)) = eq.consumed + (!mine).toNat := by
  rw [hpc] at hdue
  have hnone : due = none := hdue
  have hhandled : handled due eq = eq.consumed := by
    rw [handled, if_pos hnone, hpc]
    rfl
  refine ⟨hhandled,?_,?_⟩
  · simp only [EventQueue.State.handle, hpc]
    cases mine with
    | false => exact Due.none _
    | true =>
      intro later hlater
      cases hlater
      exact Nat.lt_succ_of_le (Nat.le_add_left _ _)
  · cases mine <;> simp only [handled, EventQueue.State.handle, hpc] <;> rfl

theorem Queue.dispatch (h : Queue cfg eq due raised) {n : ℕ} (hpc : eq.pc = .dispatch n) (before after : ℕ) :
    Queue cfg (eq.handle cfg (before + after + (subscribed (cfg.dispatchType (eq.eqe cfg))).toNat))
      (if subscribed (cfg.dispatchType (eq.eqe cfg)) then some after else none) raised := by
  have hnew := EventQueue.eqe_produced h.inv (h.inv.found (by rw [hpc]; rfl))
  have hraised := h.raised
  obtain ⟨hold,hplace,hdone⟩ := handled_dispatch h.place hpc before after (subscribed (cfg.dispatchType (eq.eqe cfg)))
  rw [hold] at hraised
  refine ⟨EventQueue.handle_inv h.inv _,hplace,?_⟩
  rw [EventQueue.handle_produced, hraised, hdone]
  cases hmine : subscribed (cfg.dispatchType (eq.eqe cfg)) with
  | false =>
    have hmeaning := meaning_unsubscribed hmine (eq.eqe cfg)
    rw [show (!false).toNat = 1 from rfl, meanings_succ hnew, hmeaning]
    exact (List.append_nil _).symm
  | true => rfl

/-- The callback of the device is made for the entry at the consumer index. -/
theorem handled_callback {n left : ℕ} {type : BitVec 8} (hpc : eq.pc = .callbacks n (left + 1) type) (hmine : due = some left) :
    handled due eq = eq.consumed ∧ handled none (eq.handle cfg 0) = eq.consumed + 1 := by
  constructor
  · rw [handled, hmine, if_neg (Option.some_ne_none _), Nat.add_zero]
  · simp only [handled, EventQueue.State.handle, hpc, Pc.dispatched, if_true]

theorem Queue.callback (h : Queue cfg eq due raised) {n left : ℕ} {type : BitVec 8} (hpc : eq.pc = .callbacks n (left + 1) type)
    (hmine : due = some left) : Queue cfg (eq.handle cfg 0) none (raised ++
      ((meaning (cfg.dispatchType (eq.eqe cfg)) (eq.eqe cfg)).map (fun event => (eq.consumed,event))).toList) := by
  have hnew := EventQueue.eqe_produced h.inv (h.inv.found (by rw [hpc]; rfl))
  have hraised := h.raised
  obtain ⟨hold,hdone⟩ := handled_callback hpc hmine
  rw [hold] at hraised
  refine ⟨EventQueue.handle_inv h.inv _,Due.none _,?_⟩
  rw [EventQueue.handle_produced, hraised, ← meanings_succ hnew, hdone]

theorem handle_dispatched (hdispatch : ∀ n, eq.pc ≠ .dispatch n) : (eq.handle cfg 0).consumed +
    (eq.handle cfg 0).pc.dispatched = eq.consumed + eq.pc.dispatched := by
  cases hpc : eq.pc with
  | dispatch n => exact absurd hpc (hdispatch n)
  | callbacks n left type => cases left <;> simp only [EventQueue.State.handle, hpc, Pc.dispatched]
  | scan n =>
    simp only [EventQueue.State.handle, hpc]
    split <;> rfl
  | doorbell n =>
    simp only [EventQueue.State.handle, hpc]
    split <;> rfl
  | _ => simp only [EventQueue.State.handle, hpc]; rfl

/-- A step of the handler that neither dispatches an entry nor makes the callback of the device. -/
theorem handled_move (hdue : Due due eq.pc) (hdispatch : ∀ n, eq.pc ≠ .dispatch n)
    (hmine : ∀ n left type, eq.pc = .callbacks n (left + 1) type → due ≠ some left) :
    Due due (eq.handle cfg 0).pc ∧ handled due (eq.handle cfg 0) = handled due eq := by
  cases due with
  | none =>
    refine ⟨Due.none _,?_⟩
    rw [handled, handled, if_pos rfl, if_pos rfl, handle_dispatched hdispatch]
  | some after =>
    -- the callback of the device is still to come
    cases hpc : eq.pc with
    | callbacks n left type =>
      rw [hpc] at hdue
      have hlt := hdue after rfl
      cases left with
      | zero => exact absurd hlt (Nat.not_lt_zero _)
      | succ left =>
        have hne : after ≠ left := fun he => hmine n left type hpc (he ▸ rfl)
        constructor
        · simp only [EventQueue.State.handle, hpc]
          intro later hlater
          cases hlater
          omega
        · simp only [handled, EventQueue.State.handle, hpc, reduceCtorEq, if_false]
    | _ =>
      rw [hpc] at hdue
      cases hdue

/-- Another step of the handler. -/
theorem Queue.move (h : Queue cfg eq due raised) (hdispatch : ∀ n, eq.pc ≠ .dispatch n)
    (hmine : ∀ n left type, eq.pc = .callbacks n (left + 1) type → due ≠ some left) :
    Queue cfg (eq.handle cfg 0) due raised := by
  obtain ⟨hplace,hsame⟩ := handled_move h.place hdispatch hmine
  refine ⟨EventQueue.handle_inv h.inv _,hplace,?_⟩
  rw [EventQueue.handle_produced, hsame]
  exact h.raised

theorem consumed_le {eq : EventQueue.State} (h : EventQueue.Inv cfg eq) :
    eq.consumed + eq.pc.dispatched ≤ eq.produced.length := by
  have hcons := h.consumed
  have hfound := h.found
  cases hpc : eq.pc <;> rw [hpc] at hfound <;> first | exact hcons | exact hfound rfl

theorem Queue.dispatched_length (h : Queue cfg eq due raised) :
    eq.dispatched.length = eq.consumed + eq.pc.dispatched := by
  rw [h.inv.dispatched]
  exact List.length_take_of_le (consumed_le h.inv)

theorem handled_le {eq : EventQueue.State} (h : EventQueue.Inv cfg eq) : handled due eq ≤ eq.produced.length := by
  have hcons := consumed_le h
  unfold handled
  split <;> omega

theorem Queue.write (h : Queue cfg eq due raised) {t : EventQueue.State} (hw : eq.write cfg eqe = some t) :
    Queue cfg t due raised := by
  have hinv := EventQueue.write_inv h.inv hw
  have hle : handled due eq ≤ eq.produced.length := handled_le h.inv
  unfold EventQueue.State.write at hw
  split at hw
  · cases hw
    refine ⟨hinv,h.place,?_⟩
    rw [h.raised, handled]
    exact (meanings_append hle eqe).symm
  · cases hw

theorem raisedFor_append (i : ι) (raised : List (Raised ι)) (r : Raised ι) : raisedFor i (raised ++ [r]) =
    raisedFor i raised ++ if r.queue = i then [(r.number,ibvEvent r.event)] else [] := by
  unfold raisedFor
  rw [List.filter_append, List.map_append]
  congr 1
  by_cases h : r.queue = i
  · rw [if_pos h, List.filter_singleton, decide_eq_true h]
    rfl
  · rw [if_neg h, List.filter_singleton, decide_eq_false h]
    rfl

/-- An event goes into the ring exactly where fewer than 15 are waiting. -/
theorem queued_inOrder (h : Inv c s) (i : ι) (number : ℕ) (event : AsyncEvent) :
    s.read ++ (s.events.queueAsyncEvent event).pending.map ibvEvent =
      recorded (s.raised ++ [⟨i,number,event,s.events.pending.length⟩]) := by
  rw [Events.queueAsyncEvent_pending h.inRing, recorded, List.filter_append, List.map_append, List.filter_singleton]
  have hrec := h.inOrder
  rw [recorded] at hrec
  by_cases hroom : s.events.pending.length < 15
  · have hlt : s.events.pending.length + 1 < eventRingSize := Nat.succ_lt_succ hroom
    rw [if_pos hlt, decide_eq_true hroom, ← hrec, List.map_append, ← List.append_assoc]
    rfl
  · have hnot : ¬ s.events.pending.length + 1 < eventRingSize := fun hlt => hroom (Nat.lt_of_succ_lt_succ hlt)
    rw [if_neg hnot, decide_eq_false hroom, ← hrec]
    exact (List.append_nil _).symm

theorem callback_inv (h : Inv c s) {n left : ℕ} {type : BitVec 8} (hpc : (s.eqs i).pc = .callbacks n (left + 1) type)
    (hmine : s.due i = some left) : Inv c { s.callback c i with
      eqs := Function.update s.eqs i ((s.eqs i).handle (c i) 0)
      due := Function.update s.due i none } := by
  have hq := (h.queues i).callback hpc hmine
  rw [← toUser_handleEvent] at hq
  unfold System.callback
  cases hhandled : handleEvent ((c i).dispatchType ((s.eqs i).eqe (c i))) (some ((s.eqs i).eqe (c i))) with
  | queue event =>
    rw [hhandled] at hq
    refine h.update i ?_ ?_ (h.inRing.queueAsyncEvent event) (queued_inOrder h i _ event)
    · rw [raisedFor_append, if_pos rfl]
      exact hq
    · intro j hj
      rw [raisedFor_append, if_neg (Ne.symm hj)]
      exact List.append_nil _
  | _ =>
    rw [hhandled] at hq
    refine h.update i ?_ (fun _ _ => rfl) h.inRing h.inOrder
    rw [← List.append_nil (raisedFor i s.raised)]
    exact hq

theorem handle_inv (h : Inv c s) (i : ι) (before after : ℕ) : Inv c (s.handle c i before after) := by
  have hmove : (∀ n, (s.eqs i).pc ≠ .dispatch n) →
      (∀ n left type, (s.eqs i).pc = .callbacks n (left + 1) type → s.due i ≠ some left) →
      Inv c { s with eqs := Function.update s.eqs i ((s.eqs i).handle (c i) 0) } := by
    intro hdispatch hmine
    have hu := h.update i ((h.queues i).move hdispatch hmine) (fun _ _ => rfl) h.inRing h.inOrder
    rwa [Function.update_eq_self] at hu
  cases hpc : (s.eqs i).pc with
  | dispatch n =>
    simp only [System.handle, hpc]
    exact h.update i ((h.queues i).dispatch hpc before after) (fun _ _ => rfl) h.inRing h.inOrder
  | callbacks n left type =>
    cases left with
    | zero =>
      simp only [System.handle, hpc]
      apply hmove <;> simp [hpc]
    | succ left =>
      simp only [System.handle, hpc]
      split
      · rename_i hmine
        exact callback_inv h hpc hmine
      · rename_i hmine
        apply hmove
        · simp [hpc]
        · intro n' left' type' he
          rw [hpc] at he
          cases he
          exact hmine
  | _ =>
    simp only [System.handle, hpc]
    apply hmove <;> simp [hpc]

theorem get_inv (h : Inv c s) : Inv c s.get := by
  obtain ⟨hevent,hpending⟩ := ibvGetAsyncEvent_pending h.inRing
  have hord := h.inOrder
  have hin := h.inRing.getAsyncEvent true
  rw [show (s.events.getAsyncEvent true).2.2 = s.get.events from (congrArg Prod.snd (ibvGetAsyncEvent_eq s.events)).symm] at hin
  refine ⟨h.queues,hin,?_⟩
  simp only [System.get]
  rw [hevent, hpending, ← hord, List.append_assoc]
  congr 1
  cases s.events.pending <;> rfl

theorem step_inv {a : Action ι} (h : Inv c s) (hs : step c s a = some t) : Inv c t := by
  cases a with
  | handle i before after =>
    cases hs
    exact handle_inv h i before after
  | write i eqe =>
    obtain ⟨eq,heq,rfl⟩ := Option.map_eq_some_iff.mp hs
    have hu := h.update i ((h.queues i).write heq) (fun _ _ => rfl) h.inRing h.inOrder
    rwa [Function.update_eq_self] at hu
  | get =>
    cases hs
    exact get_inv h

/-! ## Runs -/

variable (c) in
/-- The programs read, in order and each once, the events that were raised while fewer than 15 were waiting; those
raised for a queue are the first events that the device has written into it and that mean something to a program. -/
structure Delivered (s : System ι) : Prop where
  inOrder : s.read ++ s.events.pending.map ibvEvent = recorded s.raised
  raised : ∀ i, raisedFor i s.raised = meanings (c i) (s.eqs i).produced (handled (s.due i) (s.eqs i))
  current : ∀ i, (s.eqs i).consumed ≤ handled (s.due i) (s.eqs i) ∧
    handled (s.due i) (s.eqs i) ≤ (s.eqs i).dispatched.length
  rest : ∀ i, (s.eqs i).pc = .idle → handled (s.due i) (s.eqs i) = (s.eqs i).dispatched.length
  bounded : s.events.pending.length ≤ 15
  answer : (ibvGetAsyncEvent true true true s.events).1 = none ↔ s.read = recorded s.raised

theorem Inv.delivered (h : Inv c s) : Delivered c s where
  inOrder := h.inOrder
  raised i := (h.queues i).raised
  current i := by
    rw [(h.queues i).dispatched_length, handled]
    split <;> omega
  rest i hpc := by
    have hplace := (h.queues i).place
    rw [hpc] at hplace
    have hnone : s.due i = none := hplace
    rw [(h.queues i).dispatched_length, handled, if_pos hnone]
  bounded := Nat.le_of_lt_succ h.inRing.pending_lt
  answer := by
    rw [(ibvGetAsyncEvent_pending h.inRing).1, ← h.inOrder]
    cases s.events.pending <;> simp

theorem delivered_run (hr : Reach (step c) Free initial s) : Delivered c s :=
  (hr.invariant inv_initial (fun _ _ _ h _ hs => step_inv h hs)).delivered

theorem twoEntries_lt : 1 < 32 := by decide

def twoQueues : Bool → Config
  | false => ⟨.async,1,3,twoEntries_lt⟩
  | true => ⟨.comp,1,3,twoEntries_lt⟩

def portUp : List (Action Bool) :=
  [.write false ⟨typePortStateChange,4,0,0,0⟩] ++ List.replicate 5 (.handle false 1 1) ++ [.get]

theorem delivered_run_portUp : ∃ s : System Bool, s.read = [⟨IbvEventType.portActive.value,.portNum 1⟩] ∧
    Delivered twoQueues s := by
  refine ⟨_,?_,delivered_run (reach_of_after portUp .start rfl)⟩
  rfl

end AppleMCX.EventDelivery
