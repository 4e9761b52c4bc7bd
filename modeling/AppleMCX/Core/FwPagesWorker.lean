import AppleMCX.Core.FwPagesInvariant
import AppleMCX.Interaction.Ring
import AppleMCX.Interaction.Transition

/-! # The page-request worker

PAGE_REQUEST events put requests into a ring; a thread call takes them out and processes
them; `stopRuntimeAndDrain` ends this. Every section under `fRequestLock` is one step, and
so is every other access to what the threads share. Each `thread_call_enter` adds one to
the worker runs to come, and the runs never overlap.
-/
namespace AppleMCX.FwPages
open Interaction

def requestQueueSize : ℕ := 64

/-- The fields of the event-queue entry that `handleEvent` reads. -/
structure PageRequestEqe where
  ecFunction : ℕ
  functionId : ℕ
  numPages : ℤ

/-- A queued request, with the number of the `handleEvent` call that enqueued it. -/
structure Queued where
  handler : ℕ
  request : Request
  deriving DecidableEq, Repr

inductive HandlerPc
  | enqueue (request : Request) | fatal (fault : Fault) | schedule | enter | finished
  deriving DecidableEq, Repr

inductive WorkerPc
  | idle | woken | dequeue | process (q : Queued) | flush | final | enter | report
  deriving DecidableEq, Repr

inductive StopPc
  | running | unregister | synchronize | schedule | enter | drain | cancel | waitIdle | stopped
  deriving DecidableEq, Repr

inductive Fate
  | processed
  | discarded (fFatal : Bool)
  deriving DecidableEq, Repr

/-- The runtime part of `MlxFwPages`, the threads in it, and a ledger of what became of each request. -/
structure Runtime where
  fRequests : ℕ → Queued
  fRequestHead : ℕ
  fRequestTail : ℕ
  fRequestCount : ℕ
  fAcceptRequests : Bool
  fWorkerScheduled : Bool
  fWorkerActive : Bool
  fWorkerReschedule : Bool
  fStopping : Bool
  pages : World
  quarantine : Option Fault
  registered : Bool
  pending : ℕ
  handlers : List HandlerPc
  worker : WorkerPc
  stop : StopPc
  accepted : List Queued
  settled : List (Queued × Fate)
  calls : List Request

namespace Runtime

/-- After `startRuntime`. -/
def initial (pages : World) : Runtime where
  fRequests := fun _ => ⟨0,⟨0,false,false,0⟩⟩
  fRequestHead := 0
  fRequestTail := 0
  fRequestCount := 0
  fAcceptRequests := true
  fWorkerScheduled := false
  fWorkerActive := false
  fWorkerReschedule := false
  fStopping := false
  pages
  quarantine := none
  registered := true
  pending := 0
  handlers := []
  worker := .idle
  stop := .running
  accepted := []
  settled := []
  calls := []

def contents (s : Runtime) : List Queued :=
  ringContents requestQueueSize s.fRequests s.fRequestHead s.fRequestCount

def setHandler (i : ℕ) (pc : HandlerPc) (s : Runtime) : Runtime := { s with handlers := s.handlers.set i pc }

def setFatal (fault : Fault) (s : Runtime) : Runtime :=
  { s with pages := { s.pages with host := s.pages.host.setFatal fault } }

/-- `none` where the queue refuses the request. -/
def enqueueRequest (q : Queued) (s : Runtime) : Option Runtime :=
  if s.fAcceptRequests ∧ !s.fStopping ∧ s.fRequestCount < requestQueueSize then
    some { s with
      fRequests := Function.update s.fRequests s.fRequestTail q
      fRequestTail := (s.fRequestTail + 1) % requestQueueSize
      fRequestCount := s.fRequestCount + 1
      accepted := s.accepted ++ [q] }
  else none

def dequeueRequest (s : Runtime) : Option (Queued × Runtime) :=
  if s.fRequestCount ≠ 0 then
    some (s.fRequests s.fRequestHead,
      { s with
        fRequestHead := (s.fRequestHead + 1) % requestQueueSize
        fRequestCount := s.fRequestCount - 1 })
  else none

/-- Whether the caller has to enter the thread call, and the state after the locked section. -/
def scheduleWorker (s : Runtime) : Bool × Runtime :=
  if s.fWorkerActive then (false,{ s with fWorkerReschedule := true })
  else if !s.fWorkerScheduled then (true,{ s with fWorkerScheduled := true })
  else (false,s)

def threadCallEnter (s : Runtime) : Runtime := { s with pending := s.pending + 1 }

/-! ## The steps of the three kinds of threads -/

def parseRequest (eqe : PageRequestEqe) : Request where
  functionId := eqe.functionId
  embedded := eqe.ecFunction.testBit 15
  releaseAll := eqe.ecFunction.testBit 14
  numPages := eqe.numPages

/-- Where `handleEvent` goes with an event. -/
def handleEvent (eqe : PageRequestEqe) : HandlerPc :=
  let request := parseRequest eqe
  if (!request.releaseAll ∧ request.numPages = 0) ∨ request.numPages = int32Min
  then .fatal .malformedEvent else .enqueue request

def dispatch (eqe : PageRequestEqe) (s : Runtime) : Option Runtime :=
  if s.registered then some { s with handlers := s.handlers ++ [handleEvent eqe] } else none

def handlerStep (i : ℕ) (s : Runtime) : Option Runtime :=
  match s.handlers[i]? with
  | some (.enqueue request) =>
    match s.enqueueRequest ⟨i,request⟩ with
    | some t => some (t.setHandler i .schedule)
    | none => some (s.setHandler i (.fatal .requestOverflow))
  | some (.fatal fault) => some ((s.setFatal fault).setHandler i .schedule)
  | some .schedule =>
    some (s.scheduleWorker.2.setHandler i (if s.scheduleWorker.1 then .enter else .finished))
  | some .enter => some (s.threadCallEnter.setHandler i .finished)
  | _ => none

/-- `workerMain`; the oracle answers the questions of `processRequest`. -/
def workerStep (oracle : ℕ → (q : Question) → Answer q) (s : Runtime) : Option Runtime :=
  match s.worker with
  | .idle => if s.pending = 0 then none else some { s with pending := s.pending - 1, worker := .woken }
  | .woken => some { s with fWorkerScheduled := false, fWorkerActive := true, worker := .dequeue }
  | .dequeue =>
    match s.dequeueRequest with
    | some (q,t) => some { t with worker := .process q }
    | none => some { s with worker := .final }
  | .process q =>
    let r := (processRequest q.request).run env oracle 0 s.pages
    some { s with
      pages := r.2
      settled := s.settled ++ [(q,.processed)]
      calls := s.calls ++ [q.request]
      worker := if r.1 = .success then .dequeue else .flush }
  | .flush =>
    some { s with
      fRequestHead := s.fRequestTail
      fRequestCount := 0
      settled := s.settled ++ s.contents.map (fun q => (q,.discarded s.pages.host.fFatal))
      worker := .final }
  | .final =>
    let again := (s.fWorkerReschedule || s.fRequestCount ≠ 0) && !s.fStopping
    some { s with
      fWorkerActive := false
      fWorkerReschedule := false
      fWorkerScheduled := again || s.fWorkerScheduled
      worker := if again then .enter else .report }
  | .enter => some { s.threadCallEnter with worker := .report }
  | .report =>
    some { s with
      quarantine := if s.pages.host.fFatal then some s.pages.host.fFault else s.quarantine
      worker := .idle }

def stopStep (s : Runtime) : Option Runtime :=
  match s.stop with
  | .running => some { s with fAcceptRequests := false, fStopping := true, stop := .unregister }
  | .unregister => some { s with registered := false, stop := .synchronize }
  | .synchronize => if s.handlers.all (· = .finished) then some { s with stop := .schedule } else none
  | .schedule => some { s.scheduleWorker.2 with stop := if s.scheduleWorker.1 then .enter else .drain }
  | .enter => some { s.threadCallEnter with stop := .drain }
  | .drain =>
    if !s.fWorkerActive ∧ !s.fWorkerScheduled ∧ !s.fWorkerReschedule ∧ s.fRequestCount = 0
    then some { s with stop := .cancel } else some s
  | .cancel => some { s with pending := 0, stop := .waitIdle }
  | .waitIdle => if s.worker = .idle then some { s with stop := .stopped } else none
  | .stopped => none

end Runtime

inductive Action
  | event (eqe : PageRequestEqe)
  | handler (i : ℕ)
  | worker (oracle : ℕ → (q : Question) → Answer q)
  | stop

def Runtime.step (s : Runtime) : Action → Option Runtime
  | .event eqe => s.dispatch eqe
  | .handler i => s.handlerStep i
  | .worker oracle => s.workerStep oracle
  | .stop => s.stopStep

end AppleMCX.FwPages
