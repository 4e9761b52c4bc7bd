import AppleMCX.Core.FwPagesWorker

/-! # What every run of the page-request worker keeps

The ring is a queue of the accepted requests not yet settled, `fWorkerScheduled` stands
for exactly one worker run to come, and `fWorkerActive` for a run between its first and
its last locked section.
-/
namespace AppleMCX.FwPages
open Interaction

/-- Between the first and the last locked section of `workerMain`. -/
def WorkerPc.active : WorkerPc → Bool
  | .dequeue | .process _ | .flush | .final => true
  | _ => false

def WorkerPc.inHand : WorkerPc → List Queued
  | .process q => [q]
  | _ => []

/-- The share of each thread in the worker runs announced by `fWorkerScheduled`. -/
def WorkerPc.token : WorkerPc → ℕ
  | .woken | .enter => 1
  | _ => 0

def StopPc.token : StopPc → ℕ
  | .enter => 1
  | _ => 0

def HandlerPc.enters : HandlerPc → Bool
  | .enter => true
  | _ => false

/-- No further event is dispatched. -/
def StopPc.unregistered : StopPc → Bool
  | .running | .unregister => false
  | _ => true

/-- `synchronizeCallbacks` has returned. -/
def StopPc.synchronized : StopPc → Bool
  | .running | .unregister | .synchronize => false
  | _ => true

/-- `stopRuntimeAndDrain` has made its own `scheduleWorker` call. -/
def StopPc.scheduled : StopPc → Bool
  | .enter | .drain | .cancel | .waitIdle | .stopped => true
  | _ => false

/-- The drain loop has ended. -/
def StopPc.drained : StopPc → Bool
  | .cancel | .waitIdle | .stopped => true
  | _ => false

namespace Runtime

structure Queue (s : Runtime) : Prop where
  head : s.fRequestHead < requestQueueSize
  count : s.fRequestCount ≤ requestQueueSize
  tail : s.fRequestTail = (s.fRequestHead + s.fRequestCount) % requestQueueSize
  ledger : s.accepted = s.settled.map Prod.fst ++ (s.worker.inHand ++ s.contents)
  calls : s.calls = (s.settled.filter (fun e => e.2 = .processed)).map (fun e => e.1.request)

/-- The flags and the threads they stand for. -/
structure Threads (s : Runtime) : Prop where
  active : s.fWorkerActive = s.worker.active
  exclusive : s.fWorkerActive = true → s.fWorkerScheduled = false
  tokens : s.pending + s.handlers.countP HandlerPc.enters + s.worker.token + s.stop.token =
    s.fWorkerScheduled.toNat
  stopping : s.fStopping = true ↔ s.stop ≠ .running
  unregistered : s.stop.unregistered = true → s.registered = false
  synchronized : s.stop.synchronized = true → ∀ pc ∈ s.handlers, pc = .finished
  drained : s.stop.drained = true → s.fWorkerScheduled = false ∧ s.fWorkerActive = false

variable {s t : Runtime}

/-! ## The ring -/

theorem queue_initial (pages : World) : (initial pages).Queue := by
  constructor <;> simp [initial, requestQueueSize, contents, WorkerPc.inHand]

/-- A step that leaves the ring, the ledger and the request in hand alone. -/
theorem Queue.congr (h : s.Queue) (hr : t.fRequests = s.fRequests) (hh : t.fRequestHead = s.fRequestHead)
    (ht : t.fRequestTail = s.fRequestTail) (hc : t.fRequestCount = s.fRequestCount)
    (ha : t.accepted = s.accepted) (hs : t.settled = s.settled) (hk : t.calls = s.calls)
    (hw : t.worker.inHand = s.worker.inHand) : t.Queue := by
  constructor
  · rw [hh]; exact h.head
  · rw [hc]; exact h.count
  · rw [ht, hh, hc]; exact h.tail
  · simp only [contents, ha, hs, hw, hr, hh, hc]; exact h.ledger
  · rw [hk, hs]; exact h.calls

theorem enqueueRequest_eq {q : Queued} (h : s.enqueueRequest q = some t) :
    s.fAcceptRequests = true ∧ s.fStopping = false ∧ s.fRequestCount < requestQueueSize ∧
      t = { s with
        fRequests := Function.update s.fRequests s.fRequestTail q
        fRequestTail := (s.fRequestTail + 1) % requestQueueSize
        fRequestCount := s.fRequestCount + 1
        accepted := s.accepted ++ [q] } := by
  simp only [enqueueRequest] at h
  split at h
  · rename_i hc
    exact ⟨hc.1,by simpa using hc.2.1,hc.2.2,(Option.some.inj h).symm⟩
  · cases h

theorem contents_enqueue {q : Queued} (hq : s.Queue) (h : s.enqueueRequest q = some t) :
    t.contents = s.contents ++ [q] := by
  obtain ⟨_,_,hc,rfl⟩ := enqueueRequest_eq h
  simp only [contents, hq.tail]
  exact ringContents_push _ _ _ hc

theorem Queue.enqueueRequest {q : Queued} (hq : s.Queue) (h : s.enqueueRequest q = some t) : t.Queue := by
  have hcont := contents_enqueue hq h
  obtain ⟨_,_,hc,rfl⟩ := enqueueRequest_eq h
  refine ⟨hq.head,hc,?_,?_,hq.calls⟩
  · simp only [hq.tail, Nat.mod_add_mod, Nat.add_assoc]
  · rw [hcont]
    simp only [hq.ledger, List.append_assoc]

theorem dequeueRequest_eq {q : Queued} (hq : s.Queue) (h : s.dequeueRequest = some (q,t)) :
    s.contents = q :: t.contents ∧ t = { s with
      fRequestHead := (s.fRequestHead + 1) % requestQueueSize
      fRequestCount := s.fRequestCount - 1 } := by
  simp only [dequeueRequest] at h
  split at h
  · rename_i hc
    cases h
    refine ⟨?_,rfl⟩
    obtain ⟨n,hn⟩ := Nat.exists_eq_succ_of_ne_zero hc
    simp only [contents, hn, Nat.succ_eq_add_one, ringContents_pop, Nat.add_sub_cancel,
      Nat.mod_eq_of_lt hq.head]
  · cases h

theorem contents_eq_nil (h : s.fRequestCount = 0) : s.contents = [] := by simp [contents, h]

theorem Queue.dequeueRequest {q : Queued} (hq : s.Queue) (hw : s.worker.inHand = [])
    (h : s.dequeueRequest = some (q,t)) : ({ t with worker := .process q } : Runtime).Queue := by
  obtain ⟨hcont,rfl⟩ := dequeueRequest_eq hq h
  have hne : s.fRequestCount ≠ 0 := fun h0 => by rw [contents_eq_nil h0] at hcont; cases hcont
  have hcount := hq.count
  refine ⟨Nat.mod_lt _ (by decide),by dsimp only; omega,?_,?_,hq.calls⟩
  · simp only [hq.tail, Nat.mod_add_mod]
    congr 1
    omega
  · have hl := hq.ledger
    rw [hw, List.nil_append, hcont] at hl
    exact hl

theorem Queue.processed {q : Queued} (hq : s.Queue) (hw : s.worker = .process q) (pages : World)
    {pc : WorkerPc} (hpc : pc.inHand = []) :
    ({ s with
      pages := pages
      settled := s.settled ++ [(q,.processed)]
      calls := s.calls ++ [q.request]
      worker := pc } : Runtime).Queue := by
  refine ⟨hq.head,hq.count,hq.tail,?_,?_⟩
  · have hl := hq.ledger
    simp only [hw, WorkerPc.inHand, List.singleton_append] at hl
    simp only [hpc, List.nil_append, List.map_append, List.map_cons, List.map_nil, List.append_assoc,
      List.singleton_append]
    exact hl
  · simp [hq.calls]

theorem Queue.flush (hq : s.Queue) (hw : s.worker.inHand = []) :
    ({ s with
      fRequestHead := s.fRequestTail
      fRequestCount := 0
      settled := s.settled ++ s.contents.map (fun q => (q,.discarded s.pages.host.fFatal))
      worker := .final } : Runtime).Queue := by
  have htail : s.fRequestTail < requestQueueSize := by rw [hq.tail]; exact Nat.mod_lt _ (by decide)
  refine ⟨htail,Nat.zero_le _,by simp [Nat.mod_eq_of_lt htail],?_,?_⟩
  · have hl := hq.ledger
    rw [hw, List.nil_append] at hl
    simpa [contents, WorkerPc.inHand, Function.comp_def] using hl
  · have hnone : (s.contents.map (fun q => (q,Fate.discarded s.pages.host.fFatal))).filter
        (fun e => e.2 = .processed) = [] := by
      refine List.filter_eq_nil_iff.mpr (fun e he => ?_)
      obtain ⟨q,_,rfl⟩ := List.mem_map.mp he
      simp
    simp only [List.filter_append, hnone, List.append_nil]
    exact hq.calls

theorem Queue.scheduleWorker (hq : s.Queue) : s.scheduleWorker.2.Queue := by
  simp only [Runtime.scheduleWorker]
  split
  · exact hq.congr rfl rfl rfl rfl rfl rfl rfl rfl
  · split <;> exact hq.congr rfl rfl rfl rfl rfl rfl rfl rfl

/-- Every step keeps the ring a queue and the ledger complete. -/
theorem step_queue {a : Action} (hq : s.Queue) (h : s.step a = some t) : t.Queue := by
  cases a with
  | event eqe =>
    simp only [step, dispatch] at h
    split at h
    · cases h; exact hq.congr rfl rfl rfl rfl rfl rfl rfl rfl
    · cases h
  | handler i =>
    simp only [step, handlerStep] at h
    split at h
    · split at h
      · rename_i u hu
        cases h
        exact (hq.enqueueRequest hu).congr rfl rfl rfl rfl rfl rfl rfl rfl
      · cases h; exact hq.congr rfl rfl rfl rfl rfl rfl rfl rfl
    · cases h; exact hq.congr rfl rfl rfl rfl rfl rfl rfl rfl
    · cases h; exact hq.scheduleWorker.congr rfl rfl rfl rfl rfl rfl rfl rfl
    · cases h; exact hq.congr rfl rfl rfl rfl rfl rfl rfl rfl
    · cases h
  | worker oracle =>
    simp only [step, workerStep] at h
    cases hw : s.worker with
    | idle =>
      simp only [hw] at h
      split at h
      · cases h
      · cases h; exact hq.congr rfl rfl rfl rfl rfl rfl rfl (by simp [hw, WorkerPc.inHand])
    | woken => simp only [hw] at h; cases h; exact hq.congr rfl rfl rfl rfl rfl rfl rfl (by simp [hw, WorkerPc.inHand])
    | dequeue =>
      simp only [hw] at h
      split at h
      · rename_i q u hu
        cases h
        exact hq.dequeueRequest (by simp [hw, WorkerPc.inHand]) hu
      · cases h; exact hq.congr rfl rfl rfl rfl rfl rfl rfl (by simp [hw, WorkerPc.inHand])
    | process q =>
      simp only [hw] at h
      cases h
      exact hq.processed hw _ (by split <;> rfl)
    | flush =>
      simp only [hw] at h
      cases h
      exact hq.flush (by simp [hw, WorkerPc.inHand])
    | final =>
      simp only [hw] at h
      cases h
      exact hq.congr rfl rfl rfl rfl rfl rfl rfl (by rw [hw]; dsimp only; split <;> rfl)
    | enter => simp only [hw] at h; cases h; exact hq.congr rfl rfl rfl rfl rfl rfl rfl (by simp [hw, WorkerPc.inHand])
    | report => simp only [hw] at h; cases h; exact hq.congr rfl rfl rfl rfl rfl rfl rfl (by simp [hw, WorkerPc.inHand])
  | stop =>
    simp only [step, stopStep] at h
    cases hs : s.stop with
    | synchronize | waitIdle =>
      simp only [hs] at h
      split at h
      · cases h; exact hq.congr rfl rfl rfl rfl rfl rfl rfl rfl
      · cases h
    | schedule => simp only [hs] at h; cases h; exact hq.scheduleWorker.congr rfl rfl rfl rfl rfl rfl rfl rfl
    | drain =>
      simp only [hs] at h
      split at h
      · cases h; exact hq.congr rfl rfl rfl rfl rfl rfl rfl rfl
      · cases h; exact hq
    | stopped => simp [hs] at h
    | _ => simp only [hs] at h; cases h; exact hq.congr rfl rfl rfl rfl rfl rfl rfl rfl

/-! ## The flags -/

theorem threads_initial (pages : World) : (initial pages).Threads := by
  constructor <;> simp [initial, WorkerPc.active, WorkerPc.token, StopPc.token, StopPc.unregistered,
    StopPc.synchronized, StopPc.drained]

theorem countP_set_handler {handlers : List HandlerPc} {i : ℕ} {pc : HandlerPc} (pc' : HandlerPc)
    (hi : handlers[i]? = some pc) :
    (handlers.set i pc').countP HandlerPc.enters + pc.enters.toNat =
      handlers.countP HandlerPc.enters + pc'.enters.toNat := by
  obtain ⟨hlt,rfl⟩ := List.getElem?_eq_some_iff.mp hi
  rw [List.countP_set hlt]
  have hpos : handlers[i].enters = true → 0 < handlers.countP HandlerPc.enters :=
    fun he => List.countP_pos_iff.mpr ⟨_,List.getElem_mem hlt,he⟩
  cases h₁ : handlers[i].enters <;> cases h₂ : pc'.enters <;> simp_all

theorem StopPc.unregistered_of_synchronized {pc : StopPc} (h : pc.synchronized = true) :
    pc.unregistered = true := by
  cases pc <;> simp_all [StopPc.unregistered, StopPc.synchronized]

theorem StopPc.synchronized_of_drained {pc : StopPc} (h : pc.drained = true) : pc.synchronized = true := by
  cases pc <;> simp_all [StopPc.drained, StopPc.synchronized]

theorem Threads.handler (h : s.Threads) {i : ℕ} {pc pc' : HandlerPc} (hi : s.handlers[i]? = some pc)
    (hne : pc ≠ .finished) (hactive : t.fWorkerActive = s.fWorkerActive) (hworker : t.worker = s.worker)
    (hstop : t.stop = s.stop) (hstopping : t.fStopping = s.fStopping)
    (hregistered : t.registered = s.registered) (hhandlers : t.handlers = s.handlers.set i pc')
    (hsched : t.fWorkerScheduled = s.fWorkerScheduled ∨ s.fWorkerActive = false)
    (htokens : t.pending + pc'.enters.toNat + s.fWorkerScheduled.toNat =
      s.pending + pc.enters.toNat + t.fWorkerScheduled.toNat) : t.Threads := by
  have hrun : s.stop.synchronized = false := by
    by_contra hs
    exact hne (h.synchronized (by simpa using hs) pc (List.mem_of_getElem? hi))
  refine ⟨by rw [hactive, hworker]; exact h.active,?_,?_,by rw [hstopping, hstop]; exact h.stopping,
    by rw [hstop, hregistered]; exact h.unregistered,?_,?_⟩
  · intro ha
    rw [hactive] at ha
    rcases hsched with hs | hs
    · rw [hs]; exact h.exclusive ha
    · rw [hs] at ha; cases ha
  · have hc := countP_set_handler pc' hi
    have ht := h.tokens
    rw [hworker, hstop, hhandlers]
    omega
  · intro hs
    rw [hstop, hrun] at hs
    cases hs
  · intro hs
    rw [hstop] at hs
    rw [StopPc.synchronized_of_drained hs] at hrun
    cases hrun

theorem Threads.work (h : s.Threads) (hactive : t.fWorkerActive = t.worker.active)
    (hexcl : t.fWorkerActive = true → t.fWorkerScheduled = false)
    (hstop : t.stop = s.stop) (hstopping : t.fStopping = s.fStopping) (hregistered : t.registered = s.registered)
    (hhandlers : t.handlers = s.handlers)
    (htokens : t.pending + t.worker.token + s.fWorkerScheduled.toNat =
      s.pending + s.worker.token + t.fWorkerScheduled.toNat)
    (hdrained : s.pending = 0 → s.worker.token = 0 → s.worker.active = false →
      t.fWorkerScheduled = s.fWorkerScheduled ∧ t.worker.active = false) : t.Threads := by
  refine ⟨hactive,hexcl,?_,by rw [hstopping, hstop]; exact h.stopping,
    by rw [hstop, hregistered]; exact h.unregistered,?_,?_⟩
  · have ht := h.tokens
    rw [hstop, hhandlers]
    omega
  · rw [hstop, hhandlers]
    exact h.synchronized
  · intro hs
    rw [hstop] at hs
    obtain ⟨hsched,hact⟩ := h.drained hs
    have ht := h.tokens
    rw [hsched, Bool.toNat_false] at ht
    obtain ⟨hs',ha'⟩ := hdrained (by omega) (by omega) (h.active ▸ hact)
    exact ⟨hs'.trans hsched,hactive.trans ha'⟩

/-- What the locked section of `scheduleWorker` does to the flags. -/
theorem scheduleWorker_flags (s : Runtime) :
    s.scheduleWorker.2.fWorkerActive = s.fWorkerActive ∧ s.scheduleWorker.2.worker = s.worker ∧
    s.scheduleWorker.2.stop = s.stop ∧ s.scheduleWorker.2.fStopping = s.fStopping ∧
    s.scheduleWorker.2.handlers = s.handlers ∧ s.scheduleWorker.2.registered = s.registered ∧
    s.scheduleWorker.2.pending = s.pending ∧
    (s.scheduleWorker.2.fWorkerScheduled = true ∨ s.fWorkerActive = true) ∧
    (s.scheduleWorker.2.fWorkerScheduled = s.fWorkerScheduled ∨ s.fWorkerActive = false) ∧
    s.scheduleWorker.1.toNat + s.fWorkerScheduled.toNat = s.scheduleWorker.2.fWorkerScheduled.toNat := by
  cases ha : s.fWorkerActive <;> cases hs : s.fWorkerScheduled <;> simp [scheduleWorker, ha, hs]

theorem handleEvent_enters (eqe : PageRequestEqe) : (handleEvent eqe).enters = false := by
  simp only [handleEvent]
  split <;> rfl

theorem Threads.dispatch {eqe : PageRequestEqe} (h : s.Threads) (hs : s.dispatch eqe = some t) : t.Threads := by
  simp only [Runtime.dispatch] at hs
  split at hs
  · rename_i hreg
    cases hs
    have hrun : s.stop.synchronized = true → False := fun hs => by
      rw [h.unregistered (StopPc.unregistered_of_synchronized hs)] at hreg
      cases hreg
    refine ⟨h.active,h.exclusive,?_,h.stopping,h.unregistered,fun hs => (hrun hs).elim,h.drained⟩
    have ht := h.tokens
    simpa [handleEvent_enters] using ht
  · cases hs

theorem Threads.handlerStep {i : ℕ} (h : s.Threads) (hs : s.handlerStep i = some t) : t.Threads := by
  simp only [Runtime.handlerStep] at hs
  split at hs
  · rename_i request hi
    split at hs
    · rename_i u hu
      obtain ⟨_,_,_,rfl⟩ := enqueueRequest_eq hu
      cases hs
      exact h.handler hi (by simp) rfl rfl rfl rfl rfl rfl (Or.inl rfl) (by simp [setHandler, HandlerPc.enters])
    · cases hs
      exact h.handler hi (by simp) rfl rfl rfl rfl rfl rfl (Or.inl rfl) (by simp [setHandler, HandlerPc.enters])
  · rename_i fault hi
    cases hs
    exact h.handler hi (by simp) rfl rfl rfl rfl rfl rfl (Or.inl rfl) (by simp [setHandler, setFatal, HandlerPc.enters])
  · rename_i hi
    cases hs
    obtain ⟨hact,hwork,hstop,hstopping,hhand,hreg,hpend,_,hsched,htok⟩ := scheduleWorker_flags s
    refine h.handler hi (by simp) hact hwork hstop hstopping hreg (by simp only [setHandler, hhand]; rfl) hsched ?_
    simp only [setHandler, hpend, ← htok]
    cases s.scheduleWorker.1 <;> simp [HandlerPc.enters, Nat.add_assoc]
  · rename_i hi
    cases hs
    exact h.handler hi (by simp) rfl rfl rfl rfl rfl rfl (Or.inl rfl)
      (by simp [setHandler, threadCallEnter, HandlerPc.enters])
  · cases hs

theorem Threads.workerStep {oracle : ℕ → (q : Question) → Answer q} (h : s.Threads)
    (hs : s.workerStep oracle = some t) : t.Threads := by
  have hactive := h.active
  have hexcl := h.exclusive
  simp only [Runtime.workerStep] at hs
  cases hw : s.worker with
  | idle =>
    simp only [hw] at hs hactive
    split at hs
    · cases hs
    · rename_i hp
      cases hs
      exact h.work hactive hexcl rfl rfl rfl rfl (by simp [hw, WorkerPc.token]; omega) (by simp; omega)
  | woken =>
    simp only [hw] at hs
    cases hs
    have ht := h.tokens
    simp only [hw, WorkerPc.token] at ht
    have hone : s.fWorkerScheduled.toNat ≤ 1 := Bool.toNat_le _
    refine h.work rfl (by simp) rfl rfl rfl rfl ?_ (by simp [hw, WorkerPc.token])
    simp only [hw, WorkerPc.token, Bool.toNat_false]
    omega
  | dequeue =>
    simp only [hw] at hs hactive
    split at hs
    · rename_i q u hu
      simp only [Runtime.dequeueRequest] at hu
      split at hu
      · cases hu
        cases hs
        exact h.work hactive hexcl rfl rfl rfl rfl (by simp [hw, WorkerPc.token])
          (by simp [hw, WorkerPc.active])
      · cases hu
    · cases hs
      exact h.work hactive hexcl rfl rfl rfl rfl (by simp [hw, WorkerPc.token])
        (by simp [hw, WorkerPc.active])
  | process q =>
    simp only [hw] at hs hactive
    cases hs
    refine h.work ?_ hexcl rfl rfl rfl rfl ?_ (by simp [hw, WorkerPc.active])
    · rw [hactive]; dsimp only; split <;> rfl
    · rw [hw]; dsimp only; split <;> rfl
  | flush =>
    simp only [hw] at hs hactive
    cases hs
    exact h.work hactive hexcl rfl rfl rfl rfl (by simp [hw, WorkerPc.token])
      (by simp [hw, WorkerPc.active])
  | final =>
    simp only [hw] at hs hactive
    have hsched : s.fWorkerScheduled = false := hexcl hactive
    generalize ((s.fWorkerReschedule || decide (s.fRequestCount ≠ 0)) && !s.fStopping) = again at hs
    cases hs
    refine h.work ?_ (by simp) rfl rfl rfl rfl ?_ (by simp [hw, WorkerPc.active])
    · cases again <;> rfl
    · rw [hw, hsched]
      cases again <;> simp [WorkerPc.token]
  | enter =>
    simp only [hw] at hs hactive
    cases hs
    exact h.work hactive hexcl rfl rfl rfl rfl (by simp [hw, threadCallEnter, WorkerPc.token])
      (by simp [hw, WorkerPc.token])
  | report =>
    simp only [hw] at hs hactive
    cases hs
    exact h.work hactive hexcl rfl rfl rfl rfl (by simp [hw, WorkerPc.token])
      (by simp [WorkerPc.active])

theorem Threads.stopStep (h : s.Threads) (hs : s.stopStep = some t) : t.Threads := by
  have htok := h.tokens
  have hstopping := h.stopping
  have hunreg := h.unregistered
  have hsync := h.synchronized
  have hdrained := h.drained
  simp only [Runtime.stopStep] at hs
  cases hp : s.stop with
  | running =>
    simp only [hp] at hs htok
    cases hs
    exact ⟨h.active,h.exclusive,htok,by simp,by simp [StopPc.unregistered],by simp [StopPc.synchronized],
      by simp [StopPc.drained]⟩
  | unregister =>
    simp only [hp] at hs htok hstopping
    cases hs
    exact ⟨h.active,h.exclusive,htok,by simpa using hstopping,fun _ => rfl,by simp [StopPc.synchronized],
      by simp [StopPc.drained]⟩
  | synchronize =>
    simp only [hp] at hs htok hstopping hunreg
    split at hs
    · rename_i hall
      cases hs
      exact ⟨h.active,h.exclusive,htok,by simpa using hstopping,hunreg,fun _ => by simpa using hall,
        by simp [StopPc.drained]⟩
    · cases hs
  | schedule =>
    simp only [hp] at hs htok hstopping hunreg hsync
    obtain ⟨hact,hwork,_,hst,hhand,hreg,hpend,_,hsched,hinc⟩ := scheduleWorker_flags s
    cases hs
    refine ⟨?_,?_,?_,?_,?_,?_,?_⟩
    · rw [hact, hwork]; exact h.active
    · intro ha
      rw [hact] at ha
      rcases hsched with he | he
      · rw [he]; exact h.exclusive ha
      · rw [he] at ha; cases ha
    · have hpc : ∀ b : Bool, StopPc.token (if b then .enter else .drain) = b.toNat := by decide
      simp only [hpend, hhand, hwork, hpc]
      simp only [StopPc.token] at htok
      omega
    · rw [hst]
      have hpc : ∀ b : Bool, (if b then StopPc.enter else .drain) ≠ .running := by decide
      simpa [hpc] using hstopping
    · intro _
      rw [hreg]
      exact hunreg rfl
    · intro _
      rw [hhand]
      exact hsync rfl
    · have hpc : ∀ b : Bool, StopPc.drained (if b then .enter else .drain) = false := by decide
      simp [hpc]
  | enter =>
    simp only [hp] at hs htok hstopping hunreg hsync
    cases hs
    refine ⟨h.active,h.exclusive,?_,by simpa [threadCallEnter] using hstopping,hunreg,hsync,by simp [StopPc.drained]⟩
    simp only [threadCallEnter, StopPc.token] at htok ⊢
    omega
  | drain =>
    simp only [hp] at hs htok hstopping hunreg hsync
    split at hs
    · rename_i hc
      cases hs
      exact ⟨h.active,h.exclusive,htok,by simpa using hstopping,hunreg,hsync,
        fun _ => by simpa using And.intro hc.2.1 hc.1⟩
    · cases hs; exact h
  | cancel =>
    simp only [hp] at hs htok hstopping hunreg hsync hdrained
    cases hs
    refine ⟨h.active,h.exclusive,?_,by simpa using hstopping,hunreg,hsync,hdrained⟩
    have hz : s.fWorkerScheduled.toNat = 0 := by rw [(hdrained rfl).1]; rfl
    simp only [StopPc.token] at htok ⊢
    omega
  | waitIdle =>
    simp only [hp] at hs htok hstopping hunreg hsync hdrained
    split at hs
    · cases hs
      exact ⟨h.active,h.exclusive,htok,by simpa using hstopping,hunreg,hsync,hdrained⟩
    · cases hs
  | stopped => simp [hp] at hs

theorem step_threads {a : Action} (h : s.Threads) (hs : s.step a = some t) : t.Threads := by
  cases a with
  | event eqe => exact h.dispatch hs
  | handler i => exact h.handlerStep hs
  | worker oracle => exact h.workerStep hs
  | stop => exact h.stopStep hs

end Runtime
end AppleMCX.FwPages
