import AppleMCX.Core.FwPagesOwnership
import AppleMCX.Core.FwPagesWorkerInvariant

/-! # No request is stranded, and none is lost

A queued request always has a worker run ahead of it, up to one order of steps at the
end: a run that saw the queue empty may close after `stopRuntimeAndDrain` has made its own
`scheduleWorker` call. A request is dropped only by the flush after a failed one, which
also happens where nothing fatal was recorded.
-/
namespace AppleMCX.FwPages
open Interaction

namespace Runtime

/-- Before stop, a request that no worker run will see still has its `scheduleWorker` call ahead. -/
def Waiting (s : Runtime) : Prop :=
  s.stop = .running → s.fWorkerScheduled = false → s.fWorkerActive = false →
    ∀ q ∈ s.contents, s.handlers[q.handler]? = some .schedule

variable {s t : Runtime}

theorem waiting_initial (pages : World) : (initial pages).Waiting := by
  intro _ _ _ q hq
  simp [initial, contents] at hq

theorem Waiting.handlers (h : s.Waiting) {i : ℕ} {pc pc' : HandlerPc} (hi : s.handlers[i]? = some pc)
    (hpc : pc ≠ .schedule) (hstop : t.stop = s.stop) (hsched : t.fWorkerScheduled = s.fWorkerScheduled)
    (hactive : t.fWorkerActive = s.fWorkerActive) (hhandlers : t.handlers = s.handlers.set i pc')
    (hcont : ∀ q ∈ t.contents, q ∈ s.contents ∨ q.handler = i ∧ pc' = .schedule) : t.Waiting := by
  intro hr hs ha q hq
  rw [hstop] at hr
  rw [hsched] at hs
  rw [hactive] at ha
  rw [hhandlers]
  rcases hcont q hq with hq | ⟨rfl,rfl⟩
  · have hold := h hr hs ha q hq
    have hne : i ≠ q.handler := by
      rintro rfl
      rw [hi] at hold
      exact hpc (Option.some.inj hold)
    rw [List.getElem?_set_ne hne]
    exact hold
  · obtain ⟨hlt,_⟩ := List.getElem?_eq_some_iff.mp hi
    exact List.getElem?_set_self hlt

theorem Waiting.of_active (hactive : t.fWorkerActive = true) : t.Waiting := by
  intro _ _ hnot
  rw [hactive] at hnot
  cases hnot

theorem handler_waiting {i : ℕ} (hq : s.Queue) (h : s.Waiting) (hs : s.handlerStep i = some t) : t.Waiting := by
  simp only [handlerStep] at hs
  split at hs
  · rename_i request hi
    split at hs
    · rename_i u hu
      have hcont := contents_enqueue hq hu
      obtain ⟨_,_,_,rfl⟩ := enqueueRequest_eq hu
      cases hs
      refine h.handlers hi (by simp) rfl rfl rfl rfl (fun q hqm => ?_)
      have hmem : q ∈ s.contents ++ [⟨i,request⟩] := hcont ▸ hqm
      rcases List.mem_append.mp hmem with hm | hm
      · exact Or.inl hm
      · rw [List.mem_singleton.mp hm]
        exact Or.inr ⟨rfl,rfl⟩
    · cases hs
      exact h.handlers hi (by simp) rfl rfl rfl rfl (fun q hqm => Or.inl hqm)
  · rename_i fault hi
    cases hs
    exact h.handlers hi (by simp) rfl rfl rfl rfl (fun q hqm => Or.inl hqm)
  · cases hs
    obtain ⟨hact,_,_,_,_,_,_,hone,_⟩ := scheduleWorker_flags s
    intro _ hsched hactive
    simp only [setHandler] at hsched hactive
    rcases hone with hone | hone
    · rw [hone] at hsched; cases hsched
    · rw [hact, hone] at hactive; cases hactive
  · rename_i hi
    cases hs
    exact h.handlers hi (by simp) rfl rfl rfl rfl (fun q hqm => Or.inl hqm)
  · cases hs

/-- A run closes without another one ahead only over an empty queue. -/
theorem worker_waiting {oracle : ℕ → (q : Question) → Answer q} (hq : s.Queue) (ht : s.Threads) (h : s.Waiting)
    (hs : s.workerStep oracle = some t) : t.Waiting := by
  have hact := ht.active
  simp only [workerStep] at hs
  cases hw : s.worker with
  | idle =>
    simp only [hw] at hs
    split at hs
    · cases hs
    · cases hs; exact h
  | woken =>
    simp only [hw] at hs
    cases hs
    exact .of_active rfl
  | dequeue =>
    simp only [hw] at hs hact
    split at hs
    · rename_i q u hu
      obtain ⟨_,rfl⟩ := dequeueRequest_eq hq hu
      cases hs
      exact .of_active hact
    · cases hs
      exact .of_active hact
  | process q =>
    simp only [hw] at hs hact
    cases hs
    exact .of_active hact
  | flush =>
    simp only [hw] at hs hact
    cases hs
    exact .of_active hact
  | final =>
    simp only [hw] at hs
    cases hs
    intro hr hsched _ q hqm
    have hrun : s.fStopping = false := by
      have hst := ht.stopping
      rw [show s.stop = .running from hr] at hst
      simpa using hst
    have hcount : s.fRequestCount = 0 := by
      by_contra hne
      simp [hrun, hne] at hsched
    have hqm' : q ∈ s.contents := hqm
    rw [contents_eq_nil hcount] at hqm'
    cases hqm'
  | enter => simp only [hw] at hs; cases hs; exact h
  | report => simp only [hw] at hs; cases hs; exact h

theorem stopStep_stopping (hs : s.stopStep = some t) : t.stop ≠ .running := by
  simp only [stopStep] at hs
  cases hp : s.stop with
  | synchronize | waitIdle => simp only [hp] at hs; split at hs <;> cases hs; simp
  | schedule => simp only [hp] at hs; cases hs; dsimp only; split <;> simp
  | drain =>
    simp only [hp] at hs
    split at hs
    · cases hs; simp
    · cases hs; simp [hp]
  | stopped => simp [hp] at hs
  | _ => simp only [hp] at hs; cases hs; simp

theorem step_waiting {a : Action} (hq : s.Queue) (ht : s.Threads) (h : s.Waiting) (hs : s.step a = some t) :
    t.Waiting := by
  cases a with
  | event eqe =>
    simp only [step, dispatch] at hs
    split at hs
    · cases hs
      intro hr hsched hactive q hqm
      have hold := h hr hsched hactive q hqm
      obtain ⟨hlt,_⟩ := List.getElem?_eq_some_iff.mp hold
      rw [List.getElem?_append_left hlt]
      exact hold
    · cases hs
  | handler i => exact handler_waiting hq h hs
  | worker oracle => exact worker_waiting hq ht h hs
  | stop => exact fun hr => absurd hr (stopStep_stopping hs)

/-- What every run keeps, whatever the order of its steps. -/
structure Ok (s : Runtime) : Prop where
  queue : s.Queue
  threads : s.Threads
  waiting : s.Waiting

theorem ok_initial (pages : World) : (initial pages).Ok :=
  ⟨queue_initial pages,threads_initial pages,waiting_initial pages⟩

theorem step_ok {a : Action} (h : s.Ok) (hs : s.step a = some t) : t.Ok :=
  ⟨step_queue h.queue hs,step_threads h.threads hs,step_waiting h.queue h.threads h.waiting hs⟩

theorem reach_ok {Meets : Runtime → Action → Prop} {pages : World}
    (h : Reach step Meets (initial pages) s) : s.Ok :=
  h.invariant (ok_initial pages) (fun _ _ _ hs _ => step_ok hs)

/-! ## Stranded requests -/

/-- A queued request whose `handleEvent` has finished has a worker run before it, and so has the
queue once `stopRuntimeAndDrain` has called `scheduleWorker`. -/
def NeverStranded (s : Runtime) : Prop :=
  (s.stop = .running → ∀ q ∈ s.contents, s.handlers[q.handler]? = some .finished →
    s.fWorkerScheduled = true ∨ s.fWorkerActive = true) ∧
  (s.stop.scheduled = true → 0 < s.fRequestCount → s.fWorkerScheduled = true ∨ s.fWorkerActive = true)

/-- After the `scheduleWorker` call of stop, a worker run closes only over an empty queue. -/
def ClosesEmpty (s : Runtime) : Action → Prop
  | .worker _ => s.worker = .final → s.stop.scheduled = true → s.fRequestCount = 0
  | _ => True

/-- The second half of `NeverStranded`, as an invariant. -/
def Draining (s : Runtime) : Prop :=
  s.stop.scheduled = true → 0 < s.fRequestCount → s.fWorkerScheduled = true ∨ s.fWorkerActive = true

theorem StopPc.ne_running_of_scheduled {pc : StopPc} (h : pc.scheduled = true) : pc ≠ .running := by
  rintro rfl
  cases h

theorem StopPc.synchronized_of_scheduled {pc : StopPc} (h : pc.scheduled = true) : pc.synchronized = true := by
  cases pc <;> simp_all [StopPc.scheduled, StopPc.synchronized]

theorem worker_draining {oracle : ℕ → (q : Question) → Answer q} (ht : s.Threads) (h : s.Draining)
    (hm : ClosesEmpty s (.worker oracle)) (hs : s.workerStep oracle = some t) : t.Draining := by
  have hact := ht.active
  simp only [workerStep] at hs
  cases hw : s.worker with
  | idle =>
    simp only [hw] at hs
    split at hs
    · cases hs
    · cases hs; exact h
  | woken => simp only [hw] at hs; cases hs; exact fun _ _ => Or.inr rfl
  | dequeue =>
    simp only [hw] at hs hact
    split at hs
    · rename_i q u hu
      simp only [dequeueRequest] at hu
      split at hu
      · cases hu; cases hs; exact fun _ _ => Or.inr hact
      · cases hu
    · cases hs; exact fun _ _ => Or.inr hact
  | process q => simp only [hw] at hs hact; cases hs; exact fun _ _ => Or.inr hact
  | flush => simp only [hw] at hs; cases hs; exact fun _ hc => absurd hc (Nat.lt_irrefl 0)
  | final =>
    simp only [hw] at hs
    cases hs
    intro hst hc
    have hz : s.fRequestCount = 0 := hm hw hst
    exact absurd (hz ▸ hc) (Nat.lt_irrefl 0)
  | enter => simp only [hw] at hs; cases hs; exact h
  | report => simp only [hw] at hs; cases hs; exact h

theorem step_draining {a : Action} (ht : s.Threads) (h : s.Draining) (hm : ClosesEmpty s a)
    (hs : s.step a = some t) : t.Draining := by
  cases a with
  | event eqe =>
    simp only [step, dispatch] at hs
    split at hs
    · cases hs; exact h
    · cases hs
  | handler i =>
    -- after `synchronizeCallbacks` no `handleEvent` call has a step left
    have hrun : ∀ {pc}, s.handlers[i]? = some pc → pc ≠ .finished → ¬ s.stop.scheduled = true :=
      fun hi hne hst => hne (ht.synchronized (StopPc.synchronized_of_scheduled hst) _ (List.mem_of_getElem? hi))
    simp only [step, handlerStep] at hs
    split at hs
    · rename_i request hi
      split at hs
      · rename_i u hu
        obtain ⟨_,_,_,rfl⟩ := enqueueRequest_eq hu
        cases hs
        exact fun hst => absurd hst (hrun hi (by simp))
      · cases hs; exact h
    · cases hs; exact h
    · rename_i hi
      cases hs
      obtain ⟨_,_,hstop,_⟩ := scheduleWorker_flags s
      intro hst
      simp only [setHandler, hstop] at hst
      exact absurd hst (hrun hi (by simp))
    · cases hs; exact h
    · cases hs
  | worker oracle => exact worker_draining ht h hm hs
  | stop =>
    simp only [step, stopStep] at hs
    cases hp : s.stop with
    | running => simp only [hp] at hs; cases hs; exact fun hst => by cases hst
    | unregister => simp only [hp] at hs; cases hs; exact fun hst => by cases hst
    | synchronize =>
      simp only [hp] at hs
      split at hs
      · cases hs; exact fun hst => by cases hst
      · cases hs
    | schedule =>
      simp only [hp] at hs
      cases hs
      obtain ⟨hact,_,_,_,_,_,_,hone,_⟩ := scheduleWorker_flags s
      exact fun _ _ => hone.imp id (fun ha => hact.trans ha)
    | enter => simp only [hp] at hs; cases hs; exact fun _ => h (by rw [hp]; rfl)
    | drain =>
      simp only [hp] at hs
      split at hs
      · cases hs; exact fun _ => h (by rw [hp]; rfl)
      · cases hs; exact h
    | cancel => simp only [hp] at hs; cases hs; exact fun _ => h (by rw [hp]; rfl)
    | waitIdle =>
      simp only [hp] at hs
      split at hs
      · cases hs; exact fun _ => h (by rw [hp]; rfl)
      · cases hs
    | stopped => simp [hp] at hs

/-- A worker run that closes over a queued request after stop leaves it stranded. -/
theorem final_strands {oracle : ℕ → (q : Question) → Answer q} (ht : s.Threads)
    (hs : s.workerStep oracle = some t) (hw : s.worker = .final) (hst : s.stop.scheduled = true)
    (hc : s.fRequestCount ≠ 0) : ¬ t.NeverStranded := by
  have hstop : s.fStopping = true := ht.stopping.mpr (StopPc.ne_running_of_scheduled hst)
  have hact : s.fWorkerActive = true := by rw [ht.active, hw]; rfl
  simp only [workerStep, hw] at hs
  cases hs
  rintro ⟨_,h⟩
  have hflags := h hst (Nat.pos_of_ne_zero hc)
  simp [hstop, ht.exclusive hact] at hflags

/-- No request is stranded in a run whose worker runs close over an empty queue once stop has called
`scheduleWorker`; the first one that does not strands a request. -/
theorem neverStranded_run (pages : World) :
    (∀ s, Reach step ClosesEmpty (initial pages) s → s.NeverStranded) ∧
    ∀ s a t, Reach step Free (initial pages) s → step s a = some t → ¬ ClosesEmpty s a → ¬ t.NeverStranded := by
  constructor
  · intro s hr
    have hok := reach_ok hr
    have hdrain := hr.invariant (J := fun s => s.Ok ∧ s.Draining) ⟨ok_initial pages,fun hst => by cases hst⟩
      (fun _ _ _ h hm hs => ⟨step_ok h.1 hs,step_draining h.1.threads h.2 hm hs⟩)
    refine ⟨fun hrun q hq hfin => ?_,hdrain.2⟩
    by_contra hno
    obtain ⟨hsched,hact⟩ := not_or.mp hno
    have hw := hok.waiting hrun (by simpa using hsched) (by simpa using hact) q hq
    rw [hfin] at hw
    cases hw
  · intro s a t hr hs hm
    cases a with
    | worker oracle =>
      simp only [ClosesEmpty, Classical.not_imp] at hm
      exact final_strands (reach_ok hr).threads hs hm.1 hm.2.1 hm.2.2
    | _ => exact absurd trivial hm

def releaseAllEqe : PageRequestEqe := ⟨0x4000,0,0⟩

/-- The second event arrives after the worker saw the queue empty, and stop calls `scheduleWorker`
before the worker closes. -/
def strandingActions : List Action :=
  let work := Action.worker (fun _ => onePageAnswers)
  [.event releaseAllEqe,.handler 0,.handler 0,.handler 0,work,work,work,work,work,
    .event releaseAllEqe,.handler 1,.handler 1,.stop,.stop,.stop,.stop,work]

theorem request_stranded :
    ¬ ∀ s, Reach step Free (initial (FwPages.initial false)) s → s.NeverStranded := by
  intro h
  have hs := h _ (reach_of_after strandingActions .start rfl)
  have hflags := hs.2 rfl (by decide)
  revert hflags
  decide

/-! ## Lost requests -/

/-- No thread has a step of its own to take before the next event. -/
def Quiet (s : Runtime) : Prop :=
  s.stop = .running ∧ (∀ pc ∈ s.handlers, pc = .finished) ∧ s.worker = .idle ∧ s.pending = 0

/-- The accepted requests are settled in order, one after the other; those passed to `processRequest`
were passed once and in that order; any other was dropped under `fFatal`. At rest none is left. -/
def NothingLost (s : Runtime) : Prop :=
  s.accepted = s.settled.map Prod.fst ++ (s.worker.inHand ++ s.contents) ∧
  s.calls = (s.settled.filter (fun e => e.2 = .processed)).map (fun e => e.1.request) ∧
  (∀ e ∈ s.settled, e.2 = .processed ∨ e.2 = .discarded true) ∧
  (s.Quiet → s.settled.map Prod.fst = s.accepted)

/-- The flush after a failed request finds `fFatal` set or the queue empty. -/
def FlushesFatal (s : Runtime) : Action → Prop
  | .worker _ => s.worker = .flush → s.pages.host.fFatal = true ∨ s.fRequestCount = 0
  | _ => True

theorem Ok.quiet (h : s.Ok) (hq : s.Quiet) : s.settled.map Prod.fst = s.accepted := by
  obtain ⟨hrun,hhand,hwork,hpend⟩ := hq
  have hnone : s.handlers.countP HandlerPc.enters = 0 := by
    refine List.countP_eq_zero.mpr (fun pc hpc => ?_)
    rw [hhand pc hpc]
    simp [HandlerPc.enters]
  have hsched : s.fWorkerScheduled = false := by
    have ht := h.threads.tokens
    rw [hpend, hnone, hwork, hrun] at ht
    simpa [WorkerPc.token, StopPc.token] using ht.symm
  have hact : s.fWorkerActive = false := by rw [h.threads.active, hwork]; rfl
  have hcont : s.contents = [] := by
    refine List.eq_nil_iff_forall_not_mem.mpr (fun q hq => ?_)
    have hw := h.waiting hrun hsched hact q hq
    cases hhand _ (List.mem_of_getElem? hw)
  rw [h.queue.ledger, hwork, hcont]
  simp [WorkerPc.inHand]

theorem scheduleWorker_settled (s : Runtime) : s.scheduleWorker.2.settled = s.settled := by
  unfold scheduleWorker
  split
  · rfl
  · split <;> rfl

/-- What one step adds to the settled requests. -/
theorem step_settled {a : Action} (hs : s.step a = some t) :
    t.settled = s.settled ∨ (∃ q, t.settled = s.settled ++ [(q,.processed)]) ∨
    (s.worker = .flush ∧ (∃ oracle, a = .worker oracle) ∧
      t.settled = s.settled ++ s.contents.map (fun q => (q,.discarded s.pages.host.fFatal))) := by
  cases a with
  | event eqe =>
    simp only [step, dispatch] at hs
    split at hs <;> cases hs
    exact Or.inl rfl
  | handler i =>
    simp only [step, handlerStep] at hs
    split at hs
    · split at hs
      · rename_i u hu
        obtain ⟨_,_,_,rfl⟩ := enqueueRequest_eq hu
        cases hs
        exact Or.inl rfl
      · cases hs; exact Or.inl rfl
    · cases hs; exact Or.inl rfl
    · cases hs
      exact Or.inl (scheduleWorker_settled s)
    · cases hs; exact Or.inl rfl
    · cases hs
  | worker oracle =>
    simp only [step, workerStep] at hs
    cases hw : s.worker with
    | idle => simp only [hw] at hs; split at hs <;> cases hs; exact Or.inl rfl
    | dequeue =>
      simp only [hw] at hs
      split at hs
      · rename_i q u hu
        simp only [dequeueRequest] at hu
        split at hu <;> cases hu
        cases hs
        exact Or.inl rfl
      · cases hs; exact Or.inl rfl
    | process q => simp only [hw] at hs; cases hs; exact Or.inr (Or.inl ⟨q,rfl⟩)
    | flush => simp only [hw] at hs; cases hs; exact Or.inr (Or.inr ⟨rfl,⟨oracle,rfl⟩,rfl⟩)
    | _ => simp only [hw] at hs; cases hs; exact Or.inl rfl
  | stop =>
    simp only [step, stopStep] at hs
    cases hp : s.stop with
    | schedule =>
      simp only [hp] at hs
      cases hs
      exact Or.inl (scheduleWorker_settled s)
    | synchronize | waitIdle => simp only [hp] at hs; split at hs <;> cases hs; exact Or.inl rfl
    | drain => simp only [hp] at hs; split at hs <;> cases hs <;> exact Or.inl rfl
    | stopped => simp [hp] at hs
    | _ => simp only [hp] at hs; cases hs; exact Or.inl rfl

theorem step_settledFatal {a : Action} (h : ∀ e ∈ s.settled, e.2 = .processed ∨ e.2 = .discarded true)
    (hm : FlushesFatal s a) (hs : s.step a = some t) :
    ∀ e ∈ t.settled, e.2 = .processed ∨ e.2 = .discarded true := by
  intro e he
  rcases step_settled hs with ht | ⟨q,ht⟩ | ⟨hw,⟨oracle,rfl⟩,ht⟩
  · exact h e (ht ▸ he)
  · rw [ht] at he
    rcases List.mem_append.mp he with he | he
    · exact h e he
    · rw [List.mem_singleton.mp he]
      exact Or.inl rfl
  · rw [ht] at he
    rcases List.mem_append.mp he with he | he
    · exact h e he
    · obtain ⟨q,hq,rfl⟩ := List.mem_map.mp he
      rcases hm hw with hf | hc
      · rw [hf]
        exact Or.inr rfl
      · rw [contents_eq_nil hc] at hq
        cases hq

/-- No request is silently consumed in a run whose flushes find `fFatal` set or the queue empty;
the first flush that does not drops a request. -/
theorem nothingLost_run (pages : World) :
    (∀ s, Reach step FlushesFatal (initial pages) s → s.NothingLost) ∧
    ∀ s a t, Reach step Free (initial pages) s → step s a = some t → ¬ FlushesFatal s a → ¬ t.NothingLost := by
  constructor
  · intro s hr
    have hok := reach_ok hr
    have hfates : ∀ e ∈ s.settled, e.2 = .processed ∨ e.2 = .discarded true :=
      hr.invariant (fun e he => by cases he) (fun _ _ _ h hm hs => step_settledFatal h hm hs)
    exact ⟨hok.queue.ledger,hok.queue.calls,hfates,hok.quiet⟩
  · intro s a t hr hs hm hlost
    cases a with
    | worker oracle =>
      simp only [FlushesFatal, Classical.not_imp, not_or] at hm
      obtain ⟨hw,hfatal,hc⟩ := hm
      simp only [step, workerStep, hw] at hs
      cases hs
      have hne : s.contents ≠ [] := fun h0 => hc (by simpa [contents] using congrArg List.length h0)
      obtain ⟨q,rest,hq⟩ := List.exists_cons_of_ne_nil hne
      have hbad := hlost.2.2.1 (q,.discarded s.pages.host.fFatal) (by simp [hq])
      simp [hfatal] at hbad
    | _ => exact absurd trivial hm

def givePageEqe : PageRequestEqe := ⟨0,0,1⟩

/-- Every allocation fails; the commands would succeed. -/
def noMemoryAnswers : (q : Question) → Answer q
  | .allocate => false
  | q => onePageAnswers q

/-- Two requests are queued when the first one runs out of memory. -/
def losingActions : List Action :=
  let work := Action.worker (fun _ => noMemoryAnswers)
  [.event givePageEqe,.handler 0,.handler 0,.handler 0,.event givePageEqe,.handler 1,.handler 1,
    work,work,work,work,work]

theorem request_lost :
    ¬ ∀ s, Reach step Free (initial (FwPages.initial false)) s → s.NothingLost := by
  intro h
  have hs := h _ (reach_of_after losingActions .start rfl)
  have hfates := hs.2.2.1
  revert hfates
  decide

end Runtime
end AppleMCX.FwPages
