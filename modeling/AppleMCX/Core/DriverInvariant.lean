import AppleMCX.Core.PciDriver

/-! # What the driver knows of the commands it submitted

The flags that `cleanup` combines are tied to the log of the commands: what was created or
enabled and not undone since is known to a flag or to an entry. Every step of `start` and of
`cleanup` before its last part keeps this.
-/
namespace AppleMCX.PciDriver
open Interaction Prog

/-! ## What the log says -/

def eqsAfter (e : Event) (eqs : List ℕ) : List ℕ :=
  match e with
  | .command op n kr =>
    if kr = .success ∧ op = .createEq then n :: eqs
    else if kr = .success ∧ op = .destroyEq then eqs.filter (fun m => m ≠ n)
    else eqs
  | _ => eqs

/-- The event queues that were created and not destroyed since. -/
def eqsOf : List Event → List ℕ
  | [] => []
  | e :: log => eqsAfter e (eqsOf log)

def Succeeded (op : Opcode) (log : List Event) : Prop := ∃ n, Event.command op n .success ∈ log

/-- `cleanup` has not come to its last part. -/
structure Before (s : State) : Prop where
  phase : s.phase = .running
  before : .disableBusMaster ∉ s.log

/-- Timeouts, quarantines and the event queues of the log are known to the state. -/
structure Known (s : State) : Prop extends Before s where
  timedOut : ∀ op n, Event.command op n .timeout ∈ s.log → s.isQuarantined = true
  quarantined : .enterDmaQuarantine ∈ s.log → s.fDmaQuarantined = true
  pci : s.isUp = true → s.fPci = true
  eqs : ∀ n ∈ eqsOf s.log, ∃ id e, s.entry id = some e ∧ e.valid = true ∧ e.eqNumber = n

/-- So are the two commands that the flags are about. -/
structure Tracked (s : State) : Prop extends Known s where
  initialized : Succeeded .initHca s.log → s.fHcaInitialized = true ∨ Succeeded .teardownHca s.log
  enabled : Succeeded .enableHca s.log → s.fHcaEnabled = true ∨ Succeeded .disableHca s.log
  up : s.fHcaInitialized = true ∨ s.fHcaEnabled = true ∨ s.fUAR.bind Uar.fBootUar ≠ none → s.isUp = true

/-- What the steps between two changes of the flags leave alone. -/
structure Frame (s t : State) : Prop where
  fEQ : t.fEQ = s.fEQ
  fUAR : t.fUAR = s.fUAR
  fPci : t.fPci = s.fPci
  isUp : t.isUp = s.isUp
  fStopping : t.fStopping = s.fStopping
  initialized : s.fHcaInitialized = false → t.fHcaInitialized = false
  enabled : s.fHcaEnabled = false → t.fHcaEnabled = false
  quarantined : s.fDmaQuarantined = true → t.fDmaQuarantined = true

variable {α β : Type} {s t u : State} {op : Opcode} {n : ℕ} {log : List Event} {e : Event}

theorem Frame.refl (s : State) : Frame s s := ⟨rfl,rfl,rfl,rfl,rfl,id,id,id⟩

theorem Frame.trans (h₁ : Frame s t) (h₂ : Frame t u) : Frame s u :=
  ⟨h₂.fEQ.trans h₁.fEQ,h₂.fUAR.trans h₁.fUAR,h₂.fPci.trans h₁.fPci,
    h₂.isUp.trans h₁.isUp,h₂.fStopping.trans h₁.fStopping,
    fun h => h₂.initialized (h₁.initialized h),fun h => h₂.enabled (h₁.enabled h),
    fun h => h₂.quarantined (h₁.quarantined h)⟩

theorem Succeeded.cons (h : Succeeded op log) (e : Event) : Succeeded op (e :: log) := by
  obtain ⟨n,hn⟩ := h
  exact ⟨n,List.mem_cons_of_mem e hn⟩

theorem succeeded_cons {op' : Opcode} {kr : IOReturn} (hne : kr = .success → op' ≠ op) :
    Succeeded op (.command op' n kr :: log) → Succeeded op log := by
  rintro ⟨m,hm⟩
  rcases List.mem_cons.mp hm with heq | hm
  · cases heq
    exact absurd rfl (hne rfl)
  · exact ⟨m,hm⟩

theorem eqsAfter_subset {eqs : List ℕ} {kr : IOReturn} (hne : kr = .success → op ≠ .createEq) :
    ∀ m ∈ eqsAfter (.command op n kr) eqs, m ∈ eqs := by
  intro m hm
  simp only [eqsAfter] at hm
  split_ifs at hm with hc hd
  · exact absurd hc.2 (hne hc.1)
  · exact (List.mem_filter.mp hm).1
  · exact hm

theorem refuses_up (h : s.refuses op = false) : s.isUp = true := by
  unfold State.refuses at h
  unfold State.isUp
  cases hcmd : s.fCmd with
  | none => rw [hcmd] at h; cases h
  | some cmd =>
    rw [hcmd] at h
    cases hup : cmd.fUp with
    | true => simpa using hup
    | false => simp [hup] at h

@[simp] theorem submitted_isUp (op : Opcode) (n : ℕ) (kr : IOReturn) : (s.submitted op n kr).isUp = s.isUp := by
  unfold State.submitted State.isUp
  cases s.fCmd <;> rfl

theorem submitted_isQuarantined (kr : IOReturn) (hup : s.isUp = true) :
    (s.submitted op n kr).isQuarantined = (s.isQuarantined || decide (kr = .timeout)) := by
  unfold State.isUp at hup
  unfold State.submitted State.isQuarantined
  cases hcmd : s.fCmd with
  | none => rw [hcmd] at hup; cases hup
  | some cmd => simp

theorem submitted_frame (kr : IOReturn) : Frame s (s.submitted op n kr) :=
  ⟨rfl,rfl,rfl,submitted_isUp op n kr,rfl,id,id,id⟩

/-- A command that neither enables nor creates anything. -/
def Harmless (op : Opcode) : Prop := op ≠ .enableHca ∧ op ≠ .initHca ∧ op ≠ .createEq

theorem Before.submitted (h : Before s) (kr : IOReturn) : Before (s.submitted op n kr) where
  phase := h.phase
  before := by
    intro hm
    rcases List.mem_cons.mp hm with heq | hm
    · cases heq
    · exact h.before hm

theorem Known.submitted (h : Known s) (kr : IOReturn) (hop : kr = .success → op ≠ .createEq) (hup : s.isUp = true) :
    Known (s.submitted op n kr) where
  toBefore := h.toBefore.submitted kr
  timedOut := by
    intro op' n' hm
    rw [submitted_isQuarantined kr hup]
    rcases List.mem_cons.mp hm with heq | hm
    · cases heq
      simp
    · simp [h.timedOut op' n' hm]
  quarantined := by
    intro hm
    rcases List.mem_cons.mp hm with heq | hm
    · cases heq
    · exact h.quarantined hm
  pci := fun hu => h.pci ((submitted_isUp op n kr).symm.trans hu)
  eqs := fun m hm => h.eqs m (eqsAfter_subset hop m hm)

theorem Tracked.submitted (h : Tracked s) (kr : IOReturn) (hop : kr = .success → Harmless op) (hup : s.isUp = true) :
    Tracked (s.submitted op n kr) where
  toKnown := h.toKnown.submitted kr (fun hk => (hop hk).2.2) hup
  initialized := fun hs => (h.initialized (succeeded_cons (fun hk => (hop hk).2.1) hs)).imp id (fun ht => ht.cons _)
  enabled := fun hs => (h.enabled (succeeded_cons (fun hk => (hop hk).1) hs)).imp id (fun hd => hd.cons _)
  up := fun hf => (submitted_isUp op n kr).trans (h.up hf)

theorem Known.flags (h : Known s) (fHcaEnabled fHcaInitialized : Bool) :
    Known { s with fHcaEnabled := fHcaEnabled, fHcaInitialized := fHcaInitialized } :=
  ⟨⟨h.phase,h.before⟩,h.timedOut,h.quarantined,h.pci,h.eqs⟩

theorem Tracked.enabledHca (h : Tracked s) (hup : s.isUp = true) :
    Tracked { s.submitted .enableHca n .success with fHcaEnabled := true } where
  toKnown := (h.toKnown.submitted .success (fun _ => by decide) hup).flags true s.fHcaInitialized
  initialized := fun hs => (h.initialized (succeeded_cons (fun _ => by decide) hs)).imp id (fun ht => ht.cons _)
  enabled := fun _ => .inl rfl
  up := fun _ => (submitted_isUp .enableHca n .success).trans hup

theorem Tracked.initializedHca (h : Tracked s) (hup : s.isUp = true) :
    Tracked { s.submitted .initHca n .success with fHcaInitialized := true } where
  toKnown := (h.toKnown.submitted .success (fun _ => by decide) hup).flags s.fHcaEnabled true
  initialized := fun _ => .inl rfl
  enabled := fun hs => (h.enabled (succeeded_cons (fun _ => by decide) hs)).imp id (fun hd => hd.cons _)
  up := fun _ => (submitted_isUp .initHca n .success).trans hup

/-- The states differ in what no flag is about. -/
def Beside (s t : State) : Prop :=
  { t with
    fBar0Map := s.fBar0Map
    fHCA := s.fHCA
    fFwPages := s.fFwPages
    fHealth := s.fHealth
    fDMA := s.fDMA
    fRuntimePagesStarted := s.fRuntimePagesStarted } = s

theorem Tracked.beside (h : Tracked s) (hb : Beside s t) : Tracked t := by
  unfold Beside at hb
  rw [← hb] at h
  exact ⟨⟨⟨h.phase,h.before⟩,h.timedOut,h.quarantined,h.pci,h.eqs⟩,h.initialized,h.enabled,h.up⟩

theorem Beside.frame (hb : Beside s t) : Frame s t := by
  unfold Beside at hb
  rw [← hb]
  exact ⟨rfl,rfl,rfl,rfl,rfl,id,id,id⟩

theorem succeeded_event (he : ∀ n, e ≠ .command op n .success) (h : Succeeded op (e :: log)) : Succeeded op log := by
  obtain ⟨n,hn⟩ := h
  rcases List.mem_cons.mp hn with heq | hn
  · exact absurd heq.symm (he n)
  · exact ⟨n,hn⟩

theorem Known.enterDmaQuarantine (h : Known s) :
    Known { s with fDmaQuarantined := true, log := .enterDmaQuarantine :: s.log } where
  toBefore := by
    refine ⟨h.phase,fun hm => ?_⟩
    rcases List.mem_cons.mp hm with heq | hm
    · cases heq
    · exact h.before hm
  timedOut := by
    intro op n hm
    rcases List.mem_cons.mp hm with heq | hm
    · cases heq
    · exact h.timedOut op n hm
  quarantined := fun _ => rfl
  pci := h.pci
  eqs := h.eqs

theorem Tracked.enterDmaQuarantine (h : Tracked s) :
    Tracked { s with fDmaQuarantined := true, log := .enterDmaQuarantine :: s.log } where
  toKnown := h.toKnown.enterDmaQuarantine
  initialized := fun hs => (h.initialized (succeeded_event (fun _ he => by cases he) hs)).imp id (fun ht => ht.cons _)
  enabled := fun hs => (h.enabled (succeeded_event (fun _ he => by cases he) hs)).imp id (fun hd => hd.cons _)
  up := h.up

/-! ## Steps that change no flag -/

section Calculus
variable {M : State → (q : Question) → Answer q → Prop} {I : State → Prop}

/-- What is shown of all states holds before the last part of `cleanup`. -/
def Suited (I : State → Prop) : Prop := ∀ s, Before s → I s

def Quiet (M : State → (q : Question) → Answer q → Prop) (I : State → Prop) (p : Driver α) : Prop :=
  ∀ s, Tracked s → Always (env.restrict M) I p (fun _ t => Tracked t ∧ Frame s t) s

theorem quiet_done (hI : Suited I) (a : α) : Quiet M I (.done a) := fun s h => ⟨hI s h.toBefore,h,Frame.refl s⟩

theorem Quiet.bind {p : Driver α} {f : α → Driver β} (hp : Quiet M I p) (hf : ∀ a, Quiet M I (f a)) :
    Quiet M I (p.bind f) := by
  intro s h
  refine Always.bind (hp s h) ?_
  rintro a t - ⟨ht,hframe⟩
  exact (hf a t ht).mono (fun _ _ _ hu => ⟨hu.1,hframe.trans hu.2⟩)

theorem quiet_get {f : State → Driver α} (hf : ∀ s, Quiet M I (f s)) : Quiet M I (Prog.get.bind f) :=
  fun s h => hf s s h

theorem quiet_ite {c : Prop} [Decidable c] {p q : Driver α} (hp : Quiet M I p) (hq : Quiet M I q) :
    Quiet M I (if c then p else q) := by
  split <;> assumption

theorem quiet_update {f : State → State} (hI : Suited I) (hf : ∀ s, Beside s (f s)) :
    Quiet M I (update f) :=
  fun s h => ⟨hI s h.toBefore,hI _ (h.beside (hf s)).toBefore,h.beside (hf s),(hf s).frame⟩

theorem quiet_query {q : Question} (hI : Suited I) (hq : ∀ s a, effect s q a = s) :
    Quiet M I (Prog.query q) := by
  intro s h
  refine ⟨hI s h.toBefore,fun a _ => ?_⟩
  have he : (env.restrict M).effect s q a = s := hq s a
  rw [he]
  exact ⟨hI s h.toBefore,h,Frame.refl s⟩

/-- A command is refused, fails before it is submitted, or is submitted with an outcome. -/
theorem always_exec {R : Reply → State → Prop} (hI : I s) (hskip : ∀ reply : Reply, reply.kr ≠ .success → R reply s)
    (hnow : ∀ (number : ℕ) (kr : IOReturn), s.isUp = true → I (s.submitted op number kr))
    (hdone : ∀ reply : Reply, s.isUp = true →
      R reply (s.submitted op (if op = .createEq then reply.value else n) reply.kr)) :
    Always (env.restrict M) I (exec op n) R s := by
  unfold exec
  simp only [bind_eq, pure_eq]
  refine always_bind.mpr ⟨hI,always_ite.mpr
    ⟨fun _ => ⟨hI,hskip _ (fun h => (by cases h))⟩,fun hr => ⟨hI,fun reply ha => ?_⟩⟩⟩
  have hup : s.isUp = true := refuses_up (Bool.not_eq_true _ ▸ hr)
  cases hsub : (reply : Reply).submitted with
  | false =>
    have he : (env.restrict M).effect s (.exec op n) reply = s := by simp [Env.restrict, env, effect, hsub]
    rw [he]
    exact ⟨hI,hskip reply (ha.1 hsub).1⟩
  | true =>
    have he : (env.restrict M).effect s (.exec op n) reply =
        s.submitted op (if op = .createEq then reply.value else n) reply.kr := by simp [Env.restrict, env, effect, hsub]
    rw [he]
    exact ⟨hnow _ _ hup,hdone reply hup⟩

theorem quiet_exec (hI : Suited I) (hop : Harmless op) : Quiet M I (exec op n) := by
  intro s h
  refine always_exec (hI s h.toBefore) (fun _ _ => ⟨h,Frame.refl s⟩)
    (fun _ kr hup => hI _ (h.submitted kr (fun _ => hop) hup).toBefore) (fun reply hup => ?_)
  exact ⟨h.submitted reply.kr (fun _ => hop) hup,submitted_frame reply.kr⟩

theorem quiet_execOk (hI : Suited I) (hop : Harmless op) : Quiet M I (execOk op n) :=
  (quiet_exec hI hop).bind (fun _ => quiet_done hI _)

/-! ## The page manager -/

theorem pageCommand_harmless {q : FwPages.Question} {a : FwPages.Answer q} {kr : IOReturn}
    (h : pageCommand q a = some (op,kr)) : Harmless op := by
  cases q <;> cases h <;> exact ⟨by decide,by decide,by decide⟩

theorem pageCommand_none {q : FwPages.Question} (h : refusedPages q = none) (a : FwPages.Answer q) :
    pageCommand q a = none := by
  cases q <;> first | rfl | cases h

theorem Tracked.answered (h : Tracked s) (q : FwPages.Question) (a : FwPages.Answer q)
    (hup : refusedPages q = none ∨ s.isUp = true) :
    Tracked (effect s (.pages q) a) ∧ Frame s (effect s (.pages q) a) := by
  have hb : Beside s { s with fFwPages := s.fFwPages.map (fun w => FwPages.env.effect w q a) } := rfl
  rw [effect]
  cases hc : pageCommand q a with
  | none => exact ⟨h.beside hb,hb.frame⟩
  | some command =>
    have hsome : s.isUp = true := by
      refine hup.resolve_left (fun hnone => ?_)
      rw [pageCommand_none hnone a] at hc
      cases hc
    exact ⟨(h.beside hb).submitted _ (fun _ => pageCommand_harmless hc) hsome,hb.frame.trans (submitted_frame _)⟩

theorem quiet_answerPages (hI : Suited I) (q : FwPages.Question) : Quiet M I (answerPages q) := by
  intro s h
  have hask : refusedPages q = none ∨ s.isUp = true → Always (env.restrict M) I (Prog.query (Question.pages q) : Driver _)
      (fun _ t => Tracked t ∧ Frame s t) s := by
    intro hup
    refine ⟨hI s h.toBefore,fun a _ => ?_⟩
    obtain ⟨ht,hframe⟩ := h.answered q a hup
    exact ⟨hI _ ht.toBefore,ht,hframe⟩
  unfold answerPages
  simp only [bind_eq, pure_eq]
  refine always_bind.mpr ⟨hI s h.toBefore,?_⟩
  beta_reduce
  split
  · rename_i hnone
    exact hask (.inl hnone)
  · refine always_ite.mpr ⟨fun _ => ⟨hI s h.toBefore,h,Frame.refl s⟩,fun hr => hask (.inr ?_)⟩
    exact refuses_up (Bool.not_eq_true _ ▸ hr)

theorem quiet_onPages (hI : Suited I) (p : FwPages.Pages α) : Quiet M I (onPages p) := by
  intro s h
  refine Always.zoom (J := fun t => Tracked t ∧ Frame s t) (fun t ht => hI t ht.1.toBefore) ?_ ?_ p ⟨h,Frame.refl s⟩
  · intro w t ht
    have hb : Beside t { t with fFwPages := some w } := rfl
    exact ⟨ht.1.beside hb,ht.2.trans hb.frame⟩
  · intro q t ht
    exact (quiet_answerPages hI q t ht.1).mono (fun _ _ _ hu => ⟨hu.1,ht.2.trans hu.2⟩)

theorem quiet_enterDmaQuarantine (hI : Suited I) : Quiet M I enterDmaQuarantine := by
  intro s h
  have ht := h.enterDmaQuarantine
  exact ⟨hI s h.toBefore,hI _ ht.toBefore,ht,rfl,rfl,rfl,rfl,rfl,id,id,fun _ => rfl⟩

theorem quiet_processRequests (hI : Suited I) (requests : List FwPages.Request) :
    Quiet M I (processRequests requests) := by
  induction requests with
  | nil => exact quiet_done hI ()
  | cons request requests ih => exact (quiet_onPages hI _).bind (fun _ => quiet_ite ih (quiet_done hI ()))

theorem quiet_workerMain (hI : Suited I) (requests : List FwPages.Request) : Quiet M I (workerMain requests) := by
  refine (quiet_processRequests hI requests).bind (fun _ => quiet_get (fun _ => quiet_ite ?_ (quiet_done hI ())))
  exact quiet_enterDmaQuarantine hI

theorem quiet_stopPages (hI : Suited I) : Quiet M I stopPages := by
  refine quiet_get (fun _ => quiet_ite ?_ (quiet_done hI ()))
  exact (quiet_query hI (fun _ _ => rfl)).bind
    (fun requests => (quiet_workerMain hI requests).bind (fun _ => quiet_update hI (fun _ => rfl)))

/-! ## The firmware's initialization -/

theorem quiet_waitFirmware (hI : Suited I) (n : ℕ) : Quiet M I (waitFirmware n) := by
  induction n with
  | zero => exact quiet_done hI false
  | succ n ih => exact (quiet_query hI (fun _ _ => rfl)).bind (fun _ => quiet_ite (quiet_done hI true) ih)

theorem quiet_setIssi (hI : Suited I) : Quiet M I setIssi := by
  have hop : Harmless .queryIssi ∧ Harmless .setIssi := by
    unfold Harmless
    decide
  refine (quiet_exec hI hop.1).bind (fun reply => quiet_ite (quiet_done hI true) (quiet_ite ?_ (quiet_done hI true)))
  exact (quiet_exec hI hop.2).bind (fun _ => quiet_done hI true)

theorem quiet_queryHcaCap (hI : Suited I) : Quiet M I queryHcaCap := by
  have hop : Harmless .queryHcaCap := by
    unfold Harmless
    decide
  exact (quiet_query hI (fun _ _ => rfl)).bind (fun _ => quiet_ite (quiet_done hI false) (quiet_execOk hI hop))

theorem quiet_setHcaCaps (hI : Suited I) : Quiet M I setHcaCaps := by
  have hop : Harmless .setHcaCap := by
    unfold Harmless
    decide
  refine (quiet_query hI (fun _ _ => rfl)).bind (fun _ => quiet_ite (quiet_done hI false) ?_)
  refine (quiet_queryHcaCap hI).bind (fun _ => quiet_ite (quiet_done hI false) ?_)
  exact (quiet_queryHcaCap hI).bind (fun _ => quiet_ite (quiet_done hI false) (quiet_execOk hI hop))

theorem quiet_queryOptionalCap (hI : Suited I) : Quiet M I queryOptionalCap := by
  refine (quiet_query hI (fun _ _ => rfl)).bind (fun _ => quiet_ite ?_ (quiet_done hI ()))
  exact (quiet_queryHcaCap hI).bind (fun _ => quiet_done hI ())

theorem quiet_queryHcaCaps (hI : Suited I) : Quiet M I queryHcaCaps := by
  have hoptional := quiet_queryOptionalCap (M := M) hI
  refine (quiet_query hI (fun _ _ => rfl)).bind (fun _ => quiet_ite (quiet_done hI false) ?_)
  refine (quiet_queryHcaCap hI).bind (fun _ => quiet_ite (quiet_done hI false) ?_)
  refine (quiet_query hI (fun _ _ => rfl)).bind (fun _ => quiet_ite (quiet_done hI false) ?_)
  exact hoptional.bind (fun _ => hoptional.bind (fun _ => hoptional.bind (fun _ => quiet_query hI (fun _ _ => rfl))))

def Keeps (M : State → (q : Question) → Answer q → Prop) (I : State → Prop) (p : Driver α) : Prop :=
  ∀ s, Tracked s → Always (env.restrict M) I p (fun _ t => Tracked t ∧ t.fEQ = s.fEQ) s

theorem Quiet.keeps {p : Driver α} (hp : Quiet M I p) : Keeps M I p :=
  fun s h => (hp s h).mono (fun _ _ _ ht => ⟨ht.1,ht.2.fEQ⟩)

theorem Keeps.bind {p : Driver α} {f : α → Driver β} (hp : Keeps M I p) (hf : ∀ a, Keeps M I (f a)) :
    Keeps M I (p.bind f) := by
  intro s h
  refine Always.bind (hp s h) ?_
  rintro a t - ⟨ht,heq⟩
  exact (hf a t ht).mono (fun _ _ _ hu => ⟨hu.1,hu.2.trans heq⟩)

theorem keeps_done (hI : Suited I) (a : α) : Keeps M I (.done a) := (quiet_done hI a).keeps

theorem keeps_ite {c : Prop} [Decidable c] {p q : Driver α} (hp : Keeps M I p) (hq : Keeps M I q) :
    Keeps M I (if c then p else q) := by
  split <;> assumption

theorem keeps_update {f : State → State} (hI : Suited I) (hf : ∀ s, Tracked s → Tracked (f s) ∧ (f s).fEQ = s.fEQ) :
    Keeps M I (update f) :=
  fun s h => ⟨hI s h.toBefore,hI _ (hf s h).1.toBefore,hf s h⟩

/-- A command of the driver: nothing happened, or it was submitted with success. -/
theorem execOk_spec (hI : Suited I) (h : Tracked s) (hne : op ≠ .createEq) :
    Always (env.restrict M) I (execOk op n) (fun ok t => (ok = false → Tracked t ∧ Frame s t) ∧
      (ok = true → s.isUp = true ∧ t = s.submitted op n .success)) s := by
  have hexec : Always (env.restrict M) I (exec op n) (fun reply t => (reply.kr ≠ .success → Tracked t ∧ Frame s t) ∧
      (reply.kr = .success → s.isUp = true ∧ t = s.submitted op n .success)) s := by
    refine always_exec (hI s h.toBefore) (fun reply hk => ⟨fun _ => ⟨h,Frame.refl s⟩,fun hs => absurd hs hk⟩)
      (fun _ kr _ => hI _ (h.toBefore.submitted kr)) (fun reply hup => ?_)
    rw [if_neg hne]
    refine ⟨fun hk => ⟨h.submitted reply.kr (fun hs => absurd hs hk) hup,submitted_frame _⟩,fun hk => ⟨hup,?_⟩⟩
    rw [hk]
  refine Always.bind hexec ?_
  rintro reply t hIt ⟨hfail,hok⟩
  exact ⟨hIt,fun hk => hfail (of_decide_eq_false hk),fun hk => hok (of_decide_eq_true hk)⟩

/-- A command that sets a flag of the driver, and what follows a success. -/
theorem keeps_flag {f : State → State} {rest : Driver Bool} (hI : Suited I) (hne : op ≠ .createEq)
    (hf : ∀ s, Tracked s → s.isUp = true → Tracked (f (s.submitted op n .success)) ∧
      (f (s.submitted op n .success)).fEQ = s.fEQ) (hrest : Keeps M I rest) :
    Keeps M I ((execOk op n).bind (fun ok => if !ok then .done false else (update f).bind (fun _ => rest))) := by
  intro s h
  refine Always.bind (execOk_spec hI h hne) (fun ok t hIt ht => ?_)
  cases ok with
  | false => exact ⟨hIt,(ht.1 rfl).1,(ht.1 rfl).2.fEQ⟩
  | true =>
    obtain ⟨hup,rfl⟩ := ht.2 rfl
    obtain ⟨hset,heq⟩ := hf s h hup
    exact ⟨hIt,(hrest _ hset).mono (fun _ _ _ hu => ⟨hu.1,hu.2.trans heq⟩)⟩

theorem keeps_fwInit (hI : Suited I) : Keeps M I fwInit := by
  have hfalse : Keeps M I (.done false) := keeps_done hI false
  refine (quiet_waitFirmware hI 100).keeps.bind (fun _ => keeps_ite hfalse ?_)
  refine keeps_flag hI (by decide) (fun s h hup => ⟨h.enabledHca hup,rfl⟩) ?_
  refine (quiet_setIssi hI).keeps.bind (fun _ => keeps_ite hfalse ?_)
  refine (quiet_onPages hI _).keeps.bind (fun _ => keeps_ite hfalse ?_)
  refine (quiet_setHcaCaps hI).keeps.bind (fun _ => keeps_ite hfalse ?_)
  refine (quiet_onPages hI _).keeps.bind (fun _ => keeps_ite hfalse ?_)
  exact keeps_flag hI (by decide) (fun s h hup => ⟨h.initializedHca hup,rfl⟩) (quiet_queryHcaCaps hI).keeps

/-! ## UARs -/

theorem Tracked.setBootUar (h : Tracked s) (index : ℕ) (hup : s.isUp = true) : Tracked (setBootUar index s) :=
  ⟨⟨⟨h.phase,h.before⟩,h.timedOut,h.quarantined,h.pci,h.eqs⟩,h.initialized,h.enabled,fun _ => hup⟩

theorem keeps_allocUar (hI : Suited I) : Keeps M I allocUar := by
  have hop : Harmless .allocUar ∧ Harmless .freeUar := by
    unfold Harmless
    decide
  intro s h
  have hexec : Always (env.restrict M) I (exec .allocUar 0) (fun reply t => Tracked t ∧ t.fEQ = s.fEQ ∧
      (reply.kr = .success → t.isUp = true)) s := by
    refine always_exec (hI s h.toBefore) (fun reply hk => ⟨h,rfl,fun hs => absurd hs hk⟩)
      (fun _ kr _ => hI _ (h.toBefore.submitted kr)) (fun reply hup => ?_)
    exact ⟨h.submitted reply.kr (fun _ => hop.1) hup,rfl,fun _ => (submitted_isUp _ _ _).trans hup⟩
  refine Always.bind hexec ?_
  rintro reply t hIt ⟨ht,heq,hup⟩
  refine always_ite.mpr ⟨fun _ => ⟨hIt,ht,heq⟩,fun hk => ?_⟩
  have hq : Quiet M I succeeds := quiet_query hI (fun _ _ => rfl)
  refine Always.bind (hq t ht) ?_
  rintro mapped u hIu ⟨hu,hframe⟩
  refine always_ite.mpr ⟨fun _ => ?_,fun _ => ?_⟩
  · refine Always.bind (quiet_exec hI hop.2 u hu) ?_
    rintro _ v hIv ⟨hv,hframe'⟩
    exact ⟨hIv,hv,(hframe'.fEQ.trans hframe.fEQ).trans heq⟩
  · have hset := hu.setBootUar reply.value (hframe.isUp.trans (hup (not_not.mp hk)))
    exact ⟨hIu,hI _ hset.toBefore,hset,hframe.fEQ.trans heq⟩

theorem keeps_allocDbRecord (hI : Suited I) : Keeps M I allocDbRecord := by
  have hset : Keeps M I (update (fun s => { s with fUAR := s.fUAR.map (fun uar => { uar with fDbMemDesc := true }) })) := by
    refine keeps_update hI (fun s h => ⟨?_,rfl⟩)
    refine ⟨⟨⟨h.phase,h.before⟩,h.timedOut,h.quarantined,h.pci,h.eqs⟩,h.initialized,h.enabled,fun hf => h.up ?_⟩
    refine hf.imp id (Or.imp id (fun hne heq => hne ?_))
    cases hu : s.fUAR with
    | none => simp
    | some uar =>
      rw [hu] at heq
      simpa [hu] using heq
  exact (quiet_query hI (fun _ _ => rfl)).keeps.bind
    (fun _ => keeps_ite (keeps_done hI false) (hset.bind (fun _ => keeps_done hI true)))

theorem always_allocInit {store initialized : State → State} {R : Bool → State → Prop} (hs : I s ∧ R false s)
    (hstore : I (store s) ∧ R false (store s)) (hinit : I (initialized (store s)) ∧ R true (initialized (store s))) :
    Always (env.restrict M) I (allocInit store initialized) R s := by
  unfold allocInit
  simp only [bind_eq, pure_eq]
  refine always_query_bind.mpr ⟨hs.1,fun object _ => always_ite.mpr ⟨fun _ => hs,fun _ => ?_⟩⟩
  refine always_modify_bind.mpr ⟨hs.1,?_⟩
  refine always_query_bind.mpr ⟨hstore.1,fun ok _ => always_ite.mpr ⟨fun _ => hstore,fun _ => ?_⟩⟩
  exact always_modify_bind.mpr ⟨hstore.1,hinit⟩

end Calculus
end AppleMCX.PciDriver
