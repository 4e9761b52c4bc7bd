import AppleMCX.Interaction.Transition
import Mathlib.Logic.Function.Basic

/-! # Publication against quarantine

The end of `MlxPCIDriver::start` publishes the child services by properties, and
`enterDmaQuarantine` takes the properties back. The event queues, the page worker and the
health timer may call it at any moment once they run, so every property change is one step.
-/
namespace AppleMCX.Publication
open Interaction

/-- The capabilities and the build flag that `publishNubs` reads. -/
structure Config where
  unsafeRoce : Bool
  roce : Bool
  isEthernet : Bool
  ethNetOffloads : Bool
  nicFlowTable : Bool
  fNumCompEqs : ℕ
  deriving DecidableEq, Repr

/-- `publishNubs` runs with `fHCA`, `fEQ`, `fDMA` and `fUAR` set. -/
def Config.rocePublicationAllowed (c : Config) : Bool := c.unsafeRoce && c.roce

def Config.ethernetAllowed (c : Config) : Bool :=
  c.isEthernet && c.ethNetOffloads && c.nicFlowTable && decide (c.fNumCompEqs > 0)

/-- Where `start` stands: the name is that of its next step. -/
inductive StartPc
  | setup | startRuntime | setupInterrupts | startHealth | initDma | publishRdma | publishEth | publishName | done | failed
  deriving DecidableEq, Repr

/-- Where a call of `enterDmaQuarantine` stands. -/
inductive QuarantinePc
  | absent | removeEth | removeRdma | setBusMasterEnable | returned
  deriving DecidableEq, Repr

/-- Who calls `enterDmaQuarantine`. -/
inductive Source
  | pageFault | deviceFatal | health
  deriving DecidableEq, Repr

structure State where
  pc : StartPc
  runtimeStarted : Bool
  interruptsSetup : Bool
  healthStarted : Bool
  mlxEth : Bool
  mlxRdma : Bool
  deviceName : Bool
  busMaster : Bool
  fDmaQuarantined : Bool
  calls : ℕ → QuarantinePc

def initial : State where
  pc := .setup
  runtimeStarted := false
  interruptsSetup := false
  healthStarted := false
  mlxEth := false
  mlxRdma := false
  deviceName := false
  busMaster := true
  fDmaQuarantined := false
  calls := fun _ => .absent

namespace State

def started (s : State) : Source → Bool
  | .pageFault => s.runtimeStarted
  | .deviceFatal => s.interruptsSetup
  | .health => s.healthStarted

/-- The next step of `start`; one that may fail ends in `cleanup`, which leaves the properties alone. -/
def start (c : Config) (ok : Bool) (s : State) : Option State :=
  match s.pc with
  | .setup => some { s with pc := if ok then .startRuntime else .failed }
  | .startRuntime => some (if ok then { s with runtimeStarted := true, pc := .setupInterrupts } else { s with pc := .failed })
  | .setupInterrupts => some (if ok then { s with interruptsSetup := true, pc := .startHealth } else { s with pc := .failed })
  | .startHealth => some (if ok then { s with healthStarted := true, pc := .initDma } else { s with pc := .failed })
  | .initDma => some { s with pc := if ok then .publishRdma else .failed }
  | .publishRdma => some { s with mlxRdma := c.rocePublicationAllowed, pc := .publishEth }
  | .publishEth => some { s with mlxEth := c.ethernetAllowed, pc := .publishName }
  | .publishName => some { s with deviceName := true, pc := .done }
  | .done => none
  | .failed => none

def setCall (i : ℕ) (pc : QuarantinePc) (s : State) : State := { s with calls := Function.update s.calls i pc }

def quarantine (i : ℕ) (s : State) : Option State :=
  match s.calls i with
  | .absent => none
  | .removeEth => some ({ s with mlxEth := false }.setCall i .removeRdma)
  | .removeRdma => some ({ s with mlxRdma := false }.setCall i .setBusMasterEnable)
  | .setBusMasterEnable => some ({ s with busMaster := false }.setCall i .returned)
  | .returned => none

/-- A source calls `enterDmaQuarantine`, which sets its flag first. -/
def enter (i : ℕ) (source : Source) (s : State) : Option State :=
  if s.calls i = .absent ∧ s.started source = true then some ({ s with fDmaQuarantined := true }.setCall i .removeEth)
  else none

end State

inductive Action
  | start (ok : Bool)
  | enter (i : ℕ) (source : Source)
  | quarantine (i : ℕ)
  deriving DecidableEq, Repr

def step (c : Config) (s : State) : Action → Option State
  | .start ok => s.start c ok
  | .enter i source => s.enter i source
  | .quarantine i => s.quarantine i

/-! ## What a quarantine guarantees -/

/-- After a quarantine has been entered neither property is set. -/
def FailClosed (s : State) : Prop := ∀ i, s.calls i = .returned → s.mlxEth = false ∧ s.mlxRdma = false

def QuarantinePc.pastEth : QuarantinePc → Bool
  | .removeRdma | .setBusMasterEnable | .returned => true
  | _ => false

def QuarantinePc.pastRdma : QuarantinePc → Bool
  | .setBusMasterEnable | .returned => true
  | _ => false

/-- A property is published only while no call has taken it back. -/
def PublishesFirst (c : Config) (s : State) : Action → Prop
  | .start _ =>
    (s.pc = .publishRdma → c.rocePublicationAllowed = true → ∀ i, (s.calls i).pastRdma = false) ∧
    (s.pc = .publishEth → c.ethernetAllowed = true → ∀ i, (s.calls i).pastEth = false)
  | _ => True

/-- What a call has taken back stays away. -/
structure TakenBack (s : State) : Prop where
  eth : ∀ i, (s.calls i).pastEth = true → s.mlxEth = false
  rdma : ∀ i, (s.calls i).pastRdma = true → s.mlxRdma = false

variable {c : Config} {s t : State} {i : ℕ}

theorem TakenBack.failClosed (h : TakenBack s) : FailClosed s := by
  intro i hi
  exact ⟨h.eth i (by rw [hi]; rfl),h.rdma i (by rw [hi]; rfl)⟩

/-- A call moves on: what it is past afterwards is away, and for the others nothing came back. -/
theorem TakenBack.setCall (h : TakenBack s) {pc : QuarantinePc} (heth : t.mlxEth = true → s.mlxEth = true)
    (hrdma : t.mlxRdma = true → s.mlxRdma = true) (hcalls : t.calls = Function.update s.calls i pc)
    (hpe : pc.pastEth = true → t.mlxEth = false) (hpr : pc.pastRdma = true → t.mlxRdma = false) : TakenBack t := by
  constructor
  · intro j hj
    rw [hcalls, Function.update_apply] at hj
    split at hj
    · exact hpe hj
    · have hs := h.eth j hj
      by_contra hne
      have ht := heth (by simpa using hne)
      rw [hs] at ht
      cases ht
  · intro j hj
    rw [hcalls, Function.update_apply] at hj
    split at hj
    · exact hpr hj
    · have hs := h.rdma j hj
      by_contra hne
      have ht := hrdma (by simpa using hne)
      rw [hs] at ht
      cases ht

theorem quarantine_takenBack (h : TakenBack s) (hs : s.quarantine i = some t) : TakenBack t := by
  unfold State.quarantine at hs
  cases hc : s.calls i with
  | absent => simp [hc] at hs
  | removeEth =>
    simp only [hc, Option.some.injEq] at hs
    subst hs
    refine h.setCall (fun he => by cases he) id rfl (fun _ => rfl) (fun hp => ?_)
    cases hp
  | removeRdma =>
    simp only [hc, Option.some.injEq] at hs
    subst hs
    exact h.setCall id (fun he => by cases he) rfl (fun _ => h.eth i (by rw [hc]; rfl)) (fun _ => rfl)
  | setBusMasterEnable =>
    simp only [hc, Option.some.injEq] at hs
    subst hs
    exact h.setCall id id rfl (fun _ => h.eth i (by rw [hc]; rfl)) (fun _ => h.rdma i (by rw [hc]; rfl))
  | returned => simp [hc] at hs

theorem enter_takenBack {source : Source} (h : TakenBack s) (hs : s.enter i source = some t) : TakenBack t := by
  unfold State.enter at hs
  split at hs
  · cases hs
    refine h.setCall id id rfl (fun hp => ?_) (fun hp => ?_) <;> cases hp
  · cases hs

theorem start_takenBack {ok : Bool} (h : TakenBack s) (hm : PublishesFirst c s (.start ok)) (hs : s.start c ok = some t) :
    TakenBack t := by
  have hsame : ∀ u : State, u.calls = s.calls → u.mlxEth = s.mlxEth → u.mlxRdma = s.mlxRdma → TakenBack u := by
    intro u hc he hr
    constructor
    · rw [hc, he]
      exact h.eth
    · rw [hc, hr]
      exact h.rdma
  unfold State.start at hs
  cases hp : s.pc with
  | publishRdma =>
    simp only [hp, Option.some.injEq] at hs
    subst hs
    refine ⟨h.eth,fun j hj => ?_⟩
    by_contra hne
    have hfree := hm.1 hp (by simpa using hne) j
    rw [show (s.calls j).pastRdma = true from hj] at hfree
    cases hfree
  | publishEth =>
    simp only [hp, Option.some.injEq] at hs
    subst hs
    refine ⟨fun j hj => ?_,h.rdma⟩
    by_contra hne
    have hfree := hm.2 hp (by simpa using hne) j
    rw [show (s.calls j).pastEth = true from hj] at hfree
    cases hfree
  | done => simp [hp] at hs
  | failed => simp [hp] at hs
  | _ =>
    simp only [hp, Option.some.injEq] at hs
    subst hs
    cases ok <;> exact hsame _ rfl rfl rfl

theorem step_takenBack {a : Action} (h : TakenBack s) (hm : PublishesFirst c s a) (hs : step c s a = some t) :
    TakenBack t := by
  cases a with
  | start ok => exact start_takenBack h hm hs
  | enter i source => exact enter_takenBack h hs
  | quarantine i => exact quarantine_takenBack h hs

/-! ## Runs -/

/-- A call that is past a removal returns without looking at the property again. -/
theorem quarantine_returns (s : State) (hpast : (s.calls i).pastEth = true) : ∃ as u, after (step c) as s = some u ∧
    u.calls i = .returned ∧ u.mlxEth = s.mlxEth ∧ ((s.calls i).pastRdma = true → u.mlxRdma = s.mlxRdma) := by
  have hset : ∀ (u : State) (pc : QuarantinePc), (u.setCall i pc).calls i = pc := by
    intro u pc
    simp [State.setCall]
  cases hc : s.calls i with
  | absent => rw [hc] at hpast; cases hpast
  | removeEth => rw [hc] at hpast; cases hpast
  | removeRdma =>
    let s₁ := { s with mlxRdma := false }.setCall i .setBusMasterEnable
    have hs₁ : s.quarantine i = some s₁ := by simp [State.quarantine, hc, s₁]
    have hs₂ : s₁.quarantine i = some ({ s₁ with busMaster := false }.setCall i .returned) := by
      simp only [State.quarantine, show s₁.calls i = .setBusMasterEnable from hset _ _]
    refine ⟨[.quarantine i,.quarantine i],_,?_,hset { s₁ with busMaster := false } .returned,rfl,fun hp => by cases hp⟩
    simp only [after, step, hs₁, hs₂, Option.bind_some]
  | setBusMasterEnable =>
    have hs₁ : s.quarantine i = some ({ s with busMaster := false }.setCall i .returned) := by
      simp [State.quarantine, hc]
    refine ⟨[.quarantine i],_,?_,hset { s with busMaster := false } .returned,rfl,fun _ => rfl⟩
    simp only [after, step, hs₁, Option.bind_some]
  | returned => exact ⟨[],s,rfl,hc,rfl,fun _ => rfl⟩

/-- No property is set after a quarantine in a run that publishes each property before any call takes it
back; and where one is published later, it can stay published after the quarantine. -/
theorem failClosed_run (c : Config) :
    (∀ s, Reach (step c) (PublishesFirst c) initial s → FailClosed s) ∧
    ∀ s a t, Reach (step c) Free initial s → step c s a = some t → ¬ PublishesFirst c s a →
      ∃ as u, after (step c) as t = some u ∧ ¬ FailClosed u := by
  constructor
  · intro s hr
    have h₀ : TakenBack initial := ⟨fun _ _ => rfl,fun _ _ => rfl⟩
    exact (hr.invariant h₀ (fun _ _ _ h hm hs => step_takenBack h hm hs)).failClosed
  · intro s a t _ hs hm
    cases a with
    | start ok =>
      simp only [PublishesFirst, not_and_or, Classical.not_imp, not_forall, Bool.not_eq_false] at hm
      rcases hm with ⟨hp,hset,i,hpast⟩ | ⟨hp,hset,i,hpast⟩
      · have ht : t.calls i = s.calls i ∧ t.mlxRdma = true := by
          simp only [step, State.start, hp, Option.some.injEq] at hs
          subst hs
          exact ⟨rfl,hset⟩
        have heth : (t.calls i).pastEth = true := by
          rw [ht.1]
          cases hc : s.calls i <;> rw [hc] at hpast <;> first | rfl | cases hpast
        obtain ⟨as,u,hu,hreturned,-,hrdma⟩ := quarantine_returns (c := c) t heth
        refine ⟨as,u,hu,fun hclosed => ?_⟩
        have hfalse := (hclosed i hreturned).2
        rw [hrdma (by rw [ht.1]; exact hpast), ht.2] at hfalse
        cases hfalse
      · have ht : t.calls i = s.calls i ∧ t.mlxEth = true := by
          simp only [step, State.start, hp, Option.some.injEq] at hs
          subst hs
          exact ⟨rfl,hset⟩
        obtain ⟨as,u,hu,hreturned,heth,-⟩ := quarantine_returns (c := c) t (by rw [ht.1]; exact hpast)
        refine ⟨as,u,hu,fun hclosed => ?_⟩
        have hfalse := (hclosed i hreturned).1
        rw [heth, ht.2] at hfalse
        cases hfalse
    | enter i source => exact absurd trivial hm
    | quarantine i => exact absurd trivial hm

def ethernetAdapter : Config := ⟨false,true,true,true,true,1⟩

/-- A fatal event arrives right after the interrupts were set up, and `start` publishes Ethernet later. -/
def latePublication : List Action :=
  [.start true,.start true,.start true,.enter 0 .deviceFatal,.quarantine 0,.quarantine 0,.quarantine 0,
    .start true,.start true,.start true,.start true]

theorem published_after_quarantine : ¬ ∀ s, Reach (step ethernetAdapter) Free initial s → FailClosed s := by
  intro h
  have hs := h _ (reach_of_after latePublication .start rfl) 0 rfl
  revert hs
  decide

end AppleMCX.Publication
