import AppleMCX.Core.FwPagesInvariant

/-! # Bringing the device up and down

`start` and `cleanup` of `MlxPCIDriver`, with what they do to the event queues, the UARs and
the firmware pages. The log has the commands that were submitted, latest first, with the
number of the event queue where there is one, and the steps of the DMA boundary.
-/
namespace AppleMCX.PciDriver
open Interaction

/-- The fields of `MlxCmd` that decide whether it takes a command. -/
structure Cmd where
  fUp : Bool
  fQuarantined : Bool
  deriving DecidableEq, Repr

/-- `MlxEqEntry`; `fDesc` says whether its ring is allocated and mapped. -/
structure EqEntry where
  eqNumber : ℕ
  valid : Bool
  fDesc : Bool
  deriving DecidableEq, Repr

/-- `MlxEQ` -/
structure EventQueues where
  fAsyncEqs : List EqEntry
  fCompEqs : List EqEntry
  deriving DecidableEq, Repr

inductive EqId
  | async (i : ℕ) | comp (i : ℕ)
  deriving DecidableEq, Repr

/-- `MlxUAR`; the boot UAR is kept by its index while it is valid. -/
structure Uar where
  fBootUar : Option ℕ
  fDbMemDesc : Bool
  deriving DecidableEq, Repr

inductive Event
  | command (op : Opcode) (number : ℕ) (kr : IOReturn)
  | enterDmaQuarantine
  | disableBusMaster
  | readBack (busMaster : Bool)
  deriving DecidableEq, Repr

/-- Where the driver stands; `boundary` is the point from which `cleanup` releases the objects. -/
inductive Phase
  | created | running | boundary | releasing
  deriving DecidableEq, Repr

structure State where
  fPci : Bool
  fBar0Map : Bool
  fHCA : Bool
  fCmd : Option Cmd
  fFwPages : Option FwPages.World
  fUAR : Option Uar
  fEQ : Option EventQueues
  fHealth : Bool
  fDMA : Bool
  fHcaEnabled : Bool
  fHcaInitialized : Bool
  fRuntimePagesStarted : Bool
  fStopping : Bool
  fDmaQuarantined : Bool
  phase : Phase
  log : List Event
  deriving DecidableEq, Repr

/-- The outcome of a command; `submitted` is false where `MlxCmd::exec` fails before it submits. -/
structure Reply where
  kr : IOReturn
  value : ℕ
  submitted : Bool
  deriving DecidableEq, Repr

inductive Question
  | succeeds
  | initializing
  | exec (op : Opcode) (number : ℕ)
  | pages (q : FwPages.Question)
  | pageRequests
  | quarantine
  | busMaster

/-- `succeeds` stands for an allocation, a mapping or a call to the system; `quarantine` asks whether an event handler or
the health timer enters the quarantine meanwhile. -/
abbrev Answer : Question → Type
  | .succeeds => Bool
  | .initializing => Bool
  | .exec _ _ => Reply
  | .pages q => FwPages.Answer q
  | .pageRequests => List FwPages.Request
  | .quarantine => Bool
  | .busMaster => Bool

abbrev Driver := Prog State Question Answer

/-! ## Commands -/

namespace State

def refuses (op : Opcode) (s : State) : Bool :=
  match s.fCmd with
  | none => true
  | some cmd => !cmd.fUp ∨ (cmd.fQuarantined ∧ !op.exempt)

def isUp (s : State) : Bool := s.fCmd.any (·.fUp)

def isQuarantined (s : State) : Bool := s.fCmd.any (·.fQuarantined)

/-- A command was submitted and had this outcome. A timeout quarantines the command interface. -/
def submitted (op : Opcode) (number : ℕ) (kr : IOReturn) (s : State) : State :=
  { s with
    fCmd := s.fCmd.map (fun cmd => { cmd with fQuarantined := cmd.fQuarantined || kr = .timeout })
    log := .command op number kr :: s.log }

def entry (s : State) : EqId → Option EqEntry
  | .async i => s.fEQ.bind (fun eq => eq.fAsyncEqs[i]?)
  | .comp i => s.fEQ.bind (fun eq => eq.fCompEqs[i]?)

def modifyEntry (id : EqId) (f : EqEntry → EqEntry) (s : State) : State :=
  { s with fEQ := s.fEQ.map (fun eq => match id with
      | .async i => { eq with fAsyncEqs := eq.fAsyncEqs.modify i f }
      | .comp i => { eq with fCompEqs := eq.fCompEqs.modify i f }) }

def hasOutstandingPages (s : State) : Bool := s.fFwPages.any (fun w => w.host.hasOutstandingPages)

end State

/-- The command behind a question of the page manager, and its outcome. -/
def pageCommand : (q : FwPages.Question) → FwPages.Answer q → Option (Opcode × IOReturn)
  | .queryPages _ _, (reply : FwPages.QueryReply) => some (.queryPages,reply.kr)
  | .give _ _ _, (kr : IOReturn) => some (.managePages,kr)
  | .take _ _ _, (reply : FwPages.TakeReply) => some (.managePages,reply.kr)
  | .allocationFail _ _, (kr : IOReturn) => some (.managePages,kr)
  | _, _ => none

def effect (s : State) : (q : Question) → Answer q → State
  | .exec op number, reply =>
    if (reply : Reply).submitted then
      s.submitted op (if op = .createEq then (reply : Reply).value else number) (reply : Reply).kr
    else s
  | .pages q, a =>
    let answered : State := { s with fFwPages := s.fFwPages.map (fun w => FwPages.env.effect w q a) }
    match pageCommand q a with
    | none => answered
    | some (op,kr) => answered.submitted op 0 kr
  | .busMaster, set => { s with log := .readBack set :: s.log }
  | _, _ => s

theorem effect_exec (s : State) (op : Opcode) (number : ℕ) (reply : Reply) : effect s (.exec op number) reply =
    if reply.submitted then s.submitted op (if op = .createEq then reply.value else number) reply.kr else s := rfl

/-- A command that is not submitted neither succeeds nor times out. -/
def allowed (_ : State) : (q : Question) → Answer q → Prop
  | .exec _ _, reply =>
    (reply : Reply).submitted = false → (reply : Reply).kr ≠ .success ∧ (reply : Reply).kr ≠ .timeout
  | _, _ => True

def env : Env State Question Answer := ⟨allowed,effect⟩

def update (f : State → State) : Driver Unit := Prog.modify f

def succeeds : Driver Bool := Prog.query Question.succeeds

def exec (op : Opcode) (number : ℕ) : Driver Reply := do
  let s ← Prog.get
  if s.refuses op then pure ⟨.notReady,0,false⟩ else Prog.query (Question.exec op number)

def execOk (op : Opcode) (number : ℕ) : Driver Bool := do
  let reply ← exec op number
  pure (decide (reply.kr = .success))

/-! ## The page manager of the driver -/

/-- What a command of the page manager comes to where `MlxCmd` refuses it. -/
def refusedPages : (q : FwPages.Question) → Option (Opcode × FwPages.Answer q)
  | .queryPages _ _ => some (.queryPages,(⟨.notReady,0,false,0⟩ : FwPages.QueryReply))
  | .give _ _ _ => some (.managePages,IOReturn.notReady)
  | .take _ _ _ => some (.managePages,(⟨.notReady,0,fun _ => 0,fun _ => true⟩ : FwPages.TakeReply))
  | .allocationFail _ _ => some (.managePages,IOReturn.notReady)
  | _ => none

def answerPages (q : FwPages.Question) : Driver (FwPages.Answer q) := do
  let s ← Prog.get
  match refusedPages q with
  | none => Prog.query (Question.pages q)
  | some (op,a) => if s.refuses op then pure a else Prog.query (Question.pages q)

def onPages {α : Type} (p : FwPages.Pages α) : Driver α :=
  Prog.zoom (fun s : State => s.fFwPages.getD (FwPages.initial false)) (fun w s => { s with fFwPages := some w }) answerPages p

def enterDmaQuarantine : Driver Unit :=
  update (fun s => { s with fDmaQuarantined := true, log := .enterDmaQuarantine :: s.log })

/-- The requests that the worker processes before one fails. -/
def processRequests : List FwPages.Request → Driver Unit
  | [] => pure ()
  | request :: requests => do
    let kr ← onPages (FwPages.processRequest request)
    if kr = .success then processRequests requests else pure ()

def workerMain (requests : List FwPages.Request) : Driver Unit := do
  processRequests requests
  let s ← Prog.get
  if s.fFwPages.any (fun w => w.host.fFatal) then enterDmaQuarantine else pure ()

/-- `stopRuntimeAndDrain`: the worker processes what is left. -/
def stopRuntimeAndDrain : Driver Unit := do
  let requests ← Prog.query Question.pageRequests
  workerMain requests
  update (fun s => { s with fRuntimePagesStarted := false })

/-! ## The event queues -/

def freeEqEntry (e : EqEntry) : EqEntry := { e with fDesc := false }

def createEq (id : EqId) : Driver IOReturn := do
  let ok ← succeeds
  if !ok then pure .noMemory else
  update (State.modifyEntry id (fun e => { e with fDesc := true }))
  let reply ← exec .createEq 0
  if reply.kr ≠ .success then
    update (if reply.kr = .timeout then fun s => s else State.modifyEntry id freeEqEntry)
    pure reply.kr
  else
    update (State.modifyEntry id (fun e => { e with eqNumber := reply.value, valid := true }))
    pure .success

def createEqs : List EqId → Driver IOReturn
  | [] => pure .success
  | id :: ids => do
    let kr ← createEq id
    if kr ≠ .success then pure kr else createEqs ids

def createAsyncEqs : Driver IOReturn := createEqs [.async 0,.async 1,.async 2]

def createCompEqs : Driver IOReturn := createEqs [.comp 0]

/-- The valid entries are destroyed; the result says whether all of them could be. -/
def destroyEqs : List EqId → Bool → Driver Bool
  | [], allDestroyed => pure allDestroyed
  | id :: ids, allDestroyed => do
    let s ← Prog.get
    match s.entry id with
    | none => destroyEqs ids allDestroyed
    | some e =>
      if e.valid then
        let reply ← exec .destroyEq e.eqNumber
        if reply.kr = .success then
          update (State.modifyEntry id (fun e => { e with valid := false }))
          destroyEqs ids allDestroyed
        else destroyEqs ids false
      else destroyEqs ids allDestroyed

def EventQueues.ids (eq : EventQueues) : List EqId :=
  (List.range eq.fCompEqs.length).map EqId.comp ++ (List.range eq.fAsyncEqs.length).map EqId.async

def shutdown (eq : EventQueues) : Driver Bool := do
  let s ← Prog.get
  if s.isUp then destroyEqs eq.ids true
  else pure ((eq.fCompEqs ++ eq.fAsyncEqs).all (fun e => !e.valid))

/-! ## Starting -/

/-- The readings of the initializing bit, ten milliseconds apart. -/
def waitFirmware : ℕ → Driver Bool
  | 0 => pure false
  | n + 1 => do
    let initializing ← Prog.query Question.initializing
    if !initializing then pure true else waitFirmware n

def enableHca : Driver Bool := execOk .enableHca 0
def initHca : Driver Bool := execOk .initHca 0
def teardownHca : Driver Bool := execOk .teardownHca 0
def disableHca : Driver Bool := execOk .disableHca 0

/-- Without ISSI 1 the driver falls back to ISSI 0, whatever the reason. -/
def setIssi : Driver Bool := do
  let reply ← exec .queryIssi 0
  if reply.kr ≠ .success then pure true
  else if reply.value.testBit 1 then
    let _ ← exec .setIssi 1
    pure true
  else pure true

def queryHcaCap : Driver Bool := do
  let out ← succeeds
  if !out then pure false else execOk .queryHcaCap 0

def setHcaCaps : Driver Bool := do
  let memory ← succeeds
  if !memory then pure false else
  let maxCap ← queryHcaCap
  if !maxCap then pure false else
  let curCap ← queryHcaCap
  if !curCap then pure false else execOk .setHcaCap 0

/-- A query that is only made where the general capabilities have the feature. -/
def queryOptionalCap : Driver Unit := do
  let has ← succeeds
  if has then
    let _ ← queryHcaCap
    pure ()
  else pure ()

def queryHcaCaps : Driver Bool := do
  let memory ← succeeds
  if !memory then pure false else
  let general ← queryHcaCap
  if !general then pure false else
  let parsed ← succeeds
  if !parsed then pure false else
  queryOptionalCap
  queryOptionalCap
  queryOptionalCap
  succeeds

def fwInit : Driver Bool := do
  let firmwareReady ← waitFirmware 100
  if !firmwareReady then pure false else
  let enabled ← enableHca
  if !enabled then pure false else
  update (fun s => { s with fHcaEnabled := true })
  let issi ← setIssi
  if !issi then pure false else
  let boot ← onPages (FwPages.satisfyStartupPages .boot)
  if boot ≠ .success then pure false else
  let caps ← setHcaCaps
  if !caps then pure false else
  let init ← onPages (FwPages.satisfyStartupPages .init)
  if init ≠ .success then pure false else
  let initialized ← initHca
  if !initialized then pure false else
  update (fun s => { s with fHcaInitialized := true })
  queryHcaCaps

def setBootUar (index : ℕ) (s : State) : State :=
  { s with fUAR := s.fUAR.map (fun uar => { uar with fBootUar := some (uar.fBootUar.getD index) }) }

/-- A UAR that cannot be mapped is freed again. -/
def allocUar : Driver Bool := do
  let reply ← exec .allocUar 0
  if reply.kr ≠ .success then pure false else
  let mapped ← succeeds
  if !mapped then
    let _ ← exec .freeUar reply.value
    pure false
  else
    update (setBootUar reply.value)
    pure true

def allocDbRecord : Driver Bool := do
  let ok ← succeeds
  if !ok then pure false else
  update (fun s => { s with fUAR := s.fUAR.map (fun uar => { uar with fDbMemDesc := true }) })
  pure true

/-- An object is allocated into its field and then initialized. -/
def allocInit (store : State → State) (initialized : State → State) : Driver Bool := do
  let object ← succeeds
  if !object then pure false else
  update store
  let ok ← succeeds
  if !ok then pure false else
  update initialized
  pure true

def newEqEntry : EqEntry := ⟨0,false,false⟩

/-- `MLX_NUM_ASYNC_EQS` asynchronous and one completion queue -/
def initEq (s : State) : State := { s with fEQ := some ⟨List.replicate 3 newEqEntry,List.replicate 1 newEqEntry⟩ }

def startEqs : Driver Bool := do
  let ok ← allocInit (fun s => { s with fEQ := some ⟨[],[]⟩ }) initEq
  if !ok then pure false else
  let async ← createAsyncEqs
  if async ≠ .success then pure false else
  let comp ← createCompEqs
  -- `startRuntime` succeeds where the runtime has not been started before
  pure (decide (comp = .success))

/-! ## Cleaning up -/

def stopPages : Driver Unit := do
  let s ← Prog.get
  if s.fFwPages.isSome ∧ s.fRuntimePagesStarted then stopRuntimeAndDrain else pure ()

def shutdownEqs : Driver Bool := do
  let s ← Prog.get
  match s.fEQ with
  | none => pure true
  | some eq => shutdown eq

def quarantineDma (s : State) : State := { s with fDmaQuarantined := true }

def teardown : Driver Bool := do
  let s ← Prog.get
  if s.fHcaInitialized ∧ s.isUp then
    let ok ← teardownHca
    update (if ok then fun s => { s with fHcaInitialized := false } else quarantineDma)
    pure ok
  else pure true

/-- The result is false where the fuel ends before the loop of `reclaimAll`. -/
def reclaim (fuel : ℕ) (teardownOk : Bool) : Driver Bool := do
  let s ← Prog.get
  if s.fFwPages.isSome ∧ s.fHcaEnabled ∧ s.isUp ∧ !s.isQuarantined ∧ teardownOk ∧ s.hasOutstandingPages then
    let result ← onPages (FwPages.reclaimAll fuel 5000)
    match result with
    | none => pure false
    | some kr =>
      update (if kr = .success then fun s => s else quarantineDma)
      pure true
  else pure true

def disable : Driver Unit := do
  let s ← Prog.get
  if s.fHcaEnabled ∧ s.isUp then
    let ok ← disableHca
    update (if ok then fun s => { s with fHcaEnabled := false } else quarantineDma)
  else pure ()

def disableBusMasterAndVerify : Driver Bool := do
  let s ← Prog.get
  if !s.fPci then pure true else
  update (fun s => { s with log := .disableBusMaster :: s.log })
  let set ← Prog.query Question.busMaster
  pure (!set)

/-- `MlxEQ::free` -/
def freeEqs : Driver Unit := do
  let s ← Prog.get
  match s.fEQ with
  | none => pure ()
  | some eq =>
    let _ ← shutdown eq
    update (fun s => { s with fEQ := none })

/-- `MlxUAR::free` -/
def freeUars : Driver Unit := do
  let s ← Prog.get
  match s.fUAR.bind Uar.fBootUar with
  | none => update (fun s => { s with fUAR := none })
  | some index =>
    let _ ← exec .freeUar index
    update (fun s => { s with fUAR := none })

/-- `releaseAfterDmaBoundary` and the releases after it. -/
def releaseObjects : Driver Unit := do
  update (fun s => { s with phase := .releasing, fFwPages := none })
  update (fun s => { s with fDMA := false })
  freeEqs
  freeUars
  update (fun s => { s with
    fCmd := none
    fHCA := false
    fBar0Map := false
    fPci := false })

def State.gracefulBoundary (eqDestroyed teardownOk : Bool) (s : State) : Bool :=
  eqDestroyed ∧ teardownOk ∧ !s.fDmaQuarantined ∧ !s.isQuarantined ∧ !s.hasOutstandingPages

/-- The end of `cleanup`: the mappings are retained where the drain cannot be trusted. -/
def crossBoundary (gracefulBoundary : Bool) : Driver Unit := do
  let busMasterDisabled ← disableBusMasterAndVerify
  if !busMasterDisabled then pure ()
  else if !gracefulBoundary then pure ()
  else
    update (fun s => { s with phase := .boundary })
    releaseObjects

def cleanup (fuel : ℕ) : Driver Unit := do
  let s ← Prog.get
  if s.fStopping then pure () else
  update (fun s => { s with fStopping := true, fHealth := false })
  stopPages
  let eqDestroyed ← shutdownEqs
  let teardownOk ← teardown
  let reclaimed ← reclaim fuel teardownOk
  if !reclaimed then pure () else
  disable
  let s ← Prog.get
  crossBoundary (s.gracefulBoundary eqDestroyed teardownOk)

/-- The way out of `start` after an error. -/
def giveUp (fuel : ℕ) : Driver Bool := do
  cleanup fuel
  pure false

/-- What the page worker, the event handlers and the health timer do beside the rest of `start`. -/
def runtime : Driver Unit := do
  let requests ← Prog.query Question.pageRequests
  workerMain requests
  let quarantine ← Prog.query Question.quarantine
  if quarantine then enterDmaQuarantine else pure ()

/-- The way out once the interrupts are being set up. -/
def giveUpRunning (fuel : ℕ) : Driver Bool := do
  runtime
  giveUp fuel

def start (fuel : ℕ) : Driver Bool := do
  update (fun s => { s with phase := .running })
  let isPci ← succeeds
  if !isPci then pure false else
  update (fun s => { s with fPci := true })
  let bar0 ← succeeds
  if !bar0 then giveUp fuel else
  update (fun s => { s with fBar0Map := true })
  let supported ← succeeds
  if !supported then giveUp fuel else
  update (fun s => { s with fHCA := true })
  let cmd ← allocInit (fun s => { s with fCmd := some ⟨false,false⟩ }) (fun s => { s with fCmd := some ⟨true,false⟩ })
  if !cmd then giveUp fuel else
  let pages ← succeeds
  if !pages then giveUp fuel else
  update (fun s => { s with fFwPages := some (FwPages.initial false) })
  let initialized ← fwInit
  if !initialized then giveUp fuel else
  let uar ← allocInit (fun s => { s with fUAR := some ⟨none,false⟩ }) (fun s => s)
  if !uar then giveUp fuel else
  let bootUar ← allocUar
  if !bootUar then giveUp fuel else
  let dbRecord ← allocDbRecord
  if !dbRecord then giveUp fuel else
  let interrupts ← succeeds
  if !interrupts then giveUp fuel else
  let eqs ← startEqs
  if !eqs then giveUp fuel else
  update (fun s => { s with fRuntimePagesStarted := true })
  let sources ← succeeds
  if !sources then giveUpRunning fuel else
  let health ← allocInit (fun s => { s with fHealth := true }) (fun s => s)
  if !health then giveUpRunning fuel else
  let timer ← succeeds
  if !timer then giveUpRunning fuel else
  let dma ← allocInit (fun s => { s with fDMA := true }) (fun s => s)
  if !dma then giveUpRunning fuel else
  pure true

/-! ## The entry points -/

def initial : State where
  fPci := false
  fBar0Map := false
  fHCA := false
  fCmd := none
  fFwPages := none
  fUAR := none
  fEQ := none
  fHealth := false
  fDMA := false
  fHcaEnabled := false
  fHcaInitialized := false
  fRuntimePagesStarted := false
  fStopping := false
  fDmaQuarantined := false
  phase := .created
  log := []

/-- The commands of the driver itself; the others belong to the clients of the device. -/
def ownCommand (op : Opcode) : Bool :=
  op ∈ [Opcode.enableHca,.disableHca,.initHca,.teardownHca,.createEq,.destroyEq,.allocUar,.freeUar]

/-- `start`, what may happen while the device is up, and `cleanup`. -/
inductive Operation
  | start (fuel : ℕ)
  | enterDmaQuarantine
  | clientCommand (op : Opcode) (number : ℕ)
  | pageRequests (requests : List FwPages.Request)
  | cleanup (fuel : ℕ)

def Operation.run : Operation → Driver Unit
  | .start fuel => do let _ ← PciDriver.start fuel
  | .enterDmaQuarantine => PciDriver.enterDmaQuarantine
  | .clientCommand op number => do let _ ← exec op number
  | .pageRequests requests => workerMain requests
  | .cleanup fuel => PciDriver.cleanup fuel

def Operation.Enabled : Operation → State → Prop
  | .start _, s => s.phase = .created
  | .enterDmaQuarantine, s => s.phase = .running ∧ s.fStopping = false
  | .clientCommand op _, s => s.phase = .running ∧ s.fStopping = false ∧ ownCommand op = false
  | .pageRequests _, s => s.phase = .running ∧ s.fStopping = false ∧ s.fRuntimePagesStarted = true
  | .cleanup _, s => s.phase ≠ .created

end AppleMCX.PciDriver
