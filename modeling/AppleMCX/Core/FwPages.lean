import AppleMCX.Core.Command
import AppleMCX.Interaction.Program
import Mathlib.Algebra.Group.Nat.Defs
import Mathlib.Data.Int.Basic

/-! # The firmware-page manager

`MlxFwPages` lends 4 KiB pages to the firmware and takes them back by MANAGE_PAGES
commands. Each operation below runs under `fOperationLock`. A page is known to the host
by its record on `fPages`; what the firmware really holds is a ghost part of the state
that the operations never read.
-/
namespace AppleMCX.FwPages
open Interaction

inductive Phase
  | boot | init | runtime
  deriving DecidableEq, Repr

inductive Ownership
  | hostPrepared | givePending | firmwareOwned | returned | ambiguous
  deriving DecidableEq, Repr

inductive Fault
  | none | requestOverflow | malformedEvent | giveTimeout | takeTimeout | protocol | reclaimTimeout
  deriving DecidableEq, Repr

/-- `MlxFwPage`; `record` stands for the address of the structure. -/
structure FwPage where
  record : ℕ
  dmaAddress : ℕ
  functionId : ℕ
  embedded : Bool
  phase : Phase
  ownership : Ownership
  deriving DecidableEq, Repr

structure Request where
  functionId : ℕ
  embedded : Bool
  releaseAll : Bool
  numPages : ℤ
  deriving DecidableEq, Repr

/-- The fields of `MlxFwPages` that its page operations use. -/
structure State where
  fPages : List FwPage
  fTrackedPages : ℕ
  fEmbedded : Bool
  fFatal : Bool
  fFault : Fault
  nextRecord : ℕ
  deriving DecidableEq, Repr

def pageSize : ℕ := 4096
def maxTrackedPages : ℕ := 65536
def maxManagePages : ℕ := 512

/-- A page as the firmware knows it: its address and the function it was given to. -/
structure Held where
  record : ℕ
  dmaAddress : ℕ
  functionId : ℕ
  embedded : Bool
  deriving DecidableEq, Repr

/-- The pages the firmware uses, and those of a timed-out GIVE that it may still take up. -/
structure Firmware where
  held : List Held
  late : List Held
  deriving DecidableEq, Repr

structure World where
  host : State
  fw : Firmware
  deriving DecidableEq, Repr

/-- One result of `gen64IOVMSegments`. -/
structure Segment where
  kr : IOReturn
  count : ℕ
  fLength : ℕ
  fIOVMAddr : ℕ

structure QueryReply where
  kr : IOReturn
  functionId : ℕ
  embedded : Bool
  pages : ℤ

/-- A TAKE reply, and which pages the firmware keeps. -/
structure TakeReply where
  kr : IOReturn
  count : ℕ
  address : ℕ → ℕ
  keep : Held → Bool

inductive Question
  | allocate
  | setMemoryDescriptor
  | gen64IOVMSegments
  | queryPages (phase : Phase) (embedded : Bool)
  | give (functionId : ℕ) (embedded : Bool) (pages : List FwPage)
  | take (functionId : ℕ) (embedded : Bool) (requested : ℕ)
  | allocationFail (functionId : ℕ) (embedded : Bool)

def Answer : Question → Type
  | .allocate => Bool
  | .setMemoryDescriptor => IOReturn
  | .gen64IOVMSegments => Segment
  | .queryPages _ _ => QueryReply
  | .give _ _ _ => IOReturn
  | .take _ _ _ => TakeReply
  | .allocationFail _ _ => IOReturn

abbrev Pages : Type → Type := Prog World Question Answer

/-! ## The page list -/

namespace State

def page (s : State) (record : ℕ) : Option FwPage := s.fPages.find? (fun p => p.record == record)

def setOwnership (record : ℕ) (ownership : Ownership) (s : State) : State :=
  { s with fPages := s.fPages.map (fun p => if p.record = record then { p with ownership } else p) }

def insertPage (p : FwPage) (s : State) : State :=
  { s with fPages := p :: s.fPages, fTrackedPages := s.fTrackedPages + 1, nextRecord := p.record + 1 }

/-- `removePage` and the rest of `releasePage`. -/
def releasePage (record : ℕ) (s : State) : State :=
  { s with fPages := s.fPages.eraseP (fun p => p.record == record), fTrackedPages := s.fTrackedPages - 1 }

def setFatal (fault : Fault) (s : State) : State := { s with fFatal := true, fFault := fault }

def findPage (dmaAddress functionId : ℕ) (embedded : Bool) (s : State) : Option FwPage :=
  s.fPages.find? (fun p => p.dmaAddress == dmaAddress && p.functionId == functionId && p.embedded == embedded)

def markFunctionAmbiguous (functionId : ℕ) (embedded : Bool) (s : State) : State :=
  { s with fPages := s.fPages.map (fun p =>
      if p.functionId = functionId ∧ p.embedded = embedded ∧ p.ownership = .firmwareOwned
      then { p with ownership := .ambiguous } else p) }

def hasOutstandingPages (s : State) : Bool :=
  s.fPages.any (fun p => p.ownership = .firmwareOwned ∨ p.ownership = .ambiguous ∨ p.ownership = .givePending)

def hasAmbiguousPages (s : State) : Bool :=
  s.fPages.any (fun p => p.ownership = .ambiguous ∨ p.ownership = .givePending)

/-- The scan of `reclaimAll`: the first firmware-owned page and how many share its function. -/
def firstOwned (s : State) : Option (FwPage × ℕ) :=
  match s.fPages.filter (fun p => p.ownership = .firmwareOwned) with
  | [] => none
  | first :: rest =>
    some (first,((first :: rest).filter (fun p =>
      p.functionId = first.functionId ∧ p.embedded = first.embedded)).length)

/-- The loop of `takePages` over the addresses of a reply; `none` is the jump to `protocol`. -/
def validate (functionId : ℕ) (embedded : Bool) (s : State) : List ℕ → List ℕ → Option (List ℕ)
  | [], validated => some validated
  | address :: rest, validated =>
    match s.findPage address functionId embedded with
    | none => none
    | some p =>
      if address = 0 ∨ address % pageSize ≠ 0 ∨ p.ownership ≠ .firmwareOwned then none
      else if p.record ∈ validated then none
      else validate functionId embedded s rest (validated ++ [p.record])

end State

/-! ## The operations -/

def host : Pages State := Prog.get.bind (fun w => .done w.host)

def update (f : State → State) : Pages Unit := Prog.modify (fun w => { w with host := f w.host })

/-- One allocation of memory, a descriptor, its bytes or a mapping; it may fail. -/
def allocate : Pages Bool := Prog.query Question.allocate

def setMemoryDescriptor : Pages IOReturn := Prog.query Question.setMemoryDescriptor

def gen64IOVMSegments : Pages Segment := Prog.query Question.gen64IOVMSegments

def execQueryPages (phase : Phase) (embedded : Bool) : Pages QueryReply :=
  Prog.query (Question.queryPages phase embedded)

def execGive (functionId : ℕ) (embedded : Bool) (pages : List FwPage) : Pages IOReturn :=
  Prog.query (Question.give functionId embedded pages)

def execTake (functionId : ℕ) (embedded : Bool) (requested : ℕ) : Pages TakeReply :=
  Prog.query (Question.take functionId embedded requested)

def queryPages (phase : Phase) : Pages QueryReply := do
  let s ← host
  let reply ← execQueryPages phase s.fEmbedded
  if reply.kr ≠ .success then pure reply
  else if reply.pages < 0 then pure { reply with kr := .ioError }
  else pure reply

def allocatePage (functionId : ℕ) (embedded : Bool) (phase : Phase) : Pages (IOReturn × ℕ) := do
  let page ← allocate
  if !page then pure (.noMemory,0) else
  let descriptor ← allocate
  if !descriptor then pure (.noMemory,0) else
  let bytes ← allocate
  if !bytes then pure (.noMemory,0) else
  let mapping ← allocate
  if !mapping then pure (.noMemory,0) else
  let kr ← setMemoryDescriptor
  if kr ≠ .success then pure (.noMemory,0) else
  let segment ← gen64IOVMSegments
  if segment.kr ≠ .success ∨ segment.count ≠ 1 ∨ segment.fLength < pageSize ∨ segment.fIOVMAddr = 0 ∨
      segment.fIOVMAddr % pageSize ≠ 0 then pure (.noSpace,0) else
  let s ← host
  update (State.insertPage
    { record := s.nextRecord, dmaAddress := segment.fIOVMAddr, functionId, embedded, phase,
      ownership := .hostPrepared })
  pure (.success,s.nextRecord)

/-- The ownership a page gets from the outcome of its GIVE. -/
def givenOwnership : IOReturn → Ownership
  | .success => .firmwareOwned
  | .timeout => .ambiguous
  | _ => .hostPrepared

def giveBatch (pages : List ℕ) (functionId : ℕ) (embedded : Bool) : Pages IOReturn := do
  if pages.length = 0 ∨ maxManagePages < pages.length then pure .badArgument else
  let input ← allocate
  let addresses ← allocate
  if !input || !addresses then pure .noMemory else
  let s ← host
  Prog.forEach pages (fun record => update (State.setOwnership record .givePending))
  let kr ← execGive functionId embedded (pages.filterMap s.page)
  Prog.forEach pages (fun record => update (State.setOwnership record (givenOwnership kr)))
  if kr = .timeout then update (State.setFatal .giveTimeout)
  pure kr

def notifyAllocationFailure (functionId : ℕ) (embedded : Bool) : Pages IOReturn :=
  Prog.query (Question.allocationFail functionId embedded)

/-- The allocation loop of `givePages`: the pages allocated, and the result that ended it. -/
def allocatePages (functionId : ℕ) (embedded : Bool) (phase : Phase) :
    ℕ → List ℕ → Pages (IOReturn × List ℕ)
  | 0, pages => pure (.success,pages)
  | more + 1, pages => do
    let (kr,record) ← allocatePage functionId embedded phase
    if kr ≠ .success then pure (kr,pages)
    else allocatePages functionId embedded phase more (pages ++ [record])

def releasePrepared (record : ℕ) : Pages Unit := do
  let s ← host
  if (s.page record).map (·.ownership) = some .hostPrepared then update (State.releasePage record)
  else pure ()

/-- The batches of `givePages` over the pages not yet given; `start` is how many were. -/
def giveBatches (functionId : ℕ) (embedded : Bool) : ℕ → ℕ → List ℕ → Pages IOReturn
  | 0, _, _ => pure .success
  | _ + 1, _, [] => pure .success
  | fuel + 1, start, page :: rest => do
    let batch := (page :: rest).take maxManagePages
    let kr ← giveBatch batch functionId embedded
    if kr ≠ .success then
      Prog.forEach (page :: rest) releasePrepared
      if start ≠ 0 then update (State.setFatal .protocol)
      pure kr
    else giveBatches functionId embedded fuel (start + batch.length) ((page :: rest).drop maxManagePages)

def givePages (functionId : ℕ) (embedded : Bool) (pageCount : ℕ) (phase : Phase)
    (notifyFailure : Bool) : Pages IOReturn := do
  if pageCount = 0 then pure .success else
  let s ← host
  if pageCount > maxTrackedPages ∨ s.fTrackedPages > maxTrackedPages - pageCount then
    if notifyFailure then let _ ← notifyAllocationFailure functionId embedded
    pure .noResources
  else
  let pages ← allocate
  let batch ← allocate
  if !pages || !batch then
    if notifyFailure then let _ ← notifyAllocationFailure functionId embedded
    pure .noMemory
  else
  let (kr,allocated) ← allocatePages functionId embedded phase pageCount []
  if kr ≠ .success then
    Prog.forEach allocated (fun record => update (State.releasePage record))
    if notifyFailure then let _ ← notifyAllocationFailure functionId embedded
    pure kr
  else giveBatches functionId embedded pageCount 0 allocated

/-- The return code, and `*returned`. -/
def takePages (functionId : ℕ) (embedded : Bool) (requested : ℕ) : Pages (IOReturn × ℕ) := do
  if requested = 0 ∨ requested > maxManagePages then pure (.badArgument,0) else
  let out ← allocate
  let validated ← allocate
  if !out || !validated then pure (.noMemory,0) else
  let reply ← execTake functionId embedded requested
  if reply.kr = .timeout then
    update (State.markFunctionAmbiguous functionId embedded)
    update (State.setFatal .takeTimeout)
    pure (.timeout,0)
  else if reply.kr ≠ .success then pure (reply.kr,0)
  else
  let s ← host
  let checked :=
    if reply.count > requested then none
    else s.validate functionId embedded ((List.range reply.count).map reply.address) []
  match checked with
  | none => do
    update (State.markFunctionAmbiguous functionId embedded)
    update (State.setFatal .protocol)
    pure (.ioError,0)
  | some pages => do
    Prog.forEach pages (fun record => do
      update (State.setOwnership record .returned)
      update (State.releasePage record))
    pure (.success,reply.count)

/-- The loop of `reclaimAll`; `none` where the fuel ends before the loop does. -/
def reclaimLoop (timeoutMs : ℕ) : ℕ → ℕ → Pages (Option IOReturn)
  | 0, _ => pure none
  | fuel + 1, waited => do
    let s ← host
    match s.firstOwned with
    | none => pure (some .success)
    | some (first,count) => do
      let (kr,returned) ← takePages first.functionId first.embedded (min count maxManagePages)
      if kr ≠ .success then pure (some kr)
      else if returned = 0 then
        if waited ≥ timeoutMs then
          update (State.markFunctionAmbiguous first.functionId first.embedded)
          update (State.setFatal .reclaimTimeout)
          pure (some .timeout)
        else reclaimLoop timeoutMs fuel ((waited + 50) % 2^32)
      else reclaimLoop timeoutMs fuel 0

def reclaimAll (fuel timeoutMs : ℕ) : Pages (Option IOReturn) := do
  let result ← reclaimLoop timeoutMs fuel 0
  let s ← host
  if s.hasAmbiguousPages ∧ result = some .success then pure (some .notReady) else pure result

def releaseOwned (functionId : ℕ) (embedded : Bool) (record : ℕ) : Pages Unit := do
  let s ← host
  match s.page record with
  | none => pure ()
  | some p =>
    if p.functionId = functionId ∧ p.embedded = embedded ∧ p.ownership = .firmwareOwned then do
      update (State.setOwnership record .returned)
      update (State.releasePage record)
    else pure ()

def releaseAllForFunction (functionId : ℕ) (embedded : Bool) : Pages Unit := do
  let s ← host
  Prog.forEach (s.fPages.map (·.record)) (releaseOwned functionId embedded)

def takeLoop (functionId : ℕ) (embedded : Bool) : ℕ → ℕ → Pages IOReturn
  | 0, _ => pure .success
  | fuel + 1, remaining =>
    if remaining = 0 then pure .success else do
    let (kr,returned) ← takePages functionId embedded (min remaining maxManagePages)
    if kr ≠ .success then pure kr
    else if returned = 0 then
      update (State.markFunctionAmbiguous functionId embedded)
      update (State.setFatal .protocol)
      pure .ioError
    else takeLoop functionId embedded fuel (remaining - returned)

def int32Min : ℤ := -2147483648

def processRequest (request : Request) : Pages IOReturn := do
  if request.releaseAll then
    releaseAllForFunction request.functionId request.embedded
    pure .success
  else if 0 < request.numPages then
    givePages request.functionId request.embedded request.numPages.toNat .runtime true
  else if request.numPages < 0 ∧ request.numPages ≠ int32Min then
    takeLoop request.functionId request.embedded (-request.numPages).toNat (-request.numPages).toNat
  else
    update (State.setFatal .malformedEvent)
    pure .badArgument

def satisfyStartupPages (phase : Phase) : Pages IOReturn := do
  let reply ← queryPages phase
  if reply.kr = .success ∧ reply.pages ≠ 0 then
    givePages reply.functionId reply.embedded reply.pages.toNat phase false
  else pure reply.kr

end AppleMCX.FwPages
