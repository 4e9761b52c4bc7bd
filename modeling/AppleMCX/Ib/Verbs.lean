import AppleMCX.Core.Command
import AppleMCX.Interaction.Program
import AppleMCX.Interaction.Registry
import Mathlib.Data.BitVec
import Mathlib.Data.Nat.Log

/-! # Queue pairs, completion queues and memory regions

The three managers `MlxQP`, `MlxCQ` and `MlxMR`: creating an object, destroying it by its
handle, and `free`. A table keeps the context of every object with the memory that its
creation named: pinned user buffers, CQE buffers, mappings and doorbell slots.
-/
namespace AppleMCX.Verbs
open Interaction

inductive ObjKind
  | qp | cq | mkey
  deriving DecidableEq, Repr

/-- What a context keeps of its object's memory. -/
inductive Field
  | sqDma | rqDma | qpDbRecord
  | cqeBufDesc | cqeDmaMap | cqDbRecord
  | fMemDesc | fDmaCommand
  deriving DecidableEq, Repr

abbrev Dma := Custody Field Empty ObjKind

/-- `MlxQPContext`, `MlxCQContext` or `MlxMRContext` -/
abbrev Context := Record Field

structure State where
  fUp : Bool
  fQuarantined : Bool
  fUAR : Bool
  fMkeyVariant : BitVec 8
  -- `fQpTable`, `fCqTable` and `fMrTable`; a manager that has been freed has none
  table : ObjKind → Option (List Context)
  dma : Dma

def State.records (s : State) (kind : ObjKind) : List Context := (s.table kind).getD []

structure Reply where
  kr : IOReturn
  number : BitVec 24
  deriving DecidableEq

inductive Caller
  | create | destroy | free
  deriving DecidableEq, Repr

inductive Question
  | allocate | allocDbSlots | pinUserMemory | setMemoryDescriptor | gen64IOVMSegments | buildPBL
  | mlxEncodeCreateMkey
  | exec (caller : Caller) (op : Opcode) (number : ℕ) (refs : List (Field × ℕ))

/-- `pinUserMemory` is answered by the number of segments. -/
abbrev Answer : Question → Type
  | .allocate => Bool
  | .allocDbSlots => IOReturn
  | .pinUserMemory => Option ℕ
  | .setMemoryDescriptor => Bool
  | .gen64IOVMSegments => Bool
  | .buildPBL => IOReturn
  | .mlxEncodeCreateMkey => Bool
  | .exec _ _ _ _ => Reply

abbrev Ib := Prog State Question Answer

def creates : Opcode → Option ObjKind
  | .createQp => some .qp
  | .createCq => some .cq
  | .createMkey => some .mkey
  | _ => none

def destroys : Opcode → Option ObjKind
  | .destroyQp => some .qp
  | .destroyCq => some .cq
  | .destroyMkey => some .mkey
  | _ => none

/-- The objects that may exist after a command. A timed-out creation may have taken effect. -/
def fwEffect (op : Opcode) (number : ℕ) (refs : List (Field × ℕ)) (reply : Reply) (dma : Dma) : Dma :=
  match creates op, destroys op with
  | some kind, _ =>
    if reply.kr = .success then dma.create ⟨kind,some reply.number.toNat,refs⟩
    else if reply.kr = .timeout then dma.create ⟨kind,none,refs⟩
    else dma
  | none, some kind => if reply.kr = .success then dma.destroy kind number else dma
  | none, none => dma

def effect (s : State) : (q : Question) → Answer q → State
  | .exec _ op number refs, reply =>
    { s with
      fQuarantined := s.fQuarantined || (reply : Reply).kr = .timeout
      dma := fwEffect op number refs reply s.dma }
  | _, _ => s

def env : Env State Question Answer := ⟨fun _ _ _ => True,effect⟩

/-! ## Commands and memory -/

def update (f : State → State) : Ib Unit := Prog.modify f

def updateDma (f : Dma → Dma) : Ib Unit := Prog.modify (fun s => { s with dma := f s.dma })

def allocate : Ib Bool := Prog.query Question.allocate

def allocDbSlots : Ib IOReturn := Prog.query Question.allocDbSlots

def setMemoryDescriptor : Ib Bool := Prog.query Question.setMemoryDescriptor

def gen64IOVMSegments : Ib Bool := Prog.query Question.gen64IOVMSegments

def buildPBL : Ib IOReturn := Prog.query Question.buildPBL

def mlxEncodeCreateMkey : Ib Bool := Prog.query Question.mlxEncodeCreateMkey

/-- `MlxPCIDriver::exec`; a command interface that is gone or quarantined submits nothing. -/
def exec (caller : Caller) (op : Opcode) (number : ℕ) (refs : List (Field × ℕ)) : Ib Reply := do
  let s ← Prog.get
  if !s.fUp ∨ (s.fQuarantined ∧ !op.exempt) then pure ⟨.notReady,0⟩
  else Prog.query (Question.exec caller op number refs)

def acquire (f : Field) : Ib ℕ := do
  let s ← Prog.get
  updateDma (Custody.acquire f)
  pure s.dma.next

def releaseAll : List (Field × ℕ) → Ib Unit
  | [] => pure ()
  | r :: refs => do
    updateDma (Custody.release r)
    releaseAll refs

def setTable (kind : ObjKind) (t : Option (List Context)) (s : State) : State :=
  { s with table := Function.update s.table kind t }

/-- `setObject`, where there is room for the record. -/
def addContext (kind : ObjKind) (ctx : Context) : Ib Unit :=
  update (fun s => setTable kind (some (s.records kind ++ [ctx])) s)

/-! ## Destroying -/

def mlxMkeyIndex (key : ℕ) : ℕ := key >>> 8

def mlxComposeMkey (index : BitVec 24) (variant : BitVec 8) : ℕ := index.toNat <<< 8 ||| variant.toNat

theorem mlxMkeyIndex_compose (index : BitVec 24) (variant : BitVec 8) :
    mlxMkeyIndex (mlxComposeMkey index variant) = index.toNat := by
  have hvariant : variant.toNat >>> 8 = 0 := by
    rw [Nat.shiftRight_eq_div_pow]
    exact Nat.div_eq_of_lt variant.isLt
  rw [mlxMkeyIndex, mlxComposeMkey, Nat.shiftRight_or_distrib, hvariant, Nat.shiftLeft_shiftRight, Nat.or_zero]

/-- The number in the command that destroys the object of a handle. -/
def ObjKind.index : ObjKind → ℕ → ℕ
  | .qp, qpn => qpn % 2 ^ 24
  | .cq, cqHandle => cqHandle % 2 ^ 24
  | .mkey, mrHandle => mlxMkeyIndex mrHandle

/-- The first context with the handle: its memory is released, and it is removed. -/
def releaseContext (kind : ObjKind) (handle : ℕ) : Ib Unit := do
  let s ← Prog.get
  match Record.findHandle handle (s.records kind) with
  | none => pure ()
  | some ctx =>
    releaseAll ctx.refs
    update (fun s => setTable kind (some (Record.removeHandle handle (s.records kind))) s)

def cmdDestroy (kind : ObjKind) (op : Opcode) (caller : Caller) (handle : ℕ) : Ib IOReturn := do
  let reply ← exec caller op (kind.index handle) []
  pure reply.kr

def cmdDestroyCQ : Caller → ℕ → Ib IOReturn := cmdDestroy .cq .destroyCq
def cmdDestroyMKey : Caller → ℕ → Ib IOReturn := cmdDestroy .mkey .destroyMkey

def destroyObject (kind : ObjKind) (op : Opcode) (caller : Caller) (handle : ℕ) : Ib IOReturn := do
  let kr ← cmdDestroy kind op caller handle
  if kr = .success then
    releaseContext kind handle
    pure .success
  else pure kr

def destroyQP : Caller → ℕ → Ib IOReturn := destroyObject .qp .destroyQp
def destroyCQ : Caller → ℕ → Ib IOReturn := destroyObject .cq .destroyCq
def deregMR : Caller → ℕ → Ib IOReturn := destroyObject .mkey .destroyMkey

def destroyed (destroy : Caller → ℕ → Ib IOReturn) (handle : ℕ) : Ib Bool := do
  let s ← Prog.get
  if s.fUp then
    let kr ← destroy .free handle
    pure (decide (kr = .success))
  else pure false

/-- The loop of `free` over the contexts that are left; `destroy` has removed the one it destroyed. -/
def freeLoop (kind : ObjKind) (destroy : Caller → ℕ → Ib IOReturn) (unverified : Context → Ib Unit) :
    ℕ → Ib Unit
  | 0 => pure ()
  | n + 1 => do
    let s ← Prog.get
    match s.records kind with
    | [] => pure ()
    | ctx :: _ =>
      let ok ← destroyed destroy ctx.handle
      if ok then freeLoop kind destroy unverified n
      else
        unverified ctx
        update (fun s => setTable kind (some (s.records kind).tail) s)
        freeLoop kind destroy unverified n

def freeTable (kind : ObjKind) (destroy : Caller → ℕ → Ib IOReturn) (unverified : Context → Ib Unit) :
    Ib Unit := do
  let s ← Prog.get
  freeLoop kind destroy unverified (s.records kind).length
  update (setTable kind none)

/-- `MlxQP::free`; the memory of a queue pair that is not destroyed is abandoned. -/
def freeQP : Ib Unit := freeTable .qp destroyQP (fun _ => pure ())

/-- `MlxMR::free`, which does the same. -/
def freeMR : Ib Unit := freeTable .mkey deregMR (fun _ => pure ())

/-- `MlxCQ::free` releases the memory in either case. -/
def freeCQ : Ib Unit := freeTable .cq destroyCQ (fun ctx => do
  let s ← Prog.get
  if s.fUAR then releaseAll ctx.refs else releaseAll (ctx.refs.filter (fun r => r.1 ≠ .cqDbRecord)))

/-! ## Creating queue pairs -/

structure MlxDMAReq where
  memDesc : Option ℕ
  numSegs : ℕ

def MLX_DMA_MAX_SEGS : ℕ := 64

structure CreateQpReq where
  sqSize : BitVec 32
  rqSize : BitVec 32
  sqBufAddr : BitVec 64
  rqBufAddr : BitVec 64

def ringInvalid (size : BitVec 32) (bufAddr : BitVec 64) : Bool :=
  size = 0 ∨ size < 64 ∨ bufAddr &&& 0xfff ≠ 0 ∨ size.toNat * 64 % 4096 ≠ 0 ∨ size &&& (size - 1) ≠ 0

def pinUserMemory (f : Field) : Ib (Option MlxDMAReq) := do
  let segs ← Prog.query Question.pinUserMemory
  match segs with
  | none => pure none
  | some numSegs =>
    let k ← acquire f
    pure (some ⟨some k,numSegs⟩)

/-- Nothing is pinned for a ring without an address. -/
def pinRing (f : Field) (bufAddr : BitVec 64) (size : BitVec 32) : Ib (Option MlxDMAReq) :=
  if bufAddr ≠ 0 ∧ size ≠ 0 then pinUserMemory f else pure (some ⟨none,0⟩)

/-- Both pins, where there are any, and the doorbell slots, in the order in which they are released. -/
def qpMemory (sqReq rqReq : MlxDMAReq) (dbRecordOffset : ℕ) : List (Field × ℕ) :=
  sqReq.memDesc.toList.map (fun k => (.sqDma,k)) ++ rqReq.memDesc.toList.map (fun k => (.rqDma,k)) ++
    [(.qpDbRecord,dbRecordOffset)]

/-- The way out once the object exists: its memory is released if the object can be destroyed. -/
def abandon (kr : IOReturn) (refs : List (Field × ℕ)) : Ib IOReturn :=
  if kr = .success then do
    releaseAll refs
    pure .noMemory
  else pure .noMemory

def unwind (refs : List (Field × ℕ)) (kr : IOReturn) : Ib IOReturn := do
  releaseAll refs
  pure kr

/-- The object exists and gets its context: `IOMallocZero`, `OSData::withBytesNoCopy`, `setObject`. -/
def recordObject (kind : ObjKind) (destroy : Caller → ℕ → Ib IOReturn) (handle : ℕ) (refs : List (Field × ℕ)) :
    Ib IOReturn := do
  let ctx ← allocate
  if !ctx then
    let kr ← destroy .create handle
    abandon kr refs
  else
  let record ← allocate
  if !record then
    let kr ← destroy .create handle
    abandon kr refs
  else
  let added ← allocate
  if !added then
    let kr ← destroy .create handle
    abandon kr refs
  else
  addContext kind ⟨handle,refs⟩
  pure .success

def createQP (req : CreateQpReq) : Ib IOReturn := do
  if ringInvalid req.sqSize req.sqBufAddr ∨ ringInvalid req.rqSize req.rqBufAddr then pure .badArgument
  else if Nat.log2 req.sqSize.toNat > 15 ∨ Nat.log2 req.rqSize.toNat > 15 then pure .badArgument
  else
  let kr ← allocDbSlots
  if kr ≠ .success then pure .noResources else
  let dbRecordOffset ← acquire .qpDbRecord
  let sq ← pinRing .sqDma req.sqBufAddr req.sqSize
  match sq with
  | none => unwind (qpMemory ⟨none,0⟩ ⟨none,0⟩ dbRecordOffset) .noSpace
  | some sqReq =>
  let rq ← pinRing .rqDma req.rqBufAddr req.rqSize
  match rq with
  | none => unwind (qpMemory sqReq ⟨none,0⟩ dbRecordOffset) .noSpace
  | some rqReq =>
  if sqReq.numSegs = 0 ∨ rqReq.numSegs = 0 ∨ sqReq.numSegs + rqReq.numSegs > MLX_DMA_MAX_SEGS then
    unwind (qpMemory sqReq rqReq dbRecordOffset) .noSpace
  else
  let reply ← exec .create .createQp 0 (qpMemory sqReq rqReq dbRecordOffset)
  if reply.kr ≠ .success then unwind (qpMemory sqReq rqReq dbRecordOffset) reply.kr
  else recordObject .qp destroyQP reply.number.toNat (qpMemory sqReq rqReq dbRecordOffset)

/-! ## Creating completion queues -/

/-- The memory of a completion queue in the order in which `destroyCQ` releases it. -/
def cqMemory (cqeBufDesc cqeDmaMap dbRecordOffset : ℕ) : List (Field × ℕ) :=
  [(.cqeDmaMap,cqeDmaMap),(.cqeBufDesc,cqeBufDesc),(.cqDbRecord,dbRecordOffset)]

/-- The same memory in the order in which `createCQ` releases it. -/
def cqUnwound (cqeBufDesc cqeDmaMap dbRecordOffset : ℕ) : List (Field × ℕ) :=
  [(.cqeDmaMap,cqeDmaMap),(.cqDbRecord,dbRecordOffset),(.cqeBufDesc,cqeBufDesc)]

/-- The answer to the command that destroys the queue is not looked at. -/
def discardCQ (cqn : ℕ) (refs : List (Field × ℕ)) : Ib IOReturn := do
  let _ ← cmdDestroyCQ .create cqn
  unwind refs .noMemory

def createCQ (entries : BitVec 32) : Ib IOReturn := do
  if entries = 0 ∨ entries > 2048 then pure .badArgument else
  let cq ← allocate
  if !cq then pure .noMemory else
  let kr ← allocDbSlots
  if kr ≠ .success then pure .noResources else
  let dbRecordOffset ← acquire .cqDbRecord
  let buf ← allocate
  if !buf then unwind [(.cqDbRecord,dbRecordOffset)] .noMemory else
  let bufDesc ← acquire .cqeBufDesc
  -- `withSpecification` and `setMemoryDescriptor`
  let mapped ← setMemoryDescriptor
  if !mapped then unwind [(.cqeBufDesc,bufDesc),(.cqDbRecord,dbRecordOffset)] .noMemory else
  let cqeDmaMap ← acquire .cqeDmaMap
  let pages ← gen64IOVMSegments
  if !pages then unwind (cqUnwound bufDesc cqeDmaMap dbRecordOffset) .noSpace else
  let reply ← exec .create .createCq 0 (cqMemory bufDesc cqeDmaMap dbRecordOffset)
  if reply.kr ≠ .success then unwind (cqUnwound bufDesc cqeDmaMap dbRecordOffset) reply.kr else
  let record ← allocate
  if !record then discardCQ reply.number.toNat (cqUnwound bufDesc cqeDmaMap dbRecordOffset) else
  let added ← allocate
  if !added then discardCQ reply.number.toNat (cqUnwound bufDesc cqeDmaMap dbRecordOffset) else
  addContext .cq ⟨reply.number.toNat,cqMemory bufDesc cqeDmaMap dbRecordOffset⟩
  pure .success

/-! ## Registering memory -/

def MLX_MR_ACCESS_SUPPORTED : BitVec 32 := 15

structure RegMrReq where
  startAddr : BitVec 64
  length : BitVec 64
  accessFlags : BitVec 32
  pd : BitVec 32

def mrMemory (mem dmaCommand : ℕ) : List (Field × ℕ) := [(.fDmaCommand,dmaCommand),(.fMemDesc,mem)]

/-- `++fMkeyVariant`, once more where it gets zero. -/
def nextVariant : Ib (BitVec 8) := do
  let s ← Prog.get
  let variant := if s.fMkeyVariant + 1 = 0 then s.fMkeyVariant + 2 else s.fMkeyVariant + 1
  update (fun s => { s with fMkeyVariant := variant })
  pure variant

/-- `cmdCreateMKey`: the outcome and the key. -/
def cmdCreateMKey (refs : List (Field × ℕ)) : Ib (IOReturn × ℕ) := do
  let ok ← allocate
  if !ok then pure (.noMemory,0) else
  let variant ← nextVariant
  let encoded ← mlxEncodeCreateMkey
  if !encoded then pure (.badArgument,0) else
  let reply ← exec .create .createMkey 0 refs
  if reply.kr ≠ .success then pure (reply.kr,0) else pure (.success,mlxComposeMkey reply.number variant)

def regMR (req : RegMrReq) : Ib IOReturn := do
  if req.length = 0 ∨ req.accessFlags &&& ~~~MLX_MR_ACCESS_SUPPORTED ≠ 0 ∨ req.pd > 0xffffff ∨
      req.startAddr + req.length < req.startAddr then pure .badArgument
  else
  let ok ← allocate
  if !ok then pure .noMemory else
  let mem ← acquire .fMemDesc
  let paList ← allocate
  if !paList then unwind [(.fMemDesc,mem)] .noMemory else
  let kr ← buildPBL
  if kr ≠ .success then unwind [(.fMemDesc,mem)] kr else
  let dmaCommand ← acquire .fDmaCommand
  let created ← cmdCreateMKey (mrMemory mem dmaCommand)
  if created.1 ≠ .success then unwind (mrMemory mem dmaCommand) created.1
  else recordObject .mkey cmdDestroyMKey created.2 (mrMemory mem dmaCommand)

/-! ## The entry points -/

def initial : State where
  fUp := true
  fQuarantined := false
  fUAR := true
  fMkeyVariant := 0
  table := fun _ => some []
  dma :=
    { number := Empty.elim
      held := fun _ => none
      live := []
      next := 0
      objects := [] }

/-- The entry points of the managers, and what the rest of the driver may do: another command
times out, or the core gives up its command interface. -/
inductive Operation
  | createQP (req : CreateQpReq)
  | destroyQP (qpn : ℕ)
  | freeQP
  | createCQ (entries : BitVec 32)
  | destroyCQ (cqHandle : ℕ)
  | freeCQ
  | regMR (req : RegMrReq)
  | deregMR (mrHandle : ℕ)
  | freeMR
  | commandTimedOut
  | coreReleased

def Operation.run : Operation → Ib Unit
  | .createQP req => do let _ ← Verbs.createQP req
  | .destroyQP qpn => do let _ ← Verbs.destroyQP .destroy qpn
  | .freeQP => Verbs.freeQP
  | .createCQ entries => do let _ ← Verbs.createCQ entries
  | .destroyCQ cqHandle => do let _ ← Verbs.destroyCQ .destroy cqHandle
  | .freeCQ => Verbs.freeCQ
  | .regMR req => do let _ ← Verbs.regMR req
  | .deregMR mrHandle => do let _ ← Verbs.deregMR .destroy mrHandle
  | .freeMR => Verbs.freeMR
  | .commandTimedOut => update (fun s => { s with fQuarantined := true })
  | .coreReleased => update (fun s => { s with fUp := false, fUAR := false })

/-- A manager is called until it is freed. -/
def Operation.Enabled : Operation → State → Prop
  | .createQP _, s => s.table .qp ≠ none
  | .destroyQP _, s => s.table .qp ≠ none
  | .freeQP, s => s.table .qp ≠ none
  | .createCQ _, s => s.table .cq ≠ none
  | .destroyCQ _, s => s.table .cq ≠ none
  | .freeCQ, s => s.table .cq ≠ none
  | .regMR _, s => s.table .mkey ≠ none
  | .deregMR _, s => s.table .mkey ≠ none
  | .freeMR, s => s.table .mkey ≠ none
  | .commandTimedOut, _ => True
  | .coreReleased, _ => True

end AppleMCX.Verbs
