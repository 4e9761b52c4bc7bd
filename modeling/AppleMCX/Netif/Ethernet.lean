import AppleMCX.Core.Command
import AppleMCX.Interaction.Custody
import AppleMCX.Interaction.Program

/-! # Bringing the Ethernet interface up and down

`enable`, `disable` and `stop` of `MlxEthernet` with everything they create and destroy.
The resources the device can reach are in the custody of the state: buffers, mappings and
doorbell slots in the driver's fields, and the queues of the firmware that refer to them,
among them those of a creation that timed out.
-/
namespace AppleMCX.Ethernet
open Interaction

/-- The fields that keep the number of a queue. -/
inductive Queue
  | fSqn | fRqn | fTxCqn | fRxCqn
  deriving DecidableEq, Repr

/-- The fields that keep a resource; `txWq…` and `rxWq…` are those of the two rings. -/
inductive Field
  | fTxBufDesc | fTxBufMap | txWqDesc | txWqDmaMap | fTxDbOffset
  | fRxBufDesc | fRxBufMap | rxWqDesc | rxWqDmaMap | fRxDbOffset
  | fTxCqDesc | fTxCqMap | fTxCqDbOffset
  | fRxCqDesc | fRxCqMap | fRxCqDbOffset
  deriving DecidableEq, Repr

inductive ObjKind
  | sq | rq | cq
  deriving DecidableEq, Repr

def Field.owner : Field → Queue
  | .fTxBufDesc | .fTxBufMap | .txWqDesc | .txWqDmaMap | .fTxDbOffset => .fSqn
  | .fRxBufDesc | .fRxBufMap | .rxWqDesc | .rxWqDmaMap | .fRxDbOffset => .fRqn
  | .fTxCqDesc | .fTxCqMap | .fTxCqDbOffset => .fTxCqn
  | .fRxCqDesc | .fRxCqMap | .fRxCqDbOffset => .fRxCqn

def Queue.kind : Queue → ObjKind
  | .fSqn => .sq
  | .fRqn => .rq
  | .fTxCqn | .fRxCqn => .cq

abbrev Dma : Type := Custody Field Queue ObjKind

structure State where
  fCore : Bool
  fEnabled : Bool
  fEnabling : Bool
  fDisabling : Bool
  fNotifierRegistered : Bool
  /-- The command interface of the core. -/
  fQuarantined : Bool
  fPd : Option ℕ
  fTd : Option ℕ
  fTisn : Option ℕ
  fTirn : Option ℕ
  fMkeyIndex : Option ℕ
  fFlowTableId : Option ℕ
  fFlowGroupId : Option ℕ
  fFlowEntryValid : Bool
  fFlowRootActive : Bool
  fTxBfValid : Bool
  /-- The registers of the UAR that are allocated for the controller. -/
  bfregs : ℕ
  /-- The slots of the TX ring with an mbuf. -/
  fWqeMbuf : ℕ → Bool
  dma : Dma

/-- The return code of a command, and the object number in its reply. -/
structure Reply where
  kr : IOReturn
  number : ℕ
  deriving DecidableEq, Repr

inductive Question
  | allocate
  | mapDMAContiguous
  | allocDbSlots
  | allocBfreg
  | getEQ
  | exec (op : Opcode) (number : ℕ) (refs : List (Field × ℕ))

def Answer : Question → Type
  | .allocate => Bool
  | .mapDMAContiguous => IOReturn
  | .allocDbSlots => IOReturn
  | .allocBfreg => IOReturn
  | .getEQ => Bool
  | .exec _ _ _ => Reply

abbrev Eth : Type → Type := Prog State Question Answer

/-! ## The firmware -/

def creates : Opcode → Option ObjKind
  | .createSq => some .sq
  | .createRq => some .rq
  | .createCq => some .cq
  | _ => none

def destroys : Opcode → Option ObjKind
  | .destroySq => some .sq
  | .destroyRq => some .rq
  | .destroyCq => some .cq
  | _ => none

/-- The queues that may exist after a command. A timed-out creation may have taken effect. -/
def fwEffect (op : Opcode) (number : ℕ) (refs : List (Field × ℕ)) (reply : Reply) (dma : Dma) : Dma :=
  match creates op, destroys op with
  | some kind, _ =>
    if reply.kr = .success then dma.create ⟨kind,some reply.number,refs⟩
    else if reply.kr = .timeout then dma.create ⟨kind,none,refs⟩
    else dma
  | none, some kind => if reply.kr = .success then dma.destroy kind number else dma
  | none, none => dma

def bfregsAfter (kr : IOReturn) (bfregs : ℕ) : ℕ := if kr = .success then bfregs + 1 else bfregs

def effect (s : State) : (q : Question) → Answer q → State
  | .exec op number refs, reply =>
    { s with
      fQuarantined := s.fQuarantined || (reply : Reply).kr = .timeout
      dma := fwEffect op number refs reply s.dma }
  | .allocBfreg, kr => { s with bfregs := bfregsAfter kr s.bfregs }
  | _, _ => s

def env : Env State Question Answer := ⟨fun _ _ _ => True,effect⟩

/-! ## Commands -/

def update (f : State → State) : Eth Unit := Prog.modify f

def updateDma (f : Dma → Dma) : Eth Unit := Prog.modify (fun s => { s with dma := f s.dma })

def allocate : Eth Bool := Prog.query Question.allocate

def mapDMAContiguous : Eth IOReturn := Prog.query Question.mapDMAContiguous

def allocDbSlots : Eth IOReturn := Prog.query Question.allocDbSlots

def allocBfreg : Eth IOReturn := Prog.query Question.allocBfreg

def getEQ : Eth Bool := Prog.query Question.getEQ

/-- `MlxPCIDriver::exec`; a quarantined command interface submits nothing. -/
def exec (op : Opcode) (number : ℕ) (refs : List (Field × ℕ)) : Eth Reply := do
  let s ← Prog.get
  if s.fQuarantined ∧ !op.exempt then pure ⟨.notReady,0⟩
  else Prog.query (Question.exec op number refs)

def acquire (f : Field) : Eth ℕ := do
  let s ← Prog.get
  updateDma (Custody.acquire f)
  pure s.dma.next

/-- A buffer for a field, which is cleared where there is no memory. -/
def allocateInto (f : Field) : Eth Bool := do
  let ok ← allocate
  if ok then
    let k ← acquire f
    updateDma (Custody.hold f k)
    pure true
  else
    updateDma (Custody.clear f)
    pure false

/-- `mlxMapDMAContiguous` into a field -/
def mapInto (f : Field) : Eth IOReturn := do
  let kr ← mapDMAContiguous
  if kr = .success then
    let k ← acquire f
    updateDma (Custody.hold f k)
    pure .success
  else pure kr

def onSuccess (kr : IOReturn) (f : State → State) : Eth Unit := if kr = .success then update f else pure ()

/-- The rest after a success, and else the error. -/
def andThen (kr : IOReturn) (rest : Eth IOReturn) : Eth IOReturn := if kr = .success then rest else pure kr

/-- A command without DMA memory, and a field for the number in its reply. -/
def createObject (op : Opcode) (store : Option ℕ → State → State) : Eth IOReturn := do
  let reply ← exec op 0 []
  onSuccess reply.kr (store (some reply.number))
  pure reply.kr

/-- `cmdDestroyObject` for the number in a field, which is cleared on success. -/
def destroyObject (op : Opcode) (number : State → Option ℕ) (store : Option ℕ → State → State) : Eth IOReturn := do
  let s ← Prog.get
  match number s with
  | none => pure .success
  | some n =>
    let reply ← exec op n []
    onSuccess reply.kr (store none)
    pure reply.kr

def storeQueue (q : Queue) (n : Option ℕ) (s : State) : State := { s with dma := s.dma.setNumber q n }

def destroyQueue (op : Opcode) (q : Queue) : Eth IOReturn := destroyObject op (fun s => s.dma.number q) (storeQueue q)

def cmdAllocTd : Eth IOReturn := createObject .allocTransportDomain (fun n s => { s with fTd := n })
def cmdAllocPd : Eth IOReturn := createObject .allocPd (fun n s => { s with fPd := n })
def cmdCreateMkey : Eth IOReturn := createObject .createMkey (fun n s => { s with fMkeyIndex := n })
def cmdCreateTis : Eth IOReturn := createObject .createTis (fun n s => { s with fTisn := n })
def cmdCreateTir : Eth IOReturn := createObject .createTir (fun n s => { s with fTirn := n })

def cmdModifySqReady : Eth IOReturn := do
  let s ← Prog.get
  let reply ← exec .modifySq ((s.dma.number .fSqn).getD 0) []
  pure reply.kr

def cmdModifyRqReady : Eth IOReturn := do
  let s ← Prog.get
  let reply ← exec .modifyRq ((s.dma.number .fRqn).getD 0) []
  pure reply.kr

/-- The output arguments of `cmdCreateCq`. -/
structure CqFields where
  queue : Queue
  desc : Field
  map : Field
  dbOffset : Field

def txCq : CqFields := ⟨.fTxCqn,.fTxCqDesc,.fTxCqMap,.fTxCqDbOffset⟩
def rxCq : CqFields := ⟨.fRxCqn,.fRxCqDesc,.fRxCqMap,.fRxCqDbOffset⟩

/-- What `cmdCreateCq` stores on success. -/
def CqFields.store (cq : CqFields) (n desc map dbOff : ℕ) (dma : Dma) : Dma :=
  (((dma.setNumber cq.queue (some n)).hold cq.desc desc).hold cq.map map).hold cq.dbOffset dbOff

def cmdCreateCq (cq : CqFields) : Eth IOReturn := do
  let ok ← allocate
  if !ok then pure .noMemory else
  let desc ← acquire cq.desc
  let kr ← mapDMAContiguous
  if kr ≠ .success then
    updateDma (Custody.release (cq.desc,desc))
    pure .noMemory
  else
  let map ← acquire cq.map
  let kr ← allocDbSlots
  if kr ≠ .success then
    updateDma (Custody.release (cq.map,map))
    updateDma (Custody.release (cq.desc,desc))
    pure .noResources
  else
  let dbOff ← acquire cq.dbOffset
  let reply ← exec .createCq 0 [(cq.desc,desc),(cq.map,map),(cq.dbOffset,dbOff)]
  if reply.kr ≠ .success then
    updateDma (Custody.release (cq.dbOffset,dbOff))
    updateDma (Custody.release (cq.map,map))
    updateDma (Custody.release (cq.desc,desc))
    pure reply.kr
  else
    updateDma (cq.store reply.number desc map dbOff)
    pure .success

/-- The fields of a work queue: its ring, the packet pool its WQEs point to, its doorbell slot. -/
structure WqFields where
  queue : Queue
  wqDesc : Field
  wqDmaMap : Field
  bufDesc : Field
  bufMap : Field
  dbOffset : Field

def txWq : WqFields := ⟨.fSqn,.txWqDesc,.txWqDmaMap,.fTxBufDesc,.fTxBufMap,.fTxDbOffset⟩
def rxWq : WqFields := ⟨.fRqn,.rxWqDesc,.rxWqDmaMap,.fRxBufDesc,.fRxBufMap,.fRxDbOffset⟩

/-- The memory a work queue is created with, but for the doorbell slot. -/
def WqFields.memory (wq : WqFields) (dma : Dma) : List (Field × ℕ) :=
  [wq.wqDesc,wq.wqDmaMap,wq.bufDesc,wq.bufMap].filterMap (fun f => (dma.held f).map (fun k => (f,k)))

/-- `cmdCreateSq` and `cmdCreateRq` -/
def cmdCreateWq (op : Opcode) (wq : WqFields) : Eth IOReturn := do
  let s ← Prog.get
  if (s.dma.held wq.wqDesc).isNone then pure .notReady else
  let kr ← allocDbSlots
  if kr ≠ .success then pure .noResources else
  let dbOff ← acquire wq.dbOffset
  let reply ← exec op 0 ((wq.dbOffset,dbOff) :: wq.memory s.dma)
  if reply.kr ≠ .success then
    updateDma (Custody.release (wq.dbOffset,dbOff))
    pure reply.kr
  else
    updateDma (fun dma => (dma.setNumber wq.queue (some reply.number)).hold wq.dbOffset dbOff)
    pure .success

def cmdCreateSq : Eth IOReturn := cmdCreateWq .createSq txWq
def cmdCreateRq : Eth IOReturn := cmdCreateWq .createRq rxWq

/-! ## Flow steering -/

def destroyRxFlowSteering : Eth IOReturn := do
  let kr ← destroyObject .setFlowTableRoot (fun s => if s.fFlowRootActive then some 0 else none)
    (fun _ s => { s with fFlowRootActive := false })
  andThen kr do
  let kr ← destroyObject .deleteFlowTableEntry (fun s => if s.fFlowEntryValid then some 0 else none)
    (fun _ s => { s with fFlowEntryValid := false })
  andThen kr do
  let kr ← destroyObject .destroyFlowGroup State.fFlowGroupId (fun n s => { s with fFlowGroupId := n })
  andThen kr do
  destroyObject .destroyFlowTable State.fFlowTableId (fun n s => { s with fFlowTableId := n })

/-- The jump to `fail` of a creating function: the clean-up runs, and its result is ignored. -/
def orElse (kr : IOReturn) (cleanup rest : Eth IOReturn) : Eth IOReturn :=
  if kr ≠ .success then do
    let _ ← cleanup
    pure kr
  else rest

def createRxFlowSteering : Eth IOReturn := do
  let kr ← createObject .createFlowTable (fun n s => { s with fFlowTableId := n })
  andThen kr do
  let kr ← createObject .createFlowGroup (fun n s => { s with fFlowGroupId := n })
  orElse kr destroyRxFlowSteering do
  let kr ← createObject .setFlowTableEntry (fun _ s => { s with fFlowEntryValid := true })
  orElse kr destroyRxFlowSteering do
  let kr ← createObject .setFlowTableRoot (fun _ s => { s with fFlowRootActive := true })
  orElse kr destroyRxFlowSteering (pure .success)

/-! ## The resources of both directions -/

/-- A failed destroy of the transport domain leaves the protection domain alone. -/
def deallocGlobalResources : Eth IOReturn := do
  let kr ← destroyObject .destroyMkey State.fMkeyIndex (fun n s => { s with fMkeyIndex := n })
  andThen kr do
  let firstError ← destroyObject .deallocTransportDomain State.fTd (fun n s => { s with fTd := n })
  andThen firstError do
  destroyObject .deallocPd State.fPd (fun n s => { s with fPd := n })

def allocGlobalResources : Eth IOReturn := do
  let kr ← cmdAllocPd
  andThen kr do
  let kr ← cmdAllocTd
  orElse kr deallocGlobalResources do
  let kr ← cmdCreateMkey
  orElse kr deallocGlobalResources (pure .success)

def drop (f : Field) : Eth Unit := updateDma (Custody.drop f)

def dropBuffer (desc map : Field) : Eth Unit := do
  let s ← Prog.get
  if (s.dma.held desc).isSome then
    drop map
    drop desc

/-- The loops over all slots; `setWqeMbuf` writes no others. -/
def clearWqeMbufs (s : State) : State := { s with fWqeMbuf := fun _ => false }

def freeBfreg (s : State) : State :=
  { s with
    bfregs := if s.fTxBfValid then s.bfregs - 1 else s.bfregs
    fTxBfValid := false }

def destroyTxResources : Eth IOReturn := do
  let kr ← destroyQueue .destroySq .fSqn
  andThen kr do
  update clearWqeMbufs
  dropBuffer .fTxBufDesc .fTxBufMap
  drop .fTxDbOffset
  update freeBfreg
  let kr ← destroyQueue .destroyCq .fTxCqn
  andThen kr do
  dropBuffer .fTxCqDesc .fTxCqMap
  drop .fTxCqDbOffset
  destroyObject .destroyTis State.fTisn (fun n s => { s with fTisn := n })

def createTxResources : Eth IOReturn := do
  update clearWqeMbufs
  let ok ← allocateInto .fTxBufDesc
  if !ok then pure .noMemory else
  let kr ← mapInto .fTxBufMap
  orElse kr destroyTxResources do
  let kr ← cmdCreateTis
  orElse kr destroyTxResources do
  let kr ← cmdCreateCq txCq
  orElse kr destroyTxResources do
  let kr ← cmdCreateSq
  orElse kr destroyTxResources do
  let kr ← allocBfreg
  orElse kr destroyTxResources do
  update (fun s => { s with fTxBfValid := true })
  let kr ← cmdModifySqReady
  orElse kr destroyTxResources (pure .success)

def destroyRxResources : Eth IOReturn := do
  let kr ← destroyObject .destroyTir State.fTirn (fun n s => { s with fTirn := n })
  andThen kr do
  let kr ← destroyQueue .destroyRq .fRqn
  andThen kr do
  dropBuffer .fRxBufDesc .fRxBufMap
  drop .fRxDbOffset
  let kr ← destroyQueue .destroyCq .fRxCqn
  andThen kr do
  dropBuffer .fRxCqDesc .fRxCqMap
  drop .fRxCqDbOffset
  pure .success

def createRxResources : Eth IOReturn := do
  let ok ← allocateInto .fRxBufDesc
  if !ok then pure .noMemory else
  let kr ← mapInto .fRxBufMap
  orElse kr destroyRxResources do
  let kr ← cmdCreateCq rxCq
  orElse kr destroyRxResources do
  let kr ← cmdCreateRq
  orElse kr destroyRxResources do
  let kr ← cmdCreateTir
  orElse kr destroyRxResources do
  -- the initial WQEs can always be posted: `cmdCreateRq` has checked the ring
  let kr ← cmdModifyRqReady
  orElse kr destroyRxResources (pure .success)

/-! ## The entry points -/

def unregisterNotifier : Eth Unit := do
  let s ← Prog.get
  if s.fNotifierRegistered then
    let eq ← getEQ
    if eq then update (fun s => { s with fNotifierRegistered := false })

def queryLinkState : Eth Bool := do
  let reply ← exec .queryVportState 0 []
  pure (decide (reply.kr = .success))

def failed (kr : IOReturn) : Eth IOReturn := do
  update (fun s => { s with fEnabled := false, fEnabling := false })
  pure kr

def failAll (kr : IOReturn) : Eth IOReturn := do
  unregisterNotifier
  let flowKr ← destroyRxFlowSteering
  let rxKr ← andThen flowKr destroyRxResources
  let txKr ← destroyTxResources
  if flowKr = .success ∧ rxKr = .success ∧ txKr = .success then
    let _ ← deallocGlobalResources
    failed kr
  else failed kr

def enable : Eth IOReturn := do
  let s ← Prog.get
  if s.fEnabled then pure .success
  else if s.fEnabling ∨ s.fDisabling then pure .busy
  else if s.fPd.isSome ∨ s.fTd.isSome ∨ s.fTisn.isSome ∨ (s.dma.number .fSqn).isSome ∨ (s.dma.number .fRqn).isSome ∨
      s.fTirn.isSome ∨ s.fFlowTableId.isSome then pure .notReady
  else
  update (fun s => { s with fEnabling := true })
  let kr ← allocGlobalResources
  if kr ≠ .success then failed kr else
  let kr ← createTxResources
  if kr ≠ .success then failAll kr else
  let kr ← createRxResources
  if kr ≠ .success then failAll kr else
  let eq ← getEQ
  if !eq then failAll .notReady else
  update (fun s => { s with fNotifierRegistered := true })
  let kr ← createRxFlowSteering
  if kr ≠ .success then failAll kr else
  update (fun s => { s with fEnabled := true, fEnabling := false })
  let _ ← queryLinkState
  pure .success

def disable : Eth IOReturn := do
  let s ← Prog.get
  if s.fEnabling ∨ s.fDisabling then pure .busy else
  update (fun s => { s with fDisabling := true, fEnabled := false })
  unregisterNotifier
  let flowKr ← destroyRxFlowSteering
  let rxKr ← andThen flowKr destroyRxResources
  let txKr ← destroyTxResources
  let result ← andThen flowKr (andThen rxKr (andThen txKr deallocGlobalResources))
  update (fun s => { s with fDisabling := false })
  pure result

def releaseResources : Eth Unit := do
  unregisterNotifier
  let s ← Prog.get
  if (s.dma.number .fSqn).isSome ∨ (s.dma.number .fRqn).isSome ∨ (s.dma.number .fTxCqn).isSome ∨
      (s.dma.number .fRxCqn).isSome ∨ s.fTirn.isSome ∨ s.fFlowRootActive then pure ()
  else
    dropBuffer .txWqDesc .txWqDmaMap
    dropBuffer .rxWqDesc .rxWqDmaMap
    update (fun s => { s with fCore := false })

def stop : Eth Unit := do
  let _ ← disable
  releaseResources

/-- After `start`: the rings of both directions are allocated and mapped. -/
def initial : State where
  fCore := true
  fEnabled := false
  fEnabling := false
  fDisabling := false
  fNotifierRegistered := false
  fQuarantined := false
  fPd := none
  fTd := none
  fTisn := none
  fTirn := none
  fMkeyIndex := none
  fFlowTableId := none
  fFlowGroupId := none
  fFlowEntryValid := false
  fFlowRootActive := false
  fTxBfValid := false
  bfregs := 0
  fWqeMbuf := fun _ => false
  dma :=
    { number := fun _ => none
      held := fun f => match f with
        | .txWqDesc => some 0
        | .txWqDmaMap => some 1
        | .rxWqDesc => some 2
        | .rxWqDmaMap => some 3
        | _ => none
      live := [(.txWqDesc,0),(.txWqDmaMap,1),(.rxWqDesc,2),(.rxWqDmaMap,3)]
      next := 4
      objects := [] }

inductive Operation
  | enable | disable | stop
  deriving DecidableEq, Repr

def Operation.run : Operation → Eth Unit
  | .enable => do let _ ← Ethernet.enable
  | .disable => do let _ ← Ethernet.disable
  | .stop => Ethernet.stop

/-- The controller is called while it holds on to the core. -/
def Operation.Enabled (_ : Operation) (s : State) : Prop := s.fCore = true

end AppleMCX.Ethernet
