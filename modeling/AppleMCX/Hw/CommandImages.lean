import AppleMCX.Core.Command
import AppleMCX.Hw.QpcEncoding

/-! # Command images

The input buffers of the commands that the core, the RDMA device and the Ethernet interface put
together out of words of their own, and what a device reads in them. The inputs of `MANAGE_PAGES`,
`QUERY_PAGES`, `QUERY_HCA_CAP`, of the modifications of queue pairs and of the keys of the RDMA device come
from functions that encode them, that of `SET_HCA_CAP` is a copy of the capabilities.
-/
namespace AppleMCX

def Opcode.value : Opcode → BitVec 16
  | .queryHcaCap => 0x100
  | .setHcaCap => 0x109
  | .enableHca => 0x104
  | .disableHca => 0x105
  | .queryIssi => 0x10A
  | .setIssi => 0x10B
  | .initHca => 0x102
  | .teardownHca => 0x103
  | .managePages => 0x108
  | .queryPages => 0x107
  | .allocUar => 0x802
  | .freeUar => 0x803
  | .createMkey => 0x200
  | .destroyMkey => 0x202
  | .createEq => 0x301
  | .destroyEq => 0x302
  | .createCq => 0x400
  | .destroyCq => 0x401
  | .createQp => 0x500
  | .destroyQp => 0x501
  | .allocPd => 0x800
  | .deallocPd => 0x801
  | .allocTransportDomain => 0x816
  | .deallocTransportDomain => 0x817
  | .createTir => 0x900
  | .destroyTir => 0x902
  | .createSq => 0x904
  | .modifySq => 0x905
  | .destroySq => 0x906
  | .createRq => 0x908
  | .modifyRq => 0x909
  | .destroyRq => 0x90a
  | .createTis => 0x912
  | .destroyTis => 0x914
  | .setFlowTableRoot => 0x92f
  | .createFlowTable => 0x930
  | .destroyFlowTable => 0x931
  | .createFlowGroup => 0x933
  | .destroyFlowGroup => 0x934
  | .setFlowTableEntry => 0x936
  | .deleteFlowTableEntry => 0x938
  | .queryVportState => 0x750
  | .rst2initQp => 0x502
  | .init2rtrQp => 0x503
  | .rtr2rtsQp => 0x504
  | .setRoceAddress => 0x761
  | .queryNicVportContext => 0x754
  | .modifyCongParams => 0x825
  | .accessReg => 0x805

def Opcode.all : List Opcode :=
  [.queryHcaCap,.setHcaCap,.enableHca,.disableHca,.queryIssi,.setIssi,.initHca,.teardownHca,.managePages,.queryPages,
    .allocUar,.freeUar,.createMkey,.destroyMkey,.createEq,.destroyEq,.createCq,.destroyCq,.createQp,.destroyQp,.allocPd,
    .deallocPd,.allocTransportDomain,.deallocTransportDomain,.createTir,.destroyTir,.createSq,.modifySq,.destroySq,
    .createRq,.modifyRq,.destroyRq,.createTis,.destroyTis,.setFlowTableRoot,.createFlowTable,.destroyFlowTable,
    .createFlowGroup,.destroyFlowGroup,.setFlowTableEntry,.deleteFlowTableEntry,.queryVportState,
    .rst2initQp,.init2rtrQp,.rtr2rtsQp,.setRoceAddress,.queryNicVportContext,.modifyCongParams,.accessReg]

def Opcode.ofValue (value : BitVec 16) : Option Opcode := Opcode.all.find? (fun op => op.value == value)

/-- No two opcodes share a value. -/
theorem Opcode.ofValue_value (op : Opcode) : Opcode.ofValue op.value = some op := by
  cases op <;> rfl

namespace Commands
open Interaction Hw

/-! ## Words in a buffer -/

structure Word where
  bitOffset : ℕ
  bitWidth : ℕ
  value : BitVec bitWidth

def Word.bits (w : Word) : BitField := ⟨w.bitOffset,w.bitWidth,w.value.toNat⟩

def Word.Apart (v w : Word) : Prop := v.bits.field.Apart w.bits.field

instance (v w : Word) : Decidable (v.Apart w) :=
  inferInstanceAs (Decidable (v.bitOffset + v.bitWidth ≤ w.bitOffset ∨ w.bitOffset + w.bitWidth ≤ v.bitOffset))

/-- The pages of a buffer, as many as an input of 4096 bytes has room for. -/
@[ext]
structure Pas where
  pages : List (BitVec 64)
  room : pages.length ≤ 478
  deriving DecidableEq

def pasOffset : ℕ := 0x880 / 8

/-- `OSWriteBigInt64` for one page after the other -/
def Pas.words (pas : Pas) : List Word :=
  (List.range pas.pages.length).map (fun i => ⟨8 * pasOffset + i * 64,64,pas.pages.getD i 0⟩)

/-- The pages of a buffer that is contiguous from `dma` on. -/
def contiguous (dma : BitVec 64) (count : ℕ) (h : count ≤ 478) : Pas where
  pages := (List.range count).map (fun i => dma + BitVec.ofNat 64 (i * 4096))
  room := by rwa [List.length_map, List.length_range]

/-! ## The commands -/

/-- The objects that a command with nothing but a number destroys. -/
inductive Object
  | mkey | qp | cq | sq | rq | tis | tir | td | pd | uar
  deriving DecidableEq, Repr

def Object.destroyOp : Object → Opcode
  | .mkey => .destroyMkey
  | .qp => .destroyQp
  | .cq => .destroyCq
  | .sq => .destroySq
  | .rq => .destroyRq
  | .tis => .destroyTis
  | .tir => .destroyTir
  | .td => .deallocTransportDomain
  | .pd => .deallocPd
  | .uar => .freeUar

/-- What `createEq` writes into the EQC, and the event mask. -/
structure EqContext where
  logSize : BitVec 5
  uarPage : BitVec 24
  vecidx : BitVec 12
  mask : Fin 4 → BitVec 64
  pas : Pas
  deriving DecidableEq

structure CqContext where
  logSize : BitVec 5
  uarPage : BitVec 24
  eqNumber : BitVec 8
  dbrAddr : BitVec 64
  pas : Pas
  deriving DecidableEq

/-- A work queue of the Ethernet interface, with the completion queue it reports to. -/
structure WqContext where
  cqn : BitVec 24
  pd : BitVec 24
  uarPage : BitVec 24
  dbrAddr : BitVec 64
  pas : Pas
  deriving DecidableEq

structure QpContext where
  st : BitVec 8
  pd : BitVec 24
  logRq : BitVec 4
  logSq : BitVec 4
  sendCq : BitVec 24
  recvCq : BitVec 24
  dbrAddr : BitVec 64
  -- those of the send queue, and then those of the receive queue
  pas : Pas
  deriving DecidableEq

/-- What `cmdSetRoceAddr` writes for a GID, whose bytes are two words. -/
structure RoceAddress where
  subnetPrefix : BitVec 64
  interfaceId : BitVec 64
  mac : BitVec 48
  vlan : Option (BitVec 12)
  deriving DecidableEq

/-- `mlx_cc_params`, as far as it is written. -/
structure CcParams where
  rpgMinDecFac : BitVec 32
  rpgAiRate : BitVec 32
  rpgTimeReset : BitVec 32
  rpgThreshold : BitVec 32
  deriving DecidableEq

def MLX5E_DEFAULT_LOG_SQ_SIZE : BitVec 5 := 8
def MLX5E_DEFAULT_LOG_RQ_SIZE : BitVec 5 := 8

inductive Command
  | enableHca | queryIssi | setIssi | initHca | teardownHca | disableHca
  | allocUar
  | createEq (eq : EqContext)
  | destroyEq (eqNumber : BitVec 8)
  | createCq (cq : CqContext)
  | destroyObject (object : Object) (objectId : BitVec 24)
  | allocTd | allocPd
  | createMkey (pd : BitVec 24)
  | createTis (td pd : BitVec 24)
  | createSq (minInlineMode : BitVec 3) (tisn : BitVec 24) (wq : WqContext)
  | createRq (wq : WqContext)
  | createTir (rqn td : BitVec 24)
  | modifySqReady (sqn : BitVec 24)
  | modifyRqReady (rqn : BitVec 24)
  | queryLinkState
  | createFlowTable
  | createFlowGroup (flowTableId : BitVec 24)
  | setFlowTableEntry (flowTableId : BitVec 24) (flowGroupId : BitVec 32) (tirn : BitVec 24)
  | setFlowTableRoot (flowTableId : BitVec 24)
  | disconnectFlowTableRoot
  | deleteFlowTableEntry (flowTableId : BitVec 24)
  | destroyFlowGroup (flowTableId : BitVec 24) (flowGroupId : BitVec 32)
  | destroyFlowTable (flowTableId : BitVec 24)
  | createQp (qp : QpContext)
  | queryMacAddress
  | setRoceAddr (index : BitVec 32) (addr : RoceAddress) (l3Type : BitVec 4) (version : BitVec 8)
  | modifyParams (params : CcParams)
  deriving DecidableEq

def Command.opcode : Command → Opcode
  | .enableHca => .enableHca
  | .queryIssi => .queryIssi
  | .setIssi => .setIssi
  | .initHca => .initHca
  | .teardownHca => .teardownHca
  | .disableHca => .disableHca
  | .allocUar => .allocUar
  | .createEq _ => .createEq
  | .destroyEq _ => .destroyEq
  | .createCq _ => .createCq
  | .destroyObject object _ => object.destroyOp
  | .allocTd => .allocTransportDomain
  | .allocPd => .allocPd
  | .createMkey _ => .createMkey
  | .createTis _ _ => .createTis
  | .createSq _ _ _ => .createSq
  | .createRq _ => .createRq
  | .createTir _ _ => .createTir
  | .modifySqReady _ => .modifySq
  | .modifyRqReady _ => .modifyRq
  | .queryLinkState => .queryVportState
  | .createFlowTable => .createFlowTable
  | .createFlowGroup _ => .createFlowGroup
  | .setFlowTableEntry _ _ _ => .setFlowTableEntry
  | .setFlowTableRoot _ => .setFlowTableRoot
  | .disconnectFlowTableRoot => .setFlowTableRoot
  | .deleteFlowTableEntry _ => .deleteFlowTableEntry
  | .destroyFlowGroup _ _ => .destroyFlowGroup
  | .destroyFlowTable _ => .destroyFlowTable
  | .createQp _ => .createQp
  | .queryMacAddress => .queryNicVportContext
  | .setRoceAddr _ _ _ _ => .setRoceAddress
  | .modifyParams _ => .modifyCongParams

/-! ## What follows the opcode -/

def setIssi : List Word := [⟨0x50,16,1⟩]

def createEq (eq : EqContext) : List Word :=
  let eqc := 0x80
  let mask := 0x2c0
  [⟨eqc + 0x63,5,eq.logSize⟩,⟨eqc + 0x68,24,eq.uarPage⟩,⟨eqc + 0xb4,12,eq.vecidx⟩,⟨eqc + 0xc3,5,0⟩,
    ⟨mask,64,eq.mask 0⟩,⟨mask + 64,64,eq.mask 1⟩,⟨mask + 128,64,eq.mask 2⟩,⟨mask + 192,64,eq.mask 3⟩]

def destroyEq (eqNumber : BitVec 8) : List Word := [⟨0x58,8,eqNumber⟩]

def cmdDestroyObject (objectId : BitVec 24) : List Word := [⟨0x48,24,objectId⟩]

def cmdCreateMkey (pd : BitVec 24) : List Word :=
  let mkc := 0x80
  [⟨mkc + 0x14,1,1⟩,⟨mkc + 0x15,1,1⟩,⟨mkc + 0x16,2,0⟩,⟨mkc + 0x20,24,0xffffff⟩,
    ⟨mkc + 0x38,8,0x42⟩,⟨mkc + 0x60,1,1⟩,
    ⟨mkc + 0x68,24,pd⟩]

def cmdCreateTis (td pd : BitVec 24) : List Word := [⟨0x100 + 0x128,24,td⟩,⟨0x100 + 0x168,24,pd⟩]

def cmdCreateCq (cq : CqContext) : List Word :=
  let cqc := 0x80
  [⟨cqc + 0x08,3,0⟩,⟨cqc + 0x63,5,cq.logSize⟩,⟨cqc + 0x68,24,cq.uarPage⟩,
    ⟨cqc + 0xb8,8,cq.eqNumber⟩,⟨cqc + 0xc3,5,0⟩,
    ⟨cqc + 0x1c0,64,cq.dbrAddr⟩]

/-- `MlxCQ::cmdCreateCQ`, which writes the number of the event queue into 32 bits. -/
def cmdCreateCQ (cq : CqContext) : List Word :=
  let cqc := 0x80
  [⟨cqc + 0x08,3,0⟩,⟨cqc + 0x63,5,cq.logSize⟩,⟨cqc + 0x68,24,cq.uarPage⟩,⟨cqc + 0xa0,32,cq.eqNumber.setWidth 32⟩,
    ⟨cqc + 0xc3,5,0⟩,⟨cqc + 0x1c0,64,cq.dbrAddr⟩]

/-- The part that `cmdCreateSq` and `cmdCreateRq` share. -/
def wqWords (q : WqContext) (logSize : BitVec 5) : List Word :=
  let wq := 0x280
  [⟨wq + 0x00,4,1⟩,⟨wq + 0x48,24,q.pd⟩,⟨wq + 0x68,24,q.uarPage⟩,⟨wq + 0x80,64,q.dbrAddr⟩,⟨wq + 0x10c,4,6⟩,
    ⟨wq + 0x113,5,0⟩,⟨wq + 0x11b,5,logSize⟩]

def cmdCreateSq (minInlineMode : BitVec 3) (tisn : BitVec 24) (wq : WqContext) : List Word :=
  let sqc := 0x100
  [⟨sqc + 0x08,4,0⟩,⟨sqc + 0x05,3,minInlineMode⟩,⟨sqc + 0x48,24,wq.cqn⟩,
    ⟨sqc + 0x100,16,1⟩,⟨sqc + 0x168,24,tisn⟩] ++
    wqWords wq MLX5E_DEFAULT_LOG_SQ_SIZE

def cmdCreateRq (wq : WqContext) : List Word :=
  let rqc := 0x100
  [⟨rqc + 0x04,4,0⟩,⟨rqc + 0x08,4,0⟩,⟨rqc + 0x48,24,wq.cqn⟩] ++ wqWords wq MLX5E_DEFAULT_LOG_RQ_SIZE

def cmdCreateTir (rqn td : BitVec 24) : List Word := [⟨0x100 + 0x20,4,0⟩,⟨0x100 + 0xe8,24,rqn⟩,⟨0x100 + 0x128,24,td⟩]

/-- `cmdModifySqReady` and `cmdModifyRqReady` -/
def modifyReady (number : BitVec 24) : List Word := [⟨0x40,4,0⟩,⟨0x48,24,number⟩,⟨0x108,4,1⟩]

def queryLinkState : List Word := [⟨0x30,16,0⟩]

def tableIn : List Word := [⟨0x80,8,0⟩,⟨0xc8,8,0⟩,⟨0xd8,8,0⟩]

def groupIn (flowTableId : BitVec 24) : List Word :=
  [⟨0x80,8,0⟩,⟨0xa8,24,flowTableId⟩,⟨0xe0,32,0⟩,⟨0x120,32,0⟩,⟨0x1f8,8,0⟩]

def fteIn (flowTableId : BitVec 24) (flowGroupId : BitVec 32) (tirn : BitVec 24) : List Word :=
  [⟨0x80,8,0⟩,⟨0xa8,24,flowTableId⟩,⟨0x100,32,0⟩,⟨0x220,32,flowGroupId⟩,
    ⟨0x270,16,0x4⟩,⟨0x288,24,1⟩,⟨0x1a00,8,2⟩,
    ⟨0x1a08,24,tirn⟩]

def rootIn (flowTableId : BitVec 24) : List Word := [⟨0x80,8,0⟩,⟨0xa8,24,flowTableId⟩]

def createQP (qp : QpContext) : List Word :=
  let qpc := 0xc0
  [⟨0x48,24,0⟩,⟨0x80,32,0⟩,⟨qpc + 0x08,8,qp.st⟩,⟨qpc + 0x28,24,qp.pd⟩,
    ⟨qpc + 0x49,4,qp.logRq⟩,⟨qpc + 0x4d,3,6⟩,
    ⟨qpc + 0x51,4,qp.logSq⟩,⟨qpc + 0x3e8,24,qp.sendCq⟩,⟨qpc + 0x4e8,24,qp.recvCq⟩,
    ⟨qpc + 0x500,64,qp.dbrAddr⟩,⟨0x860,1,1⟩]

/-- `macHi` and `macLo`, which begin with the first and the fourth byte of the address. -/
def RoceAddress.macHi (addr : RoceAddress) : BitVec 32 := (addr.mac.extractLsb' 24 24).setWidth 32

def RoceAddress.macLo (addr : RoceAddress) : BitVec 32 := (addr.mac.extractLsb' 0 24).setWidth 32 <<< 8

def vlanWords (addrOff : ℕ) : Option (BitVec 12) → List Word
  | none => []
  | some vlanId => [⟨addrOff + 8 * 0x80,8,0x08⟩,⟨addrOff + 8 * 0x81,8,vlanId.extractLsb' 4 8⟩,
      ⟨addrOff + 8 * 0x82,8,(vlanId.extractLsb' 0 4).setWidth 8 <<< 4⟩]

def cmdSetRoceAddr (index : BitVec 32) (addr : RoceAddress) (l3Type : BitVec 4) (version : BitVec 8) : List Word :=
  let addrOff := 8 * 0x60
  [⟨8 * 0x40,32,index⟩,⟨8 * 0x54,8,1⟩,⟨addrOff,64,addr.subnetPrefix⟩,⟨addrOff + 64,64,addr.interfaceId⟩,
    ⟨addrOff + 8 * 0x90,32,addr.macHi⟩,⟨addrOff + 8 * 0x94,32,addr.macLo⟩] ++ vlanWords addrOff addr.vlan ++
    [⟨addrOff + 8 * (0xc0 + 0x14),8,l3Type.setWidth 8⟩,⟨addrOff + 8 * (0xc0 + 0x18),8,version⟩]

def modifyParams (params : CcParams) : List Word :=
  [⟨8 * 0x40,32,params.rpgMinDecFac⟩,⟨8 * 0x48,32,params.rpgAiRate⟩,⟨8 * 0x50,32,params.rpgTimeReset⟩,
    ⟨8 * 0x58,32,params.rpgThreshold⟩]

/-- The words in the order in which they are written, but for the opcode and the pages. -/
def Command.words : Command → List Word
  | .enableHca | .queryIssi | .initHca | .teardownHca | .disableHca | .allocUar | .allocTd | .allocPd | .queryMacAddress => []
  | .setIssi => Commands.setIssi
  | .createEq eq => Commands.createEq eq
  | .destroyEq eqNumber => Commands.destroyEq eqNumber
  | .createCq cq => cmdCreateCq cq
  | .destroyObject _ objectId => cmdDestroyObject objectId
  | .createMkey pd => cmdCreateMkey pd
  | .createTis td pd => cmdCreateTis td pd
  | .createSq minInlineMode tisn wq => cmdCreateSq minInlineMode tisn wq
  | .createRq wq => cmdCreateRq wq
  | .createTir rqn td => cmdCreateTir rqn td
  | .modifySqReady sqn => modifyReady sqn
  | .modifyRqReady rqn => modifyReady rqn
  | .queryLinkState => Commands.queryLinkState
  | .createFlowTable => tableIn
  | .createFlowGroup flowTableId => groupIn flowTableId
  | .setFlowTableEntry flowTableId flowGroupId tirn => fteIn flowTableId flowGroupId tirn
  | .setFlowTableRoot flowTableId => rootIn flowTableId
  | .disconnectFlowTableRoot => [⟨0x30,16,1⟩,⟨0x80,8,0⟩]
  | .deleteFlowTableEntry flowTableId => [⟨0x80,8,0⟩,⟨0xa8,24,flowTableId⟩,⟨0x100,32,0⟩]
  | .destroyFlowGroup flowTableId flowGroupId => [⟨0x80,8,0⟩,⟨0xa8,24,flowTableId⟩,⟨0xc0,32,flowGroupId⟩]
  | .destroyFlowTable flowTableId => [⟨0x80,8,0⟩,⟨0xa8,24,flowTableId⟩]
  | .createQp qp => createQP qp
  | .setRoceAddr index addr l3Type version => cmdSetRoceAddr index addr l3Type version
  | .modifyParams params => Commands.modifyParams params

def Command.pas : Command → Option Pas
  | .createEq eq => some eq.pas
  | .createCq cq => some cq.pas
  | .createSq _ _ wq => some wq.pas
  | .createRq wq => some wq.pas
  | .createQp qp => some qp.pas
  | _ => none

/-- The size of the array `in`. -/
def Command.capacity : Command → ℕ
  | .createEq _ | .createCq _ | .createSq _ _ _ | .createRq _ => 0x1000
  -- `MLX_CMD_MAX_SIZE`
  | .createQp _ => 16 + 8 * 512
  | .setRoceAddr _ _ _ _ => 400
  | .modifyParams _ => 512
  | .initHca => 32
  | .createMkey _ | .modifySqReady _ | .modifyRqReady _ => 0x110
  | .createTis _ _ => 0xc0
  | .createTir _ _ => 0x100
  | .createFlowTable => 0x38
  | .createFlowGroup _ => 0x400
  | .setFlowTableEntry _ _ _ => 0x348
  | .setFlowTableRoot _ | .disconnectFlowTableRoot | .deleteFlowTableEntry _ | .destroyFlowGroup _ _ |
    .destroyFlowTable _ => 0x40
  | _ => 16

def Command.inSize (c : Command) : ℕ :=
  match c.pas with
  | some pas => pasOffset + pas.pages.length * 8
  | none => c.capacity

def Command.allWords (c : Command) : List Word :=
  ⟨0,16,c.opcode.value⟩ :: c.words ++
    match c.pas with
    | some pas => pas.words
    | none => []

/-- The array `in` when the command is submitted. -/
def Command.image (c : Command) : Buffer := setFields (c.allWords.map Word.bits) (fun _ => 0)

/-! ## What a device reads -/

def num (w : ℕ) (b : Buffer) (bitOffset : ℕ) : BitVec w := (mlxGetBits b bitOffset w).setWidth w

/-- As many pages as the length of the input says. -/
def readPas (inSize : ℕ) (b : Buffer) : Pas where
  pages := (List.range (min 478 ((inSize - pasOffset) / 8))).map (fun i => num 64 b (8 * pasOffset + i * 64))
  room := by
    rw [List.length_map, List.length_range]
    exact min_le_left _ _

def readWq (inSize : ℕ) (b : Buffer) : WqContext :=
  ⟨num 24 b 0x148,num 24 b 0x2c8,num 24 b 0x2e8,num 64 b 0x300,readPas inSize b⟩

def readVlan (b : Buffer) : Option (BitVec 12) :=
  if num 8 b 0x700 = 0x08 then some (num 8 b 0x708 ++ (num 8 b 0x710 >>> 4).setWidth 4) else none

def readAddress (b : Buffer) : RoceAddress :=
  ⟨num 64 b 0x300,num 64 b 0x340,(num 32 b 0x780).setWidth 24 ++ (num 32 b 0x7a0 >>> 8).setWidth 24,readVlan b⟩

def readBody (inSize : ℕ) (b : Buffer) : Opcode → Option Command
  | .enableHca => some .enableHca
  | .queryIssi => some .queryIssi
  | .setIssi => some .setIssi
  | .initHca => some .initHca
  | .teardownHca => some .teardownHca
  | .disableHca => some .disableHca
  | .allocUar => some .allocUar
  | .freeUar => some (.destroyObject .uar (num 24 b 0x48))
  | .destroyMkey => some (.destroyObject .mkey (num 24 b 0x48))
  | .destroyCq => some (.destroyObject .cq (num 24 b 0x48))
  | .destroyQp => some (.destroyObject .qp (num 24 b 0x48))
  | .deallocPd => some (.destroyObject .pd (num 24 b 0x48))
  | .deallocTransportDomain => some (.destroyObject .td (num 24 b 0x48))
  | .destroyTir => some (.destroyObject .tir (num 24 b 0x48))
  | .destroySq => some (.destroyObject .sq (num 24 b 0x48))
  | .destroyRq => some (.destroyObject .rq (num 24 b 0x48))
  | .destroyTis => some (.destroyObject .tis (num 24 b 0x48))
  | .createEq =>
    some (.createEq ⟨num 5 b 0xe3,num 24 b 0xe8,num 12 b 0x134,fun i => num 64 b (0x2c0 + 64 * i.val),readPas inSize b⟩)
  | .destroyEq => some (.destroyEq (num 8 b 0x58))
  | .createCq => some (.createCq ⟨num 5 b 0xe3,num 24 b 0xe8,num 8 b 0x138,num 64 b 0x240,readPas inSize b⟩)
  | .allocTransportDomain => some .allocTd
  | .allocPd => some .allocPd
  | .createMkey => some (.createMkey (num 24 b 0xe8))
  | .createTis => some (.createTis (num 24 b 0x228) (num 24 b 0x268))
  | .createSq => some (.createSq (num 3 b 0x105) (num 24 b 0x268) (readWq inSize b))
  | .createRq => some (.createRq (readWq inSize b))
  | .createTir => some (.createTir (num 24 b 0x1e8) (num 24 b 0x228))
  | .modifySq => some (.modifySqReady (num 24 b 0x48))
  | .modifyRq => some (.modifyRqReady (num 24 b 0x48))
  | .queryVportState => some .queryLinkState
  | .createFlowTable => some .createFlowTable
  | .createFlowGroup => some (.createFlowGroup (num 24 b 0xa8))
  | .setFlowTableEntry => some (.setFlowTableEntry (num 24 b 0xa8) (num 32 b 0x220) (num 24 b 0x1a08))
  | .setFlowTableRoot =>
    some (if num 16 b 0x30 = 1 then .disconnectFlowTableRoot else .setFlowTableRoot (num 24 b 0xa8))
  | .deleteFlowTableEntry => some (.deleteFlowTableEntry (num 24 b 0xa8))
  | .destroyFlowGroup => some (.destroyFlowGroup (num 24 b 0xa8) (num 32 b 0xc0))
  | .destroyFlowTable => some (.destroyFlowTable (num 24 b 0xa8))
  | .createQp =>
    some (.createQp ⟨num 8 b 0xc8,num 24 b 0xe8,num 4 b 0x109,num 4 b 0x111,num 24 b 0x4a8,num 24 b 0x5a8,num 64 b 0x5c0,
      readPas inSize b⟩)
  | .queryNicVportContext => some .queryMacAddress
  | .setRoceAddress => some (.setRoceAddr (num 32 b 0x200) (readAddress b) ((num 8 b 0x9a0).setWidth 4) (num 8 b 0x9c0))
  | .modifyCongParams => some (.modifyParams ⟨num 32 b 0x200,num 32 b 0x240,num 32 b 0x280,num 32 b 0x2c0⟩)
  | .queryHcaCap | .setHcaCap | .managePages | .queryPages | .rst2initQp | .init2rtrQp | .rtr2rtsQp | .accessReg => none

/-- The command in an input of `inSize` bytes. -/
def Command.read (inSize : ℕ) (b : Buffer) : Option Command := (Opcode.ofValue (num 16 b 0)).bind (readBody inSize b)

/-! ## Images are read back -/

variable {c : Command} {b : Buffer}

theorem layout_of_apart {ws : List Word} (hwidth : ∀ w ∈ ws, w.bitWidth ≤ 64) (hapart : ws.Pairwise Word.Apart) :
    Layout (ws.map Word.bits) where
  width := List.forall_mem_map.mpr hwidth
  fits := List.forall_mem_map.mpr (fun w _ => w.value.isLt)
  apart := List.pairwise_map.mpr hapart

def Command.head (c : Command) : List Word := ⟨0,16,c.opcode.value⟩ :: c.words

theorem head_layout (c : Command) : Layout (c.head.map Word.bits) := by
  cases c with
  | setRoceAddr index addr l3Type version =>
    rcases addr with ⟨subnetPrefix,interfaceId,mac,_ | vlanId⟩ <;>
      refine layout_of_apart ?_ ?_ <;> exact of_decide_eq_true rfl
  | _ => refine layout_of_apart ?_ ?_ <;> exact of_decide_eq_true rfl

theorem head_end (c : Command) :
    ∀ w ∈ c.head, w.bitOffset + w.bitWidth ≤ 8 * if c.pas.isSome then pasOffset else c.capacity := by
  cases c with
  | setRoceAddr index addr l3Type version =>
    rcases addr with ⟨subnetPrefix,interfaceId,mac,_ | vlanId⟩ <;> exact of_decide_eq_true rfl
  | _ => exact of_decide_eq_true rfl

theorem pas_bits (pas : Pas) :
    pas.words.map Word.bits = pageFields (8 * pasOffset) (fun i => pas.pages.getD i 0) pas.pages.length := by
  rw [Pas.words, List.map_map]
  rfl

theorem mem_allWords {w : Word} : w ∈ c.allWords ↔ w ∈ c.head ∨ ∃ pas, c.pas = some pas ∧ w ∈ pas.words := by
  rw [Command.allWords, List.mem_append]
  cases c.pas with
  | none => simp [Command.head]
  | some pas => simp [Command.head]

theorem bits_range {pas : Pas} {w : Word} (hw : w ∈ pas.words) :
    8 * pasOffset ≤ w.bitOffset ∧ w.bitOffset + w.bitWidth ≤ 8 * (pasOffset + pas.pages.length * 8) := by
  obtain ⟨i,hi,rfl⟩ := List.mem_map.mp hw
  have hlt := List.mem_range.mp hi
  dsimp only
  omega

/-- No two words of a command share a bit. -/
theorem allWords_layout (c : Command) : Layout (c.allWords.map Word.bits) := by
  have hhead := head_layout c
  have hend : ∀ w ∈ c.head, c.pas.isSome → w.bitOffset + w.bitWidth ≤ 8 * pasOffset := by
    intro w hw hp
    have h := head_end c w hw
    rwa [if_pos hp] at h
  rw [Command.allWords]
  cases hp : c.pas with
  | none =>
    rw [List.append_nil]
    exact hhead
  | some pas =>
    rw [hp] at hend
    rw [List.map_append, pas_bits]
    refine hhead.append (pageFields_layout _ _ _) (fun f hf => ?_) (fun _ hf => pageFields_range hf)
    obtain ⟨w,hw,rfl⟩ := List.mem_map.mp hf
    exact Or.inl (hend w hw rfl)

/-- The words lie inside the size that is submitted. -/
theorem allWords_end {w : Word} (hw : w ∈ c.allWords) : w.bitOffset + w.bitWidth ≤ 8 * c.inSize := by
  rcases mem_allWords.mp hw with hw | ⟨pas,hp,hw⟩
  · have h := head_end c w hw
    rw [Command.inSize]
    cases hp : c.pas with
    | none =>
      rw [hp] at h
      exact h
    | some pas =>
      rw [hp] at h
      exact h.trans (Nat.mul_le_mul_left 8 (Nat.le_add_right _ _))
  · rw [Command.inSize, hp]
    exact (bits_range hw).2

theorem inSize_le (c : Command) : c.inSize ≤ c.capacity := by
  have hpas : ∀ pas : Pas, pasOffset + pas.pages.length * 8 ≤ 0x1000 := by
    intro pas
    have := pas.room
    rw [pasOffset]
    omega
  cases c with
  | createEq eq => exact hpas eq.pas
  | createCq cq => exact hpas cq.pas
  | createSq minInlineMode tisn wq => exact hpas wq.pas
  | createRq wq => exact hpas wq.pas
  | createQp qp => exact (hpas qp.pas).trans (of_decide_eq_true rfl : 0x1000 ≤ 16 + 8 * 512)
  | _ => exact le_rfl

/-- What the device gets: the bytes that are submitted, and behind them whatever is there. -/
def Command.received (c : Command) (rest : Buffer) : Buffer := fun a => if a < c.inSize then c.image a else rest a

theorem bitAt_received (rest : Buffer) {k : ℕ} (hk : k < 8 * c.inSize) :
    bitAt (c.received rest) k = bitAt c.image k := by
  have hlt : k / 8 < c.inSize := by omega
  rw [bitAt, bitAt, Command.received, if_pos hlt]

theorem num_word (rest : Buffer) {w : Word} (hw : w ∈ c.allWords) :
    num w.bitWidth (c.received rest) w.bitOffset = w.value := by
  have hend := allWords_end hw
  have hlayout := allWords_layout c
  have hmem : (⟨w.bitOffset,w.bitWidth,w.value.toNat⟩ : BitField) ∈ c.allWords.map Word.bits := List.mem_map_of_mem hw
  have hsame : mlxGetBits (c.received rest) w.bitOffset w.bitWidth = mlxGetBits c.image w.bitOffset w.bitWidth := by
    rw [mlxGetBits_eq, mlxGetBits_eq]
    exact congrArg _ (getField_congr (fun i hi => bitAt_received rest (by omega)))
  have hwidth : w.bitWidth ≤ 64 := hlayout.width _ hmem
  rw [num, hsame, Command.image, hlayout.read hmem]
  apply BitVec.eq_of_toNat_eq
  have hlt := w.value.isLt
  have hpow : 2 ^ w.bitWidth ≤ 2 ^ 64 := Nat.pow_le_pow_right (by decide) hwidth
  rw [BitVec.toNat_setWidth, BitVec.toNat_ofNat, Nat.mod_eq_of_lt (hlt.trans_le hpow), Nat.mod_eq_of_lt hlt]

theorem num_head (rest : Buffer) (i : ℕ) {w : Word} (hw : c.head[i]? = some w) :
    num w.bitWidth (c.received rest) w.bitOffset = w.value :=
  num_word rest (mem_allWords.mpr (Or.inl (List.mem_of_getElem? hw)))

theorem readPas_received (rest : Buffer) {pas : Pas} (hp : c.pas = some pas) :
    readPas c.inSize (c.received rest) = pas := by
  have hsize : min 478 ((c.inSize - pasOffset) / 8) = pas.pages.length := by
    have := pas.room
    rw [Command.inSize, hp]
    dsimp only
    omega
  refine Pas.ext ?_
  unfold readPas
  simp only [hsize]
  refine List.ext_getElem (by rw [List.length_map, List.length_range]) (fun i hi hi' => ?_)
  have hw : (⟨8 * pasOffset + i * 64,64,pas.pages.getD i 0⟩ : Word) ∈ c.allWords :=
    mem_allWords.mpr (Or.inr ⟨pas,hp,List.mem_map_of_mem (List.mem_range.mpr hi')⟩)
  rw [List.getElem_map, List.getElem_range, num_word rest hw, List.getD_eq_getElem _ _ hi']

/-- A bit that no word fills is zero. -/
theorem bitAt_blank (rest : Buffer) {k : ℕ} (hk : k < 8 * c.inSize)
    (hfree : ∀ w ∈ c.allWords, k < w.bitOffset ∨ w.bitOffset + w.bitWidth ≤ k) : bitAt (c.received rest) k = false := by
  have hframe := (allWords_layout c).frame (List.forall_mem_map.mpr (fun w hw => allWords_end hw)) (fun _ => 0)
  rw [bitAt_received rest hk, Command.image, hframe.outside k (List.forall_mem_map.mpr hfree)]
  exact BitVec.getLsbD_zero

theorem num_blank (rest : Buffer) {bitOffset w : ℕ} (hend : bitOffset + w ≤ 8 * c.inSize)
    (hfree : ∀ v ∈ c.allWords, bitOffset + w ≤ v.bitOffset ∨ v.bitOffset + v.bitWidth ≤ bitOffset) :
    num w (c.received rest) bitOffset = 0 := by
  have hzero : getField bitOffset w (c.received rest) = 0 % 2 ^ w := by
    refine getField_eq (fun i hi => ?_)
    have hblank : ∀ v ∈ c.allWords, bitOffset + i < v.bitOffset ∨ v.bitOffset + v.bitWidth ≤ bitOffset + i := by
      intro v hv
      have := hfree v hv
      omega
    rw [bitAt_blank rest (by omega) hblank, Nat.zero_testBit]
  rw [num, mlxGetBits_eq, hzero, Nat.zero_mod]
  exact BitVec.setWidth_zero _ _

/-- The lower half of an address is in the upper bytes of its word. -/
theorem shifted_low (x : BitVec 24) : ((x.setWidth 32 <<< 8) >>> 8).setWidth 24 = x := by
  ext i hi
  have hlow : 8 + i < 32 ∧ i < 32 := by omega
  simp [hlow, BitVec.getLsbD_eq_getElem hi]

theorem RoceAddress.mac_words (addr : RoceAddress) :
    addr.macHi.setWidth 24 ++ (addr.macLo >>> 8).setWidth 24 = addr.mac := by
  rw [macHi, macLo, shifted_low, BitVec.setWidth_setWidth_of_le _ (by decide), BitVec.setWidth_eq]
  exact @BitVec.extractLsb'_append_extractLsb' 24 24 addr.mac

theorem vlanId_bytes (vlanId : BitVec 12) :
    vlanId.extractLsb' 4 8 ++ (((vlanId.extractLsb' 0 4).setWidth 8 <<< 4) >>> 4).setWidth 4 = vlanId := by
  have hlow : ∀ x : BitVec 4, ((x.setWidth 8 <<< 4) >>> 4).setWidth 4 = x := by decide
  rw [hlow]
  exact @BitVec.extractLsb'_append_extractLsb' 8 4 vlanId

theorem readAddress_received (rest : Buffer) (index : BitVec 32) (addr : RoceAddress) (l3Type : BitVec 4) (version : BitVec 8) :
    readAddress ((Command.setRoceAddr index addr l3Type version).received rest) = addr := by
  have h := fun (i : ℕ) {w : Word} (hw : (Command.setRoceAddr index addr l3Type version).head[i]? = some w) =>
    num_head rest i hw
  have hvlan : readVlan ((Command.setRoceAddr index addr l3Type version).received rest) = addr.vlan := by
    unfold readVlan
    rcases addr with ⟨subnetPrefix,interfaceId,mac,_ | vlanId⟩
    · have hblank : num 8 ((Command.setRoceAddr index ⟨subnetPrefix,interfaceId,mac,none⟩ l3Type version).received rest)
        0x700 = 0 := by
        refine num_blank rest ?_ ?_ <;> exact of_decide_eq_true rfl
      rw [hblank, if_neg (by decide)]
    · rw [if_pos (h 7 rfl), show num 8 _ 0x708 = vlanId.extractLsb' 4 8 from h 8 rfl,
        show num 8 _ 0x710 = (vlanId.extractLsb' 0 4).setWidth 8 <<< 4 from h 9 rfl, vlanId_bytes]
  unfold readAddress
  rw [hvlan, show num 64 _ 0x300 = addr.subnetPrefix from h 3 rfl, show num 64 _ 0x340 = addr.interfaceId from h 4 rfl,
    show num 32 _ 0x780 = addr.macHi from h 5 rfl, show num 32 _ 0x7a0 = addr.macLo from h 6 rfl, addr.mac_words]

theorem read_received (c : Command) (rest : Buffer) : Command.read c.inSize (c.received rest) = some c := by
  have hop : num 16 (c.received rest) 0 = c.opcode.value := num_head rest 0 rfl
  have h := fun (i : ℕ) {w : Word} (hw : c.head[i]? = some w) => num_head rest i hw
  have hpas := fun {pas : Pas} (hp : c.pas = some pas) => readPas_received rest hp
  rw [Command.read, hop, Opcode.ofValue_value, Option.bind_some]
  cases c with
  | enableHca | queryIssi | setIssi | initHca | teardownHca | disableHca | allocUar | allocTd | allocPd | queryLinkState
  | createFlowTable | queryMacAddress => rfl
  | createEq eq =>
    have hmask : (fun i : Fin 4 => num 64 ((Command.createEq eq).received rest) (0x2c0 + 64 * i.val)) = eq.mask := by
      funext i
      rcases i with ⟨_ | _ | _ | _ | i,hi⟩
      · exact h 5 rfl
      · exact h 6 rfl
      · exact h 7 rfl
      · exact h 8 rfl
      · omega
    simp only [Command.opcode, readBody]
    rw [hmask, show num 5 _ 0xe3 = eq.logSize from h 1 rfl, show num 24 _ 0xe8 = eq.uarPage from h 2 rfl,
      show num 12 _ 0x134 = eq.vecidx from h 3 rfl, hpas rfl]
  | destroyEq eqNumber => exact congrArg (fun n => some (Command.destroyEq n)) (h 1 rfl)
  | createCq cq =>
    simp only [Command.opcode, readBody]
    rw [show num 5 _ 0xe3 = cq.logSize from h 2 rfl, show num 24 _ 0xe8 = cq.uarPage from h 3 rfl,
      show num 8 _ 0x138 = cq.eqNumber from h 4 rfl, show num 64 _ 0x240 = cq.dbrAddr from h 6 rfl, hpas rfl]
  | destroyObject object objectId =>
    have hid : num 24 ((Command.destroyObject object objectId).received rest) 0x48 = objectId := h 1 rfl
    cases object <;> exact congrArg (fun n => some (Command.destroyObject _ n)) hid
  | createMkey pd => exact congrArg (fun n => some (Command.createMkey n)) (h 7 rfl)
  | createTis td pd => exact congrArg₂ (fun td pd => some (Command.createTis td pd)) (h 1 rfl) (h 2 rfl)
  | createSq minInlineMode tisn wq =>
    simp only [Command.opcode, readBody, readWq]
    rw [show num 3 _ 0x105 = minInlineMode from h 2 rfl, show num 24 _ 0x268 = tisn from h 5 rfl,
      show num 24 _ 0x148 = wq.cqn from h 3 rfl, show num 24 _ 0x2c8 = wq.pd from h 7 rfl,
      show num 24 _ 0x2e8 = wq.uarPage from h 8 rfl, show num 64 _ 0x300 = wq.dbrAddr from h 9 rfl, hpas rfl]
  | createRq wq =>
    simp only [Command.opcode, readBody, readWq]
    rw [show num 24 _ 0x148 = wq.cqn from h 3 rfl, show num 24 _ 0x2c8 = wq.pd from h 5 rfl,
      show num 24 _ 0x2e8 = wq.uarPage from h 6 rfl, show num 64 _ 0x300 = wq.dbrAddr from h 7 rfl, hpas rfl]
  | createTir rqn td => exact congrArg₂ (fun rqn td => some (Command.createTir rqn td)) (h 2 rfl) (h 3 rfl)
  | modifySqReady sqn => exact congrArg (fun n => some (Command.modifySqReady n)) (h 2 rfl)
  | modifyRqReady rqn => exact congrArg (fun n => some (Command.modifyRqReady n)) (h 2 rfl)
  | createFlowGroup flowTableId => exact congrArg (fun n => some (Command.createFlowGroup n)) (h 2 rfl)
  | setFlowTableEntry flowTableId flowGroupId tirn =>
    simp only [Command.opcode, readBody]
    rw [show num 24 _ 0xa8 = flowTableId from h 2 rfl, show num 32 _ 0x220 = flowGroupId from h 4 rfl,
      show num 24 _ 0x1a08 = tirn from h 8 rfl]
  | setFlowTableRoot flowTableId =>
    have hconnect : num 16 ((Command.setFlowTableRoot flowTableId).received rest) 0x30 = 0 := by
      refine num_blank rest ?_ ?_ <;> exact of_decide_eq_true rfl
    simp only [Command.opcode, readBody]
    rw [hconnect, if_neg (by decide), show num 24 _ 0xa8 = flowTableId from h 2 rfl]
  | disconnectFlowTableRoot =>
    have hdisconnect : num 16 (Command.disconnectFlowTableRoot.received rest) 0x30 = 1 := h 1 rfl
    simp only [Command.opcode, readBody]
    rw [if_pos hdisconnect]
  | deleteFlowTableEntry flowTableId => exact congrArg (fun n => some (Command.deleteFlowTableEntry n)) (h 2 rfl)
  | destroyFlowGroup flowTableId flowGroupId =>
    exact congrArg₂ (fun t g => some (Command.destroyFlowGroup t g)) (h 2 rfl) (h 3 rfl)
  | destroyFlowTable flowTableId => exact congrArg (fun n => some (Command.destroyFlowTable n)) (h 2 rfl)
  | createQp qp =>
    simp only [Command.opcode, readBody]
    rw [show num 8 _ 0xc8 = qp.st from h 3 rfl, show num 24 _ 0xe8 = qp.pd from h 4 rfl,
      show num 4 _ 0x109 = qp.logRq from h 5 rfl, show num 4 _ 0x111 = qp.logSq from h 7 rfl,
      show num 24 _ 0x4a8 = qp.sendCq from h 8 rfl, show num 24 _ 0x5a8 = qp.recvCq from h 9 rfl,
      show num 64 _ 0x5c0 = qp.dbrAddr from h 10 rfl, hpas rfl]
  | setRoceAddr index addr l3Type version =>
    have hwords : num 8 ((Command.setRoceAddr index addr l3Type version).received rest) 0x9a0 = l3Type.setWidth 8 ∧
        num 8 ((Command.setRoceAddr index addr l3Type version).received rest) 0x9c0 = version := by
      rcases addr with ⟨subnetPrefix,interfaceId,mac,_ | vlanId⟩
      · exact ⟨h 7 rfl,h 8 rfl⟩
      · exact ⟨h 10 rfl,h 11 rfl⟩
    simp only [Command.opcode, readBody]
    rw [readAddress_received, show num 32 _ 0x200 = index from h 1 rfl, hwords.1, hwords.2,
      BitVec.setWidth_setWidth_of_le _ (by decide), BitVec.setWidth_eq]
  | modifyParams params =>
    simp only [Command.opcode, readBody]
    rw [show num 32 _ 0x200 = params.rpgMinDecFac from h 1 rfl, show num 32 _ 0x240 = params.rpgAiRate from h 2 rfl,
      show num 32 _ 0x280 = params.rpgTimeReset from h 3 rfl, show num 32 _ 0x2c0 = params.rpgThreshold from h 4 rfl]

/-- What a device knows of a command from the bytes that are submitted. -/
structure Command.Received (c : Command) (b : Buffer) : Prop where
  read : Command.read c.inSize b = some c
  words : ∀ w ∈ c.allWords, num w.bitWidth b w.bitOffset = w.value
  zero : ∀ k, k < 8 * c.inSize → (∀ w ∈ c.allWords, k < w.bitOffset ∨ w.bitOffset + w.bitWidth ≤ k) →
    bitAt b k = false
  inSize : c.inSize ≤ c.capacity

/-- Whatever stands behind the input, the device reads the command, every word of it and zeros elsewhere. -/
theorem received_command (c : Command) (rest : Buffer) : c.Received (c.received rest) where
  read := read_received c rest
  words := fun _ hw => num_word rest hw
  zero := fun _ hk hfree => bitAt_blank rest hk hfree
  inSize := inSize_le c

/-! ## The completion queues of the RDMA device -/

/-- The array `in` of `MlxCQ::cmdCreateCQ`. -/
def imageCQ (cq : CqContext) : Buffer :=
  setFields ((⟨0,16,Opcode.createCq.value⟩ :: cmdCreateCQ cq ++ cq.pas.words).map Word.bits) (fun _ => 0)

/-- Where the upper bits are clear before, the wide field leaves what the narrow one does. -/
theorem putField_wide {offset m n value : ℕ} {bytes : Buffer} (hvalue : value < 2 ^ n)
    (hclear : ∀ i, i < m → bitAt bytes (offset + i) = false) :
    putField offset (m + n) value bytes = putField (offset + m) n value bytes := by
  refine bytes_ext (fun k => ?_)
  rw [bitAt_putField, bitAt_putField]
  by_cases hin : offset ≤ k ∧ k < offset + (m + n)
  · rw [if_pos hin]
    by_cases hlow : offset + m ≤ k
    · rw [if_pos ⟨hlow,by omega⟩]
      congr 1
      omega
    · have hk := hclear (k - offset) (by omega)
      rw [Nat.add_sub_cancel' hin.1] at hk
      have hpow : 2 ^ n ≤ 2 ^ (m + n - 1 - (k - offset)) := Nat.pow_le_pow_right (by decide) (by omega)
      rw [if_neg (by omega), hk, Nat.testBit_lt_two_pow (hvalue.trans_le hpow)]
  · rw [if_neg hin, if_neg (by omega)]

theorem eqNumber_wide (eqNumber : BitVec 8) {bytes : Buffer} (hclear : ∀ i, i < 24 → bitAt bytes (0x120 + i) = false) :
    mlxSetBits bytes 0x120 32 (BitVec.ofNat 64 (eqNumber.setWidth 32).toNat) =
      mlxSetBits bytes 0x138 8 (BitVec.ofNat 64 eqNumber.toNat) := by
  have hlt := eqNumber.isLt
  have hvalue : (BitVec.ofNat 64 (eqNumber.setWidth 32).toNat).toNat = eqNumber.toNat ∧
      (BitVec.ofNat 64 eqNumber.toNat).toNat = eqNumber.toNat := by
    rw [BitVec.toNat_ofNat, BitVec.toNat_ofNat, BitVec.toNat_setWidth]
    omega
  rw [mlxSetBits_eq, mlxSetBits_eq, hvalue.1, hvalue.2]
  exact putField_wide (m := 24) (n := 8) hlt hclear

theorem setFields_cons (f : BitField) (fields : List BitField) (bytes : Buffer) :
    setFields (f :: fields) bytes = setFields fields (mlxSetBits bytes f.bitOffset f.bitWidth (BitVec.ofNat 64 f.value)) := rfl

/-- What both drivers write in front of the number of the event queue. -/
def cqFront (cq : CqContext) : List Word :=
  [⟨0,16,Opcode.createCq.value⟩,⟨0x88,3,0⟩,⟨0xe3,5,cq.logSize⟩,⟨0xe8,24,cq.uarPage⟩]

/-- What both drivers write behind it. -/
def cqBack (cq : CqContext) : List Word := ⟨0x143,5,0⟩ :: ⟨0x240,64,cq.dbrAddr⟩ :: cq.pas.words

theorem cqFront_clear (cq : CqContext) (i : ℕ) :
    bitAt (setFields ((cqFront cq).map Word.bits) (fun _ => 0)) (0x120 + i) = false := by
  have hfront : Layout ((cqFront cq).map Word.bits) := by
    refine layout_of_apart ?_ ?_ <;> exact of_decide_eq_true rfl
  have hend : ∀ w ∈ cqFront cq, w.bitOffset + w.bitWidth ≤ 8 * 0x24 := of_decide_eq_true rfl
  have hframe := hfront.frame (List.forall_mem_map.mpr hend) (fun _ => 0)
  rw [hframe.outside (0x120 + i) (List.forall_mem_map.mpr (fun w hw => Or.inr ((hend w hw).trans (Nat.le_add_right _ _))))]
  exact BitVec.getLsbD_zero

/-- Both drivers submit the same bytes for a completion queue. -/
theorem imageCQ_eq (cq : CqContext) : imageCQ cq = (Command.createCq cq).image := by
  have hsplit : ∀ w : Word, setFields ((cqFront cq ++ w :: cqBack cq).map Word.bits) (fun _ => 0) =
      setFields ((cqBack cq).map Word.bits) (mlxSetBits (setFields ((cqFront cq).map Word.bits) (fun _ => 0))
        w.bitOffset w.bitWidth (BitVec.ofNat 64 w.value.toNat)) := by
    intro w
    rw [List.map_append, Qpc.setFields_append, List.map_cons, setFields_cons]
    rfl
  have hwide : imageCQ cq = setFields ((cqFront cq ++ ⟨0x120,32,cq.eqNumber.setWidth 32⟩ :: cqBack cq).map Word.bits)
      (fun _ => 0) := rfl
  have hnarrow : (Command.createCq cq).image = setFields ((cqFront cq ++ ⟨0x138,8,cq.eqNumber⟩ :: cqBack cq).map Word.bits)
      (fun _ => 0) := rfl
  rw [hwide, hnarrow, hsplit, hsplit, eqNumber_wide cq.eqNumber (fun i _ => cqFront_clear cq i)]

/-- Every command is read back from the bytes that are submitted, and both drivers submit the same ones for a
completion queue. -/
theorem command_roundTrip : (∀ (c : Command) (rest : Buffer), c.Received (c.received rest)) ∧
    ∀ cq : CqContext, imageCQ cq = (Command.createCq cq).image :=
  ⟨received_command,imageCQ_eq⟩

end Commands

end AppleMCX
