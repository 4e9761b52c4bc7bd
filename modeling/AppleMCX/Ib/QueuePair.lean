import AppleMCX.Ib.WorkQueue

/-! # Modifying a queue pair

`MlxQP::modifyQP` with the whole context that it finds: what it stores before it encodes the
queue pair context or submits the command, and what it stores behind the command.
-/
namespace AppleMCX.QueuePair
open Interaction Hw

structure MlxDMAReq where
  ownerTask : ℕ
  virtAddr : BitVec 64
  length : BitVec 64
  segs : List Segment
  memDesc : Option ℕ
  dmaCommand : Option ℕ
  deriving DecidableEq

structure MlxQPContext where
  qpNum : BitVec 32
  state : BitVec 32
  st : BitVec 32
  pd : BitVec 32
  sendCq : Option ℕ
  recvCq : Option ℕ
  sqBufAddr : BitVec 64
  rqBufAddr : BitVec 64
  sqSize : BitVec 32
  rqSize : BitVec 32
  curPost : BitVec 32
  curRecv : BitVec 32
  dbRecordOffset : BitVec 32
  bfOffset : BitVec 32
  sqPhys : BitVec 64
  rqPhys : BitVec 64
  sqDma : MlxDMAReq
  rqDma : MlxDMAReq
  sqPinned : Bool
  rqPinned : Bool
  ahDmac : Block 6
  ahDgid : Block 16
  ahSgidIndex : BitVec 32
  ahHopLimit : BitVec 8
  ahTrafficClass : BitVec 8
  ahUdpSport : BitVec 16
  pkeyIndex : BitVec 16
  portNum : BitVec 8
  destQpn : BitVec 32
  rqPsn : BitVec 32
  sqPsn : BitVec 32
  sqPkts : BitVec 64
  rqPkts : BitVec 64
  deriving DecidableEq

def MlxDMAReq.zero : MlxDMAReq := ⟨0,0,0,[],none,none⟩

/-- What `IOMallocZero` returns. -/
def MlxQPContext.zero : MlxQPContext where
  qpNum := 0
  state := 0
  st := 0
  pd := 0
  sendCq := none
  recvCq := none
  sqBufAddr := 0
  rqBufAddr := 0
  sqSize := 0
  rqSize := 0
  curPost := 0
  curRecv := 0
  dbRecordOffset := 0
  bfOffset := 0
  sqPhys := 0
  rqPhys := 0
  sqDma := .zero
  rqDma := .zero
  sqPinned := false
  rqPinned := false
  ahDmac := .zero 6
  ahDgid := .zero 16
  ahSgidIndex := 0
  ahHopLimit := 0
  ahTrafficClass := 0
  ahUdpSport := 0
  pkeyIndex := 0
  portNum := 0
  destQpn := 0
  rqPsn := 0
  sqPsn := 0
  sqPkts := 0
  rqPkts := 0

/-- `mlx_modify_qp_req`; nothing reads its `attrMask`. -/
structure ModifyQpReq where
  qpn : BitVec 32
  curState : BitVec 32
  newState : BitVec 32
  destQpn : BitVec 32
  pathMtu : BitVec 32
  rqPsn : BitVec 32
  sqPsn : BitVec 32
  pkeyIndex : BitVec 32
  portNum : BitVec 32
  ahDmac : Block 6
  ahDgid : Block 16
  ahSgidIndex : BitVec 32
  ahHopLimit : BitVec 8
  ahTrafficClass : BitVec 8
  ahUdpSport : BitVec 16
  minRnrTimer : BitVec 32
  maxDestRdAtomic : BitVec 32
  maxRdAtomic : BitVec 32

def stRst : BitVec 32 := 0
def stInit : BitVec 32 := 1
def stRtr : BitVec 32 := 2
def stRts : BitVec 32 := 3

/-- `MLX_CMD_OP_RST2INIT_QP`, `MLX_CMD_OP_INIT2RTR_QP` and `MLX_CMD_OP_RTR2RTS_QP` -/
inductive ModifyOp
  | rst2init | init2rtr | rtr2rts
  deriving DecidableEq, Repr

structure ModifyIn where
  opcode : ModifyOp
  qpn : BitVec 32
  encoded : Encoded

/-- What a call returns, the context behind it, and the command that it has submitted. -/
structure Modified where
  kr : IOReturn
  ctx : MlxQPContext
  submitted : Option ModifyIn

/-- `exec`, and what follows it. -/
def submit (op : ModifyOp) (req : ModifyQpReq) (exec : ModifyIn → IOReturn) (ctx : MlxQPContext) (e : Encoded) :
    Modified :=
  let cmd : ModifyIn := ⟨op,req.qpn,e⟩
  ⟨exec cmd,if exec cmd = .success then { ctx with state := req.newState } else ctx,some cmd⟩

def storePort (req : ModifyQpReq) (ctx : MlxQPContext) : MlxQPContext :=
  { ctx with pkeyIndex := req.pkeyIndex.setWidth 16, portNum := req.portNum.setWidth 8 }

def storePath (req : ModifyQpReq) (ctx : MlxQPContext) : MlxQPContext :=
  { ctx with
    ahDmac := req.ahDmac
    ahDgid := req.ahDgid
    ahSgidIndex := req.ahSgidIndex
    ahHopLimit := req.ahHopLimit
    ahTrafficClass := req.ahTrafficClass
    ahUdpSport := req.ahUdpSport
    destQpn := req.destQpn }

def MlxQPContext.path (ctx : MlxQPContext) : MlxRocePathFields where
  dmac := ctx.ahDmac
  dgid := ctx.ahDgid
  sgidIndex := ctx.ahSgidIndex
  hopLimit := ctx.ahHopLimit
  trafficClass := ctx.ahTrafficClass
  udpSport := ctx.ahUdpSport
  pkeyIndex := ctx.pkeyIndex
  portNum := ctx.portNum

def encodePath (req : ModifyQpReq) (ctx : MlxQPContext) : Option Encoded :=
  mlxEncodeInit2RtrQpc ctx.path req.destQpn req.pathMtu req.rqPsn req.maxDestRdAtomic

/-- `MlxQP::modifyQP` on the context that was found. -/
def modify (req : ModifyQpReq) (exec : ModifyIn → IOReturn) (ctx : MlxQPContext) : Modified :=
  if ctx.state ≠ req.curState then ⟨.notPermitted,ctx,none⟩
  else if ctx.state = stRst then
    if req.newState ≠ stInit then ⟨.notPermitted,ctx,none⟩
    else
      match mlxEncodeRst2InitQpc req.pkeyIndex req.portNum with
      | none => ⟨.badArgument,ctx,none⟩
      | some e => submit .rst2init req exec (storePort req ctx) e
  else if ctx.state = stInit then
    if req.newState ≠ stRtr then ⟨.notPermitted,ctx,none⟩
    else
      -- the path is encoded from where it has been stored
      match encodePath req (storePath req ctx) with
      | none => ⟨.badArgument,storePath req ctx,none⟩
      | some e => submit .init2rtr req exec (storePath req ctx) e
  else if ctx.state = stRtr then
    if req.newState ≠ stRts then ⟨.notPermitted,ctx,none⟩
    else
      match mlxEncodeRtr2RtsQpc req.sqPsn req.minRnrTimer req.maxRdAtomic with
      | none => ⟨.badArgument,ctx,none⟩
      | some e => submit .rtr2rts req exec ctx e
  else ⟨.unsupported,ctx,none⟩

structure ModifyResult where
  kr : IOReturn
  fQpTable : List MlxQPContext
  submitted : Option ModifyIn

/-- `MlxQP::modifyQP`, through the table. -/
def modifyQP (req : ModifyQpReq) (exec : ModifyIn → IOReturn) : List MlxQPContext → ModifyResult
  | [] => ⟨.notFound,[],none⟩
  | ctx :: table =>
    if ctx.qpNum = req.qpn then
      let m := modify req exec ctx
      ⟨m.kr,m.ctx :: table,m.submitted⟩
    else
      let r := modifyQP req exec table
      { r with fQpTable := ctx :: r.fQpTable }

variable {req : ModifyQpReq} {exec : ModifyIn → IOReturn} {ctx : MlxQPContext} {table : List MlxQPContext}

/-! ## What a call does -/

/-- The step of a queue pair that a command makes. -/
def ModifyOp.step : ModifyOp → BitVec 32 × BitVec 32
  | .rst2init => (stRst,stInit)
  | .init2rtr => (stInit,stRtr)
  | .rtr2rts => (stRtr,stRts)

/-- A call that stops before the command; what it has stored is not the state. -/
structure Refused (r : Modified) (ctx : MlxQPContext) : Prop where
  kr : r.kr ≠ .success
  submitted : r.submitted = none
  state : r.ctx.state = ctx.state
  qpNum : r.ctx.qpNum = ctx.qpNum

/-- A call that submits the command for the step that was asked for, and follows it. -/
structure Followed (r : Modified) (req : ModifyQpReq) (exec : ModifyIn → IOReturn) (ctx : MlxQPContext) (cmd : ModifyIn) :
    Prop where
  submitted : r.submitted = some cmd
  step : cmd.opcode.step = (ctx.state,req.newState)
  curState : ctx.state = req.curState
  kr : r.kr = exec cmd
  state : r.ctx.state = if exec cmd = .success then req.newState else ctx.state
  qpNum : r.ctx.qpNum = ctx.qpNum

theorem submit_followed {op : ModifyOp} {stored : MlxQPContext} {e : Encoded} (hstep : op.step = (ctx.state,req.newState))
    (hcur : ctx.state = req.curState) (hstate : stored.state = ctx.state) (hqpn : stored.qpNum = ctx.qpNum) :
    Followed (submit op req exec stored e) req exec ctx ⟨op,req.qpn,e⟩ := by
  refine ⟨rfl,hstep,hcur,rfl,?_,?_⟩
  · unfold submit
    dsimp only
    split
    · rfl
    · exact hstate
  · unfold submit
    dsimp only
    split <;> exact hqpn

theorem modify_cases (req : ModifyQpReq) (exec : ModifyIn → IOReturn) (ctx : MlxQPContext) :
    Refused (modify req exec ctx) ctx ∨ ∃ cmd, Followed (modify req exec ctx) req exec ctx cmd := by
  unfold modify
  by_cases hcur : ctx.state = req.curState
  · rw [if_neg (not_not.2 hcur)]
    by_cases hrst : ctx.state = stRst
    · rw [if_pos hrst]
      by_cases hnew : req.newState = stInit
      · rw [if_neg (not_not.2 hnew)]
        cases mlxEncodeRst2InitQpc req.pkeyIndex req.portNum with
        | none => exact .inl ⟨IOReturn.noConfusion,rfl,rfl,rfl⟩
        | some e => exact .inr ⟨_,submit_followed (by rw [hrst, hnew]; rfl) hcur rfl rfl⟩
      · rw [if_pos hnew]
        exact .inl ⟨IOReturn.noConfusion,rfl,rfl,rfl⟩
    · rw [if_neg hrst]
      by_cases hinit : ctx.state = stInit
      · rw [if_pos hinit]
        by_cases hnew : req.newState = stRtr
        · rw [if_neg (not_not.2 hnew)]
          cases encodePath req (storePath req ctx) with
          | none => exact .inl ⟨IOReturn.noConfusion,rfl,rfl,rfl⟩
          | some e => exact .inr ⟨_,submit_followed (by rw [hinit, hnew]; rfl) hcur rfl rfl⟩
        · rw [if_pos hnew]
          exact .inl ⟨IOReturn.noConfusion,rfl,rfl,rfl⟩
      · rw [if_neg hinit]
        by_cases hrtr : ctx.state = stRtr
        · rw [if_pos hrtr]
          by_cases hnew : req.newState = stRts
          · rw [if_neg (not_not.2 hnew)]
            cases mlxEncodeRtr2RtsQpc req.sqPsn req.minRnrTimer req.maxRdAtomic with
            | none => exact .inl ⟨IOReturn.noConfusion,rfl,rfl,rfl⟩
            | some e => exact .inr ⟨_,submit_followed (by rw [hrtr, hnew]; rfl) hcur rfl rfl⟩
          · rw [if_pos hnew]
            exact .inl ⟨IOReturn.noConfusion,rfl,rfl,rfl⟩
        · rw [if_neg hrtr]
          exact .inl ⟨IOReturn.noConfusion,rfl,rfl,rfl⟩
  · rw [if_pos hcur]
    exact .inl ⟨IOReturn.noConfusion,rfl,rfl,rfl⟩

/-! ## What a failure leaves behind -/

/-- Nothing is stored ahead of a command that fails, or ahead of an encoder that refuses, but
what the context has already. -/
def StoresNothing (req : ModifyQpReq) (exec : ModifyIn → IOReturn) (ctx : MlxQPContext) : Prop :=
  ctx.state = req.curState →
    (ctx.state = stRst → req.newState = stInit → ∀ e, mlxEncodeRst2InitQpc req.pkeyIndex req.portNum = some e →
      exec ⟨.rst2init,req.qpn,e⟩ = .success ∨ storePort req ctx = ctx) ∧
    (ctx.state = stInit → req.newState = stRtr →
      (∃ e, encodePath req (storePath req ctx) = some e ∧ exec ⟨.init2rtr,req.qpn,e⟩ = .success) ∨
      storePath req ctx = ctx)

/-- Behind a command, a failure leaves what was stored. -/
theorem submit_unchanged_iff {op : ModifyOp} {stored : MlxQPContext} {e : Encoded} :
    ((submit op req exec stored e).kr ≠ .success → (submit op req exec stored e).ctx = ctx) ↔
      exec ⟨op,req.qpn,e⟩ = .success ∨ stored = ctx := by
  unfold submit
  dsimp only
  by_cases hok : exec ⟨op,req.qpn,e⟩ = .success
  · simp [hok]
  · simp [hok]

theorem modify_unchanged_iff : ((modify req exec ctx).kr ≠ .success → (modify req exec ctx).ctx = ctx) ↔
    StoresNothing req exec ctx := by
  have hne : stRst ≠ stInit := by decide
  unfold modify StoresNothing
  by_cases hcur : ctx.state = req.curState
  · rw [if_neg (not_not.2 hcur)]
    by_cases hrst : ctx.state = stRst
    · have hinit : ctx.state ≠ stInit := by rw [hrst]; decide
      rw [if_pos hrst]
      by_cases hnew : req.newState = stInit
      · rw [if_neg (not_not.2 hnew)]
        cases mlxEncodeRst2InitQpc req.pkeyIndex req.portNum with
        | none => simp [hinit]
        | some e => simp [← hcur, hrst, hnew, hne, submit_unchanged_iff]
      · simp [hnew, hinit]
    · rw [if_neg hrst]
      by_cases hinit : ctx.state = stInit
      · rw [if_pos hinit]
        by_cases hnew : req.newState = stRtr
        · rw [if_neg (not_not.2 hnew)]
          cases encodePath req (storePath req ctx) with
          | none => simp [← hcur, hinit, hnew, hne.symm]
          | some e => simp [← hcur, hinit, hnew, hne.symm, submit_unchanged_iff]
        · simp [hrst, hnew]
      · rw [if_neg hinit]
        by_cases hrtr : ctx.state = stRtr
        · rw [if_pos hrtr]
          by_cases hnew : req.newState = stRts
          · rw [if_neg (not_not.2 hnew)]
            cases mlxEncodeRtr2RtsQpc req.sqPsn req.minRnrTimer req.maxRdAtomic with
            | none => simp [hrst, hinit]
            | some e => simp [hrst, hinit, submit_unchanged_iff]
          · simp [hrst, hinit, hnew]
        · simp [hrst, hinit, hrtr]
  · simp [hcur]

/-- A failing `modifyQP` leaves all contexts as they were exactly if the one that it finds has
nothing stored into. -/
theorem modifyQP_unchanged_iff (req : ModifyQpReq) (exec : ModifyIn → IOReturn) (table : List MlxQPContext) :
    ((modifyQP req exec table).kr ≠ .success → (modifyQP req exec table).fQpTable = table) ↔
      ∀ ctx, table.find? (fun ctx => ctx.qpNum = req.qpn) = some ctx → StoresNothing req exec ctx := by
  induction table with
  | nil => simp [modifyQP]
  | cons ctx table ih =>
    unfold modifyQP
    by_cases hqpn : ctx.qpNum = req.qpn
    · rw [if_pos hqpn, List.find?_cons_of_pos (by simpa using hqpn)]
      simp only [Option.some.injEq, forall_eq', List.cons.injEq, and_true]
      exact modify_unchanged_iff
    · rw [if_neg hqpn, List.find?_cons_of_neg (by simpa using hqpn)]
      simpa only [List.cons.injEq, true_and] using ih

def exampleReq (destQpn : BitVec 32) : ModifyQpReq :=
  ⟨7,stInit,stRtr,destQpn,3,0,0,0,1,.zero 6,.zero 16,0,64,0,0,0,1,1⟩

/-- A destination that has more than 24 bits is refused, when it stands in the context. -/
theorem modifyQP_unchanged_destQpn : ¬ ∀ (req : ModifyQpReq) (exec : ModifyIn → IOReturn) (table : List MlxQPContext),
    (modifyQP req exec table).kr ≠ .success → (modifyQP req exec table).fQpTable = table := by
  intro hall
  have hsame := hall (exampleReq 0x1000000) (fun _ => .success)
    [{ MlxQPContext.zero with qpNum := 7, state := stInit, portNum := 1 }] (by decide)
  have hdest := congrArg (List.map (·.destQpn)) hsame
  exact absurd hdest (by decide)

end AppleMCX.QueuePair
