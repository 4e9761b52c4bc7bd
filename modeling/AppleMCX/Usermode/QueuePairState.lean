import AppleMCX.Ib.QueuePair

/-! # The state of a queue pair in three layers

`ibv_qp`, `mlx_qp` and `MlxQPContext` each have the state of a queue pair. It is followed
from `ibv_create_qp` through calls of `ibv_modify_qp`, beside the state that the firmware has.
-/
namespace AppleMCX.QueuePairState
open Interaction QueuePair

/-- `ibv_qp_attr`, as far as it is passed on, with `IBV_QP_AV` of the mask. -/
structure IbvQpAttr where
  qp_state : BitVec 32
  path_mtu : BitVec 32
  rq_psn : BitVec 32
  sq_psn : BitVec 32
  dest_qp_num : BitVec 32
  pkey_index : BitVec 16
  port_num : BitVec 8
  max_rd_atomic : BitVec 32
  max_dest_rd_atomic : BitVec 32
  min_rnr_timer : BitVec 32
  av : Bool
  dgid : Block 16
  sgid_index : BitVec 8
  hop_limit : BitVec 8
  traffic_class : BitVec 8
  ah_port_num : BitVec 8

/-- `state` of `ibv_qp` and of `mlx_qp` with its `qpn`, the client's and the driver's tables,
and the queue pair in the firmware. -/
structure World where
  ibvState : BitVec 32
  mlxState : BitVec 32
  qpn : BitVec 32
  fOwnedQp : List (BitVec 32)
  fQpTable : List MlxQPContext
  fwState : BitVec 32
  timedOut : Bool

/-- What a call comes across: whether it gets to the client, what the command interface says to
a command, whether one that timed out took effect, and whether the number is put back. -/
structure Environment where
  delivered : Bool
  exec : ModifyIn → IOReturn
  tookEffect : Bool
  addOwned : Bool

structure Call where
  attr : IbvQpAttr
  environment : Environment

/-- The firmware behind a submitted command. -/
def fwAfter (e : Environment) (submitted : Option ModifyIn) (w : World) : World :=
  match submitted with
  | none => w
  | some cmd =>
    if e.exec cmd = .success then { w with fwState := cmd.opcode.step.2 }
    else if e.exec cmd = .timeout then
      { w with fwState := if e.tookEffect then cmd.opcode.step.2 else w.fwState, timedOut := true }
    else w

/-- `MlxUserClient::modifyQP` -/
def clientModifyQP (req : ModifyQpReq) (e : Environment) (w : World) : IOReturn × World :=
  if req.qpn ∉ w.fOwnedQp then (.notPermitted,w)
  else
    let owned := w.fOwnedQp.erase req.qpn
    let r := modifyQP req e.exec w.fQpTable
    (r.kr,fwAfter e r.submitted
      { w with fOwnedQp := if e.addOwned then owned ++ [req.qpn] else owned, fQpTable := r.fQpTable })

/-- `mlx_modify_qp`; true stands for 0. -/
def mlxModifyQp (curState newState : BitVec 32) (attr : ModifyQpReq) (e : Environment) (w : World) : Bool × World :=
  let req := { attr with qpn := w.qpn, curState, newState }
  if !e.delivered then (false,w)
  else
    let (kr,w) := clientModifyQP req e w
    if kr ≠ .success then (false,w) else (true,{ w with mlxState := newState })

def request (cur : BitVec 32) (attr : IbvQpAttr) : ModifyQpReq where
  qpn := 0
  curState := cur
  newState := attr.qp_state
  destQpn := attr.dest_qp_num
  pathMtu := attr.path_mtu
  rqPsn := attr.rq_psn
  sqPsn := attr.sq_psn
  pkeyIndex := attr.pkey_index.setWidth 32
  portNum := if attr.av then attr.ah_port_num.setWidth 32 else attr.port_num.setWidth 32
  ahDmac := .zero 6
  ahDgid := if attr.av then attr.dgid else .zero 16
  ahSgidIndex := if attr.av then attr.sgid_index.setWidth 32 else 0
  ahHopLimit := if attr.av then attr.hop_limit else 0
  ahTrafficClass := if attr.av then attr.traffic_class else 0
  ahUdpSport := 0
  minRnrTimer := attr.min_rnr_timer
  maxDestRdAtomic := attr.max_dest_rd_atomic
  maxRdAtomic := attr.max_rd_atomic

def ibvModifyQp (w : World) (c : Call) : World :=
  let cur : BitVec 32 := if w.ibvState = 0 then 0 else if w.ibvState = 1 then 1 else if w.ibvState = 2 then 2 else 3
  let (ok,w) := mlxModifyQp cur c.attr.qp_state (request cur c.attr) c.environment w
  if ok then { w with ibvState := c.attr.qp_state } else w

/-- The context that `MlxQP::createQP` puts into the table. -/
def createdContext (req : WorkQueue.CreateQpReq) (qpn dbRecordOffset : BitVec 32) (sqReq rqReq : MlxDMAReq) :
    MlxQPContext :=
  { MlxQPContext.zero with
    qpNum := qpn
    state := stRst
    st := if req.qpType = 0 then 0 else 1
    pd := req.pd
    sqSize := req.sqSize
    rqSize := req.rqSize
    sqBufAddr := req.sqBufAddr
    rqBufAddr := req.rqBufAddr
    dbRecordOffset
    bfOffset := 0x800
    sqPhys := BitVec.ofNat 64 ((sqReq.segs.head?.map (·.addr)).getD 0)
    rqPhys := BitVec.ofNat 64 ((rqReq.segs.head?.map (·.addr)).getD 0)
    sqPinned := sqReq.memDesc.isSome
    rqPinned := rqReq.memDesc.isSome
    sqDma := if sqReq.memDesc.isSome then sqReq else .zero
    rqDma := if rqReq.memDesc.isSome then rqReq else .zero }

/-- What `ibv_create_qp` leaves: the states of `calloc`, and the context behind those that are in the table. -/
def ibvCreateQp (owned : List (BitVec 32)) (table : List MlxQPContext) (created : MlxQPContext) : World where
  ibvState := 0
  mlxState := 0
  qpn := created.qpNum
  fOwnedQp := owned ++ [created.qpNum]
  fQpTable := table ++ [created]
  fwState := stRst
  timedOut := false

/-! ## Agreement -/

variable {w : World} {req : ModifyQpReq} {e : Environment} {c : Call}

/-- The three states are one, and the firmware's too as long as no command has timed out. -/
structure Agree (w : World) : Prop where
  mlx : w.mlxState = w.ibvState
  kernel : ∃ ctx, w.fQpTable.find? (fun ctx => ctx.qpNum = w.qpn) = some ctx ∧ ctx.state = w.ibvState
  firmware : w.timedOut = false → w.fwState = w.ibvState

theorem modifyQP_found (exec : ModifyIn → IOReturn) {table : List MlxQPContext} {ctx : MlxQPContext}
    (h : table.find? (fun ctx => ctx.qpNum = req.qpn) = some ctx) :
    (modifyQP req exec table).kr = (modify req exec ctx).kr ∧
      (modifyQP req exec table).submitted = (modify req exec ctx).submitted ∧
      (modifyQP req exec table).fQpTable.find? (fun ctx => ctx.qpNum = req.qpn) = some (modify req exec ctx).ctx := by
  have hqpn : (modify req exec ctx).ctx.qpNum = ctx.qpNum := by
    rcases modify_cases req exec ctx with hr | ⟨cmd,hf⟩
    · exact hr.qpNum
    · exact hf.qpNum
  induction table with
  | nil => cases h
  | cons first table ih =>
    unfold modifyQP
    by_cases hfirst : first.qpNum = req.qpn
    · rw [List.find?_cons_of_pos (by simpa using hfirst)] at h
      cases h
      rw [if_pos hfirst]
      exact ⟨rfl,rfl,List.find?_cons_of_pos (by simpa [hqpn] using hfirst)⟩
    · rw [List.find?_cons_of_neg (by simpa using hfirst)] at h
      rw [if_neg hfirst]
      obtain ⟨hkr,hsubmitted,hfind⟩ := ih h
      exact ⟨hkr,hsubmitted,by rw [List.find?_cons_of_neg (by simpa using hfirst)]; exact hfind⟩

def World.moved (w : World) (newState : BitVec 32) : World := { w with ibvState := newState, mlxState := newState }

/-- What a call of the client does to states that agree: it fails and they still do, or it
succeeds with a step and they do once the two user layers have followed. -/
theorem clientModifyQP_agree (e : Environment) (h : Agree w) (hqpn : req.qpn = w.qpn) :
    (clientModifyQP req e w).2.ibvState = w.ibvState ∧ (clientModifyQP req e w).2.mlxState = w.mlxState ∧
      ((clientModifyQP req e w).1 ≠ .success ∧ Agree (clientModifyQP req e w).2 ∨
        (clientModifyQP req e w).1 = .success ∧ (∃ op : ModifyOp, op.step = (w.ibvState,req.newState)) ∧
          Agree ((clientModifyQP req e w).2.moved req.newState)) := by
  obtain ⟨hmlx,⟨ctx,hfind,hstate⟩,hfw⟩ := h
  rw [← hqpn] at hfind
  obtain ⟨hkr,hsubmitted,hfind'⟩ := modifyQP_found e.exec hfind
  unfold clientModifyQP
  split
  · exact ⟨rfl,rfl,.inl ⟨IOReturn.noConfusion,hmlx,⟨ctx,hqpn ▸ hfind,hstate⟩,hfw⟩⟩
  · dsimp only
    rw [hkr, hsubmitted]
    rcases modify_cases req e.exec ctx with hr | ⟨cmd,hf⟩
    · rw [hr.submitted]
      exact ⟨rfl,rfl,.inl ⟨hr.kr,hmlx,⟨_,hqpn ▸ hfind',hr.state.trans hstate⟩,hfw⟩⟩
    · have hctx := hf.state
      rw [hf.submitted, hf.kr]
      unfold fwAfter
      dsimp only
      split
      · rename_i hok
        rw [if_pos hok] at hctx
        refine ⟨rfl,rfl,.inr ⟨hok,⟨cmd.opcode,hstate ▸ hf.step⟩,rfl,⟨_,hqpn ▸ hfind',hctx⟩,fun _ => ?_⟩⟩
        exact congrArg Prod.snd hf.step
      · rename_i hfail
        rw [if_neg hfail] at hctx
        split
        · exact ⟨rfl,rfl,.inl ⟨hfail,hmlx,⟨_,hqpn ▸ hfind',hctx.trans hstate⟩,fun hno => absurd hno (by simp)⟩⟩
        · exact ⟨rfl,rfl,.inl ⟨hfail,hmlx,⟨_,hqpn ▸ hfind',hctx.trans hstate⟩,hfw⟩⟩

theorem ibvModifyQp_agree (h : Agree w) : Agree (ibvModifyQp w c) ∧
    ((ibvModifyQp w c).ibvState = w.ibvState ∨ ∃ op : ModifyOp, op.step = (w.ibvState,(ibvModifyQp w c).ibvState)) := by
  unfold ibvModifyQp mlxModifyQp
  generalize (if w.ibvState = 0 then (0 : BitVec 32) else if w.ibvState = 1 then 1 else if w.ibvState = 2 then 2 else 3) = cur
  dsimp only
  split
  · exact ⟨h,.inl rfl⟩
  · obtain ⟨hibv,-,⟨hkr,hagree⟩ | ⟨hkr,hop,hagree⟩⟩ := clientModifyQP_agree c.environment h
      (rfl : ({ request cur c.attr with qpn := w.qpn, curState := cur, newState := c.attr.qp_state } : ModifyQpReq).qpn = w.qpn)
    · rw [if_pos hkr]
      exact ⟨hagree,.inl hibv⟩
    · rw [if_neg (not_not.2 hkr)]
      exact ⟨hagree,.inr hop⟩

theorem ibvCreateQp_agree {owned : List (BitVec 32)} {table : List MlxQPContext} {created : MlxQPContext}
    (hfresh : ∀ ctx ∈ table, ctx.qpNum ≠ created.qpNum) (hstate : created.state = stRst) :
    Agree (ibvCreateQp owned table created) := by
  refine ⟨rfl,⟨created,?_,hstate⟩,fun _ => rfl⟩
  have hnone : table.find? (fun ctx => ctx.qpNum = created.qpNum) = none :=
    List.find?_eq_none.2 fun ctx hctx => by simpa using hfresh ctx hctx
  change (table ++ [created]).find? (fun ctx => ctx.qpNum = created.qpNum) = some created
  rw [List.find?_append, hnone, Option.none_or, List.find?_cons_of_pos (by simp)]

theorem run_agree (h : Agree w) (calls : List Call) : Agree (calls.foldl ibvModifyQp w) := by
  induction calls generalizing w with
  | nil => exact h
  | cons c calls ih => exact ih (ibvModifyQp_agree h).1

/-- After every call on a created queue pair the states agree, and every call leaves them or
moves them on by one step. -/
theorem states_agree (owned : List (BitVec 32)) {table : List MlxQPContext} (req : WorkQueue.CreateQpReq)
    {qpn : BitVec 32} (dbRecordOffset : BitVec 32) (sqReq rqReq : MlxDMAReq)
    (hfresh : ∀ ctx ∈ table, ctx.qpNum ≠ qpn) (calls : List Call)
    (c : Call) :
    let w := calls.foldl ibvModifyQp (ibvCreateQp owned table (createdContext req qpn dbRecordOffset sqReq rqReq))
    Agree w ∧ Agree (ibvModifyQp w c) ∧
      ((ibvModifyQp w c).ibvState = w.ibvState ∨ ∃ op : ModifyOp, op.step = (w.ibvState,(ibvModifyQp w c).ibvState)) := by
  have hcreated : Agree (ibvCreateQp owned table (createdContext req qpn dbRecordOffset sqReq rqReq)) :=
    ibvCreateQp_agree hfresh rfl
  have hagree := run_agree hcreated calls
  exact ⟨hagree,ibvModifyQp_agree hagree⟩

def exampleAttr (qp_state : BitVec 32) : IbvQpAttr := ⟨qp_state,3,0,0,9,0,1,1,1,1,true,.zero 16,0,64,0,1⟩

def exampleCall (qp_state : BitVec 32) : Call := ⟨exampleAttr qp_state,true,fun _ => .success,true,true⟩

def exampleCreated : World := ibvCreateQp [] [] (createdContext (WorkQueue.exampleReq 64) 7 0 .zero .zero)

theorem states_agree_toRtr :
    let w := [exampleCall stInit].foldl ibvModifyQp exampleCreated
    Agree w ∧ Agree (ibvModifyQp w (exampleCall stRtr)) ∧ (ibvModifyQp w (exampleCall stRtr)).ibvState = stRtr := by
  have hfresh : ∀ ctx ∈ ([] : List MlxQPContext), ctx.qpNum ≠ 7 := by simp
  have hrun := states_agree [] (WorkQueue.exampleReq 64) 0 .zero .zero hfresh [exampleCall stInit] (exampleCall stRtr)
  exact ⟨hrun.1,hrun.2.1,by decide⟩

end AppleMCX.QueuePairState
