import AppleMCX.Interaction.WorkRing
import AppleMCX.Usermode.SendEncoders

/-! # Lists of work requests

`ibv_post_send` and `ibv_post_recv`, next to a device that takes the entries of the two work
queues in order, for as long as the doorbell record says that there are more.
-/
namespace AppleMCX.PostedWork
open Hw Interaction SendQueue

/-- `failed` is -1. -/
inductive Result
  | ok | failed | einval | eopnotsupp | enodev
  deriving DecidableEq, Repr

/-- The loop of the two functions: the result, what `bad_wr` is set to, and the state. -/
def postList {α σ : Type} (post : α → σ → Result × σ) : List α → σ → Result × Option (List α) × σ
  | [], s => (.ok,none,s)
  | w :: ws, s =>
    match post w s with
    | (.ok, s) => postList post ws s
    | (kr, s) => (kr,some (w :: ws),s)

/-! ## Sending -/

structure IbvSge where
  addr : BitVec 64
  length : BitVec 32
  lkey : BitVec 32
  deriving DecidableEq, Repr

/-- `IBV_WR_…` -/
inductive IbvWrOpcode
  | rdmaWrite | rdmaWriteWithImm | send | sendWithImm | rdmaRead | atomicCmpAndSwp | atomicFetchAndAdd | localInv | bindMw
  | sendWithInv | tso
  deriving DecidableEq, Repr

/-- `sgList` is the first entry, or a null pointer; the addresses are those of `wr.rdma`. -/
structure IbvSendWr where
  wrId : BitVec 64
  sgList : Option IbvSge
  numSge : ℤ
  opcode : IbvWrOpcode
  remoteAddr : BitVec 64
  rkey : BitVec 32
  deriving DecidableEq, Repr

/-- `mwr.wrType`; the remote address and key are set for the RDMA requests only. -/
def IbvSendWr.wrType (w : IbvSendWr) : Option (WrType × BitVec 64 × BitVec 32) :=
  match w.opcode with
  | .rdmaWrite => some (.rdmaWrite,w.remoteAddr,w.rkey)
  | .rdmaRead => some (.rdmaRead,w.remoteAddr,w.rkey)
  | .send => some (.send,0,0)
  | _ => none

/-- The request that is made of it, where it is one that the library knows. -/
def IbvSendWr.mwr (w : IbvSendWr) : Option SendWr :=
  match w.wrType with
  | none => none
  | some (wrType,remoteAddr,rkey) =>
    if w.numSge > 1 then none
    else
      let sge : IbvSge := if w.numSge > 0 then w.sgList.getD ⟨0,0,0⟩ else ⟨0,0,0⟩
      some ⟨wrType,remoteAddr,rkey,sge.addr,sge.length,sge.lkey,w.wrId⟩

structure Config extends SendQueue.Config where
  logRqSize : ℕ
  -- whether there is a `mlx_qp`
  mlxQp : Bool
  -- the bits of the records that the device compares
  counterBits : ℕ
  sq_lt_counter : logSqSize < counterBits
  rq_lt_counter : logRqSize < counterBits
  counter_le : counterBits ≤ 32

def Config.rqSize (c : Config) : ℕ := 2 ^ c.logRqSize

variable (c : Config)

/-- One round of `ibv_post_send`. -/
def postSendWr (w : IbvSendWr) (s : SendQueue.State) : Result × SendQueue.State :=
  match w.mwr with
  | none => (.eopnotsupp,s)
  | some wr =>
    if c.mlxQp then
      match s.postSend c.toConfig (some wr) with
      | (.ok, s) => (.ok,s)
      | (.einval, s) => (.einval,s)
    else (.enodev,s)

def ibvPostSend (qp : Bool) (wr : List IbvSendWr) (s : SendQueue.State) :
    Result × Option (List IbvSendWr) × SendQueue.State :=
  if !qp then (.failed,some wr,s) else postList (postSendWr c) wr s

/-! ## Receiving -/

structure IbvRecvWr where
  wrId : BitVec 64
  sgList : Option IbvSge
  numSge : ℤ
  deriving DecidableEq, Repr

/-- What `mlx_post_recv` knows of a QP; the record is the word in front of the one for sending. -/
structure RecvQueue where
  rqHead : BitVec 32
  rqBuf : ℕ → DataSeg
  dbRecord : Option (BitVec 32)

/-- `mlx_post_recv`; `wrId` is not looked at. -/
def mlxPostRecv (buf : BitVec 64) (length lkey : BitVec 32) (q : RecvQueue) : Errno × RecvQueue :=
  if buf = 0 then (.einval,q)
  else
    let idx := (q.rqHead &&& BitVec.ofNat 32 (2 ^ c.logRqSize - 1)).toNat
    (.ok,{
      rqHead := q.rqHead + 1
      rqBuf := Function.update q.rqBuf idx ⟨length,lkey,buf⟩
      dbRecord := q.dbRecord.map (fun _ => q.rqHead + 1) })

/-- The only entry of the list, where there is a QP to post it to. -/
def IbvRecvWr.sge (w : IbvRecvWr) : Option IbvSge := if w.numSge ≠ 1 ∨ !c.mlxQp then none else w.sgList

/-- One round of `ibv_post_recv`. -/
def postRecvWr (w : IbvRecvWr) (q : RecvQueue) : Result × RecvQueue :=
  match w.sge c with
  | none => (.eopnotsupp,q)
  | some sge =>
    match mlxPostRecv c sge.addr sge.length sge.lkey q with
    | (.ok, q) => (.ok,q)
    | (.einval, q) => (.einval,q)

def ibvPostRecv (qp : Bool) (wr : List IbvRecvWr) (q : RecvQueue) : Result × Option (List IbvRecvWr) × RecvQueue :=
  if !qp then (.failed,some wr,q) else postList (postRecvWr c) wr q

/-! ## The device -/

/-- What a WQE asks for. -/
structure Request where
  opcode : BitVec 8
  raddr : Option (BitVec 64 × BitVec 32)
  data : DataSeg
  deriving DecidableEq, Repr

def Request.ofSlot (slot : Slot) : Request :=
  ⟨slot.wqe.opmodIdxOpcode.setWidth 8,slot.wqe.raddr,slot.wqe.data⟩

def Request.ofWr (wr : SendWr) : Request where
  opcode := wr.wrType.opcode.setWidth 8
  raddr := match wr.wrType with
    | .send => none
    | _ => some (wr.remoteAddr,wr.rkey)
  data := ⟨wr.length,wr.lkey,wr.data⟩

def IbvSge.dataSeg (sge : IbvSge) : DataSeg := ⟨sge.length,sge.lkey,sge.addr⟩

/-- The queues of a QP, what the program has posted as far as it was told, and what the device has taken. -/
structure State where
  sq : SendQueue.State
  rq : RecvQueue
  sent : List SendWr
  recvd : List IbvSge
  executed : List Request
  filled : List DataSeg

def initial : State := ⟨SendQueue.initial,⟨0,fun _ => .zero,some 0⟩,[],[],[],[]⟩

/-- The requests in front of `bad_wr`. -/
def accepted {α : Type} (wr : List α) (badWr : Option (List α)) : List α := wr.take (wr.length - (badWr.getD []).length)

/-- The record is not at the number of entries that were taken. -/
def ahead (dbRecord : Option (BitVec 32)) (taken : ℕ) : Bool :=
  dbRecord.any (fun db => db.setWidth c.counterBits ≠ BitVec.ofNat c.counterBits taken)

inductive Action
  | postSend (wr : List IbvSendWr)
  | postRecv (wr : List IbvRecvWr)
  | execute
  | fill
  deriving DecidableEq

def step (s : State) : Action → Option State
  | .postSend wr =>
    let (_,badWr,sq) := ibvPostSend c true wr s.sq
    some { s with sq, sent := s.sent ++ (accepted wr badWr).filterMap IbvSendWr.mwr }
  | .postRecv wr =>
    let (_,badWr,rq) := ibvPostRecv c true wr s.rq
    some { s with rq, recvd := s.recvd ++ (accepted wr badWr).filterMap (IbvRecvWr.sge c) }
  | .execute =>
    if ahead c s.sq.dbRecord s.executed.length then
      some { s with executed := s.executed ++ [.ofSlot (s.sq.slots (s.executed.length % c.sqSize))] }
    else none
  | .fill =>
    if ahead c s.rq.dbRecord s.filled.length then
      some { s with filled := s.filled ++ [s.rq.rqBuf (s.filled.length % c.rqSize)] }
    else none

/-- A list is posted only where there is room for all of it. -/
def Room (s : State) : Action → Prop
  | .postSend wr => s.sent.length + wr.length ≤ s.executed.length + c.sqSize
  | .postRecv wr => s.recvd.length + wr.length ≤ s.filled.length + c.rqSize
  | _ => True

/-! ## Lists -/

/-- What a call does to the requests of a list, where `P` says of the requests that were posted what it has made of them. -/
structure PostsPrefix {α σ : Type} (Fits : α → Prop) (P : List α → σ → Prop)
    (wr : List α) (kr : Result) (badWr : Option (List α))
    (t : σ) : Prop where
  posted : P (accepted wr badWr) t
  fits : ∀ w ∈ accepted wr badWr, Fits w
  split : wr = accepted wr badWr ++ badWr.getD []
  ok : kr = .ok ↔ badWr = none
  bad : ∀ rest, badWr = some rest → ∃ w ws, rest = w :: ws ∧ ¬ Fits w

theorem accepted_append {α : Type} (done rest : List α) : accepted (done ++ rest) (some rest) = done := by
  unfold accepted
  rw [List.length_append, Option.getD_some, Nat.add_sub_cancel, List.take_left]

theorem accepted_all {α : Type} (wr : List α) : accepted wr none = wr := List.take_length

/-- By induction on what is left of the list. -/
theorem postList_posts {α σ : Type} {post : α → σ → Result × σ} {Fits : α → Prop}
    {P : List α → σ → Prop} {wr : List α}
    (hpost : ∀ done w rest s, wr = done ++ w :: rest → P done s →
      ((post w s).1 = .ok → Fits w ∧ P (done ++ [w]) (post w s).2) ∧
      ((post w s).1 ≠ .ok → ¬ Fits w ∧ (post w s).2 = s))
    {done rest : List α} {s : σ} (hwr : wr = done ++ rest) (hfits : ∀ w ∈ done, Fits w) (hP : P done s) :
    PostsPrefix Fits P wr (postList post rest s).1 (postList post rest s).2.1 (postList post rest s).2.2 := by
  induction rest generalizing done s with
  | nil =>
    rw [List.append_nil] at hwr
    subst hwr
    have hall := accepted_all wr
    refine ⟨?_,?_,?_,by simp [postList],fun rest h => by cases h⟩
    · rw [postList, hall]
      exact hP
    · rw [postList, hall]
      exact hfits
    · rw [postList, hall]
      exact (List.append_nil _).symm
  | cons w ws ih =>
    obtain ⟨hok,hbad⟩ := hpost done w ws s hwr hP
    cases he : post w s with
    | mk kr t =>
      rw [he] at hok hbad
      by_cases hkr : kr = .ok
      · subst hkr
        obtain ⟨hw,hPt⟩ := hok rfl
        rw [postList, he]
        have hsplit : wr = (done ++ [w]) ++ ws := hwr.trans (List.append_cons done w ws)
        refine ih hsplit (fun v hv => ?_) hPt
        rcases List.mem_append.mp hv with hv | hv
        · exact hfits v hv
        · rw [List.mem_singleton.mp hv]
          exact hw
      · obtain ⟨hw,ht⟩ := hbad hkr
        rw [show t = s from ht] at he
        have hlist : postList post (w :: ws) s = (kr,some (w :: ws),s) := by
          rw [postList, he]
          cases kr <;> first | rfl | exact absurd rfl hkr
        have hacc : accepted wr (some (w :: ws)) = done := by rw [hwr, accepted_append]
        rw [hlist]
        refine ⟨?_,?_,?_,by simp [hkr],fun rest h => ⟨w,ws,(Option.some.inj h).symm,hw⟩⟩
        · dsimp only
          rw [hacc]
          exact hP
        · dsimp only
          rw [hacc]
          exact hfits
        · dsimp only
          rw [hacc]
          exact hwr

/-! ## What the device takes -/

/-- The send queue, where the program has posted `sent`. -/
structure SendInv (executed : List Request) (sent : List SendWr) (sq : SendQueue.State) : Prop where
  sqHead : sq.sqHead = BitVec.ofNat 32 sent.length
  uar : sq.uar = true
  dbRecord : sq.dbRecord = some (BitVec.ofNat 32 sent.length)
  ring : WorkRing c.sqSize Request.ofWr Request.ofSlot sq.slots sent executed
  /-- Every entry bears the number of its slot. -/
  index : ∀ n < sent.length, SendEncoders.wqeIndex (sq.slots (n % c.sqSize)).wqe.opmodIdxOpcode = BitVec.ofNat 16 (n % c.sqSize)
  /-- The doorbell register has the control segment of the last entry. -/
  doorbell : ∀ n, n + 1 = sent.length →
    sq.doorbell = ((sq.slots (n % c.sqSize)).wqe.opmodIdxOpcode,(sq.slots (n % c.sqSize)).wqe.qpnDs)

structure RecvInv (filled : List DataSeg) (recvd : List IbvSge) (rq : RecvQueue) : Prop where
  rqHead : rq.rqHead = BitVec.ofNat 32 recvd.length
  dbRecord : rq.dbRecord = some (BitVec.ofNat 32 recvd.length)
  ring : WorkRing c.rqSize IbvSge.dataSeg id rq.rqBuf recvd filled

variable {c} {s t : State} {executed : List Request} {sent : List SendWr} {sq : SendQueue.State} {filled : List DataSeg}
  {recvd : List IbvSge} {rq : RecvQueue}

/-- The opcode is the low byte of its word, whatever the index. -/
theorem opcode_low (idx : BitVec 32) (wrType : WrType) :
    (idx <<< 8 ||| wrType.opcode).setWidth 8 = wrType.opcode.setWidth 8 := by
  refine BitVec.eq_of_getLsbD_eq (fun i hi => ?_)
  simp only [BitVec.getLsbD_setWidth, BitVec.getLsbD_or, BitVec.getLsbD_shiftLeft, hi, decide_true, Bool.true_and, Bool.not_true,
    Bool.and_false, Bool.false_and, Bool.false_or]

theorem ofSlot_wqe (sq : SendQueue.State) (number : ℕ) (wr : SendWr) :
    Request.ofSlot ⟨number,sq.wqe c.toConfig wr,wr.wrId⟩ = Request.ofWr wr := by
  unfold Request.ofSlot Request.ofWr
  congr 1
  exact opcode_low _ wr.wrType

theorem SendInv.post (h : SendInv c executed sent sq) (hroom : sent.length < executed.length + c.sqSize) (wr : SendWr) :
    (sq.postSend c.toConfig (some wr)).1 = .ok ∧
      SendInv c executed (sent ++ [wr]) (sq.postSend c.toConfig (some wr)).2 := by
  have hidx : sq.idx c.toConfig = sent.length % c.sqSize := by
    unfold SendQueue.State.idx Config.sqSize
    rw [h.sqHead]
    exact counter_mask c.sq_lt.le sent.length
  have hnext : sq.sqHead + 1 = BitVec.ofNat 32 (sent ++ [wr]).length := by
    rw [h.sqHead, counter_succ, List.length_append, List.length_singleton]
  unfold SendQueue.State.postSend
  rw [h.dbRecord]
  dsimp only
  rw [if_pos h.uar, hidx]
  refine ⟨rfl,hnext,h.uar,congrArg some hnext,h.ring.post hroom (ofSlot_wqe sq sq.posted wr),fun n hn => ?_,fun n hn => ?_⟩
  · dsimp only
    by_cases hslot : n % c.sqSize = sent.length % c.sqSize
    · have hword : (sq.wqe c.toConfig wr).opmodIdxOpcode = BitVec.ofNat 32 (sq.idx c.toConfig) <<< 8 ||| wr.wrType.opcode := rfl
      rw [hslot, Function.update_self, hword, SendEncoders.wqeIndex_eq (SendEncoders.opcode_lt wr), hidx,
        BitVec.setWidth_ofNat_of_le (by decide)]
    · rw [Function.update_of_ne hslot]
      refine h.index n (lt_of_le_of_ne ?_ fun he => hslot (by rw [he]))
      rw [List.length_append, List.length_singleton] at hn
      exact Nat.le_of_lt_succ hn
  · rw [List.length_append, List.length_singleton] at hn
    obtain rfl : n = sent.length := by omega
    dsimp only
    rw [Function.update_self]

theorem RecvInv.post (h : RecvInv c filled recvd rq) (hroom : recvd.length < filled.length + c.rqSize) {sge : IbvSge}
    (haddr : sge.addr ≠ 0) :
    (mlxPostRecv c sge.addr sge.length sge.lkey rq).1 = .ok ∧
      RecvInv c filled (recvd ++ [sge]) (mlxPostRecv c sge.addr sge.length sge.lkey rq).2 := by
  have hidx : (rq.rqHead &&& BitVec.ofNat 32 (2 ^ c.logRqSize - 1)).toNat = recvd.length % c.rqSize := by
    rw [h.rqHead]
    exact counter_mask (c.rq_lt_counter.le.trans c.counter_le) recvd.length
  have hnext : rq.rqHead + 1 = BitVec.ofNat 32 (recvd ++ [sge]).length := by
    rw [h.rqHead, counter_succ, List.length_append, List.length_singleton]
  unfold mlxPostRecv
  rw [if_neg haddr]
  dsimp only
  rw [hidx]
  refine ⟨rfl,hnext,?_,h.ring.post hroom rfl⟩
  dsimp only
  rw [h.dbRecord, Option.map_some, hnext]

/-- A request that `ibv_post_send` takes. -/
def SendFits (c : Config) (w : IbvSendWr) : Prop := w.mwr.isSome = true ∧ c.mlxQp = true

def RecvFits (c : Config) (w : IbvRecvWr) : Prop := ∃ sge, w.sge c = some sge ∧ sge.addr ≠ 0

theorem filterMap_concat {α β : Type} {f : α → Option β} {a : α} {b : β} (l : List α) (h : f a = some b) :
    (l ++ [a]).filterMap f = l.filterMap f ++ [b] := by
  rw [List.filterMap_append, List.filterMap_cons_some h, List.filterMap_nil]

theorem ibvPostSend_posts (h : SendInv c executed sent sq) {wr : List IbvSendWr}
    (hroom : sent.length + wr.length ≤ executed.length + c.sqSize) :
    PostsPrefix (SendFits c) (fun done => SendInv c executed (sent ++ done.filterMap IbvSendWr.mwr)) wr
      (ibvPostSend c true wr sq).1 (ibvPostSend c true wr sq).2.1 (ibvPostSend c true wr sq).2.2 := by
  refine postList_posts (fun done w rest q hwr hq => ?_) (List.nil_append wr).symm (fun w hw => by cases hw) ?_
  · have hlen : (done.filterMap IbvSendWr.mwr).length ≤ done.length := List.length_filterMap_le _ _
    have hlt : (sent ++ done.filterMap IbvSendWr.mwr).length < executed.length + c.sqSize := by
      rw [hwr, List.length_append, List.length_cons] at hroom
      rw [List.length_append]
      omega
    cases hmwr : w.mwr with
    | none =>
      have hround : postSendWr c w q = (.eopnotsupp,q) := by rw [postSendWr, hmwr]
      rw [hround]
      exact ⟨fun he => (by cases he),fun _ => ⟨fun hf => (by rw [SendFits, hmwr] at hf; cases hf.1),rfl⟩⟩
    | some mwr =>
      cases hqp : c.mlxQp with
      | false =>
        have hround : postSendWr c w q = (.enodev,q) := by rw [postSendWr, hmwr]; dsimp only; rw [hqp]; rfl
        rw [hround]
        exact ⟨fun he => (by cases he),fun _ => ⟨fun hf => (by rw [SendFits, hqp] at hf; cases hf.2),rfl⟩⟩
      | true =>
        obtain ⟨hok,hpost⟩ := hq.post hlt mwr
        cases he : q.postSend c.toConfig (some mwr) with
        | mk kr q' =>
          rw [he] at hok hpost
          dsimp only at hok hpost
          subst hok
          have hround : postSendWr c w q = (.ok,q') := by rw [postSendWr, hmwr]; dsimp only; rw [hqp, if_pos rfl, he]
          rw [hround, filterMap_concat done hmwr, ← List.append_assoc]
          exact ⟨fun _ => ⟨⟨by rw [hmwr]; rfl,hqp⟩,hpost⟩,fun hne => absurd rfl hne⟩
  · rw [List.filterMap_nil, List.append_nil]
    exact h

theorem ibvPostRecv_posts (h : RecvInv c filled recvd rq) {wr : List IbvRecvWr}
    (hroom : recvd.length + wr.length ≤ filled.length + c.rqSize) :
    PostsPrefix (RecvFits c) (fun done => RecvInv c filled (recvd ++ done.filterMap (IbvRecvWr.sge c))) wr
      (ibvPostRecv c true wr rq).1 (ibvPostRecv c true wr rq).2.1 (ibvPostRecv c true wr rq).2.2 := by
  refine postList_posts (fun done w rest q hwr hq => ?_) (List.nil_append wr).symm (fun w hw => by cases hw) ?_
  · have hlen : (done.filterMap (IbvRecvWr.sge c)).length ≤ done.length := List.length_filterMap_le _ _
    have hlt : (recvd ++ done.filterMap (IbvRecvWr.sge c)).length < filled.length + c.rqSize := by
      rw [hwr, List.length_append, List.length_cons] at hroom
      rw [List.length_append]
      omega
    cases hsge : w.sge c with
    | none =>
      have hround : postRecvWr c w q = (.eopnotsupp,q) := by rw [postRecvWr, hsge]
      rw [hround]
      refine ⟨fun he => (by cases he),fun _ => ⟨fun hf => ?_,rfl⟩⟩
      obtain ⟨sge,hf,-⟩ := hf
      rw [hsge] at hf
      cases hf
    | some sge =>
      by_cases haddr : sge.addr = 0
      · have hround : postRecvWr c w q = (.einval,q) := by
          rw [postRecvWr, hsge]
          dsimp only
          rw [mlxPostRecv, if_pos haddr]
        rw [hround]
        refine ⟨fun he => (by cases he),fun _ => ⟨fun hf => ?_,rfl⟩⟩
        obtain ⟨_,hf,hne⟩ := hf
        rw [hsge] at hf
        cases hf
        exact hne haddr
      · obtain ⟨hok,hpost⟩ := hq.post hlt haddr
        cases he : mlxPostRecv c sge.addr sge.length sge.lkey q with
        | mk kr q' =>
          rw [he] at hok hpost
          dsimp only at hok hpost
          subst hok
          have hround : postRecvWr c w q = (.ok,q') := by rw [postRecvWr, hsge]; dsimp only; rw [he]
          rw [hround, filterMap_concat done hsge, ← List.append_assoc]
          exact ⟨fun _ => ⟨⟨sge,hsge,haddr⟩,hpost⟩,fun hne => absurd rfl hne⟩
  · rw [List.filterMap_nil, List.append_nil]
    exact h

theorem SendInv.take (h : SendInv c executed sent sq) (hlt : executed.length < sent.length) :
    SendInv c (executed ++ [.ofSlot (sq.slots (executed.length % c.sqSize))]) sent sq :=
  ⟨h.sqHead,h.uar,h.dbRecord,h.ring.take hlt,h.index,h.doorbell⟩

theorem RecvInv.take (h : RecvInv c filled recvd rq) (hlt : filled.length < recvd.length) :
    RecvInv c (filled ++ [rq.rqBuf (filled.length % c.rqSize)]) recvd rq :=
  ⟨h.rqHead,h.dbRecord,h.ring.take hlt⟩

theorem SendInv.ahead_iff (h : SendInv c executed sent sq) :
    ahead c sq.dbRecord executed.length = true ↔ executed.length < sent.length := by
  have hsize : c.sqSize < 2 ^ c.counterBits := Nat.pow_lt_pow_right (by decide) c.sq_lt_counter
  rw [ahead, h.dbRecord, Option.any_some, decide_eq_true_iff]
  exact h.ring.ahead_iff hsize c.counter_le

theorem RecvInv.ahead_iff (h : RecvInv c filled recvd rq) :
    ahead c rq.dbRecord filled.length = true ↔ filled.length < recvd.length := by
  have hsize : c.rqSize < 2 ^ c.counterBits := Nat.pow_lt_pow_right (by decide) c.rq_lt_counter
  rw [ahead, h.dbRecord, Option.any_some, decide_eq_true_iff]
  exact h.ring.ahead_iff hsize c.counter_le

structure Inv (c : Config) (s : State) : Prop where
  send : SendInv c s.executed s.sent s.sq
  recv : RecvInv c s.filled s.recvd s.rq

theorem inv_initial : Inv c initial where
  send := ⟨rfl,rfl,rfl,workRing_nil _ _ _ _,fun _ hn => (by cases hn),fun _ hn => by cases hn⟩
  recv := ⟨rfl,rfl,workRing_nil _ _ _ _⟩

theorem step_inv {a : Action} (h : Inv c s) (hm : Room c s a) (hs : step c s a = some t) : Inv c t := by
  cases a with
  | postSend wr =>
    cases hs
    exact ⟨(ibvPostSend_posts h.send hm).posted,h.recv⟩
  | postRecv wr =>
    cases hs
    exact ⟨h.send,(ibvPostRecv_posts h.recv hm).posted⟩
  | execute =>
    simp only [step] at hs
    split at hs
    · rename_i hahead
      cases hs
      exact ⟨h.send.take (h.send.ahead_iff.mp hahead),h.recv⟩
    · cases hs
  | fill =>
    simp only [step] at hs
    split at hs
    · rename_i hahead
      cases hs
      exact ⟨h.send,h.recv.take (h.recv.ahead_iff.mp hahead)⟩
    · cases hs

/-- The device has taken the first of the requests that the program knows to be posted, in order and each once, and finds the
next one exactly where there is one. -/
structure Delivered (c : Config) (s : State) : Prop where
  executed : s.executed = (s.sent.take s.executed.length).map Request.ofWr
  filled : s.filled = (s.recvd.take s.filled.length).map IbvSge.dataSeg
  executes : (step c s .execute).isSome = true ↔ s.executed.length < s.sent.length
  fills : (step c s .fill).isSome = true ↔ s.filled.length < s.recvd.length

theorem Inv.delivered (h : Inv c s) : Delivered c s where
  executed := h.send.ring.inOrder
  filled := h.recv.ring.inOrder
  executes := by
    rw [← h.send.ahead_iff, step, Option.isSome_ite]
  fills := by
    rw [← h.recv.ahead_iff, step, Option.isSome_ite]

/-- In every run in which the lists have room. -/
theorem postedWork_run (c : Config) {s : State} (hr : Reach (step c) (Room c) initial s) :
    Delivered c s ∧
      (∀ wr kr badWr sq, Room c s (.postSend wr) → ibvPostSend c true wr s.sq = (kr,badWr,sq) →
        PostsPrefix (SendFits c) (fun done => SendInv c s.executed (s.sent ++ done.filterMap IbvSendWr.mwr)) wr kr badWr sq) ∧
      ∀ wr kr badWr rq, Room c s (.postRecv wr) → ibvPostRecv c true wr s.rq = (kr,badWr,rq) →
        PostsPrefix (RecvFits c) (fun done => RecvInv c s.filled (s.recvd ++ done.filterMap (IbvRecvWr.sge c)))
          wr kr badWr rq := by
  have h : Inv c s := hr.invariant inv_initial (fun _ _ _ h hm hs => step_inv h hm hs)
  refine ⟨h.delivered,fun wr kr badWr sq hm hcall => ?_,fun wr kr badWr rq hm hcall => ?_⟩
  · have hposts := ibvPostSend_posts h.send hm
    rw [hcall] at hposts
    exact hposts
  · have hposts := ibvPostRecv_posts h.recv hm
    rw [hcall] at hposts
    exact hposts

def smallQp : Config := ⟨smallQueues,6,true,16,by decide,by decide,by decide⟩

def aWrite : IbvSendWr := ⟨1,some ⟨0x1000,64,1⟩,1,.rdmaWrite,0x2000,2⟩
def anAtomic : IbvSendWr := ⟨2,some ⟨0x3000,8,1⟩,1,.atomicFetchAndAdd,0x4000,2⟩

/-- The second request is refused, and the device executes the first. -/
theorem postedWork_run_badWr : ∃ s,
    (ibvPostSend smallQp true [aWrite,anAtomic] initial.sq).2.1 = some [anAtomic] ∧ Delivered smallQp s ∧
      s.executed = [⟨0x08,some (0x2000,2),⟨64,1,0x1000⟩⟩] := by
  obtain ⟨s,hs⟩ : ∃ s, step smallQp initial (.postSend [aWrite,anAtomic]) = some s := ⟨_,rfl⟩
  have hr : Reach (step smallQp) (Room smallQp) initial s :=
    Reach.start.next (l := .postSend [aWrite,anAtomic]) (by decide : 0 + 2 ≤ 0 + 2 ^ 6) hs
  obtain ⟨t,ht⟩ : ∃ t, step smallQp s .execute = some t := by
    obtain rfl := Option.some.inj hs
    exact ⟨_,rfl⟩
  refine ⟨t,rfl,(postedWork_run smallQp (hr.next (l := .execute) trivial ht)).1,?_⟩
  obtain rfl := Option.some.inj hs
  obtain rfl := Option.some.inj ht
  rfl

end AppleMCX.PostedWork
