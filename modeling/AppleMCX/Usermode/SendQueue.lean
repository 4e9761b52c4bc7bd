import AppleMCX.Hw.Cqe
import AppleMCX.Hw.Wqe
import AppleMCX.Interaction.Transition

/-! # The send queue of user space

`mlx_post_send` and `mlx_poll_cq`, next to a device that completes the posted WQEs in order.
The device may go on between two rounds of a poll.
-/
namespace AppleMCX.SendQueue
open Hw Interaction

/-- The depths of the send queue and of the completion queue, as 32-bit numbers. -/
structure Config where
  logSqSize : ℕ
  logCqSize : ℕ
  qpn : BitVec 32
  sq_lt : logSqSize < 32
  cq_lt : logCqSize < 32

def Config.sqSize (c : Config) : ℕ := 2 ^ c.logSqSize

/-- `MLX_WR_…` -/
inductive WrType
  | send | rdmaWrite | rdmaRead
  deriving DecidableEq, Repr

structure SendWr where
  wrType : WrType
  remoteAddr : BitVec 64
  rkey : BitVec 32
  data : BitVec 64
  length : BitVec 32
  lkey : BitVec 32
  wrId : BitVec 64
  deriving DecidableEq, Repr

def WrType.opcode : WrType → BitVec 32
  | .send => 0x0a
  | .rdmaWrite => 0x08
  | .rdmaRead => 0x10

/-- A WQE as `mlx_post_send` fills it; only RDMA requests have a remote address segment. -/
structure SendWqe where
  opmodIdxOpcode : BitVec 32
  qpnDs : BitVec 32
  fmCeSe : BitVec 8
  raddr : Option (BitVec 64 × BitVec 32)
  data : DataSeg
  deriving DecidableEq, Repr

/-- What a slot holds: the number of the WQE it was last written for, the WQE, and its entry of `wrid`. -/
structure Slot where
  number : ℕ
  wqe : SendWqe
  wrid : BitVec 64
  deriving DecidableEq, Repr

inductive PollPc
  | idle
  /-- Round `i` of `num` comes next, after `got` entries. -/
  | round (i num got : ℕ)
  deriving DecidableEq, Repr

structure State where
  sqHead : BitVec 32
  uar : Bool
  dbRecord : Option (BitVec 32)
  /-- What was last written to the doorbell register. -/
  doorbell : BitVec 32 × BitVec 32
  slots : ℕ → Slot
  cqeBuf : ℕ → Cqe
  consIndex : BitVec 32
  pollPc : PollPc
  polled : List Cqe
  /-- WQEs posted, CQEs written, and the consumer index that the kernel last passed on, without wraparound. -/
  posted : ℕ
  produced : ℕ
  told : ℕ

def noWqe : SendWqe := ⟨0,0,0,none,.zero⟩

/-- After `mlx_create_cq` and `mlx_create_qp`. -/
def initial : State where
  sqHead := 0
  uar := true
  dbRecord := some 0
  doorbell := (0,0)
  slots := fun _ => ⟨0,noWqe,0⟩
  cqeBuf := fun _ => .created
  consIndex := 0
  pollPc := .idle
  polled := []
  posted := 0
  produced := 0
  told := 0

/-- The results of the library: 0 or an error number. -/
inductive Errno
  | ok | einval
  deriving DecidableEq, Repr

variable (c : Config)

namespace State

/-- The slot of the next WQE: `sqHead & (sqSize - 1)`. -/
def idx (s : State) : ℕ := (s.sqHead &&& BitVec.ofNat 32 (2 ^ c.logSqSize - 1)).toNat

def wqe (wr : SendWr) (s : State) : SendWqe :=
  let wqeSize16 : BitVec 32 := match wr.wrType with
    | .send => 2
    | _ => 3
  { opmodIdxOpcode := BitVec.ofNat 32 (s.idx c) <<< 8 ||| wr.wrType.opcode
    qpnDs := wqeSize16 <<< 16 ||| c.qpn
    fmCeSe := ctrlCqUpdate
    raddr := match wr.wrType with
      | .send => none
      | _ => some (wr.remoteAddr,wr.rkey)
    data := ⟨wr.length,wr.lkey,wr.data⟩ }

def postSend (wr : Option SendWr) (s : State) : Errno × State :=
  match wr, s.dbRecord with
  | some wr, some _ =>
    if s.uar then
      (.ok,{ s with
        slots := Function.update s.slots (s.idx c) ⟨s.posted,s.wqe c wr,wr.wrId⟩
        sqHead := s.sqHead + 1
        dbRecord := some (s.sqHead + 1)
        doorbell := ((s.wqe c wr).opmodIdxOpcode,(s.wqe c wr).qpnDs)
        posted := s.posted + 1 })
    else (.einval,s)
  | _, _ => (.einval,s)

/-- The entry that `mlx_poll_cq` looks at. -/
def cqe (s : State) : Cqe := s.cqeBuf (s.consIndex &&& BitVec.ofNat 32 (2 ^ c.logCqSize - 1)).toNat

/-- `mlx_poll_cq` from its start or from its next round; `updated` says whether the kernel takes the consumer index. -/
def pollCq (num : ℕ) (updated : Bool) (s : State) : State :=
  match s.pollPc with
  | .idle => if num = 0 then s else { s with pollPc := .round 0 num 0 }
  | .round i num got =>
    if i < num ∧ (s.cqe c).ready c.logCqSize s.consIndex then
      { s with
        polled := s.polled ++ [s.cqe c]
        consIndex := s.consIndex + 1
        pollPc := .round (i + 1) num (got + 1) }
    else { s with
      told := if got > 0 ∧ updated then s.polled.length else s.told
      pollPc := .idle }

/-- The device completes its next WQE; it never runs over the completion queue that it was told of. -/
def complete (cqe : Cqe) (s : State) : Option State :=
  if s.produced < s.posted ∧ s.produced < s.told + 2 ^ c.logCqSize ∧ cqe.Written c.logCqSize s.produced then
    some { s with
      cqeBuf := Function.update s.cqeBuf (s.produced % 2 ^ c.logCqSize) cqe
      produced := s.produced + 1 }
  else none

end State

inductive Action
  | postSend (wr : Option SendWr)
  | pollCq (num : ℕ) (updated : Bool)
  | complete (cqe : Cqe)
  deriving DecidableEq, Repr

def step (s : State) : Action → Option State
  | .postSend wr => some (s.postSend c wr).2
  | .pollCq num updated => some (s.pollCq c num updated)
  | .complete cqe => s.complete c cqe

/-! ## Overruns -/

/-- The WQEs that were posted and that no polled CQE has reported. -/
def State.outstanding (s : State) : ℕ := s.posted - s.polled.length

/-- Every WQE that was not reported still stands in its slot. -/
def NoOverrun (s : State) : Prop :=
  ∀ n, s.polled.length ≤ n → n < s.posted → (s.slots (n % c.sqSize)).number = n

/-- A WQE is posted only where one of the slots is free. -/
def PostsWithRoom (s : State) : Action → Prop
  | .postSend _ => s.outstanding < c.sqSize
  | _ => True

/-- The counters are those of the device, and a CQE reports a WQE that was posted. -/
structure Counters (s : State) : Prop where
  sqHead : s.sqHead = BitVec.ofNat 32 s.posted
  consIndex : s.consIndex = BitVec.ofNat 32 s.polled.length
  told : s.told ≤ s.polled.length
  polled : s.polled.length ≤ s.produced
  produced : s.produced ≤ s.posted
  room : s.produced ≤ s.told + 2 ^ c.logCqSize
  ring : RingWritten (2 ^ c.logCqSize) (fun p cqe => cqe.Written c.logCqSize p) (· = .created) s.cqeBuf s.produced
  uar : s.uar = true
  dbRecord : s.dbRecord.isSome = true

variable {c} {s t : State}

theorem counters_initial : Counters c initial where
  sqHead := rfl
  consIndex := rfl
  told := le_rfl
  polled := le_rfl
  produced := le_rfl
  room := Nat.zero_le _
  ring := ringWritten_zero (fun _ _ => rfl)
  uar := rfl
  dbRecord := rfl

theorem idx_eq (h : Counters c s) : s.idx c = s.posted % c.sqSize := by
  unfold State.idx Config.sqSize
  rw [h.sqHead]
  exact counter_mask c.sq_lt.le s.posted

/-- Nothing else of the state enters the counters. -/
theorem postSend_posted (h : Counters c s) (wr : SendWr) : s.postSend c (some wr) =
    (.ok,{ s with
      slots := Function.update s.slots (s.posted % c.sqSize) ⟨s.posted,s.wqe c wr,wr.wrId⟩
      sqHead := s.sqHead + 1
      dbRecord := some (s.sqHead + 1)
      doorbell := ((s.wqe c wr).opmodIdxOpcode,(s.wqe c wr).qpnDs)
      posted := s.posted + 1 }) := by
  unfold State.postSend
  cases hdb : s.dbRecord with
  | none =>
    have hsome := h.dbRecord
    rw [hdb] at hsome
    cases hsome
  | some db =>
    dsimp only
    rw [if_pos h.uar, idx_eq h]

theorem postSend_counters (h : Counters c s) (wr : Option SendWr) : Counters c (s.postSend c wr).2 := by
  cases wr with
  | none => exact h
  | some wr =>
    rw [postSend_posted h wr]
    refine ⟨?_,h.consIndex,h.told,h.polled,Nat.le_succ_of_le h.produced,h.room,h.ring,h.uar,rfl⟩
    show s.sqHead + 1 = BitVec.ofNat 32 (s.posted + 1)
    rw [h.sqHead, counter_succ]

/-- The poll finds an entry exactly where the device is ahead of it. -/
theorem ready_iff_produced (h : Counters c s) :
    (s.cqe c).ready c.logCqSize s.consIndex = true ↔ s.polled.length < s.produced := by
  have hslot : (s.consIndex &&& BitVec.ofNat 32 (2 ^ c.logCqSize - 1)).toNat = s.polled.length % 2 ^ c.logCqSize := by
    rw [h.consIndex]
    exact counter_mask c.cq_lt.le _
  have hlap := h.room
  have htold := h.told
  unfold State.cqe
  rw [hslot, h.consIndex]
  exact Cqe.ready_ring c.cq_lt h.ring (fun _ _ he => he) h.polled (by omega)

theorem pollCq_counters (h : Counters c s) (num : ℕ) (updated : Bool) : Counters c (s.pollCq c num updated) := by
  unfold State.pollCq
  cases hpc : s.pollPc with
  | idle =>
    dsimp only
    split
    · exact h
    · exact ⟨h.sqHead,h.consIndex,h.told,h.polled,h.produced,h.room,h.ring,h.uar,h.dbRecord⟩
  | round i num' got =>
    dsimp only
    split
    · rename_i hready
      have hlt := (ready_iff_produced h).mp hready.2
      have hlen : (s.polled ++ [s.cqe c]).length = s.polled.length + 1 := List.length_append
      refine ⟨h.sqHead,?_,?_,?_,h.produced,h.room,h.ring,h.uar,h.dbRecord⟩
      · dsimp only
        rw [hlen, h.consIndex, counter_succ]
      · dsimp only
        rw [hlen]
        exact Nat.le_succ_of_le h.told
      · dsimp only
        omega
    · refine ⟨h.sqHead,h.consIndex,?_,h.polled,h.produced,?_,h.ring,h.uar,h.dbRecord⟩
      · dsimp only
        split
        · exact le_rfl
        · exact h.told
      · have hroom := h.room
        have htold := h.told
        dsimp only
        split <;> omega

theorem complete_counters (h : Counters c s) {cqe : Cqe} (hs : s.complete c cqe = some t) : Counters c t := by
  unfold State.complete at hs
  split at hs
  · rename_i hc
    cases hs
    have hpolled := h.polled
    exact ⟨h.sqHead,h.consIndex,h.told,Nat.le_succ_of_le hpolled,hc.1,hc.2.1,h.ring.write hc.2.2,h.uar,h.dbRecord⟩
  · cases hs

theorem step_counters {a : Action} (h : Counters c s) (hs : step c s a = some t) : Counters c t := by
  cases a with
  | postSend wr =>
    cases hs
    exact postSend_counters h wr
  | pollCq num updated =>
    cases hs
    exact pollCq_counters h num updated
  | complete cqe => exact complete_counters h hs

/-- A WQE takes the slot of one that was reported. -/
theorem postSend_noOverrun (h : Counters c s) (hno : NoOverrun c s) (hroom : s.outstanding < c.sqSize) (wr : Option SendWr) :
    NoOverrun c (s.postSend c wr).2 := by
  cases wr with
  | none => exact hno
  | some wr =>
    have hpolled := h.polled
    have hproduced := h.produced
    unfold State.outstanding at hroom
    rw [postSend_posted h wr]
    intro n hn hlt
    dsimp only at hn hlt ⊢
    by_cases he : n = s.posted
    · subst he
      rw [Function.update_self]
    · rw [Function.update_of_ne (slot_ne (by omega) (by omega)).symm]
      exact hno n hn (by omega)

theorem pollCq_noOverrun (hno : NoOverrun c s) (num : ℕ) (updated : Bool) : NoOverrun c (s.pollCq c num updated) := by
  have hmono : s.polled.length ≤ (s.pollCq c num updated).polled.length ∧ (s.pollCq c num updated).posted = s.posted ∧
      (s.pollCq c num updated).slots = s.slots := by
    unfold State.pollCq
    cases hpc : s.pollPc with
    | idle =>
      dsimp only
      split <;> exact ⟨le_rfl,rfl,rfl⟩
    | round i num' got =>
      dsimp only
      split
      · exact ⟨by simp,rfl,rfl⟩
      · exact ⟨le_rfl,rfl,rfl⟩
  intro n hn hlt
  rw [hmono.2.1] at hlt
  rw [hmono.2.2]
  exact hno n (hmono.1.trans hn) hlt

theorem step_noOverrun {a : Action} (h : Counters c s) (hno : NoOverrun c s) (hm : PostsWithRoom c s a)
    (hs : step c s a = some t) : NoOverrun c t := by
  cases a with
  | postSend wr =>
    cases hs
    exact postSend_noOverrun h hno hm wr
  | pollCq num updated =>
    cases hs
    exact pollCq_noOverrun hno num updated
  | complete cqe =>
    simp only [step, State.complete] at hs
    split at hs
    · cases hs
      exact hno
    · cases hs

/-- Into a full queue a WQE is posted all the same, over the oldest one that was not reported. -/
theorem postSend_overruns (h : Counters c s) (hfull : c.sqSize ≤ s.outstanding) (wr : SendWr) :
    (s.postSend c (some wr)).1 = .ok ∧ ¬ NoOverrun c (s.postSend c (some wr)).2 := by
  have hpos : 0 < c.sqSize := Nat.two_pow_pos c.logSqSize
  unfold State.outstanding at hfull
  rw [postSend_posted h wr]
  refine ⟨rfl,fun hno => ?_⟩
  have hslot : (s.posted - c.sqSize) % c.sqSize = s.posted % c.sqSize := (Nat.mod_eq_sub_mod (by omega)).symm
  have hnumber := hno (s.posted - c.sqSize) (by dsimp only; omega) (by dsimp only; omega)
  dsimp only at hnumber
  rw [hslot, Function.update_self] at hnumber
  dsimp only at hnumber
  omega

/-- No WQE is rewritten before it was reported in a run that posts only into a queue with a free slot;
into a full one `mlx_post_send` posts with success and rewrites a WQE that was not reported. -/
theorem sendQueue_run (c : Config) :
    (∀ s, Reach (step c) (PostsWithRoom c) initial s → NoOverrun c s) ∧
    ∀ s wr, Reach (step c) Free initial s → ¬ PostsWithRoom c s (.postSend (some wr)) →
      (s.postSend c (some wr)).1 = .ok ∧ ¬ NoOverrun c (s.postSend c (some wr)).2 := by
  constructor
  · intro s hr
    refine (hr.invariant (J := fun s => Counters c s ∧ NoOverrun c s) ⟨counters_initial,?_⟩ ?_).2
    · intro n _ hn
      cases hn
    · exact fun s a t h hm hs => ⟨step_counters h.1 hs,step_noOverrun h.1 h.2 hm hs⟩
  · intro s wr hr hm
    have h := hr.invariant counters_initial (fun _ _ _ h _ hs => step_counters h hs)
    exact postSend_overruns h (not_lt.mp hm) wr

def smallQueues : Config := ⟨6,6,7,by decide,by decide⟩

def anySend : SendWr := ⟨.send,0,0,0x1000,64,1,1⟩

/-- Any number of requests can be posted without a poll. -/
theorem exists_posted (c : Config) (n : ℕ) : ∃ s, Reach (step c) Free initial s ∧ s.posted = n ∧ s.polled = [] := by
  induction n with
  | zero => exact ⟨initial,.start,rfl,rfl⟩
  | succ n ih =>
    obtain ⟨s,hr,hp,hpolled⟩ := ih
    have hc := hr.invariant counters_initial (fun _ _ _ h _ hs => step_counters h hs)
    refine ⟨(s.postSend c (some anySend)).2,hr.next (l := .postSend (some anySend)) trivial rfl,?_,?_⟩
    · rw [postSend_posted hc anySend, hp]
    · rw [postSend_posted hc anySend]
      exact hpolled

/-- After 65 requests without a poll. -/
theorem oldest_rewritten : ¬ ∀ s, Reach (step smallQueues) Free initial s → NoOverrun smallQueues s := by
  intro h
  obtain ⟨s,hr,hp,hpolled⟩ := exists_posted smallQueues 64
  have hc := hr.invariant counters_initial (fun _ _ _ h _ hs => step_counters h hs)
  have hfull : smallQueues.sqSize ≤ s.outstanding := by
    unfold State.outstanding
    rw [hp, hpolled]
    decide
  exact (postSend_overruns hc hfull anySend).2 (h _ (hr.next (l := .postSend (some anySend)) trivial rfl))

end AppleMCX.SendQueue
