import AppleMCX.Usermode.CqConsumer
import AppleMCX.Usermode.PostedWork

/-! # From a work request to its completion

A program that posts with `ibv_post_send` and polls with `ibv_poll_cq`, on a device that writes
an entry into the completion queue for each request it has executed. The device and the two
functions go on in any order, between two rounds of a poll as well.
-/
namespace AppleMCX.SendCompletions
open Hw Interaction PostedWork
open SendQueue (SendWr)
open CqConsumer (MlxCqe64 bswap16 bswap32)

inductive IbvWcStatus
  | success | generalErr
  deriving DecidableEq, Repr

/-- `ibv_wc`; its other fields are zero. -/
structure IbvWc where
  wrId : BitVec 64
  status : IbvWcStatus
  byteLen : BitVec 32
  qpNum : BitVec 32
  deriving DecidableEq, Repr

/-- What `ibv_poll_cq` makes of an entry that `mlx_poll_cq` has returned. -/
def IbvWc.ofCqe (cqe : MlxCqe64) : IbvWc where
  wrId := cqe.wqeCounter.setWidth 64
  status := if cqe.opOwn >>> 4 = 0x0d ∨ cqe.opOwn >>> 4 = 0x0e ∨ cqe.opOwn >>> 4 = 0x0c then .generalErr else .success
  byteLen := cqe.byteCnt
  qpNum := cqe.sopDropQpn &&& 0xffffff

structure Config where
  work : PostedWork.Config
  cq : CqConsumer.Config

/-- The queues, where `returned` was when the present call of `ibv_poll_cq` began, what the last call has returned, and
the work completions of all calls. -/
structure State where
  work : PostedWork.State
  cq : CqConsumer.State
  mark : ℕ
  result : ℕ
  wcs : List IbvWc

variable (c : Config)

def initial (db : CqConsumer.DbRecord) : State := ⟨PostedWork.initial,CqConsumer.initial c.cq db,0,0,[]⟩

/-- `ibv_poll_cq` up to the call of `mlx_poll_cq`. -/
def ibvPollCq (numEntries : ℤ) (s : State) : State :=
  if numEntries ≤ 0 then { s with result := 0 }
  else
    let maxBatch := if numEntries > 8 then 8 else numEntries
    { s with cq := s.cq.pollCq c.cq true maxBatch, mark := s.cq.returned.length }

/-- A round of `mlx_poll_cq`, and behind the last one the rest of `ibv_poll_cq`. -/
def pollRound (s : State) : State :=
  let cq := s.cq.pollCq c.cq true 0
  match cq.pollPc with
  | .idle =>
    let got := cq.result.getD 0
    { s with cq, result := got, wcs := s.wcs ++ ((cq.returned.drop s.mark).take got).map IbvWc.ofCqe }
  | .round _ _ _ => { s with cq }

/-- The device reports an entry of the send queue by the number that it bears. -/
def Reports (sq : SendQueue.State) (n : ℕ) (cqe : MlxCqe64) : Prop :=
  bswap16 cqe.wqeCounter = SendEncoders.wqeIndex (sq.slots (n % c.work.sqSize)).wqe.opmodIdxOpcode ∧
    bswap32 cqe.sopDropQpn &&& 0xffffff = c.work.qpn &&& 0xffffff

instance (sq : SendQueue.State) (n : ℕ) (cqe : MlxCqe64) : Decidable (Reports c sq n cqe) :=
  inferInstanceAs (Decidable (_ ∧ _))

inductive Action
  | postSend (wr : List IbvSendWr)
  | poll (numEntries : ℤ)
  | round
  | complete (cqe : MlxCqe64)

def step (s : State) : Action → Option State
  | .postSend wr => (PostedWork.step c.work s.work (.postSend wr)).map (fun work => { s with work })
  | .poll numEntries => if s.cq.pollPc = .idle then some (ibvPollCq c numEntries s) else none
  | .round => if s.cq.pollPc = .idle then none else some (pollRound c s)
  | .complete cqe =>
    if Reports c s.work.sq s.work.executed.length cqe then
      (PostedWork.step c.work s.work .execute).bind (fun work =>
        (CqConsumer.step c.cq s.cq (.produce cqe)).map (fun cq => { s with work, cq }))
    else none

/-- The program posts no more than either queue holds next to the requests that it has no completion of. -/
def Room (s : State) : Action → Prop
  | .postSend wr => s.work.sent.length + wr.length ≤ s.wcs.length + min c.work.sqSize c.cq.size
  | _ => True

/-! ## What is kept -/

/-- The present call has copied the entries behind the mark. -/
def Polling (s : State) : Prop :=
  match s.cq.pollPc with
  | .idle => s.wcs.length = s.cq.returned.length
  | .round i num got => s.mark = s.wcs.length ∧ s.mark + got = s.cq.returned.length ∧ i = got ∧ got ≤ num ∧ num ≤ 8

structure Inv (s : State) : Prop where
  send : SendInv c.work s.work.executed s.work.sent s.work.sq
  counters : CqConsumer.Counters c.cq s.cq
  completed : s.cq.produced.length = s.work.executed.length
  reports : ∀ n cqe, s.cq.produced[n]? = some cqe →
    bswap16 cqe.wqeCounter = BitVec.ofNat 16 (n % c.work.sqSize) ∧
      bswap32 cqe.sopDropQpn &&& 0xffffff = c.work.qpn &&& 0xffffff
  wcs : s.wcs = (s.cq.returned.take s.wcs.length).map IbvWc.ofCqe
  polling : Polling s
  limit : s.work.sent.length ≤ s.wcs.length + min c.work.sqSize c.cq.size

variable {c} {s t : State} {db : CqConsumer.DbRecord}

theorem inv_initial : Inv c (initial c db) where
  send := PostedWork.inv_initial.send
  counters := CqConsumer.counters_initial
  completed := rfl
  reports n cqe h := by cases h
  wcs := rfl
  polling := rfl
  limit := Nat.zero_le _

theorem Inv.wcs_le (h : Inv c s) : s.wcs.length ≤ s.cq.returned.length := by
  have hpolling := h.polling
  unfold Polling at hpolling
  cases hpc : s.cq.pollPc with
  | idle =>
    rw [hpc] at hpolling
    exact hpolling.le
  | round i num got =>
    rw [hpc] at hpolling
    obtain ⟨hmark,hgot,-⟩ := hpolling
    omega

theorem postSend_inv (h : Inv c s) {wr : List IbvSendWr} (hm : Room c s (.postSend wr)) (hs : step c s (.postSend wr) = some t) :
    Inv c t := by
  have hle := h.wcs_le
  have hreturned := h.counters.le
  have hcompleted := h.completed
  have hroom : s.work.sent.length + wr.length ≤ s.work.executed.length + c.work.sqSize := by
    have hmin : min c.work.sqSize c.cq.size ≤ c.work.sqSize := min_le_left _ _
    have hmeets : s.work.sent.length + wr.length ≤ s.wcs.length + min c.work.sqSize c.cq.size := hm
    omega
  cases hs
  have hposts := ibvPostSend_posts h.send hroom
  refine ⟨hposts.posted,h.counters,h.completed,h.reports,h.wcs,h.polling,?_⟩
  have hmeets : s.work.sent.length + wr.length ≤ s.wcs.length + min c.work.sqSize c.cq.size := hm
  refine le_trans ?_ hmeets
  dsimp only
  rw [List.length_append]
  refine Nat.add_le_add_left ((List.length_filterMap_le _ _).trans ?_) _
  exact List.length_take_le' _ _

theorem complete_inv (h : Inv c s) {cqe : MlxCqe64} (hs : step c s (.complete cqe) = some t) : Inv c t := by
  simp only [step] at hs
  split at hs
  · rename_i hrep
    obtain ⟨work,hwork,hs⟩ := Option.bind_eq_some_iff.mp hs
    obtain ⟨cq,hcq,rfl⟩ := Option.map_eq_some_iff.mp hs
    simp only [PostedWork.step] at hwork
    split at hwork
    · rename_i hahead
      cases hwork
      have hlt := h.send.ahead_iff.mp hahead
      have hle := h.wcs_le
      have hlimit := h.limit
      have hcompleted := h.completed
      have hmin : min c.work.sqSize c.cq.size ≤ c.cq.size := min_le_right _ _
      obtain ⟨hwritten,rfl⟩ := CqConsumer.step_produce hcq
      have hcounters : CqConsumer.Counters c.cq (s.cq.produce c.cq cqe) :=
        CqConsumer.produce_counters h.counters (by omega) hwritten
      refine ⟨h.send.take hlt,hcounters,?_,fun n e he => ?_,h.wcs,h.polling,h.limit⟩
      · dsimp only [CqConsumer.State.produce]
        rw [List.length_append, List.length_append, hcompleted]
        rfl
      · have he' : (s.cq.produced ++ [cqe])[n]? = some e := he
        rcases Nat.lt_or_ge n s.cq.produced.length with hn | hn
        · rw [List.getElem?_append_left hn] at he'
          exact h.reports n e he'
        · obtain ⟨hbound,-⟩ := List.getElem?_eq_some_iff.mp he'
          rw [List.length_append, List.length_singleton] at hbound
          obtain rfl : n = s.cq.produced.length := by omega
          rw [List.getElem?_concat_length] at he'
          cases he'
          refine ⟨?_,hrep.2⟩
          rw [hrep.1, hcompleted]
          exact h.send.index _ hlt
    · cases hwork
  · cases hs

theorem poll_inv (h : Inv c s) {numEntries : ℤ} (hs : step c s (.poll numEntries) = some t) : Inv c t := by
  simp only [step] at hs
  split at hs
  · rename_i hidle
    cases hs
    have hwcs : s.wcs.length = s.cq.returned.length := by
      have hpolling := h.polling
      unfold Polling at hpolling
      rw [hidle] at hpolling
      exact hpolling
    unfold ibvPollCq
    split
    · exact ⟨h.send,h.counters,h.completed,h.reports,h.wcs,h.polling,h.limit⟩
    · rename_i hpos
      have hcq : ∀ num : ℤ, 0 < num → s.cq.pollCq c.cq true num = { s.cq with pollPc := .round 0 num.toNat 0 } := by
        intro num hnum
        unfold CqConsumer.State.pollCq
        rw [hidle]
        dsimp only
        rw [if_neg]
        rintro (hfalse | hle)
        · cases hfalse
        · omega
      have hbatch : 0 < (if numEntries > 8 then 8 else numEntries) ∧
        (if numEntries > 8 then 8 else numEntries) ≤ 8 := by
        split <;> omega
      dsimp only
      rw [hcq _ hbatch.1]
      exact ⟨h.send,⟨h.counters.consIndex,h.counters.le,h.counters.room,h.counters.ring,h.counters.returned⟩,
        h.completed,h.reports,
        h.wcs,⟨hwcs.symm,rfl,rfl,Nat.zero_le _,by omega⟩,h.limit⟩
  · cases hs

/-- A round of the poll takes an entry, or it is behind the last one. -/
theorem pollRound_cases {i num got : ℕ} (hpc : s.cq.pollPc = .round i num got) :
    (i < num ∧ s.cq.ready c.cq = true ∧ pollRound c s = { s with cq := { s.cq with
      returned := s.cq.returned ++ [(s.cq.entry c.cq).returned]
      consIndex := s.cq.consIndex + 1
      pollPc := .round (i + 1) num (got + 1) } }) ∨
    (¬ (i < num ∧ s.cq.ready c.cq = true) ∧ ∃ db, pollRound c s = { s with
      cq := { s.cq with db, result := some got, pollPc := .idle }
      result := got
      wcs := s.wcs ++ ((s.cq.returned.drop s.mark).take got).map IbvWc.ofCqe }) := by
  unfold pollRound CqConsumer.State.pollCq
  rw [hpc]
  dsimp only
  by_cases hready : i < num ∧ s.cq.ready c.cq = true
  · refine .inl ⟨hready.1,hready.2,?_⟩
    rw [if_pos hready]
  · refine .inr ⟨hready,if got > 0 then (CqConsumer.updateCqConsumer c.cq s.cq.consIndex s.cq.db).2 else s.cq.db,?_⟩
    rw [if_neg hready]
    rfl

theorem round_inv (h : Inv c s) (hs : step c s .round = some t) : Inv c t := by
  simp only [step] at hs
  split at hs
  · cases hs
  cases hs
  have hpolling := h.polling
  unfold Polling at hpolling
  cases hpc : s.cq.pollPc with
  | idle => exact absurd hpc (by assumption)
  | round i num got =>
    rw [hpc] at hpolling
    obtain ⟨hmark,hgot,hi,hnum,hbatch⟩ := hpolling
    have hcounters : CqConsumer.Counters c.cq (s.cq.pollCq c.cq true 0) := CqConsumer.pollCq_counters h.counters true 0
    rcases pollRound_cases hpc with ⟨hlt,hready,he⟩ | ⟨hend,db,he⟩
    · have hcq : s.cq.pollCq c.cq true 0 = { s.cq with
          returned := s.cq.returned ++ [(s.cq.entry c.cq).returned]
          consIndex := s.cq.consIndex + 1
          pollPc := .round (i + 1) num (got + 1) } := CqConsumer.pollCq_round hpc hlt hready true 0
      rw [hcq] at hcounters
      rw [he]
      refine ⟨h.send,hcounters,h.completed,h.reports,?_,⟨hmark,?_,by omega,by omega,hbatch⟩,h.limit⟩
      · dsimp only
        rw [List.take_append_of_le_length h.wcs_le]
        exact h.wcs
      · dsimp only
        rw [List.length_append, List.length_singleton]
        omega
    · have hall : (s.cq.returned.drop s.mark).take got = s.cq.returned.drop s.mark := by
        rw [List.take_of_length_le]
        rw [List.length_drop]
        omega
      have hlen : (s.wcs ++ ((s.cq.returned.drop s.mark).take got).map IbvWc.ofCqe).length = s.cq.returned.length := by
        rw [hall, List.length_append, List.length_map, List.length_drop]
        omega
      rw [he]
      refine ⟨h.send,⟨h.counters.consIndex,h.counters.le,h.counters.room,h.counters.ring,h.counters.returned⟩,
        h.completed,h.reports,
        ?_,hlen,?_⟩
      · dsimp only
        rw [hlen, List.take_length, hall]
        conv_lhs => rw [h.wcs, ← hmark, ← List.map_append, List.take_append_drop]
      · have hle := h.wcs_le
        have hlimit := h.limit
        dsimp only
        omega

theorem step_inv {a : Action} (h : Inv c s) (hm : Room c s a) (hs : step c s a = some t) : Inv c t := by
  cases a with
  | postSend wr => exact postSend_inv h hm hs
  | poll numEntries => exact poll_inv h hs
  | round => exact round_inv h hs
  | complete cqe => exact complete_inv h hs

/-! ## Completions -/

/-- The work completion number `k` is that of request number `k`, which the device has executed. -/
structure Completes (c : Config) (s : State) (k : ℕ) (wc : IbvWc) : Prop where
  executed : ∃ wr, s.work.sent[k]? = some wr ∧ s.work.executed[k]? = some (Request.ofWr wr)
  wrId : wc.wrId = BitVec.ofNat 64 (k % c.work.sqSize % 2 ^ 16)
  qpNum : wc.qpNum = c.work.qpn &&& 0xffffff
  reported : ∃ cqe, s.cq.produced[k]? = some cqe ∧ wc.byteLen = bswap32 cqe.byteCnt ∧
    (wc.status = .generalErr ↔ cqe.opcode = 0x0c ∨ cqe.opcode = 0x0d ∨ cqe.opcode = 0x0e)

/-- Requests complete in order and each once, and a call returns less than it was asked for only where there is no more. -/
structure Completed (c : Config) (s : State) : Prop where
  completes : ∀ k wc, s.wcs[k]? = some wc → Completes c s k wc
  /-- Where the index is wide enough, `wrId` tells the requests that are not completed from one another. -/
  apart : c.work.logSqSize ≤ 16 → ∀ k j, s.wcs.length ≤ k → k < j → j < s.work.sent.length →
    BitVec.ofNat 64 (k % c.work.sqSize % 2 ^ 16) ≠ BitVec.ofNat 64 (j % c.work.sqSize % 2 ^ 16)
  call : ∀ i num got, s.cq.pollPc = .round i num got → (pollRound c s).cq.pollPc = .idle →
    (pollRound c s).result = got ∧ (pollRound c s).wcs.length = s.wcs.length + got ∧ got ≤ 8 ∧
      (got = num ∨ (pollRound c s).wcs.length = s.cq.produced.length)

theorem Inv.completes (h : Inv c s) {k : ℕ} {wc : IbvWc} (hwc : s.wcs[k]? = some wc) : Completes c s k wc := by
  have hk : k < s.wcs.length := (List.getElem?_eq_some_iff.mp hwc).1
  have hle := h.wcs_le
  have hbehind := h.counters.le
  have hcompleted := h.completed
  have hexecuted := h.send.ring.behind
  obtain ⟨cqe,hcqe⟩ : ∃ cqe, s.cq.produced[k]? = some cqe := ⟨_,List.getElem?_eq_getElem (by omega)⟩
  obtain ⟨wr,hwr⟩ : ∃ wr, s.work.sent[k]? = some wr := ⟨_,List.getElem?_eq_getElem (by omega)⟩
  have hmade : wc = IbvWc.ofCqe cqe.returned := by
    rw [h.wcs, List.getElem?_map, List.getElem?_take_of_lt hk, h.counters.returned, List.getElem?_map,
      List.getElem?_take_of_lt (by omega), hcqe] at hwc
    exact (Option.some.inj hwc).symm
  obtain ⟨hindex,hqpn⟩ := h.reports k cqe hcqe
  refine ⟨⟨wr,hwr,?_⟩,?_,?_,⟨cqe,hcqe,?_,?_⟩⟩
  · rw [h.send.ring.inOrder, List.getElem?_map, List.getElem?_take_of_lt (by omega), hwr]
    rfl
  · have hcounter : wc.wrId = (bswap16 cqe.wqeCounter).setWidth 64 := by rw [hmade]; rfl
    rw [hcounter, hindex]
    refine BitVec.eq_of_toNat_eq ?_
    rw [BitVec.toNat_setWidth, BitVec.toNat_ofNat, BitVec.toNat_ofNat]
  · rw [hmade]
    exact hqpn
  · rw [hmade]
    rfl
  · rw [hmade]
    unfold IbvWc.ofCqe MlxCqe64.returned Cqe.opcode
    dsimp only
    split
    · rename_i herr
      exact iff_of_true rfl (by tauto)
    · rename_i hok
      exact iff_of_false (by simp) (by tauto)

theorem Inv.completed_run (h : Inv c s) : Completed c s where
  completes k wc hwc := h.completes hwc
  apart hlog k j hk hkj hj he := by
    have hlimit := h.limit
    have hmin : min c.work.sqSize c.cq.size ≤ c.work.sqSize := min_le_left _ _
    have hsize : c.work.sqSize ≤ 2 ^ 16 := Nat.pow_le_pow_right (by decide) hlog
    have hpos : 0 < c.work.sqSize := Nat.two_pow_pos _
    have hkm := Nat.mod_lt k hpos
    have hjm := Nat.mod_lt j hpos
    refine slot_ne hkj (by omega : j < k + c.work.sqSize) ?_
    have hval := congrArg BitVec.toNat he
    rw [BitVec.toNat_ofNat, BitVec.toNat_ofNat] at hval
    omega
  call i num got hpc hidle := by
    have hpolling := h.polling
    unfold Polling at hpolling
    rw [hpc] at hpolling
    obtain ⟨hmark,hgot,hi,hnum,hbatch⟩ := hpolling
    rcases pollRound_cases (c := c) hpc with ⟨-,-,he⟩ | ⟨hend,db,he⟩
    · rw [he] at hidle
      cases hidle
    · have hlen : (s.wcs ++ ((s.cq.returned.drop s.mark).take got).map IbvWc.ofCqe).length = s.wcs.length + got := by
        rw [List.length_append, List.length_map, List.length_take, List.length_drop]
        omega
      rw [he]
      refine ⟨rfl,hlen,by omega,?_⟩
      dsimp only
      rw [hlen]
      by_cases hfull : got = num
      · exact .inl hfull
      · right
        have hbehind := h.counters.le
        have hnone : ¬ s.cq.returned.length < s.cq.produced.length :=
          fun hlt => hend ⟨by omega,(CqConsumer.ready_iff h.counters).mpr hlt⟩
        omega

theorem sendCompletions_run (c : Config) (db : CqConsumer.DbRecord) {s : State}
    (hr : Reach (step c) (Room c) (initial c db) s) : Completed c s :=
  (hr.invariant inv_initial (fun _ _ _ h hm hs => step_inv h hm hs)).completed_run

def smallPath : Config := ⟨smallQp,CqConsumer.smallQueue⟩

/-- The completion of the first request, which carries QP 7 and an error. -/
def anError : MlxCqe64 := { MlxCqe64.created with opOwn := 0xd0, sopDropQpn := bswap32 7 }

/-- A write is posted and fails, and the poll for 16 completions returns one. -/
theorem sendCompletions_run_anError : ∃ s, Completed smallPath s ∧ s.result = 1 ∧ s.wcs = [⟨0,.generalErr,0,7⟩] := by
  obtain ⟨s₁,h₁⟩ : ∃ t, step smallPath (initial smallPath fun _ => 0) (.postSend [aWrite]) = some t := ⟨_,rfl⟩
  obtain ⟨s₂,h₂⟩ : ∃ t, step smallPath s₁ (.complete anError) = some t := by
    obtain rfl := Option.some.inj h₁; exact ⟨_,rfl⟩
  obtain ⟨s₃,h₃⟩ : ∃ t, step smallPath s₂ (.poll 16) = some t := by
    obtain rfl := Option.some.inj h₁
    obtain rfl := Option.some.inj h₂
    exact ⟨_,rfl⟩
  have hend : ∃ s₄ s₅, step smallPath s₃ .round = some s₄ ∧ step smallPath s₄ .round = some s₅ ∧
    s₅.result = 1 ∧
      s₅.wcs = [⟨0,.generalErr,0,7⟩] := by
    obtain rfl := Option.some.inj h₁
    obtain rfl := Option.some.inj h₂
    obtain rfl := Option.some.inj h₃
    exact ⟨_,_,rfl,rfl,rfl,rfl⟩
  obtain ⟨s₄,s₅,h₄,h₅,hresult,hwcs⟩ := hend
  have hr₁ : Reach (step smallPath) (Room smallPath) (initial smallPath fun _ => 0) s₁ :=
    Reach.start.next (l := .postSend [aWrite]) (by decide : 0 + 1 ≤ 0 + min (2 ^ 6) (2 ^ 6)) h₁
  have hr₂ : Reach (step smallPath) (Room smallPath) (initial smallPath fun _ => 0) s₂ :=
    hr₁.next (l := .complete anError) trivial h₂
  have hr₃ : Reach (step smallPath) (Room smallPath) (initial smallPath fun _ => 0) s₃ :=
    hr₂.next (l := .poll 16) trivial h₃
  have hr₄ : Reach (step smallPath) (Room smallPath) (initial smallPath fun _ => 0) s₄ :=
    hr₃.next (l := .round) trivial h₄
  have hr₅ : Reach (step smallPath) (Room smallPath) (initial smallPath fun _ => 0) s₅ :=
    hr₄.next (l := .round) trivial h₅
  exact ⟨s₅,sendCompletions_run smallPath (fun _ => 0) hr₅,hresult,hwcs⟩

end AppleMCX.SendCompletions
