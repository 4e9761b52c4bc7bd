import AppleMCX.Core.Command
import AppleMCX.Usermode.SendQueue

/-! # The consumer index of a user completion queue

`mlx_poll_cq` counts on in user space what it has taken, and reports the count to
`MlxCQ::updateCqConsumer`, which writes the doorbell record. The device may go on between two
rounds of a poll, and other completion queues are reported in between.
-/
namespace AppleMCX.CqConsumer
open Hw Interaction
open SendQueue (PollPc)

/-- `MlxCqe64` as it is read from memory. -/
structure MlxCqe64 extends Cqe where
  tlsOuterL3Tunneled : BitVec 8
  wqeId : BitVec 16
  -- the union of `lro` and `shampo`
  lro : BitVec 64
  rssHashResult : BitVec 32
  rssHashType : BitVec 8
  mlPath : BitVec 8
  checkSum : BitVec 16
  slid : BitVec 16
  flagsRqpn : BitVec 32
  hdsIpExt : BitVec 8
  l4L3HdrType : BitVec 8
  vlanInfo : BitVec 16
  srqn : BitVec 32
  immInvalPkey : BitVec 32
  timestampH : BitVec 32
  timestampL : BitVec 32
  sopDropQpn : BitVec 32
  signature : BitVec 8
  -- `rsvd0`, `rsvd20` and `rsvd40`
  rsvd : BitVec 56
  deriving DecidableEq, Repr

def bswap16 (x : BitVec 16) : BitVec 16 := x.extractLsb' 0 8 ++ x.extractLsb' 8 8

def bswap32 (x : BitVec 32) : BitVec 32 := x.extractLsb' 0 8 ++ x.extractLsb' 8 8 ++ x.extractLsb' 16 8 ++ x.extractLsb' 24 8

/-- The copy that `mlx_poll_cq` returns of an entry. -/
def MlxCqe64.returned (entry : MlxCqe64) : MlxCqe64 :=
  { entry with
    wqeCounter := bswap16 entry.wqeCounter
    byteCnt := bswap32 entry.byteCnt
    flagsRqpn := bswap32 entry.flagsRqpn
    sopDropQpn := bswap32 entry.sopDropQpn }

/-- An entry behind `createCQ`: zeros, with opcode 0xf and owner 1. -/
def MlxCqe64.created : MlxCqe64 := ⟨Cqe.created,0,0,0,0,0,0,0,0,0,0,0,0,0,0,0,0,0,0,0⟩

/-! ## The kernel -/

/-- `MlxCQContext`, as far as a report reads it. -/
structure MlxCQContext where
  cqNumber : BitVec 32
  logSize : ℕ
  dbRecordOffset : ℕ
  deriving DecidableEq, Repr

/-- The word of the record page that holds the consumer index. -/
def MlxCQContext.slot (ctx : MlxCQContext) : ℕ := ctx.dbRecordOffset / 4

/-- The words of the record page, as the device reads them. -/
abbrev DbRecord := ℕ → BitVec 32

structure Kernel where
  fRoce : Bool
  -- the UAR of the core, and its record page
  uar : Bool
  dbRecord : Bool
  fCqTable : List MlxCQContext
  fOwnedCq : List (BitVec 32)

def Kernel.updateCqConsumer (kernel : Kernel) (cqHandle consumerIndex : BitVec 32) (db : DbRecord) :
    IOReturn × DbRecord :=
  if !kernel.fRoce ∨ !kernel.uar then (.notReady,db)
  else if !kernel.dbRecord then (.notReady,db)
  else
    match kernel.fCqTable.find? (fun ctx => ctx.cqNumber = cqHandle) with
    | none => (.notFound,db)
    | some ctx =>
      let depth := (1 : BitVec 32) <<< ctx.logSize
      if consumerIndex > depth * 2 then (.badArgument,db)
      else (.success,Function.update db ctx.slot consumerIndex)

/-- `MlxUserClient::updateCqConsumer` -/
def Kernel.clientUpdateCqConsumer (kernel : Kernel) (cqHandle consumerIndex : BitVec 32) (db : DbRecord) :
    IOReturn × DbRecord :=
  if !kernel.fRoce then (.notReady,db)
  else if !kernel.fOwnedCq.contains cqHandle then (.notPermitted,db)
  else kernel.updateCqConsumer cqHandle consumerIndex db

/-- A completion queue that `createCQ` has made for the client. Its number is the first of
its kind in the table, and the record slots of different queues are different. -/
structure Config where
  kernel : Kernel
  cq : MlxCQContext
  log_lt : cq.logSize < 31
  fRoce : kernel.fRoce = true
  uar : kernel.uar = true
  dbRecord : kernel.dbRecord = true
  owned : cq.cqNumber ∈ kernel.fOwnedCq
  found : kernel.fCqTable.find? (fun ctx => ctx.cqNumber = cq.cqNumber) = some cq
  slots : ∀ ctx ∈ kernel.fCqTable, ctx.slot = cq.slot → ctx.cqNumber = cq.cqNumber

def Config.size (c : Config) : ℕ := 2 ^ c.cq.logSize

/-! ## User space and the device -/

structure State where
  cqeBuf : ℕ → MlxCqe64
  consIndex : BitVec 32
  pollPc : PollPc
  /-- What the last call has returned, and `none` for `EINVAL`. -/
  result : Option ℕ
  db : DbRecord
  /-- The entries that the calls have returned, and those that the device has written. -/
  returned : List MlxCqe64
  produced : List MlxCqe64

variable (c : Config)

/-- After `createCQ` and `mlx_create_cq`; `allocDbSlots` has cleared the record. -/
def initial (db : DbRecord) : State where
  cqeBuf := fun _ => .created
  consIndex := 0
  pollPc := .idle
  result := some 0
  db := Function.update db c.cq.slot 0
  returned := []
  produced := []

/-- `mlx_update_cq_consumer`; true stands for 0, and `mlx_poll_cq` does not look at it. -/
def updateCqConsumer (consumerIndex : BitVec 32) (db : DbRecord) : Bool × DbRecord :=
  let (kr,db) := c.kernel.clientUpdateCqConsumer c.cq.cqNumber consumerIndex db
  (kr = .success,db)

namespace State

def entry (s : State) : MlxCqe64 := s.cqeBuf (s.consIndex &&& BitVec.ofNat 32 (2 ^ c.cq.logSize - 1)).toNat

def ready (s : State) : Bool := (s.entry c).toCqe.ready c.cq.logSize s.consIndex

/-- `mlx_poll_cq` from its start or from its next round; `cqe` says whether it has a place for the entries. -/
def pollCq (cqe : Bool) (num : ℤ) (s : State) : State :=
  match s.pollPc with
  | .idle => if !cqe ∨ num ≤ 0 then { s with result := none } else { s with pollPc := .round 0 num.toNat 0 }
  | .round i num got =>
    if i < num ∧ s.ready c then
      { s with
        returned := s.returned ++ [(s.entry c).returned]
        consIndex := s.consIndex + 1
        pollPc := .round (i + 1) num (got + 1) }
    else { s with
      db := if got > 0 then (updateCqConsumer c s.consIndex s.db).2 else s.db
      result := some got
      pollPc := .idle }

def produce (cqe : MlxCqe64) (s : State) : State :=
  { s with
    cqeBuf := Function.update s.cqeBuf (s.produced.length % c.size) cqe
    produced := s.produced ++ [cqe] }

end State

inductive Action
  | pollCq (cqe : Bool) (num : ℤ)
  | produce (cqe : MlxCqe64)
  /-- Another completion queue is reported. -/
  | updateOther (cqHandle consumerIndex : BitVec 32)
  deriving DecidableEq, Repr

def step (s : State) : Action → Option State
  | .pollCq cqe num => some (s.pollCq c cqe num)
  | .produce cqe => if cqe.Written c.cq.logSize s.produced.length then some (s.produce c cqe) else none
  | .updateOther cqHandle consumerIndex =>
    if cqHandle = c.cq.cqNumber then none
    else some { s with db := (c.kernel.updateCqConsumer cqHandle consumerIndex s.db).2 }

/-! ## What holds of the entries and of the record -/

/-- The calls have returned the first entries that were written, in order and each once, and the
next round of a poll returns one more exactly where one more was written. -/
def ReturnsProduced (s : State) : Prop :=
  s.returned = (s.produced.take s.returned.length).map MlxCqe64.returned ∧
    (s.ready c = true ↔ s.returned.length < s.produced.length)

/-- The record holds the number of entries taken, modulo 2^24. -/
def State.Recorded (s : State) : Prop := (s.db c.cq.slot).toNat % 2 ^ 24 = s.returned.length % 2 ^ 24

/-- It does so between the calls. -/
def RecordHolds (s : State) : Prop := s.pollPc = .idle → s.Recorded c

/-- The device does not write over an entry that was not returned. -/
def NoOverrun (s : State) : Action → Prop
  | .produce _ => s.produced.length < s.returned.length + c.size
  | _ => True

/-- The next step of the poll reports the consumer index. -/
def State.reports (s : State) : Prop :=
  match s.pollPc with
  | .idle => False
  | .round i num got => 0 < got ∧ ¬ (i < num ∧ s.ready c = true)

/-- Such a report is at most twice the depth. -/
def ReportsInRange (s : State) : Action → Prop
  | .pollCq _ _ => s.reports c → s.returned.length % 2 ^ 32 ≤ 2 * c.size
  | _ => True

structure Counters (s : State) : Prop where
  consIndex : s.consIndex = BitVec.ofNat 32 s.returned.length
  le : s.returned.length ≤ s.produced.length
  room : s.produced.length ≤ s.returned.length + c.size
  ring : RingWritten c.size (fun p e => e.Written c.cq.logSize p ∧ s.produced[p]? = some e) (· = .created) s.cqeBuf
    s.produced.length
  returned : s.returned = (s.produced.take s.returned.length).map MlxCqe64.returned

variable {c} {s t : State} {db : DbRecord}

theorem counters_initial : Counters c (initial c db) where
  consIndex := rfl
  le := le_rfl
  room := Nat.zero_le _
  ring := ringWritten_zero (fun _ _ => rfl)
  returned := rfl

theorem entry_eq (h : Counters c s) : s.entry c = s.cqeBuf (s.returned.length % c.size) := by
  unfold State.entry
  rw [h.consIndex, counter_mask (c.log_lt.le.trans (by decide)), Config.size]

theorem ready_iff (h : Counters c s) : s.ready c = true ↔ s.returned.length < s.produced.length := by
  have hring : RingWritten c.size (fun p e => e.Written c.cq.logSize p) (· = Cqe.created) (fun j => (s.cqeBuf j).toCqe)
      s.produced.length := h.ring.map MlxCqe64.toCqe (fun _ _ he => he.1) (fun _ he => he ▸ rfl)
  have hready := Cqe.ready_ring (c.log_lt.trans (by decide)) hring (fun _ _ he => he) h.le h.room
  unfold State.ready
  rw [entry_eq h, h.consIndex]
  exact hready

theorem Counters.returnsProduced (h : Counters c s) : ReturnsProduced c s := ⟨h.returned,ready_iff h⟩

/-- A round takes the first entry that was not returned. -/
theorem entry_produced (h : Counters c s) (hlt : s.returned.length < s.produced.length) :
    s.produced[s.returned.length]? = some (s.entry c) := by
  rw [entry_eq h]
  exact (h.ring.written _ hlt h.room).2

theorem pollCq_counters (h : Counters c s) (cqe : Bool) (num : ℤ) : Counters c (s.pollCq c cqe num) := by
  unfold State.pollCq
  cases hpc : s.pollPc with
  | idle =>
    dsimp only
    split <;> exact ⟨h.consIndex,h.le,h.room,h.ring,h.returned⟩
  | round i num' got =>
    dsimp only
    split
    · rename_i hready
      have hlt := (ready_iff h).mp hready.2
      have hlen : (s.returned ++ [(s.entry c).returned]).length = s.returned.length + 1 := List.length_append
      refine ⟨?_,?_,?_,h.ring,?_⟩
      · dsimp only
        rw [hlen, h.consIndex, counter_succ]
      · dsimp only
        omega
      · have hroom := h.room
        dsimp only
        omega
      · dsimp only
        rw [hlen, List.take_add_one, entry_produced h hlt, List.map_append, ← h.returned]
        rfl
    · exact ⟨h.consIndex,h.le,h.room,h.ring,h.returned⟩

theorem produce_counters (h : Counters c s) {cqe : MlxCqe64} (hroom : s.produced.length < s.returned.length + c.size)
    (hcqe : cqe.Written c.cq.logSize s.produced.length) : Counters c (s.produce c cqe) := by
  have hlen : (s.produced ++ [cqe]).length = s.produced.length + 1 := List.length_append
  have hle := h.le
  refine ⟨h.consIndex,?_,?_,?_,?_⟩
  · dsimp only [State.produce]
    omega
  · dsimp only [State.produce]
    omega
  · dsimp only [State.produce]
    rw [hlen]
    refine RingWritten.write (h.ring.imp fun p e hp he => ⟨he.1,?_⟩) ⟨hcqe,List.getElem?_concat_length⟩
    rw [List.getElem?_append_left hp]
    exact he.2
  · dsimp only [State.produce]
    rw [List.take_append_of_le_length hle]
    exact h.returned

theorem step_produce {cqe : MlxCqe64} (hs : step c s (.produce cqe) = some t) :
    cqe.Written c.cq.logSize s.produced.length ∧ t = s.produce c cqe := by
  by_cases hcqe : cqe.Written c.cq.logSize s.produced.length
  · rw [step, if_pos hcqe] at hs
    exact ⟨hcqe,(Option.some.inj hs).symm⟩
  · rw [step, if_neg hcqe] at hs
    cases hs

theorem step_updateOther {cqHandle i : BitVec 32} (hs : step c s (.updateOther cqHandle i) = some t) :
    cqHandle ≠ c.cq.cqNumber ∧ t = { s with db := (c.kernel.updateCqConsumer cqHandle i s.db).2 } := by
  by_cases hother : cqHandle = c.cq.cqNumber
  · rw [step, if_pos hother] at hs
    cases hs
  · rw [step, if_neg hother] at hs
    exact ⟨hother,(Option.some.inj hs).symm⟩

theorem step_counters {a : Action} (h : Counters c s) (hm : NoOverrun c s a) (hs : step c s a = some t) :
    Counters c t := by
  cases a with
  | pollCq cqe num =>
    cases hs
    exact pollCq_counters h cqe num
  | produce cqe =>
    obtain ⟨hcqe,rfl⟩ := step_produce hs
    exact produce_counters h hm hcqe
  | updateOther cqHandle consumerIndex =>
    obtain ⟨-,rfl⟩ := step_updateOther hs
    exact ⟨h.consIndex,h.le,h.room,h.ring,h.returned⟩

/-- An entry that is overrun is hidden from the poll. -/
theorem produce_overruns (h : Counters c s) {cqe : MlxCqe64} (hfull : ¬ s.produced.length < s.returned.length + c.size)
    (hcqe : cqe.Written c.cq.logSize s.produced.length) : ¬ ReturnsProduced c (s.produce c cqe) := by
  have hroom := h.room
  have hp : s.produced.length = s.returned.length + c.size := by omega
  have hslot : s.produced.length % c.size = s.returned.length % c.size := by rw [hp, Nat.add_mod_right]
  have hentry : (s.produce c cqe).entry c = cqe := by
    show Function.update s.cqeBuf (s.produced.length % c.size) cqe
      (s.consIndex &&& BitVec.ofNat 32 (2 ^ c.cq.logSize - 1)).toNat = cqe
    rw [h.consIndex, counter_mask (c.log_lt.le.trans (by decide)), hslot, Config.size, Function.update_self]
  intro hret
  have hlt : (s.produce c cqe).returned.length < (s.produce c cqe).produced.length := by
    have hlen : (s.produced ++ [cqe]).length = s.produced.length + 1 := List.length_append
    dsimp only [State.produce]
    omega
  have hready := hret.2.mpr hlt
  unfold State.ready at hready
  rw [hentry] at hready
  dsimp only [State.produce] at hready
  rw [h.consIndex, Cqe.ready_iff (c.log_lt.trans (by decide))] at hready
  -- the owner bit is that of the next lap
  have hflip := lap_flips c.cq.logSize s.returned.length
  rw [← Config.size, ← hp, ← hcqe.2, hready.2] at hflip
  cases hb : s.returned.length.testBit c.cq.logSize <;> rw [hb] at hflip <;> cases hflip

/-! ## The record -/

theorem depth_mul_two (c : Config) : ((1 : BitVec 32) <<< c.cq.logSize * 2).toNat = 2 * c.size := by
  have hpow : c.size < 2 ^ 31 := Nat.pow_lt_pow_right (by decide) c.log_lt
  have hone : (1 : BitVec 32).toNat = 1 := rfl
  have htwo : (2 : BitVec 32).toNat = 2 := rfl
  rw [BitVec.toNat_mul, BitVec.toNat_shiftLeft, Nat.shiftLeft_eq, hone, htwo, Nat.one_mul, ← Config.size]
  omega

/-- A report beyond twice the depth is refused. -/
theorem updateCqConsumer_db (c : Config) (i : BitVec 32) (db : DbRecord) :
    (updateCqConsumer c i db).2 = if i.toNat ≤ 2 * c.size then Function.update db c.cq.slot i else db := by
  unfold updateCqConsumer Kernel.clientUpdateCqConsumer Kernel.updateCqConsumer
  rw [if_neg (by simp [c.fRoce]), if_neg (by simp [c.owned]), if_neg (by simp [c.fRoce, c.uar]), if_neg (by simp [c.dbRecord]),
    c.found]
  dsimp only
  by_cases hle : i.toNat ≤ 2 * c.size
  · rw [if_neg (by rw [gt_iff_lt, BitVec.lt_def, depth_mul_two]; omega), if_pos hle]
  · rw [if_pos (by rw [gt_iff_lt, BitVec.lt_def, depth_mul_two]; omega), if_neg hle]

theorem updateOther_slot {cqHandle : BitVec 32} (hother : cqHandle ≠ c.cq.cqNumber) (i : BitVec 32) (db : DbRecord) :
    (c.kernel.updateCqConsumer cqHandle i db).2 c.cq.slot = db c.cq.slot := by
  unfold Kernel.updateCqConsumer
  split
  · rfl
  split
  · rfl
  cases hfind : c.kernel.fCqTable.find? (fun ctx => ctx.cqNumber = cqHandle) with
  | none => rfl
  | some ctx =>
    have hnumber : ctx.cqNumber = cqHandle := by simpa using List.find?_some hfind
    have hslot : c.cq.slot ≠ ctx.slot := fun he =>
      hother (hnumber.symm.trans (c.slots ctx (List.mem_of_find?_eq_some hfind) he.symm))
    dsimp only
    split
    · rfl
    · exact Function.update_of_ne hslot i db

def State.got (s : State) : ℕ :=
  match s.pollPc with
  | .idle => 0
  | .round _ _ got => got

/-- The record is behind only while a poll has entries that it has not reported. -/
def RecordKept (c : Config) (s : State) : Prop := s.got = 0 → s.Recorded c

theorem RecordKept.holds (h : RecordKept c s) : RecordHolds c s := by
  intro hidle
  refine h ?_
  unfold State.got
  rw [hidle]

theorem recordKept_initial : RecordKept c (initial c db) := by
  intro _
  show (Function.update db c.cq.slot 0 c.cq.slot).toNat % 2 ^ 24 = 0
  rw [Function.update_self]
  rfl

/-- The step of the poll that reports. -/
theorem pollCq_reports (h : Counters c s) (hr : s.reports c) (cqe : Bool) (num : ℤ) :
    (s.pollCq c cqe num).pollPc = .idle ∧ (s.pollCq c cqe num).returned = s.returned ∧
      (s.pollCq c cqe num).db = if s.returned.length % 2 ^ 32 ≤ 2 * c.size then
        Function.update s.db c.cq.slot (BitVec.ofNat 32 s.returned.length) else s.db := by
  unfold State.reports at hr
  unfold State.pollCq
  cases hpc : s.pollPc with
  | idle =>
    rw [hpc] at hr
    exact hr.elim
  | round i num' got =>
    rw [hpc] at hr
    dsimp only at hr ⊢
    rw [if_neg hr.2, if_pos hr.1, updateCqConsumer_db, h.consIndex, BitVec.toNat_ofNat]
    exact ⟨rfl,rfl,rfl⟩

/-- Behind a report the record is right where the report was taken, and where it was right before. -/
theorem pollCq_recorded_iff (h : Counters c s) (hr : s.reports c) (cqe : Bool) (num : ℤ) :
    (s.pollCq c cqe num).Recorded c ↔ s.returned.length % 2 ^ 32 ≤ 2 * c.size ∨ s.Recorded c := by
  obtain ⟨-,hreturned,hdb⟩ := pollCq_reports h hr cqe num
  unfold State.Recorded
  rw [hreturned, hdb]
  split
  · rename_i hle
    rw [Function.update_self, BitVec.toNat_ofNat, Nat.mod_mod_of_dvd _ (by decide)]
    exact iff_of_true rfl (.inl hle)
  · rename_i hgt
    exact (or_iff_right hgt).symm

theorem pollCq_kept (h : Counters c s) (hk : RecordKept c s) {cqe : Bool} {num : ℤ}
    (hm : ReportsInRange c s (.pollCq cqe num)) : RecordKept c (s.pollCq c cqe num) := by
  by_cases hr : s.reports c
  · intro _
    exact (pollCq_recorded_iff h hr cqe num).mpr (.inl (hm hr))
  · unfold State.reports at hr
    unfold RecordKept State.got at hk
    unfold State.pollCq
    cases hpc : s.pollPc with
    | idle =>
      rw [hpc] at hk
      dsimp only
      split <;> exact fun _ => hk rfl
    | round i num' got =>
      rw [hpc] at hk hr
      dsimp only at hr ⊢
      split
      · exact fun hgot => absurd hgot (Nat.succ_ne_zero got)
      · rename_i hend
        have hgot : got = 0 := by
          by_contra hne
          exact hr ⟨Nat.pos_of_ne_zero hne,hend⟩
        subst hgot
        exact fun _ => hk rfl

theorem step_kept {a : Action} (h : Counters c s) (hk : RecordKept c s) (hm : ReportsInRange c s a)
    (hs : step c s a = some t) : RecordKept c t := by
  cases a with
  | pollCq cqe num =>
    cases hs
    exact pollCq_kept h hk hm
  | produce cqe =>
    obtain ⟨-,rfl⟩ := step_produce hs
    exact hk
  | updateOther cqHandle i =>
    obtain ⟨hother,rfl⟩ := step_updateOther hs
    intro hgot
    show ((c.kernel.updateCqConsumer cqHandle i s.db).2 c.cq.slot).toNat % 2 ^ 24 = _
    rw [updateOther_slot hother]
    exact hk hgot

theorem reach_counters (hr : Reach (step c) (NoOverrun c) (initial c db) s) : Counters c s :=
  hr.invariant counters_initial (fun _ _ _ h hm hs => step_counters h hm hs)

/-- The calls return what the device writes as long as it overruns nothing. If every report is
moreover in range, then the record holds the number of entries taken after every call. A report
that is out of range leaves the record as it was, and an entry that is overrun is not returned. -/
theorem cqConsumer_run (c : Config) (db : DbRecord) :
    (∀ s, Reach (step c) (NoOverrun c) (initial c db) s → ReturnsProduced c s) ∧
    (∀ s, Reach (step c) (fun s a => NoOverrun c s a ∧ ReportsInRange c s a) (initial c db) s → RecordHolds c s) ∧
    (∀ s cqe num, Reach (step c) (NoOverrun c) (initial c db) s → s.reports c →
      (RecordHolds c (s.pollCq c cqe num) ↔ s.returned.length % 2 ^ 32 ≤ 2 * c.size ∨ s.Recorded c)) ∧
    ∀ s t cqe, Reach (step c) (NoOverrun c) (initial c db) s → ¬ NoOverrun c s (.produce cqe) →
      step c s (.produce cqe) = some t → ¬ ReturnsProduced c t := by
  refine ⟨fun s hr => (reach_counters hr).returnsProduced,fun s hr => ?_,fun s cqe num hr hrep => ?_,
    fun s t cqe hr hfull hs => ?_⟩
  · refine (hr.invariant (J := fun s => Counters c s ∧ RecordKept c s) ⟨counters_initial,recordKept_initial⟩ ?_).2.holds
    exact fun s a t h hm hs => ⟨step_counters h.1 hm.1 hs,step_kept h.1 h.2 hm.2 hs⟩
  · have h := reach_counters hr
    rw [← pollCq_recorded_iff h hrep cqe num]
    exact ⟨fun hholds => hholds (pollCq_reports h hrep cqe num).1,fun hrec _ => hrec⟩
  · obtain ⟨hcqe,rfl⟩ := step_produce hs
    exact produce_overruns (reach_counters hr) hfull hcqe

/-! ## One completion at a time -/

/-- The entry of a send that the device writes as number `p`. -/
def anyCqe (logSize p : ℕ) : MlxCqe64 := { MlxCqe64.created with opOwn := if p.testBit logSize then 1 else 0 }

theorem anyCqe_written (logSize p : ℕ) : (anyCqe logSize p).Written logSize p := by
  unfold Cqe.Written anyCqe
  cases p.testBit logSize <;> decide

theorem pollCq_round {i num' got : ℕ} (hpc : s.pollPc = .round i num' got) (hi : i < num') (hready : s.ready c = true)
    (cqe : Bool) (num : ℤ) : s.pollCq c cqe num = { s with
      returned := s.returned ++ [(s.entry c).returned]
      consIndex := s.consIndex + 1
      pollPc := .round (i + 1) num' (got + 1) } := by
  rw [State.pollCq, hpc]
  dsimp only
  rw [if_pos ⟨hi,hready⟩]

theorem pollCq_produced (s : State) (cqe : Bool) (num : ℤ) : (s.pollCq c cqe num).produced = s.produced := by
  unfold State.pollCq
  cases s.pollPc with
  | idle => dsimp only; split <;> rfl
  | round i num' got => dsimp only; split <;> rfl

theorem reach_poll (hr : Reach (step c) (NoOverrun c) (initial c db) s) (cqe : Bool) (num : ℤ) :
    Reach (step c) (NoOverrun c) (initial c db) (s.pollCq c cqe num) :=
  hr.next (l := .pollCq cqe num) trivial rfl

theorem reach_one (hr : Reach (step c) (NoOverrun c) (initial c db) s) (hidle : s.pollPc = .idle)
    (hall : s.produced.length = s.returned.length) :
    ∃ t, Reach (step c) (NoOverrun c) (initial c db) t ∧ t.pollPc = .idle ∧ t.produced.length = t.returned.length ∧
      t.returned.length = s.returned.length + 1 ∧
      t.db = if (s.returned.length + 1) % 2 ^ 32 ≤ 2 * c.size then
        Function.update s.db c.cq.slot (BitVec.ofNat 32 (s.returned.length + 1)) else s.db := by
  let e := anyCqe c.cq.logSize s.produced.length
  let u : State := { s.produce c e with pollPc := .round 0 1 0 }
  have hpos : 0 < c.size := Nat.two_pow_pos c.cq.logSize
  have hproduced : u.produced.length = s.produced.length + 1 := List.length_append
  have hu : Reach (step c) (NoOverrun c) (initial c db) u := by
    have hone := hr.next (l := .produce e) (t := s.produce c e) (by show _ < _; omega)
      (by rw [step, if_pos (anyCqe_written _ _)])
    have hpoll := reach_poll hone true 1
    rw [State.pollCq] at hpoll
    dsimp only [State.produce] at hpoll
    rw [hidle] at hpoll
    exact hpoll
  have hready : u.ready c = true := by
    rw [ready_iff (reach_counters hu), hproduced]
    show s.returned.length < _
    omega
  have hround := pollCq_round (c := c) (s := u) rfl Nat.one_pos hready true 1
  have hreturned : (u.pollCq c true 1).returned.length = s.returned.length + 1 := by
    rw [hround]
    exact List.length_append
  have hv := reach_poll hu true 1
  have hreports : (u.pollCq c true 1).reports c := by
    rw [hround]
    exact ⟨Nat.one_pos,fun h => absurd h.1 (lt_irrefl 1)⟩
  obtain ⟨hpc,hsame,hdb⟩ := pollCq_reports (reach_counters hv) hreports true 1
  refine ⟨_,reach_poll hv true 1,hpc,?_,?_,?_⟩
  · rw [pollCq_produced, pollCq_produced, hsame, hreturned, hproduced, hall]
  · rw [hsame, hreturned]
  · rw [hdb, hreturned, hround]
    rfl

/-- The record follows the completions up to twice the depth. -/
theorem reach_completions (c : Config) (db : DbRecord) (n : ℕ) (hn : n ≤ 2 * c.size) :
    ∃ s, Reach (step c) (NoOverrun c) (initial c db) s ∧ s.pollPc = .idle ∧ s.produced.length = s.returned.length ∧
      s.returned.length = n ∧ s.db c.cq.slot = BitVec.ofNat 32 n := by
  induction n with
  | zero => exact ⟨initial c db,.start,rfl,rfl,rfl,Function.update_self ..⟩
  | succ n ih =>
    obtain ⟨s,hr,hidle,hall,hlen,-⟩ := ih (by omega)
    obtain ⟨t,ht,hpc,htall,htlen,hdb⟩ := reach_one hr hidle hall
    refine ⟨t,ht,hpc,htall,by rw [htlen, hlen],?_⟩
    have hsmall : c.size < 2 ^ 31 := Nat.pow_lt_pow_right (by decide) c.log_lt
    rw [hdb, hlen, if_pos ((Nat.mod_le _ _).trans hn), Function.update_self]

def smallQueue : Config where
  kernel := ⟨true,true,true,[⟨7,6,0⟩],[7]⟩
  cq := ⟨7,6,0⟩
  log_lt := by decide
  fRoce := rfl
  uar := rfl
  dbRecord := rfl
  owned := by decide
  found := rfl
  slots := by decide

/-- The 129th completion is taken, and the record stays at 128. -/
theorem record_stays : ¬ ∀ s, Reach (step smallQueue) (NoOverrun smallQueue) (initial smallQueue fun _ => 0) s →
    ReturnsProduced smallQueue s ∧ RecordHolds smallQueue s := by
  intro h
  obtain ⟨s,hr,hidle,hall,hlen,hrec⟩ := reach_completions smallQueue (fun _ => 0) 128 (by decide)
  obtain ⟨t,ht,hpc,-,htlen,hdb⟩ := reach_one hr hidle hall
  have hholds := (h t ht).2 hpc
  rw [State.Recorded, hdb, htlen, hlen, if_neg (by decide), hrec] at hholds
  exact absurd hholds (by decide)

end AppleMCX.CqConsumer
