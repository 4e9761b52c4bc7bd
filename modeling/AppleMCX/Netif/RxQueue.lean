import AppleMCX.Hw.Cqe
import AppleMCX.Hw.Wqe
import AppleMCX.Interaction.Transition

/-! # The receive queue

`pollRxCq` with `handleRxCqe` and `postRxWqe`, next to a device that completes the posted
receive WQEs in order. Every store to a doorbell record is a step of its own.
-/
namespace AppleMCX.RxQueue
open Hw Interaction

def logRqSize : ℕ := 8
def rxBufSize : ℕ := 2048
def maxRxBufs : ℕ := 256

/-- What `handleRxCqe` keeps of the entry it handles. -/
structure Handled where
  wqeCounter : BitVec 16
  packet : Option (List (BitVec 8))
  deriving DecidableEq, Repr

/-- Where `pollRxCq` stands: the name is that of its next step. -/
inductive PollPc
  | idle | scan | handle
  | post (h : Handled)
  | publish (h : Handled)
  | finish (h : Handled)
  deriving DecidableEq, Repr

structure State where
  fLkey : BitVec 32
  fRxBufDMA : BitVec 64
  fEnabled : Bool
  fRxPc : BitVec 16
  fRxCc : BitVec 16
  fRxCqCc : BitVec 32
  fRxArmSn : BitVec 32
  /-- The RQ doorbell record. -/
  rqDb : BitVec 16
  /-- The CQ doorbell record: consumer index and arm word. -/
  cqDb : BitVec 24
  cqArm : BitVec 32
  fWqBuf : ℕ → DataSeg
  /-- The slots of `fRxBufDesc`. -/
  fRxBuf : ℕ → List (BitVec 8)
  fRxCqBuf : ℕ → Cqe
  pc : PollPc
  /-- What `inputPacket` got. -/
  received : List (List (BitVec 8))
  /-- The number of CQEs the device has written. -/
  produced : ℕ

namespace State

/-- `none` where the index is out of range. -/
def postRxWqe (index : ℕ) (s : State) : Option State :=
  if index ≥ maxRxBufs then none
  else some { s with
    fWqBuf := Function.update s.fWqBuf index
      ⟨BitVec.ofNat 32 rxBufSize,s.fLkey,s.fRxBufDMA + BitVec.ofNat 64 (index * rxBufSize)⟩ }

def fresh (fLkey : BitVec 32) (fRxBufDMA : BitVec 64) : State where
  fLkey
  fRxBufDMA
  fEnabled := false
  fRxPc := 0
  fRxCc := 0
  fRxCqCc := 0
  fRxArmSn := 0
  rqDb := 0
  cqDb := 0
  cqArm := 0
  fWqBuf := fun _ => .zero
  fRxBuf := fun _ => List.replicate rxBufSize 0
  fRxCqBuf := fun _ => .created
  pc := .idle
  received := []
  produced := 0

/-- Post the WQEs from `i` on until the ring is full. -/
def postInitial : ℕ → ℕ → State → Option State
  | 0, _, s => some s
  | n + 1, i, s => (s.postRxWqe i).bind (fun t => postInitial n (i + 1) { t with fRxPc := t.fRxPc + 1 })

/-- `createRxResources` from the posting of the WQEs on. -/
def createRxResources (fLkey : BitVec 32) (fRxBufDMA : BitVec 64) : Option State :=
  (postInitial (2 ^ logRqSize) 0 (fresh fLkey fRxBufDMA)).map (fun s => { s with rqDb := s.fRxPc })

def cqe (s : State) : Cqe := s.fRxCqBuf (s.fRxCqCc &&& 255).toNat

/-- The loop condition of `pollRxCq`. -/
def findsCqe (s : State) : Bool := s.cqe.ready logRqSize s.fRxCqCc

/-- The payload as `handleRxCqe` copies it, if there is an mbuf for it. -/
def payload (mbuf : Bool) (s : State) : Option (List (BitVec 8)) :=
  if s.cqe.opcode = cqeResp ∧ s.cqe.byteCnt > 0 ∧ s.cqe.byteCnt.toNat ≤ rxBufSize ∧ mbuf then
    some ((s.fRxBuf (s.cqe.wqeCounter &&& 255).toNat).take s.cqe.byteCnt.toNat)
  else none

/-- `updateCqConsumer` and `armCq` -/
def updateCq (s : State) : State :=
  { s with cqDb := s.fRxCqCc.setWidth 24, cqArm := armWord s.fRxArmSn s.fRxCqCc }

def receivePacket (packet : Option (List (BitVec 8))) (s : State) : State :=
  if s.fEnabled then { s with received := s.received ++ packet.toList } else s

/-- The next step of `pollRxCq`; `mbuf` tells whether `mbuf_allocpacket` succeeds. -/
def poll (mbuf : Bool) (s : State) : State :=
  match s.pc with
  | .idle => { s with fRxArmSn := s.fRxArmSn + 1, pc := .scan }
  | .scan => if s.findsCqe then { s with pc := .handle } else { s.updateCq with pc := .idle }
  | .handle =>
    -- address 0 stands for a pool that is not mapped
    if s.fRxBufDMA = 0 then { s with fRxCqCc := s.fRxCqCc + 1, pc := .scan }
    else { s with pc := .post ⟨s.cqe.wqeCounter,s.payload mbuf⟩ }
  | .post h =>
    match s.postRxWqe (s.fRxPc &&& 255).toNat with
    | some t => { t with fRxPc := t.fRxPc + 1, pc := .publish h }
    | none => { s with pc := .finish h }
  | .publish h => { s with rqDb := s.fRxPc, pc := .finish h }
  | .finish h =>
    { s.receivePacket h.packet with fRxCc := h.wqeCounter + 1, fRxCqCc := s.fRxCqCc + 1, pc := .scan }

/-- The device completes the next posted WQE: data into its buffer slot, then the CQE. -/
def complete (cqe : Cqe) (data : List (BitVec 8)) (s : State) : Option State :=
  if s.rqDb ≠ BitVec.ofNat 16 s.produced ∧ cqe.Written logRqSize s.produced ∧
      cqe.wqeCounter = BitVec.ofNat 16 s.produced ∧ data.length ≤ rxBufSize then
    some { s with
      fRxBuf := Function.update s.fRxBuf (s.produced % 256)
        (data ++ (s.fRxBuf (s.produced % 256)).drop data.length)
      fRxCqBuf := Function.update s.fRxCqBuf (s.produced % 2 ^ logRqSize) cqe
      produced := s.produced + 1 }
  else none

end State

inductive Action
  | poll (mbuf : Bool)
  | complete (cqe : Cqe) (data : List (BitVec 8))
  /-- `enable` and `disable` set `fEnabled`. -/
  | enabled (up : Bool)
  deriving DecidableEq, Repr

namespace State

def step (s : State) : Action → Option State
  | .poll mbuf => some (s.poll mbuf)
  | .complete cqe data => s.complete cqe data
  | .enabled up => some { s with fEnabled := up }

/-! ## The two doorbell records -/

/-- The published producer counter is at most a ring ahead of the published consumer index. -/
def Credit (s : State) : Prop := (s.rqDb - s.cqDb.setWidth 16).toNat ≤ 2 ^ logRqSize

instance (s : State) : Decidable s.Credit := inferInstanceAs (Decidable (_ ≤ _))

/-- One more once the WQE for the entry being handled is written. -/
def posting : PollPc → BitVec 16
  | .publish _ | .finish _ => 1
  | _ => 0

/-- One more once that WQE is published. -/
def publishing : PollPc → BitVec 16
  | .finish _ => 1
  | _ => 0

/-- Every handled CQE has returned one WQE. -/
structure Counters (s : State) : Prop where
  mapped : s.fRxBufDMA ≠ 0
  posted : s.fRxPc = 256 + s.fRxCqCc.setWidth 16 + posting s.pc
  published : s.rqDb = 256 + s.fRxCqCc.setWidth 16 + publishing s.pc

variable {s t : State}

theorem postRxWqe_lt {index : ℕ} (h : index < maxRxBufs) : s.postRxWqe index = some { s with
    fWqBuf := Function.update s.fWqBuf index
      ⟨BitVec.ofNat 32 rxBufSize,s.fLkey,s.fRxBufDMA + BitVec.ofNat 64 (index * rxBufSize)⟩ } := by
  simp [postRxWqe, h]

theorem slot_lt (x : BitVec 16) : (x &&& 255).toNat < maxRxBufs := by
  rw [BitVec.toNat_and]
  exact lt_of_le_of_lt Nat.and_le_right (by decide)

/-- The initial posts change the WQEs and the producer counter only. -/
theorem postInitial_eq (n i : ℕ) (s : State) (h : n + i ≤ maxRxBufs) : ∃ wq, postInitial n i s =
    some { s with fWqBuf := wq, fRxPc := s.fRxPc + BitVec.ofNat 16 n } := by
  induction n generalizing i s with
  | zero => exact ⟨s.fWqBuf,by simp [postInitial]⟩
  | succ n ih =>
    have hi : i < maxRxBufs := by omega
    simp only [postInitial, postRxWqe_lt hi, Option.bind_some]
    obtain ⟨wq,hwq⟩ := ih (i + 1) _ (by omega)
    have hadd : s.fRxPc + BitVec.ofNat 16 (n + 1) = s.fRxPc + 1 + BitVec.ofNat 16 n := by
      rw [Nat.add_comm n, BitVec.ofNat_add, BitVec.add_assoc]
      rfl
    rw [hadd]
    exact ⟨wq,hwq⟩

/-- After `createRxResources` all 256 WQEs are posted and published. -/
theorem createRxResources_eq (fLkey : BitVec 32) (fRxBufDMA : BitVec 64) : ∃ wq, createRxResources fLkey fRxBufDMA =
    some { fresh fLkey fRxBufDMA with fWqBuf := wq, fRxPc := 256, rqDb := 256 } := by
  obtain ⟨wq,hwq⟩ := postInitial_eq (2 ^ logRqSize) 0 (fresh fLkey fRxBufDMA) (by decide)
  refine ⟨wq,?_⟩
  rw [createRxResources, hwq]
  rfl

theorem counters_start {fLkey : BitVec 32} {fRxBufDMA : BitVec 64} (hmapped : fRxBufDMA ≠ 0)
    (h : createRxResources fLkey fRxBufDMA = some s) : s.Counters := by
  obtain ⟨wq,hwq⟩ := createRxResources_eq fLkey fRxBufDMA
  obtain rfl := Option.some.inj (hwq.symm.trans h)
  exact ⟨hmapped,rfl,rfl⟩

theorem idle_start {fLkey : BitVec 32} {fRxBufDMA : BitVec 64} (h : createRxResources fLkey fRxBufDMA = some s) :
    s.pc = .idle := by
  obtain ⟨wq,hwq⟩ := createRxResources_eq fLkey fRxBufDMA
  obtain rfl := Option.some.inj (hwq.symm.trans h)
  rfl

/-- A device step leaves the counters and records of the driver alone. -/
theorem complete_frame {cqe : Cqe} {data : List (BitVec 8)} (h : s.complete cqe data = some t) :
    t.fRxBufDMA = s.fRxBufDMA ∧ t.fRxPc = s.fRxPc ∧ t.fRxCqCc = s.fRxCqCc ∧
    t.rqDb = s.rqDb ∧ t.cqDb = s.cqDb ∧ t.pc = s.pc := by
  simp only [complete] at h
  split at h
  · cases h
    exact ⟨rfl,rfl,rfl,rfl,rfl,rfl⟩
  · cases h

theorem receivePacket_frame (packet : Option (List (BitVec 8))) : s.receivePacket packet =
    { s with received := (s.receivePacket packet).received } := by
  simp only [receivePacket]
  split <;> rfl

theorem poll_counters (h : s.Counters) (mbuf : Bool) : (s.poll mbuf).Counters := by
  obtain ⟨hmapped,hposted,hpublished⟩ := h
  cases hpc : s.pc with
  | idle =>
    rw [hpc] at hposted hpublished
    simp only [poll, hpc]
    exact ⟨hmapped,hposted,hpublished⟩
  | scan =>
    rw [hpc] at hposted hpublished
    simp only [poll, hpc]
    split <;> exact ⟨hmapped,hposted,hpublished⟩
  | handle =>
    rw [hpc] at hposted hpublished
    simp only [poll, hpc, if_neg hmapped]
    exact ⟨hmapped,hposted,hpublished⟩
  | post a =>
    rw [hpc] at hposted hpublished
    simp only [poll, hpc, postRxWqe_lt (slot_lt s.fRxPc)]
    refine ⟨hmapped,?_,hpublished⟩
    simp [hposted, posting]
  | publish a =>
    rw [hpc] at hposted hpublished
    simp only [poll, hpc]
    exact ⟨hmapped,hposted,hposted⟩
  | finish a =>
    rw [hpc] at hposted hpublished
    simp only [poll, hpc]
    rw [receivePacket_frame]
    have hnext : (s.fRxCqCc + 1).setWidth 16 = s.fRxCqCc.setWidth 16 + 1 := by
      rw [BitVec.setWidth_add _ _ (by decide)]
      rfl
    refine ⟨hmapped,?_,?_⟩
    · simp only [hposted, hnext, posting, BitVec.add_assoc]
      rfl
    · simp only [hpublished, hnext, publishing, BitVec.add_assoc]
      rfl

theorem step_counters {a : Action} (h : s.Counters) (hs : s.step a = some t) : t.Counters := by
  cases a with
  | poll mbuf =>
    cases hs
    exact poll_counters h mbuf
  | complete cqe data =>
    obtain ⟨hdma,hpc,hcc,hrq,_,hpoll⟩ := complete_frame hs
    exact ⟨by rw [hdma]; exact h.mapped,by rw [hpc, hcc, hpoll]; exact h.posted,by rw [hrq, hcc, hpoll]; exact h.published⟩
  | enabled up =>
    cases hs
    exact ⟨h.mapped,h.posted,h.published⟩

/-! ## A pool at address 0

No WQE is posted again, and the device completes the first 256 only.
-/

structure Starved (s : State) : Prop where
  unmapped : s.fRxBufDMA = 0
  rqDb : s.rqDb = 256
  pc : s.pc = .idle ∨ s.pc = .scan ∨ s.pc = .handle ∧ s.fRxCqCc.toNat < s.produced
  ring : RingWritten (2 ^ logRqSize) (fun p cqe => cqe.Written logRqSize p) (· = Cqe.created) s.fRxCqBuf s.produced
  produced : s.produced ≤ 256
  consumed : s.fRxCqCc.toNat ≤ s.produced
  cqDb : s.cqDb.toNat ≤ s.fRxCqCc.toNat

theorem starved_start {fLkey : BitVec 32} (h : createRxResources fLkey 0 = some s) : s.Starved := by
  obtain ⟨wq,hwq⟩ := createRxResources_eq fLkey 0
  obtain rfl := Option.some.inj (hwq.symm.trans h)
  exact ⟨rfl,rfl,.inl rfl,ringWritten_zero (fun _ _ => rfl),Nat.zero_le _,Nat.zero_le _,Nat.le_refl _⟩

theorem Starved.credit (h : s.Starved) : s.Credit := by
  have hle := h.cqDb.trans (h.consumed.trans h.produced)
  have hwidth : (s.cqDb.setWidth 16).toNat = s.cqDb.toNat := by
    rw [BitVec.toNat_setWidth, Nat.mod_eq_of_lt (by omega)]
  have hdb : (256 : BitVec 16).toNat = 256 := rfl
  rw [Credit, h.rqDb, BitVec.toNat_sub, hwidth, hdb]
  simp only [logRqSize]
  omega

/-- The poll goes no further than the device has written. -/
theorem Starved.found (h : s.Starved) (hfinds : s.findsCqe = true) : s.fRxCqCc.toNat < s.produced := by
  have hslot : (s.fRxCqCc &&& 255).toNat = s.fRxCqCc.toNat % 2 ^ logRqSize := by
    have hmask := counter_mask (w := 32) (k := 8) (by decide) s.fRxCqCc.toNat
    rwa [BitVec.ofNat_toNat, BitVec.setWidth_eq] at hmask
  have hproduced := h.produced
  have hready := Cqe.ready_ring (c := s.fRxCqCc.toNat) (by decide) h.ring (fun _ _ hw => hw) h.consumed
    (by simp only [logRqSize]; omega)
  rw [BitVec.ofNat_toNat, BitVec.setWidth_eq, ← hslot] at hready
  exact hready.1 hfinds

theorem poll_starved (h : s.Starved) (mbuf : Bool) : (s.poll mbuf).Starved := by
  have hfound := h.found
  obtain ⟨hdma,hrq,hpc,hring,hproduced,hconsumed,hcq⟩ := h
  rcases hpc with hpc | hpc | ⟨hpc,hlt⟩
  · simp only [poll, hpc]
    exact ⟨hdma,hrq,.inr (.inl rfl),hring,hproduced,hconsumed,hcq⟩
  · simp only [poll, hpc]
    split
    · rename_i hfinds
      exact ⟨hdma,hrq,.inr (.inr ⟨rfl,hfound hfinds⟩),hring,hproduced,hconsumed,hcq⟩
    · refine ⟨hdma,hrq,.inl rfl,hring,hproduced,hconsumed,?_⟩
      simp only [updateCq, BitVec.toNat_setWidth]
      exact Nat.mod_le _ _
  · have hone : (1 : BitVec 32).toNat = 1 := rfl
    have hnext : (s.fRxCqCc + 1).toNat = s.fRxCqCc.toNat + 1 := by
      rw [BitVec.toNat_add, hone, Nat.mod_eq_of_lt (by omega)]
    simp only [poll, hpc, if_pos hdma]
    refine ⟨hdma,hrq,.inr (.inl rfl),hring,hproduced,?_,?_⟩
    · dsimp only
      omega
    · dsimp only
      omega

theorem complete_starved (h : s.Starved) {cqe : Cqe} {data : List (BitVec 8)} (hs : s.complete cqe data = some t) :
    t.Starved := by
  unfold complete at hs
  split at hs
  · rename_i hg
    cases hs
    have hne : s.produced ≠ 256 := by
      intro he
      rw [h.rqDb, he] at hg
      exact hg.1 rfl
    have hproduced := h.produced
    have hconsumed := h.consumed
    refine ⟨h.unmapped,h.rqDb,h.pc.imp_right (Or.imp_right fun hp => ⟨hp.1,Nat.lt_succ_of_lt hp.2⟩),
      h.ring.write hg.2.1,?_,?_,h.cqDb⟩
    · dsimp only
      omega
    · dsimp only
      omega
  · cases hs

theorem step_starved {a : Action} (h : s.Starved) (hs : s.step a = some t) : t.Starved := by
  cases a with
  | poll mbuf =>
    cases hs
    exact poll_starved h mbuf
  | complete cqe data => exact complete_starved h hs
  | enabled up =>
    cases hs
    exact ⟨h.unmapped,h.rqDb,h.pc,h.ring,h.produced,h.consumed,h.cqDb⟩

/-! ## Runs -/

/-- Where the pool has an address other than 0, the polls of the run find the completion queue empty. -/
def FindsNothing (s : State) : Action → Prop
  | .poll _ => s.fRxBufDMA ≠ 0 → s.pc = .scan → s.findsCqe = false
  | _ => True

/-- What stays as it was after `createRxResources` while nothing is found. -/
structure Untouched (s : State) : Prop where
  mapped : s.fRxBufDMA ≠ 0
  rqDb : s.rqDb = 256
  cqDb : s.cqDb = 0
  fRxCqCc : s.fRxCqCc = 0
  pc : s.pc = .idle ∨ s.pc = .scan

theorem untouched_start {fLkey : BitVec 32} {fRxBufDMA : BitVec 64} (hmapped : fRxBufDMA ≠ 0)
    (h : createRxResources fLkey fRxBufDMA = some s) : s.Untouched := by
  obtain ⟨wq,hwq⟩ := createRxResources_eq fLkey fRxBufDMA
  obtain rfl := Option.some.inj (hwq.symm.trans h)
  exact ⟨hmapped,rfl,rfl,rfl,.inl rfl⟩

theorem step_untouched {a : Action} (h : s.Untouched) (hm : s.FindsNothing a) (hs : s.step a = some t) :
    t.Untouched := by
  obtain ⟨hmapped,hrq,hcq,hcc,hpc⟩ := h
  cases a with
  | poll mbuf =>
    cases hs
    rcases hpc with hpc | hpc
    · simp only [poll, hpc]
      exact ⟨hmapped,hrq,hcq,hcc,.inr rfl⟩
    · have hnone : s.findsCqe = false := hm hmapped hpc
      simp only [poll, hpc, hnone, Bool.false_eq_true, if_false]
      exact ⟨hmapped,hrq,by simp only [updateCq, hcc]; rfl,hcc,.inl rfl⟩
  | complete cqe data =>
    obtain ⟨hdma,_,hcc',hrq',hcq',hpoll⟩ := complete_frame hs
    exact ⟨hdma ▸ hmapped,hrq'.trans hrq,hcq'.trans hcq,hcc'.trans hcc,hpoll ▸ hpc⟩
  | enabled up =>
    cases hs
    exact ⟨hmapped,hrq,hcq,hcc,hpc⟩

def SameConsumer (s t : State) : Prop := t.cqDb = s.cqDb ∧ t.fRxCqCc = s.fRxCqCc

theorem poll_found (hpc : s.pc = .scan) (hfinds : s.findsCqe = true) (m : Bool) :
    s.poll m = { s with pc := .handle } := by
  simp only [poll, hpc, hfinds, if_true]

theorem poll_handle (hmapped : s.fRxBufDMA ≠ 0) (hpc : s.pc = .handle) (m : Bool) :
    ∃ a, (s.poll m).pc = .post a ∧ s.SameConsumer (s.poll m) := by
  simp only [poll, hpc, if_neg hmapped]
  exact ⟨_,rfl,rfl,rfl⟩

theorem poll_post {a : Handled} (hpc : s.pc = .post a) (m : Bool) :
    (s.poll m).pc = .publish a ∧ s.SameConsumer (s.poll m) := by
  simp only [poll, hpc, postRxWqe_lt (slot_lt s.fRxPc)]
  exact ⟨trivial,rfl,rfl⟩

theorem poll_publish {a : Handled} (hpc : s.pc = .publish a) (m : Bool) :
    (s.poll m).pc = .finish a ∧ s.SameConsumer (s.poll m) := by
  simp only [poll, hpc]
  exact ⟨trivial,rfl,rfl⟩

/-- The first CQE a poll finds returns its WQE to the device before its CQ slot is returned. -/
theorem credit_exceeded (h : s.Counters) (hpc : s.pc = .scan) (hfinds : s.findsCqe = true)
    (hcq : s.cqDb = s.fRxCqCc.setWidth 24) (m₁ m₂ m₃ m₄ : Bool) :
    ∃ t, after step [.poll m₁,.poll m₂,.poll m₃,.poll m₄] s = some t ∧ ¬ t.Credit := by
  have h₁ := poll_counters h m₁
  have h₂ := poll_counters h₁ m₂
  have h₃ := poll_counters h₂ m₃
  have hfound := poll_found hpc hfinds m₁
  obtain ⟨hpc₁,hdb₁,hcc₁⟩ : (s.poll m₁).pc = .handle ∧ s.SameConsumer (s.poll m₁) := by
    rw [hfound]
    exact ⟨rfl,rfl,rfl⟩
  obtain ⟨a,hpc₂,hdb₂,hcc₂⟩ := poll_handle h₁.mapped hpc₁ m₂
  obtain ⟨hpc₃,hdb₃,hcc₃⟩ := poll_post hpc₂ m₃
  obtain ⟨hpc₄,hdb₄,hcc₄⟩ := poll_publish hpc₃ m₄
  refine ⟨_,rfl,?_⟩
  have hpub := (poll_counters h₃ m₄).published
  rw [hpc₄, hcc₄, hcc₃, hcc₂, hcc₁] at hpub
  have hdb := hdb₄.trans (hdb₃.trans (hdb₂.trans (hdb₁.trans hcq)))
  have hwidth : (s.fRxCqCc.setWidth 24).setWidth 16 = s.fRxCqCc.setWidth 16 := by
    rw [BitVec.setWidth_setWidth_of_le _ (by decide)]
  have hdiff : 256 + s.fRxCqCc.setWidth 16 + 1 - s.fRxCqCc.setWidth 16 = (257 : BitVec 16) := by
    rw [BitVec.add_comm 256, BitVec.add_assoc, BitVec.add_comm, BitVec.add_sub_cancel]
    rfl
  simp only [Credit, hpub, hdb, hwidth, publishing, hdiff]
  decide

/-- The device never has more WQEs than the CQ space it was told of in the runs whose polls find
nothing, and in all runs where the pool is at address 0; elsewhere every CQE found at a published consumer index breaks
this. -/
theorem credit_run (fLkey : BitVec 32) (fRxBufDMA : BitVec 64) :
    ∃ s₀, createRxResources fLkey fRxBufDMA = some s₀ ∧ (∀ s, Reach step FindsNothing s₀ s → s.Credit) ∧
    ∀ s, Reach step Free s₀ s → s.pc = .scan → s.cqDb = s.fRxCqCc.setWidth 24 → ¬ s.FindsNothing (.poll true) →
      ∀ m₁ m₂ m₃ m₄, ∃ t, after step [.poll m₁,.poll m₂,.poll m₃,.poll m₄] s = some t ∧ ¬ t.Credit := by
  obtain ⟨wq,hwq⟩ := createRxResources_eq fLkey fRxBufDMA
  refine ⟨_,hwq,fun s hr => ?_,fun s hr hpc hcq hfinds => ?_⟩
  · by_cases hdma : fRxBufDMA = 0
    · subst hdma
      exact (hr.invariant (starved_start hwq) (fun _ _ _ h _ hs => step_starved h hs)).credit
    · have h := hr.invariant (untouched_start hdma hwq) (fun _ _ _ h hm hs => step_untouched h hm hs)
      simp only [Credit, h.rqDb, h.cqDb]
      decide
  · simp only [FindsNothing, Classical.not_imp, Bool.not_eq_false] at hfinds
    obtain ⟨hmapped,-,hfound⟩ := hfinds
    by_cases hdma : fRxBufDMA = 0
    · subst hdma
      have h := hr.invariant (starved_start hwq) (fun _ _ _ h _ hs => step_starved h hs)
      exact absurd h.unmapped hmapped
    · have h := hr.invariant (counters_start hdma hwq) (fun _ _ _ h _ hs => step_counters h hs)
      exact credit_exceeded h hpc hfound hcq

/-- One packet arrives and is polled up to the store to the RQ doorbell record. -/
def exceedActions : List Action :=
  [.complete ⟨0,1,0x20⟩ [0],.poll true,.poll true,.poll true,.poll true,.poll true]

theorem credit_lost : ¬ ∀ s₀ s, createRxResources 9 8192 = some s₀ → Reach step Free s₀ s → s.Credit := by
  intro h
  have hrun : ((createRxResources 9 8192).bind (after step exceedActions)).any (fun t => !decide t.Credit) = true := by
    decide +kernel
  obtain ⟨t,ht,hcredit⟩ := (Option.any_eq_true _ _).mp hrun
  obtain ⟨s₀,hs₀,hafter⟩ := Option.bind_eq_some_iff.mp ht
  rw [decide_eq_true (h s₀ t hs₀ (reach_of_after exceedActions .start hafter))] at hcredit
  cases hcredit

end State
end AppleMCX.RxQueue
