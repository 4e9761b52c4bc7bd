import AppleMCX.Netif.RxQueue

/-! # Receive slots are recycled in order

The receive queue next to a record of what has happened to it, with the numbers of WQEs and CQEs
not cut to any width. The device writes the bytes of the published WQEs in any order, and the
CQEs in the order of the WQEs.
-/
namespace AppleMCX.RxQueue
open Hw Interaction

structure Run where
  queue : State
  /-- The numbers of WQEs posted and of CQEs handled. -/
  posted : ℕ
  handled : ℕ
  /-- The CQEs that the device has written, first to last. -/
  completed : List Cqe
  /-- What the device has written to each byte of the slot of a WQE. -/
  wrote : ℕ → ℕ → Option (BitVec 8)
  /-- The slot posted anew for each CQE. -/
  reposted : List ℕ
  /-- The packets passed to `receivePacket`, with the number of the CQE. -/
  passed : List (ℕ × List (BitVec 8))

inductive Event
  | poll (mbuf : Bool)
  /-- The device writes byte `j` of the slot of WQE `n`. -/
  | dma (n j : ℕ) (b : BitVec 8)
  | complete (cqe : Cqe)
  | enabled (up : Bool)
  deriving DecidableEq, Repr

namespace Run

/-- After `createRxResources`. -/
def start (queue : State) : Run := ⟨queue,2 ^ logRqSize,0,[],fun _ _ => none,[],[]⟩

/-- The number behind the last WQE of which the device has been told. -/
def published (r : Run) : ℕ := r.queue.produced + (r.queue.rqDb - BitVec.ofNat 16 r.queue.produced).toNat

/-- The next step of `pollRxCq`; a CQE that is not gone on with is handled. -/
def poll (mbuf : Bool) (r : Run) : Run :=
  match r.queue.pc with
  | .handle =>
    if (r.queue.poll mbuf).pc = .scan then { r with queue := r.queue.poll mbuf, handled := r.handled + 1 }
    else { r with queue := r.queue.poll mbuf }
  | .post _ =>
    if (r.queue.postRxWqe (r.queue.fRxPc &&& 255).toNat).isSome then
      { r with
        queue := r.queue.poll mbuf
        posted := r.posted + 1
        reposted := r.reposted ++ [(r.queue.fRxPc &&& 255).toNat] }
    else { r with queue := r.queue.poll mbuf }
  | .finish h =>
    { r with
      queue := r.queue.poll mbuf
      handled := r.handled + 1
      passed := r.passed ++ h.packet.toList.map (Prod.mk r.handled) }
  | _ => { r with queue := r.queue.poll mbuf }

/-- Only a slot whose WQE is published and has no CQE yet is written to. -/
def dma (n j : ℕ) (b : BitVec 8) (r : Run) : Option Run :=
  if r.queue.produced ≤ n ∧ n < r.published ∧ j < rxBufSize then
    some { r with
      queue := { r.queue with fRxBuf := Function.update r.queue.fRxBuf (n % 256) ((r.queue.fRxBuf (n % 256)).set j b) }
      wrote := Function.update r.wrote n (Function.update (r.wrote n) j (some b)) }
  else none

def step (r : Run) : Event → Option Run
  | .poll mbuf => some (r.poll mbuf)
  | .dma n j b => r.dma n j b
  | .complete cqe => (r.queue.complete cqe []).map (fun queue => { r with queue, completed := r.completed ++ [cqe] })
  | .enabled up => some { r with queue := { r.queue with fEnabled := up } }

/-- The packet that CQE `n` reports: as long as it says, with the bytes that the device has written. -/
structure Packet (completed : List Cqe) (wrote : ℕ → ℕ → Option (BitVec 8)) (n : ℕ) (packet : List (BitVec 8)) :
    Prop where
  cqe : ∃ cqe, completed[n]? = some cqe ∧ cqe.opcode = cqeResp ∧ packet.length = cqe.byteCnt.toNat
  bytes : ∀ j b, j < packet.length → wrote n j = some b → packet[j]? = some b

end Run

/-! ## How far a CQE has got -/

namespace PollPc

def handling : PollPc → ℕ
  | .handle | .post _ | .publish _ | .finish _ => 1
  | _ => 0

def copied : PollPc → ℕ
  | .post _ | .publish _ | .finish _ => 1
  | _ => 0

def posted : PollPc → ℕ
  | .publish _ | .finish _ => 1
  | _ => 0

def published : PollPc → ℕ
  | .finish _ => 1
  | _ => 0

/-- What has been kept of the entry being handled. -/
def held : PollPc → Option Handled
  | .post h | .publish h | .finish h => some h
  | _ => none

theorem published_le (pc : PollPc) : pc.published ≤ pc.copied := by cases pc <;> simp [published, copied]

theorem copied_le (pc : PollPc) : pc.copied ≤ pc.handling := by cases pc <;> simp [copied, handling]

theorem handling_le (pc : PollPc) : pc.handling ≤ 1 := by cases pc <;> simp [handling]

end PollPc

namespace Run

/-- The counters of the driver and of the device, cut to their widths. -/
structure Counting (r : Run) : Prop where
  fRxPc : r.queue.fRxPc = BitVec.ofNat 16 r.posted
  rqDb : r.queue.rqDb = BitVec.ofNat 16 (r.handled + 256 + r.queue.pc.published)
  fRxCqCc : r.queue.fRxCqCc = BitVec.ofNat 32 r.handled
  posted : r.posted = r.handled + 256 + r.queue.pc.posted
  handled_le : r.handled + r.queue.pc.handling ≤ r.queue.produced
  produced_le : r.queue.produced ≤ r.handled + 256 + r.queue.pc.published

structure Completing (r : Run) : Prop where
  produced : r.completed.length = r.queue.produced
  ring : RingWritten (2 ^ logRqSize) (fun p cqe => cqe.Written logRqSize p ∧ r.completed[p]? = some cqe)
    (· = Cqe.created) r.queue.fRxCqBuf r.queue.produced
  counter : ∀ p cqe, r.completed[p]? = some cqe → cqe.wqeCounter = BitVec.ofNat 16 p

structure Copying (r : Run) : Prop where
  length : ∀ i, (r.queue.fRxBuf i).length = rxBufSize
  bytes : ∀ n j b, r.handled + r.queue.pc.copied ≤ n → r.wrote n j = some b → (r.queue.fRxBuf (n % 256))[j]? = some b
  future : ∀ n j b, r.wrote n j = some b → n < r.handled + 256 + r.queue.pc.published
  held : ∀ h, r.queue.pc.held = some h →
    h.wqeCounter = BitVec.ofNat 16 r.handled ∧ ∀ p, h.packet = some p → Packet r.completed r.wrote r.handled p
  passed : ∀ n p, (n,p) ∈ r.passed → n < r.handled ∧ Packet r.completed r.wrote n p

structure Reposting (r : Run) : Prop where
  length : r.reposted.length + 256 = r.posted
  slot : ∀ n i, r.reposted[n]? = some i → i = n % 256

structure Kept (r : Run) : Prop where
  mapped : r.queue.fRxBufDMA ≠ 0
  counting : r.Counting
  completing : r.Completing
  copying : r.Copying
  reposting : r.Reposting

variable {r r' : Run} {n j : ℕ}

theorem Counting.published (h : r.Counting) : r.published = r.handled + 256 + r.queue.pc.published := by
  have hhandled := h.handled_le
  have hproduced := h.produced_le
  have hpc := r.queue.pc.published_le
  have hone := r.queue.pc.copied_le.trans r.queue.pc.handling_le
  rw [Run.published, h.rqDb, counter_sub hproduced (by omega)]
  omega

theorem slot_eq (n : ℕ) : (BitVec.ofNat 16 n &&& 255).toNat = n % 256 := counter_mask (k := 8) (by decide) n

theorem Counting.cqe (h : r.Counting) : r.queue.cqe = r.queue.fRxCqBuf (r.handled % 2 ^ logRqSize) := by
  have hslot : (r.queue.fRxCqCc &&& 255).toNat = r.handled % 2 ^ logRqSize := by
    rw [h.fRxCqCc]
    exact counter_mask (k := 8) (by decide) r.handled
  rw [State.cqe, hslot]

theorem Kept.cqe (h : r.Kept) (hhandling : r.queue.pc.handling = 1) (hpublished : r.queue.pc.published = 0) :
    r.completed[r.handled]? = some r.queue.cqe := by
  have hlt := h.counting.handled_le
  have hle := h.counting.produced_le
  have hsize : 2 ^ logRqSize = 256 := rfl
  have hentry := h.completing.ring.written r.handled (by omega) (by omega)
  rw [h.counting.cqe]
  exact hentry.2

theorem Kept.findsCqe (h : r.Kept) (hpublished : r.queue.pc.published = 0) :
    r.queue.findsCqe = true ↔ r.handled < r.queue.produced := by
  have hle := h.counting.produced_le
  have hge := h.counting.handled_le
  have hsize : 2 ^ logRqSize = 256 := rfl
  rw [State.findsCqe, h.counting.cqe, h.counting.fRxCqCc]
  exact Cqe.ready_ring (by decide) h.completing.ring (fun _ _ he => he.1) (by omega) (by omega)

/-! ## The driver -/

/-- A step of the driver that neither posts nor publishes a WQE and is not the last one for its CQE. -/
theorem Kept.move (h : r.Kept) (fEnabled : Bool) (fRxArmSn cqArm : BitVec 32) (cqDb : BitVec 24) {pc : PollPc}
    (hposted : pc.posted = r.queue.pc.posted) (hpublished : pc.published = r.queue.pc.published)
    (hcopied : r.queue.pc.copied ≤ pc.copied) (hhandling : r.handled + pc.handling ≤ r.queue.produced)
    (hheld : ∀ k, pc.held = some k →
      k.wqeCounter = BitVec.ofNat 16 r.handled ∧ ∀ p, k.packet = some p → Packet r.completed r.wrote r.handled p) :
    Kept { r with queue := { r.queue with
      fEnabled := fEnabled
      fRxArmSn := fRxArmSn
      cqArm := cqArm
      cqDb := cqDb
      pc := pc } } := by
  obtain ⟨hmapped,⟨hpc,hdb,hcc,hnumber,-,hproduced⟩,⟨hlist,hring,hcounter⟩,
    ⟨hlen,hbytes,hfuture,-,hpassed⟩,hreposting⟩ := h
  rw [← hpublished] at hdb hproduced hfuture
  rw [← hposted] at hnumber
  have hbytes' : ∀ n j b, r.handled + pc.copied ≤ n → r.wrote n j = some b → (r.queue.fRxBuf (n % 256))[j]? = some b :=
    fun n j b hn => hbytes n j b (by omega)
  exact ⟨hmapped,⟨hpc,hdb,hcc,hnumber,hhandling,hproduced⟩,⟨hlist,hring,hcounter⟩,
    ⟨hlen,hbytes',hfuture,hheld,hpassed⟩,⟨hreposting.length,hreposting.slot⟩⟩

/-- `handleRxCqe` copies the bytes of the slot that its CQE names. -/
theorem Kept.payload (h : r.Kept) (hpc : r.queue.pc = .handle) {mbuf : Bool} {packet : List (BitVec 8)}
    (hp : r.queue.payload mbuf = some packet) : Packet r.completed r.wrote r.handled packet := by
  have hcqe := h.cqe (by rw [hpc]; rfl) (by rw [hpc]; rfl)
  have hslot : (r.queue.cqe.wqeCounter &&& 255).toNat = r.handled % 256 := by
    rw [h.completing.counter _ _ hcqe, slot_eq]
  have hbytes := h.copying.bytes r.handled
  rw [hpc] at hbytes
  unfold State.payload at hp
  split at hp
  · rename_i hgood
    obtain ⟨hop,-,hle,-⟩ := hgood
    rw [hslot] at hp
    obtain rfl := Option.some.inj hp
    have hlen : ((r.queue.fRxBuf (r.handled % 256)).take r.queue.cqe.byteCnt.toNat).length = r.queue.cqe.byteCnt.toNat := by
      rw [List.length_take, h.copying.length]
      exact Nat.min_eq_left hle
    refine ⟨⟨_,hcqe,hop,hlen⟩,fun j b hj hw => ?_⟩
    rw [hlen] at hj
    rw [List.getElem?_take_of_lt hj]
    exact hbytes j b (Nat.le_refl _) hw
  · cases hp

theorem Kept.post (h : r.Kept) {k : Handled} (hpc : r.queue.pc = .post k) (mbuf : Bool) : (r.poll mbuf).Kept := by
  have hslot : (r.queue.fRxPc &&& 255).toNat = r.posted % 256 := by rw [h.counting.fRxPc, slot_eq]
  have hlt : r.posted % 256 < maxRxBufs := Nat.mod_lt _ (by decide)
  obtain ⟨hmapped,⟨hcpc,hdb,hcc,hnumber,hhandled,hproduced⟩,⟨hlist,hring,hcounter⟩,
    ⟨hlen,hbytes,hfuture,hheld,hpassed⟩,
    ⟨hcount,hreposted⟩⟩ := h
  rw [hpc] at hdb hnumber hhandled hproduced hbytes hfuture hheld
  simp only [poll, State.poll, hpc, hslot, State.postRxWqe_lt hlt, Option.isSome_some, if_true]
  refine ⟨hmapped,⟨?_,hdb,hcc,congrArg (· + 1) hnumber,hhandled,hproduced⟩,⟨hlist,hring,hcounter⟩,
    ⟨hlen,hbytes,hfuture,hheld,hpassed⟩,?_,?_⟩
  · show r.queue.fRxPc + 1 = _
    rw [hcpc, counter_succ]
  · show (r.reposted ++ [r.posted % 256]).length + 256 = r.posted + 1
    rw [List.length_append, List.length_singleton]
    omega
  · intro n i hi
    have hi' : (r.reposted ++ [r.posted % 256])[n]? = some i := hi
    rw [List.getElem?_append] at hi'
    split at hi'
    · exact hreposted n i hi'
    · rename_i hge
      -- the WQE behind the last one goes to the slot that the CQE has left
      obtain ⟨hlast,he⟩ := List.getElem?_eq_some_iff.mp hi'
      rw [List.getElem_singleton] at he
      rw [List.length_singleton] at hlast
      omega

theorem Kept.publish (h : r.Kept) {k : Handled} (hpc : r.queue.pc = .publish k) (mbuf : Bool) : (r.poll mbuf).Kept := by
  obtain ⟨hmapped,⟨hcpc,hdb,hcc,hnumber,hhandled,hproduced⟩,⟨hlist,hring,hcounter⟩,
    ⟨hlen,hbytes,hfuture,hheld,hpassed⟩,hreposting⟩ := h
  rw [hpc] at hdb hnumber hhandled hproduced hbytes hfuture hheld
  simp only [poll, State.poll, hpc]
  refine ⟨hmapped,⟨hcpc,?_,hcc,hnumber,hhandled,Nat.le_succ_of_le hproduced⟩,⟨hlist,hring,hcounter⟩,
    ⟨hlen,hbytes,fun n j b hw => Nat.lt_succ_of_lt (hfuture n j b hw),hheld,hpassed⟩,
    ⟨hreposting.length,hreposting.slot⟩⟩
  show r.queue.fRxPc = _
  rw [hcpc, hnumber]
  rfl

theorem Kept.finish (h : r.Kept) {k : Handled} (hpc : r.queue.pc = .finish k) (mbuf : Bool) : (r.poll mbuf).Kept := by
  obtain ⟨hmapped,⟨hcpc,hdb,hcc,hnumber,hhandled,hproduced⟩,⟨hlist,hring,hcounter⟩,
    ⟨hlen,hbytes,hfuture,hheld,hpassed⟩,hreposting⟩ := h
  rw [hpc] at hdb hnumber hhandled hproduced hbytes hfuture hheld
  have hnext : r.handled + 256 + 1 = r.handled + 1 + 256 := by omega
  simp only [poll, State.poll, hpc]
  rw [State.receivePacket_frame]
  refine ⟨hmapped,⟨hcpc,hdb.trans (congrArg _ hnext),?_,hnumber.trans hnext,hhandled,hproduced.trans (Nat.le_of_eq hnext)⟩,
    ⟨hlist,hring,hcounter⟩,⟨hlen,hbytes,fun n j b hw => Nat.lt_of_lt_of_eq (hfuture n j b hw) hnext,?_,?_⟩,
    ⟨hreposting.length,hreposting.slot⟩⟩
  · show r.queue.fRxCqCc + 1 = _
    rw [hcc, counter_succ]
  · intro k' hk'
    cases hk'
  · intro n p hnp
    rcases List.mem_append.mp hnp with hold | hnew
    · obtain ⟨hn,hp⟩ := hpassed n p hold
      exact ⟨Nat.lt_succ_of_lt hn,hp⟩
    · obtain ⟨p',hp',he⟩ := List.mem_map.mp hnew
      obtain ⟨rfl,rfl⟩ := Prod.mk.inj he
      exact ⟨Nat.lt_succ_self _,(hheld k rfl).2 p' (Option.mem_toList.mp hp')⟩

theorem poll_kept (h : r.Kept) (mbuf : Bool) : (r.poll mbuf).Kept := by
  have hge := h.counting.handled_le
  cases hpc : r.queue.pc with
  | idle =>
    rw [hpc] at hge
    simp only [poll, State.poll, hpc]
    exact h.move r.queue.fEnabled (r.queue.fRxArmSn + 1) r.queue.cqArm r.queue.cqDb
      (by rw [hpc]; rfl) (by rw [hpc]; rfl) (by rw [hpc]; decide) hge (fun k hk => by cases hk)
  | scan =>
    have hfinds := h.findsCqe (by rw [hpc]; rfl)
    rw [hpc] at hge
    simp only [poll, State.poll, hpc]
    split
    · rename_i hf
      exact h.move r.queue.fEnabled r.queue.fRxArmSn r.queue.cqArm r.queue.cqDb
        (by rw [hpc]; rfl) (by rw [hpc]; rfl) (by rw [hpc]; decide) (hfinds.mp hf) (fun k hk => by cases hk)
    · exact h.move r.queue.fEnabled r.queue.fRxArmSn _ _
        (by rw [hpc]; rfl) (by rw [hpc]; rfl) (by rw [hpc]; decide) hge (fun k hk => by cases hk)
  | handle =>
    have hcqe := h.cqe (by rw [hpc]; rfl) (by rw [hpc]; rfl)
    rw [hpc] at hge
    simp only [poll, State.poll, hpc, h.mapped, if_false, reduceCtorEq]
    refine h.move r.queue.fEnabled r.queue.fRxArmSn r.queue.cqArm r.queue.cqDb
      (by rw [hpc]; rfl) (by rw [hpc]; rfl) (by rw [hpc]; exact Nat.zero_le _) hge (fun k hk => ?_)
    obtain rfl := Option.some.inj hk
    exact ⟨h.completing.counter _ _ hcqe,fun p hp => h.payload hpc hp⟩
  | post k => exact h.post hpc mbuf
  | publish k => exact h.publish hpc mbuf
  | finish k => exact h.finish hpc mbuf

/-! ## The device -/

/-- A packet is settled once its CQE is there. -/
theorem Packet.mono {completed completed' : List Cqe} {wrote wrote' : ℕ → ℕ → Option (BitVec 8)}
    {packet : List (BitVec 8)}
    (h : Packet completed wrote n packet) (hc : ∀ cqe, completed[n]? = some cqe → completed'[n]? = some cqe)
    (hw : wrote' n = wrote n) : Packet completed' wrote' n packet := by
  obtain ⟨⟨cqe,hcqe,hop,hlen⟩,hbytes⟩ := h
  rw [← hw] at hbytes
  exact ⟨⟨cqe,hc cqe hcqe,hop,hlen⟩,hbytes⟩

theorem dma_kept (h : r.Kept) {b : BitVec 8} (hs : r.dma n j b = some r') : r'.Kept := by
  have hpublished := h.counting.published
  have hcopied := r.queue.pc.copied_le
  have hle := r.queue.pc.published_le
  obtain ⟨hmapped,⟨hcpc,hdb,hcc,hnumber,hhandled,hproduced⟩,⟨hlist,hring,hcounter⟩,
    ⟨hlen,hbytes,hfuture,hheld,hpassed⟩,hreposting⟩ := h
  unfold dma at hs
  split at hs
  · rename_i hg
    cases hs
    obtain ⟨hge,hlt,hj⟩ := hg
    have hother : ∀ m, m < r.queue.produced →
      Function.update r.wrote n (Function.update (r.wrote n) j (some b)) m = r.wrote m :=
      fun m hm => Function.update_of_ne (by omega) _ _
    refine ⟨hmapped,⟨hcpc,hdb,hcc,hnumber,hhandled,hproduced⟩,⟨hlist,hring,hcounter⟩,⟨?_,?_,?_,?_,?_⟩,
      ⟨hreposting.length,hreposting.slot⟩⟩
    · intro i
      show (Function.update r.queue.fRxBuf (n % 256) _ i).length = _
      rw [Function.update_apply]
      split
      · rw [List.length_set, hlen]
      · exact hlen i
    · intro m i c hm hw
      show (Function.update r.queue.fRxBuf (n % 256) _ (m % 256))[i]? = some c
      have hw' : Function.update r.wrote n (Function.update (r.wrote n) j (some b)) m i = some c := hw
      by_cases hmn : m = n
      · rw [hmn, Function.update_self] at hw'
        rw [hmn, Function.update_self]
        by_cases hij : i = j
        · rw [hij, Function.update_self] at hw'
          rw [hij, List.getElem?_set_self (by rw [hlen]; exact hj), hw']
        · rw [Function.update_of_ne hij] at hw'
          rw [List.getElem?_set_ne (Ne.symm hij)]
          exact hbytes n i c (hmn ▸ hm) hw'
      · -- another WQE that is not copied yet has another slot
        rw [Function.update_of_ne hmn] at hw'
        have hm' : r.handled + r.queue.pc.copied ≤ m := hm
        have hmlt := hfuture m i c hw'
        rw [Function.update_of_ne (by omega)]
        exact hbytes m i c hm hw'
    · intro m i c hw
      have hw' : Function.update r.wrote n (Function.update (r.wrote n) j (some b)) m i = some c := hw
      show m < r.handled + 256 + r.queue.pc.published
      by_cases hmn : m = n
      · omega
      · rw [Function.update_of_ne hmn] at hw'
        exact hfuture m i c hw'
    · intro k hk
      obtain ⟨hcounter',hpacket⟩ := hheld k hk
      have hhandling : r.queue.pc.handling = 1 := by
        cases hpc : r.queue.pc <;> rw [hpc] at hk <;> first | rfl | cases hk
      exact ⟨hcounter',fun p hp => (hpacket p hp).mono (fun _ hcqe => hcqe) (hother _ (by omega))⟩
    · intro m p hmp
      obtain ⟨hm,hp⟩ := hpassed m p hmp
      exact ⟨hm,hp.mono (fun _ hcqe => hcqe) (hother _ (by omega))⟩
  · cases hs

/-- The CQE of the next WQE, the bytes of which have been written before. -/
theorem complete_eq {s t : State} {cqe : Cqe} (h : s.complete cqe [] = some t) :
    (s.rqDb ≠ BitVec.ofNat 16 s.produced ∧ cqe.Written logRqSize s.produced ∧
    cqe.wqeCounter = BitVec.ofNat 16 s.produced) ∧
    t = { s with
      fRxCqBuf := Function.update s.fRxCqBuf (s.produced % 2 ^ logRqSize) cqe
      produced := s.produced + 1 } := by
  unfold State.complete at h
  split at h
  · rename_i hg
    obtain ⟨hdb,hwritten,hcounter,-⟩ := hg
    have hsame : Function.update s.fRxBuf (s.produced % 256)
        ([] ++ (s.fRxBuf (s.produced % 256)).drop ([] : List (BitVec 8)).length) = s.fRxBuf :=
      Function.update_eq_self (s.produced % 256) s.fRxBuf
    rw [hsame] at h
    exact ⟨⟨hdb,hwritten,hcounter⟩,(Option.some.inj h).symm⟩
  · cases h

theorem complete_kept (h : r.Kept) {cqe : Cqe} (hs : r.step (.complete cqe) = some r') : r'.Kept := by
  obtain ⟨queue,hqueue,rfl⟩ := Option.map_eq_some_iff.mp hs
  obtain ⟨⟨hnot,hwritten,hwqe⟩,rfl⟩ := complete_eq hqueue
  obtain ⟨hmapped,⟨hcpc,hdb,hcc,hnumber,hhandled,hproduced⟩,⟨hlist,hring,hcounter⟩,
    ⟨hlen,hbytes,hfuture,hheld,hpassed⟩,hreposting⟩ := h
  have hlt : r.queue.produced ≠ r.handled + 256 + r.queue.pc.published := by
    intro he
    exact hnot (by rw [hdb, ← he])
  have hold : ∀ (m : ℕ) (c : Cqe), r.completed[m]? = some c → (r.completed ++ [cqe])[m]? = some c := by
    intro m c hm
    obtain ⟨hlt,-⟩ := List.getElem?_eq_some_iff.mp hm
    rw [List.getElem?_append_left hlt]
    exact hm
  have hnew : (r.completed ++ [cqe])[r.queue.produced]? = some cqe := by
    rw [← hlist, List.getElem?_concat_length]
  refine ⟨hmapped,⟨hcpc,hdb,hcc,hnumber,Nat.le_succ_of_le hhandled,?_⟩,⟨?_,?_,?_⟩,⟨hlen,hbytes,hfuture,?_,?_⟩,
    ⟨hreposting.length,hreposting.slot⟩⟩
  · show r.queue.produced + 1 ≤ r.handled + 256 + r.queue.pc.published
    omega
  · show (r.completed ++ [cqe]).length = r.queue.produced + 1
    rw [List.length_append, hlist]
    rfl
  · exact (hring.imp (fun p c _ hp => ⟨hp.1,hold p c hp.2⟩)).write ⟨hwritten,hnew⟩
  · intro p c hp
    have hp' : (r.completed ++ [cqe])[p]? = some c := hp
    rw [List.getElem?_append] at hp'
    split at hp'
    · exact hcounter p c hp'
    · obtain ⟨hlast,he⟩ := List.getElem?_eq_some_iff.mp hp'
      rw [List.getElem_singleton] at he
      rw [List.length_singleton] at hlast
      have hpe : p = r.queue.produced := by omega
      rw [← he, hwqe, hpe]
  · intro k hk
    obtain ⟨hk',hp⟩ := hheld k hk
    have hkeep : ∀ p, k.packet = some p → Packet (r.completed ++ [cqe]) r.wrote r.handled p :=
      fun p hkp => (hp p hkp).mono (hold r.handled) rfl
    exact ⟨hk',hkeep⟩
  · intro m p hmp
    obtain ⟨hm,hp⟩ := hpassed m p hmp
    have hkeep : Packet (r.completed ++ [cqe]) r.wrote m p := hp.mono (hold m) rfl
    exact ⟨hm,hkeep⟩

theorem step_kept {e : Event} (h : r.Kept) (hs : r.step e = some r') : r'.Kept := by
  cases e with
  | poll mbuf =>
    cases hs
    exact poll_kept h mbuf
  | dma n j b => exact dma_kept h hs
  | complete cqe => exact complete_kept h hs
  | enabled up =>
    cases hs
    exact h.move up r.queue.fRxArmSn r.queue.cqArm r.queue.cqDb rfl rfl (Nat.le_refl _) h.counting.handled_le h.copying.held

theorem start_kept {fLkey : BitVec 32} {fRxBufDMA : BitVec 64} {q : State} (hmapped : fRxBufDMA ≠ 0)
    (hq : State.createRxResources fLkey fRxBufDMA = some q) : (start q).Kept := by
  obtain ⟨wq,hwq⟩ := State.createRxResources_eq fLkey fRxBufDMA
  obtain rfl := Option.some.inj (hwq.symm.trans hq)
  refine ⟨hmapped,⟨rfl,rfl,rfl,rfl,Nat.le_refl 0,Nat.zero_le _⟩,⟨rfl,ringWritten_zero (fun _ _ => rfl),?_⟩,
    ⟨fun i => List.length_replicate,?_,?_,?_,fun n p hp => absurd hp List.not_mem_nil⟩,⟨rfl,?_⟩⟩
  · intro p cqe hp
    cases hp
  · intro n j b _ hw
    cases hw
  · intro n j b hw
    cases hw
  · intro k hk
    cases hk
  · intro n i hi
    cases hi

/-! ## Runs -/

/-- All 256 slots stay in use, each CQE returns its own one, and packets are what was received. -/
structure Sound (r : Run) : Prop where
  order : r.handled ≤ r.completed.length ∧ r.completed.length ≤ r.posted
  /-- Between two CQEs there are 256 WQEs that are not completed, or completed and not handled. -/
  window : r.queue.pc = .idle ∨ r.queue.pc = .scan → r.posted = r.handled + 256
  reposted : r.reposted.length + 256 = r.posted
  /-- The slot posted for a CQE is the one that the CQE names. -/
  slot : ∀ n i : ℕ, r.reposted[n]? = some i → ∃ cqe : Cqe, r.completed[n]? = some cqe ∧
    i = (cqe.wqeCounter &&& 255).toNat
  packet : ∀ n p, (n,p) ∈ r.passed → Packet r.completed r.wrote n p
  /-- Where the device has written as many bytes as it says, the packet is these bytes. -/
  data : ∀ n p data, (n,p) ∈ r.passed → data.length = p.length → (∀ j < data.length, r.wrote n j = data[j]?) →
    p = data

theorem Packet.eq {completed : List Cqe} {wrote : ℕ → ℕ → Option (BitVec 8)} {packet data : List (BitVec 8)}
    (h : Packet completed wrote n packet) (hlen : data.length = packet.length)
    (hdata : ∀ j < data.length, wrote n j = data[j]?) : packet = data := by
  refine List.ext_getElem hlen.symm (fun j hj hj' => ?_)
  have hw := hdata j hj'
  rw [List.getElem?_eq_getElem hj'] at hw
  have hp := h.bytes j _ hj hw
  rw [List.getElem?_eq_getElem hj] at hp
  exact Option.some.inj hp

theorem Kept.sound (h : r.Kept) : r.Sound := by
  have hhandled := h.counting.handled_le
  have hproduced := h.counting.produced_le
  have hposted := h.counting.posted
  have hlist := h.completing.produced
  have hcount := h.reposting.length
  have hle : r.queue.pc.published ≤ r.queue.pc.posted ∧ r.queue.pc.posted ≤ r.queue.pc.handling := by
    cases r.queue.pc <;> simp [PollPc.published, PollPc.posted, PollPc.handling]
  refine ⟨⟨by omega,by omega⟩,fun hpc => ?_,hcount,fun n i hi => ?_,fun n p hp => (h.copying.passed n p hp).2,
    fun n p data hp => (h.copying.passed n p hp).2.eq⟩
  · rcases hpc with hpc | hpc
    · rw [hpc] at hposted
      exact hposted
    · rw [hpc] at hposted
      exact hposted
  · obtain ⟨hn,-⟩ := List.getElem?_eq_some_iff.mp hi
    have hlt : n < r.completed.length := by omega
    have hcqe := List.getElem?_eq_getElem hlt
    refine ⟨_,hcqe,?_⟩
    rw [h.completing.counter n _ hcqe, slot_eq]
    exact h.reposting.slot n i hi

/-- A poll that finds a CQE for a pool at address 0 only counts it. -/
theorem poll_unmapped (hdma : r.queue.fRxBufDMA = 0) (hpc : r.queue.pc = .idle) (hfinds : r.queue.findsCqe = true) (m : Bool) :
    ((r.poll m).poll m).poll m = { r with
      queue := { r.queue with
        fRxArmSn := r.queue.fRxArmSn + 1
        fRxCqCc := r.queue.fRxCqCc + 1
        pc := .scan }
      handled := r.handled + 1 } := by
  have hscan : r.poll m = { r with queue := { r.queue with fRxArmSn := r.queue.fRxArmSn + 1, pc := .scan } } := by
    simp only [poll, State.poll, hpc]
  have hhandle : (r.poll m).poll m = { r with queue := { r.queue with fRxArmSn := r.queue.fRxArmSn + 1, pc := .handle } } := by
    rw [hscan]
    exact congrArg (fun q => { r with queue := q })
      (State.poll_found (s := { r.queue with fRxArmSn := r.queue.fRxArmSn + 1, pc := .scan }) rfl hfinds m)
  rw [hhandle]
  simp only [poll, State.poll, if_pos hdma, if_true]

/-- At address 0 the first CQE returns no WQE. -/
theorem not_sound_unmapped {fLkey : BitVec 32} {q : State} (hq : State.createRxResources fLkey 0 = some q) :
    ∃ r, Reach step Free (start q) r ∧ ¬ r.Sound := by
  obtain ⟨wq,hwq⟩ := State.createRxResources_eq fLkey 0
  obtain rfl := Option.some.inj (hwq.symm.trans hq)
  have hready : (Function.update (fun _ => Cqe.created) (0 % 2 ^ logRqSize) ⟨0,0,0⟩ ((0 : BitVec 32) &&& 255).toNat).ready
      logRqSize 0 = true := by decide
  obtain ⟨r,hr,hdma,hpc,hfinds,hposted,hhandled⟩ : ∃ r,
      step (start { State.fresh fLkey 0 with fWqBuf := wq, fRxPc := 256, rqDb := 256 }) (.complete ⟨0,0,0⟩) = some r ∧
        r.queue.fRxBufDMA = 0 ∧ r.queue.pc = .idle ∧ r.queue.findsCqe = true ∧ r.posted = 256 ∧ r.handled = 0 := by
    refine ⟨_,congrArg (Option.map _) (if_pos ⟨?_,?_,rfl,Nat.zero_le _⟩),rfl,rfl,hready,rfl,rfl⟩
    · show (256 : BitVec 16) ≠ 0
      decide
    · show Cqe.Written logRqSize 0 ⟨0,0,0⟩
      decide
  refine ⟨_,reach_of_after [.poll true,.poll true,.poll true] (.next .start trivial hr) rfl,fun hsound => ?_⟩
  rw [poll_unmapped hdma hpc hfinds] at hsound
  have hwindow := hsound.window (.inr rfl)
  dsimp only at hwindow
  omega

/-- Every run keeps the slots in use exactly if the pool has an address other than 0. -/
theorem recycling_run (fLkey : BitVec 32) (fRxBufDMA : BitVec 64) (q : State)
    (hq : State.createRxResources fLkey fRxBufDMA = some q) :
    (∀ r, Reach step Free (start q) r → r.Sound) ↔ fRxBufDMA ≠ 0 := by
  constructor
  · rintro hall rfl
    obtain ⟨r,hr,hnot⟩ := not_sound_unmapped hq
    exact hnot (hall r hr)
  · intro hmapped r hr
    exact (hr.invariant (start_kept hmapped hq) (fun _ _ _ h _ hs => step_kept h hs)).sound

/-- A packet of two bytes arrives and is passed up, while the next one is written. -/
def packetEvents : List Event :=
  [.enabled true,.dma 0 1 8,.dma 1 0 5,.dma 0 0 7,.complete ⟨0,2,0x20⟩,.poll true,.poll true,.poll true,.poll true,
    .poll true,.poll true]

theorem recycling_run_onePacket : ∃ q r, State.createRxResources 0 4096 = some q ∧
    after step packetEvents (start q) = some r ∧
    r.passed = [(0,[7,8])] ∧ r.Sound := by
  have hrun : ((State.createRxResources 0 4096).bind (fun q => after step packetEvents (start q))).any
      (fun r => decide (r.passed = [(0,[7,8])])) = true := by decide +kernel
  obtain ⟨r,hr,hpassed⟩ := (Option.any_eq_true _ _).mp hrun
  obtain ⟨q,hq,hafter⟩ := Option.bind_eq_some_iff.mp hr
  exact ⟨q,r,hq,hafter,of_decide_eq_true hpassed,
    (recycling_run 0 4096 q hq).mpr (by decide) r (reach_of_after packetEvents .start hafter)⟩

/-- A CQE that arrives for a pool at address 0. -/
theorem slot_not_returned : ¬ ∀ (fLkey : BitVec 32) (fRxBufDMA : BitVec 64) (q : State),
    State.createRxResources fLkey fRxBufDMA = some q → ∀ r, Reach step Free (start q) r → r.Sound := by
  intro hall
  obtain ⟨wq,hwq⟩ := State.createRxResources_eq 9 0
  obtain ⟨r,hr,hnot⟩ := not_sound_unmapped hwq
  exact hnot (hall 9 0 _ hwq r hr)

end Run

end AppleMCX.RxQueue
