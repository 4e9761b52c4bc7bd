import AppleMCX.Hw.P0Encoding
import AppleMCX.Ib.Verbs
import AppleMCX.Interaction.Segments

/-! # The memory of the work queues

`MlxQP::createQP` up to the command that it submits, with the two buffers as
`MlxDMA::pinUserMemory` describes them.
-/
namespace AppleMCX.WorkQueue
open Interaction Hw
open Verbs (ringInvalid MLX_DMA_MAX_SEGS)

/-- `mlx_create_qp_req`, as far as it goes into the command. -/
structure CreateQpReq where
  pd : BitVec 32
  sendCq : BitVec 32
  recvCq : BitVec 32
  qpType : BitVec 32
  sqSize : BitVec 32
  rqSize : BitVec 32
  sqBufAddr : BitVec 64
  rqBufAddr : BitVec 64

/-! ## Pinning -/

/-- What the calls of `pinUserMemory` answer. `gen64IOVMSegments` answers by the segments that
it finds from the offset on, and by none where it fails. -/
structure PinAnswers where
  withAddressRange : Bool
  withSpecification : Bool
  setMemoryDescriptor : IOReturn
  gen64IOVMSegments : List (List Segment)
  record : Bool
  added : Bool

/-- `offset` of `pinUserMemory`, and its `paList` with `paLen`. -/
structure Pinned where
  offset : ℕ
  segs : List Segment

/-- The segments of one answer, as long as there is room. -/
def pinBatch : List Segment → Pinned → Pinned
  | [], p => p
  | s :: batch, p =>
    if p.segs.length < MLX_DMA_MAX_SEGS then pinBatch batch ⟨p.offset + s.len,p.segs ++ [s]⟩ else p

def pinLoop (length : ℕ) : List (List Segment) → Pinned → Pinned
  | [], p => p
  | batch :: replies, p =>
    if p.offset < length ∧ p.segs.length < MLX_DMA_MAX_SEGS then
      if batch = [] then p else pinLoop length replies (pinBatch batch p)
    else p

def pinUserMemory (length : ℕ) (a : PinAnswers) : Except IOReturn (List Segment) :=
  if length = 0 then .error .badArgument
  else if !a.withAddressRange then .error .noMemory
  else if !a.withSpecification then .error .noMemory
  else if a.setMemoryDescriptor ≠ .success then .error a.setMemoryDescriptor
  else
    let p := pinLoop length a.gen64IOVMSegments ⟨0,[]⟩
    if p.segs.length = 0 ∨ p.offset ≠ length then
      .error (if p.segs.length = MLX_DMA_MAX_SEGS then .noSpace else .ioError)
    else if !a.record then .error .noMemory
    else if !a.added then .error .noMemory
    else .ok p.segs

/-! ## Creating a queue pair -/

structure Answers where
  allocDbSlots : Option (BitVec 32)
  getDbRecordDMA : BitVec 64
  sq : PinAnswers
  rq : PinAnswers

def pasOff : ℕ := 0x880 / 8

structure CreateQpIn where
  fields : List BitField
  pas : List ℕ
  inSize : ℕ

inductive Outcome
  | returned (kr : IOReturn)
  | submitted (cmd : CreateQpIn)

/-- Nothing is pinned for a ring without an address. -/
def pinRing (bufAddr : BitVec 64) (size : BitVec 32) (a : PinAnswers) : Except IOReturn (List Segment) :=
  if bufAddr ≠ 0 ∧ size ≠ 0 then pinUserMemory (size.toNat * 64) a else .ok []

/-- The bits of the queue pair context, which begins at bit 0xc0 of the input. -/
def qpcFields (req : CreateQpReq) (dbRecord : BitVec 64) : List BitField :=
  [⟨0xc0 + 0x08,8,if req.qpType = 0 then 0 else 1⟩,⟨0xc0 + 0x28,24,req.pd.toNat⟩,
    ⟨0xc0 + 0x49,4,Nat.log2 req.rqSize.toNat⟩,⟨0xc0 + 0x4d,3,6⟩,⟨0xc0 + 0x51,4,Nat.log2 req.sqSize.toNat⟩,
    ⟨0xc0 + 0x3e8,24,req.sendCq.toNat⟩,⟨0xc0 + 0x4e8,24,req.recvCq.toNat⟩,⟨0xc0 + 0x500,64,dbRecord.toNat⟩]

/-- `MlxQP::createQP` up to `exec`. -/
def createQP (req : CreateQpReq) (a : Answers) : Outcome :=
  if ringInvalid req.sqSize req.sqBufAddr ∨ ringInvalid req.rqSize req.rqBufAddr then .returned .badArgument
  else if Nat.log2 req.sqSize.toNat > 15 ∨ Nat.log2 req.rqSize.toNat > 15 then .returned .badArgument
  else
  match a.allocDbSlots with
  | none => .returned .noResources
  | some dbRecordOffset =>
  match pinRing req.sqBufAddr req.sqSize a.sq with
  | .error _ => .returned .noSpace
  | .ok sqSegs =>
  match pinRing req.rqBufAddr req.rqSize a.rq with
  | .error _ => .returned .noSpace
  | .ok rqSegs =>
  if sqSegs.length = 0 ∨ rqSegs.length = 0 ∨ sqSegs.length + rqSegs.length > MLX_DMA_MAX_SEGS then .returned .noSpace
  else
    let pas := sqSegs.map (·.addr) ++ rqSegs.map (·.addr)
    .submitted
      { fields := [⟨0x48,24,0⟩,⟨0x80,32,0⟩] ++ qpcFields req (a.getDbRecordDMA + dbRecordOffset.setWidth 64) ++
        [⟨0x860,1,1⟩]
        pas
        inSize := pasOff + 8 * pas.length }

/-! ## What is pinned -/

variable {length : ℕ}

/-- The loop takes the segments from the front, and its offset is what they cover. -/
def Pinned.From (segs : List Segment) (p : Pinned) : Prop := p.segs <+: segs ∧ p.offset = total p.segs

theorem pinBatch_from (batch rest : List Segment) {p : Pinned} (h : p.offset = total p.segs) :
    (pinBatch batch p).From (p.segs ++ batch ++ rest) ∧
      ((pinBatch batch p).segs = p.segs ++ batch ∨ (pinBatch batch p).segs.length ≥ MLX_DMA_MAX_SEGS) := by
  induction batch generalizing p with
  | nil => exact ⟨⟨⟨rest,by rw [pinBatch, List.append_nil]⟩,h⟩,.inl (List.append_nil _).symm⟩
  | cons s batch ih =>
    unfold pinBatch
    split
    · have hoff : p.offset + s.len = total (p.segs ++ [s]) := by
        rw [total_append, h, total_cons, total_nil, Nat.add_zero]
      have hnext := ih (p := ⟨p.offset + s.len,p.segs ++ [s]⟩) hoff
      rwa [List.append_assoc p.segs, List.singleton_append] at hnext
    · rename_i hfull
      exact ⟨⟨⟨s :: batch ++ rest,by rw [List.append_assoc]⟩,h⟩,.inr (by omega)⟩

theorem pinLoop_from (length : ℕ) (replies : List (List Segment)) {p : Pinned} (h : p.offset = total p.segs) :
    (pinLoop length replies p).From (p.segs ++ replies.flatten) := by
  induction replies generalizing p with
  | nil => exact ⟨⟨[],by simp [pinLoop]⟩,h⟩
  | cons batch replies ih =>
    have hstay : p.From (p.segs ++ (batch :: replies).flatten) := ⟨List.prefix_append _ _,h⟩
    unfold pinLoop
    split
    · split
      · exact hstay
      · obtain ⟨hfrom,hall | hfull⟩ := pinBatch_from batch replies.flatten h
        · have hnext := ih (p := pinBatch batch p) hfrom.2
          rwa [hall, List.append_assoc, ← List.flatten_cons] at hnext
        · -- the outer loop ends as well once the list is full
          have hend : pinLoop length replies (pinBatch batch p) = pinBatch batch p := by
            cases replies with
            | nil => rfl
            | cons => rw [pinLoop, if_neg (by omega)]
          rw [hend, List.flatten_cons, ← List.append_assoc]
          exact hfrom
    · exact hstay

variable {dev sqDev rqDev : ℕ → ℕ} {a : PinAnswers} {segs : List Segment}

/-- A buffer that is pinned is pinned with all its segments. -/
theorem pinUserMemory_eq (h : Covers dev length a.gen64IOVMSegments.flatten) (hok : pinUserMemory length a = .ok segs) :
    segs = a.gen64IOVMSegments.flatten := by
  have hfrom := pinLoop_from length a.gen64IOVMSegments (p := ⟨0,[]⟩) rfl
  unfold pinUserMemory at hok
  simp only at hok
  split_ifs at hok with _ _ _ _ hcount
  obtain ⟨⟨rest,hrest⟩,htotal⟩ := hfrom
  rw [List.nil_append] at hrest
  cases hok
  have hall := h.total
  rw [← hrest, total_append] at hall
  by_cases hnil : rest = []
  · rw [← hrest, hnil, List.append_nil]
  · have hpos := total_pos (fun s hs => h.pos s (hrest ▸ List.mem_append_right _ hs)) hnil
    omega

/-- A ring with a segment has been pinned. -/
theorem pinRing_eq {bufAddr : BitVec 64} {size : BitVec 32} (hok : pinRing bufAddr size a = .ok segs)
    (h : Covers dev (size.toNat * 64) a.gen64IOVMSegments.flatten) (hne : segs.length ≠ 0) :
    segs = a.gen64IOVMSegments.flatten := by
  unfold pinRing at hok
  split_ifs at hok
  · exact pinUserMemory_eq h hok
  · cases hok
    exact absurd rfl hne

theorem createQP_submitted {req : CreateQpReq} {a : Answers} {cmd : CreateQpIn} (h : createQP req a = .submitted cmd)
    (hsq : Covers sqDev (req.sqSize.toNat * 64) a.sq.gen64IOVMSegments.flatten)
    (hrq : Covers rqDev (req.rqSize.toNat * 64) a.rq.gen64IOVMSegments.flatten) :
    4096 ∣ req.sqSize.toNat * 64 + req.rqSize.toNat * 64 ∧
      cmd.pas = (a.sq.gen64IOVMSegments.flatten ++ a.rq.gen64IOVMSegments.flatten).map (·.addr) ∧
      cmd.inSize = pasOff + 8 * cmd.pas.length := by
  unfold createQP at h
  split_ifs at h with hvalid hlog
  cases hdb : a.allocDbSlots with
  | none => rw [hdb] at h; cases h
  | some dbRecordOffset =>
    cases hsqPin : pinRing req.sqBufAddr req.sqSize a.sq with
    | error kr => rw [hdb, hsqPin] at h; cases h
    | ok sqSegs =>
      cases hrqPin : pinRing req.rqBufAddr req.rqSize a.rq with
      | error kr => rw [hdb, hsqPin, hrqPin] at h; cases h
      | ok rqSegs =>
        rw [hdb, hsqPin, hrqPin] at h
        simp only at h
        split_ifs at h with hcount
        cases h
        refine ⟨?_,?_,rfl⟩
        · have hring := hvalid
          simp only [ringInvalid, decide_eq_true_eq, not_or, not_not] at hring
          omega
        · rw [pinRing_eq hsqPin hsq (by omega), pinRing_eq hrqPin hrq (by omega), List.map_append]

/-- The addresses in the input are those of the pages of the buffer behind `dev`, all of them. -/
def CreateQpIn.Describes (dev : ℕ → ℕ) (pages : ℕ) (cmd : CreateQpIn) : Prop :=
  (cmd.pas.length = pages ∧ ∀ i, (hi : i < cmd.pas.length) → PageAt 4096 dev i cmd.pas[i]) ∧
    cmd.inSize = pasOff + 8 * pages

/-- What is submitted names the pages of the two buffers exactly if every segment is a page. -/
theorem createQP_describes_iff {req : CreateQpReq} {a : Answers} {cmd : CreateQpIn} (h : createQP req a = .submitted cmd)
    (hsq : Covers sqDev (req.sqSize.toNat * 64) a.sq.gen64IOVMSegments.flatten)
    (hrq : Covers rqDev (req.rqSize.toNat * 64) a.rq.gen64IOVMSegments.flatten) :
    cmd.Describes (behind (req.sqSize.toNat * 64) sqDev rqDev) ((req.sqSize.toNat * 64 + req.rqSize.toNat * 64) / 4096) ↔
      ∀ s ∈ a.sq.gen64IOVMSegments.flatten ++ a.rq.gen64IOVMSegments.flatten, s.len = 4096 := by
  obtain ⟨hdvd,hpas,hsize⟩ := createQP_submitted h hsq hrq
  have hpages := pages_iff (hsq.behind hrq) hdvd
  rw [← hpas] at hpages
  constructor
  · exact fun hdesc => hpages.1 hdesc.1
  · intro hlen
    have hdesc := hpages.2 hlen
    exact ⟨hdesc,by rw [hsize, hdesc.1]⟩

def exampleReq (sqSize : BitVec 32) : CreateQpReq := ⟨1,5,5,0,sqSize,64,0x100000,0x200000⟩

def exampleAnswers (sqLen : ℕ) : Answers :=
  ⟨some 0,0x8000,⟨true,true,.success,[[⟨0x40000,sqLen⟩]],true,true⟩,
    ⟨true,true,.success,[[⟨0x90000,4096⟩]],true,true⟩⟩

theorem covers_one (addr : ℕ) {len : ℕ} (hlen : 0 < len) : Covers (addr + ·) len [⟨addr,len⟩] := by
  refine ⟨⟨fun x _ => by rw [Nat.zero_add],trivial⟩,fun s hs => ?_,rfl⟩
  rw [List.mem_singleton] at hs
  rw [hs]
  exact hlen

theorem createQP_describes_onePage : ∃ cmd, createQP (exampleReq 64) (exampleAnswers 4096) = .submitted cmd ∧
    cmd.Describes (behind 4096 (0x40000 + ·) (0x90000 + ·)) 2 :=
  have hsubmit : ∃ cmd, createQP (exampleReq 64) (exampleAnswers 4096) = .submitted cmd := ⟨_,rfl⟩
  hsubmit.imp fun _ h =>
    ⟨h,(createQP_describes_iff h (covers_one 0x40000 (by decide)) (covers_one 0x90000 (by decide))).2 (by decide)⟩

/-- A buffer of two pages in one segment gets one address. -/
theorem createQP_describes_merged : ¬ ∀ (req : CreateQpReq) (a : Answers) (cmd : CreateQpIn) (sqDev rqDev : ℕ → ℕ),
    createQP req a = .submitted cmd → Covers sqDev (req.sqSize.toNat * 64) a.sq.gen64IOVMSegments.flatten →
    Covers rqDev (req.rqSize.toNat * 64) a.rq.gen64IOVMSegments.flatten →
    cmd.Describes (behind (req.sqSize.toNat * 64) sqDev rqDev) ((req.sqSize.toNat * 64 + req.rqSize.toNat * 64) / 4096) := by
  intro hall
  have hdesc := hall (exampleReq 128) (exampleAnswers 8192) _ (0x40000 + ·) (0x90000 + ·) rfl
    (covers_one 0x40000 (by decide)) (covers_one 0x90000 (by decide))
  exact absurd hdesc.1.1 (by decide)

end AppleMCX.WorkQueue
