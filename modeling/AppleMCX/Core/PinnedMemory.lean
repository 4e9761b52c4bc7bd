import AppleMCX.Ib.WorkQueue
import AppleMCX.Interaction.Transition
import Mathlib.Data.List.Nodup
import Mathlib.Logic.Function.Basic

/-! # Looking up pinned addresses

`MlxDMA`: `pinUserMemory` and `unpinMemory` of any number of tasks on the one list of records,
and `lookupPhys`. A pin is known by its number; the driver knows it by the memory descriptor
only, which may be used again once it is released.
-/
namespace AppleMCX.PinnedMemory
open Interaction
open WorkQueue (PinAnswers pinUserMemory)

/-- What is kept of a `MlxDMAReq` in `fPendingReqs`. -/
structure PinRecord (τ : Type) where
  ownerTask : τ
  virtAddr : ℕ
  length : ℕ
  segs : List Segment
  memDesc : ℕ
  deriving DecidableEq, Repr

/-- The search through `paList` and `paLenList`. -/
def lookupSegs : List Segment → ℕ → ℕ → ℕ
  | [], _, _ => 0
  | s :: segs, acc, offset => if offset < acc + s.len then s.addr + (offset - acc) else lookupSegs segs (acc + s.len) offset

def lookupPhys {τ : Type} [DecidableEq τ] (ownerTask : τ) (virtAddr : ℕ) : List (PinRecord τ) → ℕ
  | [] => 0
  | req :: reqs =>
    if req.ownerTask ≠ ownerTask ∨ virtAddr < req.virtAddr then lookupPhys ownerTask virtAddr reqs
    else if virtAddr - req.virtAddr ≥ req.length then lookupPhys ownerTask virtAddr reqs
    else lookupSegs req.segs 0 (virtAddr - req.virtAddr)

/-- A buffer from pinning to unpinning, byte `x` of which the device finds at `dev x`. -/
structure Pin (τ : Type) where
  number : ℕ
  task : τ
  virtAddr : ℕ
  length : ℕ
  dev : ℕ → ℕ
  memDesc : ℕ

/-- `memDesc` of a caller's `MlxDMAReq`, and the pin it came with. -/
structure Held where
  memDesc : ℕ
  number : ℕ
  deriving DecidableEq, Repr

/-- The list of records, the requests of the callers, and the live pins. -/
structure State (τ ρ : Type) where
  fPendingReqs : List (PinRecord τ)
  reqs : ρ → Option Held
  live : List (Pin τ)
  next : ℕ

def initial (τ ρ : Type) : State τ ρ := ⟨[],fun _ => none,[],0⟩

inductive Action (τ ρ : Type)
  /-- `pinUserMemory` of a task with the answers it gets, among them the memory descriptor. -/
  | pin (req : ρ) (task : τ) (virtAddr length : ℕ) (answers : PinAnswers) (memDesc : ℕ) (dev : ℕ → ℕ)
  | unpin (req : ρ)
  /-- A caller copies a request and forgets the original. -/
  | move (req req' : ρ)

section
variable {τ ρ : Type} [DecidableEq ρ]

namespace State

def pin (req : ρ) (task : τ) (virtAddr length : ℕ) (answers : PinAnswers)
    (memDesc : ℕ) (dev : ℕ → ℕ) (s : State τ ρ) :
    State τ ρ :=
  match pinUserMemory length answers with
  | .ok segs =>
    { fPendingReqs := s.fPendingReqs ++ [⟨task,virtAddr,length,segs,memDesc⟩]
      reqs := Function.update s.reqs req (some ⟨memDesc,s.next⟩)
      live := s.live ++ [⟨s.next,task,virtAddr,length,dev,memDesc⟩]
      next := s.next + 1 }
  | .error _ => if length = 0 then s else { s with reqs := Function.update s.reqs req none }

def unpin (req : ρ) (s : State τ ρ) : State τ ρ :=
  match s.reqs req with
  | some held =>
    { s with
      fPendingReqs := s.fPendingReqs.eraseP (fun active => active.memDesc = held.memDesc)
      reqs := Function.update s.reqs req none
      live := s.live.filter (fun p => p.number ≠ held.number) }
  | none => s

def move (req req' : ρ) (s : State τ ρ) : State τ ρ :=
  { s with reqs := Function.update (Function.update s.reqs req none) req' (s.reqs req) }

def step (s : State τ ρ) : Action τ ρ → Option (State τ ρ)
  | .pin req task virtAddr length answers memDesc dev => some (s.pin req task virtAddr length answers memDesc dev)
  | .unpin req => some (s.unpin req)
  | .move req req' => some (s.move req req')

/-- A memory descriptor is one that is not in use, and the segments are the bytes in order. -/
def InOrder (s : State τ ρ) : Action τ ρ → Prop
  | .pin _ _ _ _ answers memDesc dev =>
    memDesc ∉ s.fPendingReqs.map PinRecord.memDesc ∧ Maps dev 0 answers.gen64IOVMSegments.flatten
  | _ => True

end State
end

/-! ## One record -/

/-- The search finds the segment that the byte is in. -/
theorem lookupSegs_eq {dev : ℕ → ℕ} {segs : List Segment} {acc offset : ℕ} (h : Maps dev acc segs) (hge : acc ≤ offset)
    (hlt : offset < acc + total segs) : lookupSegs segs acc offset = dev offset := by
  induction segs generalizing acc with
  | nil =>
    rw [total_nil] at hlt
    omega
  | cons s segs ih =>
    rw [total_cons] at hlt
    unfold lookupSegs
    split
    · have hbyte := h.1 (offset - acc) (by omega)
      rw [Nat.add_sub_cancel' hge] at hbyte
      exact hbyte.symm
    · exact ih h.2 (by omega) (by omega)

/-- What is pinned are the segments from the front on, as many as the buffer is long. -/
theorem pinUserMemory_total {length : ℕ} {a : PinAnswers} {segs : List Segment} (h : pinUserMemory length a = .ok segs) :
    segs <+: a.gen64IOVMSegments.flatten ∧ total segs = length := by
  have hfrom := WorkQueue.pinLoop_from length a.gen64IOVMSegments (p := ⟨0,[]⟩) rfl
  unfold pinUserMemory at h
  simp only at h
  split_ifs at h with _ _ _ _ hcount
  cases h
  obtain ⟨hpre,htotal⟩ := hfrom
  rw [List.nil_append] at hpre
  exact ⟨hpre,by omega⟩

section
variable {τ : Type}

structure PinRecord.Describes (r : PinRecord τ) (p : Pin τ) : Prop where
  ownerTask : r.ownerTask = p.task
  virtAddr : r.virtAddr = p.virtAddr
  length : r.length = p.length
  memDesc : r.memDesc = p.memDesc
  maps : Maps p.dev 0 r.segs
  total : total r.segs = r.length

def Pin.Covers (p : Pin τ) (task : τ) (virtAddr : ℕ) : Prop :=
  p.task = task ∧ p.virtAddr ≤ virtAddr ∧ virtAddr < p.virtAddr + p.length

def PinRecord.Covers (r : PinRecord τ) (task : τ) (virtAddr : ℕ) : Prop :=
  r.ownerTask = task ∧ r.virtAddr ≤ virtAddr ∧ virtAddr < r.virtAddr + r.length

theorem PinRecord.Describes.covers {r : PinRecord τ} {p : Pin τ} (h : r.Describes p) (task : τ) (virtAddr : ℕ) :
    r.Covers task virtAddr ↔ p.Covers task virtAddr := by
  rw [PinRecord.Covers, Pin.Covers, h.ownerTask, h.virtAddr, h.length]

variable [DecidableEq τ]

instance (r : PinRecord τ) (task : τ) (virtAddr : ℕ) : Decidable (r.Covers task virtAddr) :=
  inferInstanceAs (Decidable (_ ∧ _ ∧ _))

/-- The first record that covers the address is searched. -/
theorem lookupPhys_eq (task : τ) (virtAddr : ℕ) (reqs : List (PinRecord τ)) : lookupPhys task virtAddr reqs =
    match reqs.find? (fun r => r.Covers task virtAddr) with
    | some r => lookupSegs r.segs 0 (virtAddr - r.virtAddr)
    | none => 0 := by
  induction reqs with
  | nil => rfl
  | cons req reqs ih =>
    by_cases hcovers : req.Covers task virtAddr
    · have hfind : (req :: reqs).find? (fun r => r.Covers task virtAddr) = some req :=
        List.find?_cons_of_pos (decide_eq_true hcovers)
      obtain ⟨htask,hge,hlt⟩ := hcovers
      have hnear : ¬ (req.ownerTask ≠ task ∨ virtAddr < req.virtAddr) :=
        not_or.mpr ⟨not_not.mpr htask,Nat.not_lt.mpr hge⟩
      rw [hfind, lookupPhys, if_neg hnear, if_neg (by omega)]
    · rw [List.find?_cons_of_neg (by simpa using hcovers), ← ih, lookupPhys]
      split
      · rfl
      · rename_i hnear
        obtain ⟨htask,hge⟩ := not_or.mp hnear
        have hfar : virtAddr - req.virtAddr ≥ req.length := by
          by_contra hno
          exact hcovers ⟨not_not.mp htask,by omega,by omega⟩
        rw [if_pos hfar]

end

/-! ## All records -/

section
variable {τ ρ : Type}

theorem mem_eraseP_iff {l : List (PinRecord τ)} (h : (l.map PinRecord.memDesc).Nodup) (r : PinRecord τ) (memDesc : ℕ) :
    r ∈ l.eraseP (fun active => active.memDesc = memDesc) ↔ r ∈ l ∧ r.memDesc ≠ memDesc := by
  induction l with
  | nil => simp
  | cons a l ih =>
    rw [List.map_cons, List.nodup_cons] at h
    by_cases ha : a.memDesc = memDesc
    · rw [List.eraseP_cons_of_pos (by simpa using ha)]
      constructor
      · intro hr
        refine ⟨List.mem_cons_of_mem _ hr,fun he => h.1 (List.mem_map.mpr ⟨r,hr,?_⟩)⟩
        rw [he, ha]
      · rintro ⟨hr,hne⟩
        refine (List.mem_cons.mp hr).resolve_left ?_
        rintro rfl
        exact hne ha
    · rw [List.eraseP_cons_of_neg (by simpa using ha), List.mem_cons, List.mem_cons, ih h.2]
      constructor
      · rintro (rfl | ⟨hr,hne⟩)
        · exact ⟨Or.inl rfl,ha⟩
        · exact ⟨Or.inr hr,hne⟩
      · rintro ⟨rfl | hr,hne⟩
        · exact Or.inl rfl
        · exact Or.inr ⟨hr,hne⟩

namespace State

/-- The records are those of the live pins, and the requests of the callers name different ones. -/
structure Kept (s : State τ ρ) : Prop where
  recorded : ∀ r ∈ s.fPendingReqs, ∃ p ∈ s.live, r.Describes p
  pinned : ∀ p ∈ s.live, ∃ r ∈ s.fPendingReqs, r.Describes p
  memDescs : (s.fPendingReqs.map PinRecord.memDesc).Nodup
  same : ∀ p ∈ s.live, ∀ p' ∈ s.live, p.memDesc = p'.memDesc ↔ p.number = p'.number
  below : ∀ p ∈ s.live, p.number < s.next
  held : ∀ q k, s.reqs q = some k → ∃ p ∈ s.live, p.number = k.number ∧ p.memDesc = k.memDesc
  own : ∀ q q' k k', s.reqs q = some k → s.reqs q' = some k' → k.number = k'.number → q = q'

theorem kept_initial : (initial τ ρ).Kept where
  recorded _ h := absurd h List.not_mem_nil
  pinned _ h := absurd h List.not_mem_nil
  memDescs := .nil
  same _ h := absurd h List.not_mem_nil
  below _ h := absurd h List.not_mem_nil
  held _ _ h := by cases h
  own _ _ _ _ h := by cases h

variable [DecidableEq ρ] {s t : State τ ρ}

theorem Kept.drop (h : s.Kept) (req : ρ) : Kept { s with reqs := Function.update s.reqs req none } := by
  have hold : ∀ q k, Function.update s.reqs req none q = some k → s.reqs q = some k := by
    intro q k hq
    rw [Function.update_apply] at hq
    split at hq
    · cases hq
    · exact hq
  exact ⟨h.recorded,h.pinned,h.memDescs,h.same,h.below,fun q k hq => h.held q k (hold q k hq),
    fun q q' k k' hq hq' => h.own q q' k k' (hold q k hq) (hold q' k' hq')⟩

theorem Kept.move (h : s.Kept) (req req' : ρ) : (s.move req req').Kept := by
  have hdrop := h.drop req
  have hold : ∀ q k, (s.move req req').reqs q = some k →
      q = req' ∧ s.reqs req = some k ∨ q ≠ req' ∧ Function.update s.reqs req none q = some k := by
    intro q k hq
    have hq' : Function.update (Function.update s.reqs req none) req' (s.reqs req) q = some k := hq
    rw [Function.update_apply] at hq'
    split at hq'
    · rename_i he
      exact Or.inl ⟨he,hq'⟩
    · rename_i hne
      exact Or.inr ⟨hne,hq'⟩
  -- what another request holds is not what the moved one held
  have hother : ∀ q k k', s.reqs req = some k → Function.update s.reqs req none q = some k' → k.number ≠ k'.number := by
    intro q k k' hk hk' he
    rw [Function.update_apply] at hk'
    split at hk'
    · cases hk'
    · rename_i hne
      exact hne (h.own q req k' k hk' hk he.symm)
  refine ⟨h.recorded,h.pinned,h.memDescs,h.same,h.below,fun q k hq => ?_,fun q q' k k' hq hq' he => ?_⟩
  · rcases hold q k hq with ⟨-,hk⟩ | ⟨-,hk⟩
    · exact h.held req k hk
    · exact hdrop.held q k hk
  · rcases hold q k hq with ⟨hq,hk⟩ | ⟨-,hk⟩ <;> rcases hold q' k' hq' with ⟨hq',hk'⟩ | ⟨-,hk'⟩
    · rw [hq, hq']
    · exact absurd he (hother q' k k' hk hk')
    · exact absurd he.symm (hother q k' k hk' hk)
    · exact hdrop.own q q' k k' hk hk' he

theorem Kept.unpin (h : s.Kept) (req : ρ) : (s.unpin req).Kept := by
  unfold State.unpin
  split
  · rename_i k hreq
    obtain ⟨p₀,hp₀,hnumber,hmemDesc⟩ := h.held req k hreq
    have hsame : ∀ p ∈ s.live, p.memDesc = k.memDesc ↔ p.number = k.number := by
      intro p hp
      rw [← hnumber, ← hmemDesc]
      exact h.same p hp p₀ hp₀
    have hmem : ∀ r, r ∈ s.fPendingReqs.eraseP (fun active => active.memDesc = k.memDesc) ↔
        r ∈ s.fPendingReqs ∧ r.memDesc ≠ k.memDesc := fun r => mem_eraseP_iff h.memDescs r k.memDesc
    have hlive : ∀ p, p ∈ s.live.filter (fun p => p.number ≠ k.number) ↔ p ∈ s.live ∧ p.number ≠ k.number := by
      intro p
      rw [List.mem_filter, decide_eq_true_iff]
    have hdrop := h.drop req
    refine ⟨fun r hr => ?_,fun p hp => ?_,h.memDescs.sublist (List.eraseP_sublist.map _),fun p hp p' hp' => ?_,
      fun p hp => h.below p ((hlive p).mp hp).1,fun q k' hq => ?_,hdrop.own⟩
    · obtain ⟨hr,hne⟩ := (hmem r).mp hr
      obtain ⟨p,hp,hdesc⟩ := h.recorded r hr
      rw [hdesc.memDesc] at hne
      exact ⟨p,(hlive p).mpr ⟨hp,fun he => hne ((hsame p hp).mpr he)⟩,hdesc⟩
    · obtain ⟨hp,hne⟩ := (hlive p).mp hp
      obtain ⟨r,hr,hdesc⟩ := h.pinned p hp
      refine ⟨r,(hmem r).mpr ⟨hr,fun he => hne ((hsame p hp).mp ?_)⟩,hdesc⟩
      rw [← hdesc.memDesc, he]
    · exact h.same p ((hlive p).mp hp).1 p' ((hlive p').mp hp').1
    · obtain ⟨p,hp,hpn,hpm⟩ := hdrop.held q k' hq
      refine ⟨p,(hlive p).mpr ⟨hp,fun he => ?_⟩,hpn,hpm⟩
      -- only the request that is unpinned holds this pin
      have hq' : Function.update s.reqs req none q = some k' := hq
      rw [Function.update_apply] at hq'
      split at hq'
      · cases hq'
      · rename_i hne
        exact hne (h.own q req k' k hq' hreq (hpn.symm.trans he))
  · exact h

theorem Kept.pin (h : s.Kept) {req : ρ} {task : τ} {virtAddr length : ℕ}
    {answers : PinAnswers} {memDesc : ℕ} {dev : ℕ → ℕ}
    (horder : s.InOrder (.pin req task virtAddr length answers memDesc dev)) :
    (s.pin req task virtAddr length answers memDesc dev).Kept := by
  obtain ⟨hfresh,hmaps⟩ := horder
  unfold State.pin
  split
  · rename_i segs hok
    obtain ⟨⟨rest,hrest⟩,htotal⟩ := pinUserMemory_total hok
    have hdesc : PinRecord.Describes ⟨task,virtAddr,length,segs,memDesc⟩ ⟨s.next,task,virtAddr,length,dev,memDesc⟩ := by
      rw [← hrest, maps_append] at hmaps
      exact ⟨rfl,rfl,rfl,rfl,hmaps.1,htotal⟩
    have hunused : ∀ p ∈ s.live, p.memDesc ≠ memDesc := by
      intro p hp he
      obtain ⟨r,hr,hd⟩ := h.pinned p hp
      exact hfresh (List.mem_map.mpr ⟨r,hr,by rw [hd.memDesc, he]⟩)
    have hdrop := h.drop req
    have hold : ∀ q k, Function.update s.reqs req (some ⟨memDesc,s.next⟩) q = some k →
        q = req ∧ k = ⟨memDesc,s.next⟩ ∨ Function.update s.reqs req none q = some k := by
      intro q k hq
      rw [Function.update_apply] at hq ⊢
      split at hq
      · rename_i he
        exact Or.inl ⟨he,(Option.some.inj hq).symm⟩
      · rename_i hne
        rw [if_neg hne]
        exact Or.inr hq
    have hnumber : ∀ q k, Function.update s.reqs req none q = some k → k.number ≠ s.next := by
      intro q k hq he
      obtain ⟨p,hp,hpn,-⟩ := hdrop.held q k hq
      have hlt := h.below p hp
      omega
    refine ⟨fun r hr => ?_,fun p hp => ?_,?_,fun p hp p' hp' => ?_,
      fun p hp => ?_,fun q k hq => ?_,fun q q' k k' hq hq' he => ?_⟩
    · rcases List.mem_append.mp hr with hr | hr
      · obtain ⟨p,hp,hd⟩ := h.recorded r hr
        exact ⟨p,List.mem_append_left _ hp,hd⟩
      · rw [List.mem_singleton.mp hr]
        exact ⟨_,List.mem_append_right _ List.mem_cons_self,hdesc⟩
    · rcases List.mem_append.mp hp with hp | hp
      · obtain ⟨r,hr,hd⟩ := h.pinned p hp
        exact ⟨r,List.mem_append_left _ hr,hd⟩
      · rw [List.mem_singleton.mp hp]
        exact ⟨_,List.mem_append_right _ List.mem_cons_self,hdesc⟩
    · show ((s.fPendingReqs ++ [_]).map PinRecord.memDesc).Nodup
      rw [List.map_append, List.map_singleton]
      refine List.nodup_append.mpr ⟨h.memDescs,List.nodup_singleton _,fun a ha b hb he => ?_⟩
      rw [he, List.mem_singleton.mp hb] at ha
      exact hfresh ha
    · rcases List.mem_append.mp hp with hp | hp <;> rcases List.mem_append.mp hp' with hp' | hp'
      · exact h.same p hp p' hp'
      · rw [List.mem_singleton.mp hp']
        exact iff_of_false (hunused p hp) (Nat.ne_of_lt (h.below p hp))
      · rw [List.mem_singleton.mp hp]
        exact iff_of_false (hunused p' hp').symm (Nat.ne_of_gt (h.below p' hp'))
      · rw [List.mem_singleton.mp hp, List.mem_singleton.mp hp']
        exact iff_of_true rfl rfl
    · rcases List.mem_append.mp hp with hp | hp
      · exact Nat.lt_succ_of_lt (h.below p hp)
      · rw [List.mem_singleton.mp hp]
        exact Nat.lt_succ_self _
    · rcases hold q k hq with ⟨-,rfl⟩ | hq
      · exact ⟨_,List.mem_append_right _ List.mem_cons_self,rfl,rfl⟩
      · obtain ⟨p,hp,hpk⟩ := hdrop.held q k hq
        exact ⟨p,List.mem_append_left _ hp,hpk⟩
    · rcases hold q k hq with ⟨hreq,rfl⟩ | hq <;> rcases hold q' k' hq' with ⟨hreq',rfl⟩ | hq'
      · rw [hreq, hreq']
      · exact absurd he.symm (hnumber q' k' hq')
      · exact absurd he (hnumber q k hq)
      · exact hdrop.own q q' k k' hq hq' he
  · split
    · exact h
    · exact h.drop req

theorem step_kept {a : Action τ ρ} (h : s.Kept) (horder : s.InOrder a) (hs : s.step a = some t) : t.Kept := by
  cases a with
  | pin req task virtAddr length answers memDesc dev =>
    cases hs
    exact h.pin horder
  | unpin req =>
    cases hs
    exact h.unpin req
  | move req req' =>
    cases hs
    exact h.move req req'

/-! ## What a lookup finds -/

variable [DecidableEq τ]

/-- The address that a live pin of the task assigns to the byte, if there is one. -/
structure Sound (s : State τ ρ) : Prop where
  covered : ∀ task virtAddr, (∃ p ∈ s.live, p.Covers task virtAddr) →
    ∃ p ∈ s.live, p.Covers task virtAddr ∧ lookupPhys task virtAddr s.fPendingReqs = p.dev (virtAddr - p.virtAddr)
  uncovered : ∀ task virtAddr, (∀ p ∈ s.live, ¬ p.Covers task virtAddr) → lookupPhys task virtAddr s.fPendingReqs = 0
  /-- Where no device address is 0, the answer 0 tells that there is none. -/
  zero : (∀ p ∈ s.live, ∀ x < p.length, p.dev x ≠ 0) → ∀ task virtAddr,
    lookupPhys task virtAddr s.fPendingReqs = 0 ↔ ∀ p ∈ s.live, ¬ p.Covers task virtAddr

omit [DecidableEq ρ] in
theorem Kept.lookup (h : s.Kept) (task : τ) (virtAddr : ℕ) :
    (∃ p ∈ s.live, p.Covers task virtAddr ∧ lookupPhys task virtAddr s.fPendingReqs = p.dev (virtAddr - p.virtAddr)) ∨
    (∀ p ∈ s.live, ¬ p.Covers task virtAddr) ∧ lookupPhys task virtAddr s.fPendingReqs = 0 := by
  rw [lookupPhys_eq]
  cases hfind : s.fPendingReqs.find? (fun r => r.Covers task virtAddr) with
  | some r =>
    obtain ⟨p,hp,hdesc⟩ := h.recorded r (List.mem_of_find?_eq_some hfind)
    have hcovers := List.find?_some hfind
    rw [decide_eq_true_iff] at hcovers
    refine Or.inl ⟨p,hp,(hdesc.covers task virtAddr).mp hcovers,?_⟩
    obtain ⟨-,hge,hlt⟩ := hcovers
    rw [← hdesc.virtAddr]
    exact lookupSegs_eq hdesc.maps (Nat.zero_le _) (by rw [hdesc.total]; omega)
  | none =>
    refine Or.inr ⟨fun p hp hcovers => ?_,rfl⟩
    obtain ⟨r,hr,hdesc⟩ := h.pinned p hp
    have hno := List.find?_eq_none.mp hfind r hr
    rw [decide_eq_true_iff] at hno
    exact hno ((hdesc.covers task virtAddr).mpr hcovers)

omit [DecidableEq ρ] in
theorem Kept.sound (h : s.Kept) : s.Sound where
  covered task virtAddr := by
    rintro ⟨p,hp,hcovers⟩
    rcases h.lookup task virtAddr with hfound | ⟨hnone,-⟩
    · exact hfound
    · exact absurd hcovers (hnone p hp)
  uncovered task virtAddr hnone := by
    rcases h.lookup task virtAddr with ⟨p,hp,hcovers,-⟩ | ⟨-,hzero⟩
    · exact absurd hcovers (hnone p hp)
    · exact hzero
  zero hpos task virtAddr := by
    rcases h.lookup task virtAddr with ⟨p,hp,hcovers,hfound⟩ | ⟨hnone,hzero⟩
    · have hnot : ¬ ∀ p ∈ s.live, ¬ p.Covers task virtAddr := fun hnone => hnone p hp hcovers
      obtain ⟨-,hge,hlt⟩ := hcovers
      refine iff_of_false (fun hz => hpos p hp (virtAddr - p.virtAddr) (by omega) ?_) hnot
      rw [← hfound, hz]
    · exact iff_of_true hzero hnone

theorem lookup_run (s : State τ ρ) (h : Reach step InOrder (initial τ ρ) s) : s.Sound :=
  (h.invariant kept_initial (fun _ _ _ h horder hs => step_kept h horder hs)).sound

end State
end

namespace State

def twoSegs : PinAnswers := ⟨true,true,.success,[[⟨0x8000,4096⟩],[⟨0x3000,4096⟩]],true,true⟩

def twoSegsDev (x : ℕ) : ℕ := if x < 4096 then 0x8000 + x else 0x3000 + (x - 4096)

theorem twoSegs_maps : Maps twoSegsDev 0 twoSegs.gen64IOVMSegments.flatten := by
  refine ⟨fun x hx => ?_,fun x hx => ?_,trivial⟩
  · have hlt : 0 + x < 4096 := by rw [Nat.zero_add]; exact hx
    rw [twoSegsDev, if_pos hlt, Nat.zero_add]
  · have hge : ¬ 0 + 4096 + x < 4096 := by omega
    rw [twoSegsDev, if_neg hge]
    dsimp only
    omega

def pinned (task memDesc : ℕ) (s : State ℕ ℕ) : State ℕ ℕ := s.pin task task 0x10000 8192 twoSegs memDesc twoSegsDev

theorem pinned_reach {s : State ℕ ℕ} (h : Reach step InOrder (initial ℕ ℕ) s) (task : ℕ) {memDesc : ℕ}
    (hfresh : memDesc ∉ s.fPendingReqs.map PinRecord.memDesc) :
    Reach step InOrder (initial ℕ ℕ) (pinned task memDesc s) := by
  have horder : s.InOrder (.pin task task 0x10000 8192 twoSegs memDesc twoSegsDev) := ⟨hfresh,twoSegs_maps⟩
  exact h.next horder rfl

theorem unpin_reach {s : State ℕ ℕ} (h : Reach step InOrder (initial ℕ ℕ) s) (req : ℕ) :
    Reach step InOrder (initial ℕ ℕ) (s.unpin req) := by
  have horder : s.InOrder (.unpin req) := trivial
  exact h.next horder rfl

/-- Two tasks have pinned the same virtual range, and the first one has unpinned it. -/
theorem lookup_run_twoTasks : ∃ s : State ℕ ℕ,
    (lookupPhys 1 0x11004 s.fPendingReqs = 0x3004 ∧ lookupPhys 0 0x11004 s.fPendingReqs = 0) ∧ s.Sound :=
  ⟨(pinned 1 8 (pinned 0 7 (initial ℕ ℕ))).unpin 0,by decide +kernel,
    lookup_run _ (unpin_reach (pinned_reach (pinned_reach .start 0 List.not_mem_nil) 1 (by decide)) 0)⟩

end State

end AppleMCX.PinnedMemory
