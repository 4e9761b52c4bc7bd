import AppleMCX.Core.Command
import AppleMCX.Interaction.FirstFit
import AppleMCX.Interaction.Transition
import Mathlib.Data.BitVec
import Mathlib.Logic.Function.Basic

/-! # Doorbell slots

`MlxUAR::allocDbSlots` and `freeDbSlots` give out the 128 slots of 32 bits of the doorbell record
page by first fit over a bitmap of two words. The owners of the slots write to the page meanwhile.
-/
namespace AppleMCX.DbSlots
open Interaction

/-- `fDbRecord` is the page by bytes, and `fDbLock` tells whether there is a lock. -/
structure Uar where
  fDbLock : Bool
  fDbBitmap : ℕ → BitVec 64
  fDbRecord : Option (ℕ → BitVec 8)

def slotBit (k : ℕ) : BitVec 64 := 1#64 <<< (k &&& 63)

def slotTaken (fDbBitmap : ℕ → BitVec 64) (k : ℕ) : Bool := fDbBitmap (k >>> 6) &&& slotBit k ≠ 0

def setSlot (fDbBitmap : ℕ → BitVec 64) (k : ℕ) : ℕ → BitVec 64 :=
  Function.update fDbBitmap (k >>> 6) (fDbBitmap (k >>> 6) ||| slotBit k)

def clearSlot (fDbBitmap : ℕ → BitVec 64) (k : ℕ) : ℕ → BitVec 64 :=
  Function.update fDbBitmap (k >>> 6) (fDbBitmap (k >>> 6) &&& ~~~slotBit k)

def forSlots (f : (ℕ → BitVec 64) → ℕ → ℕ → BitVec 64) (slot count : ℕ) (fDbBitmap : ℕ → BitVec 64) :
    ℕ → BitVec 64 :=
  (List.range count).foldl (fun b i => f b (slot + i)) fDbBitmap

def clearBytes (start len : ℕ) (page : ℕ → BitVec 8) : ℕ → BitVec 8 :=
  fun k => if start ≤ k ∧ k < start + len then 0 else page k

/-- The outcome with `*offset`, which is `none` for a null pointer. -/
def allocDbSlots (count : BitVec 32) (offset : Option (BitVec 32)) (u : Uar) : IOReturn × Option (BitVec 32) × Uar :=
  match u.fDbRecord, offset with
  | some page, some _ =>
    if !u.fDbLock ∨ count = 0 ∨ count > 2 then (.badArgument,offset,u)
    else
      match firstFit 128 count.toNat (slotTaken u.fDbBitmap) with
      | some slot =>
        (.success,some (BitVec.ofNat 32 (slot * 4)),
          { u with
            fDbBitmap := forSlots setSlot slot count.toNat u.fDbBitmap
            fDbRecord := some (clearBytes (slot * 4) (count.toNat * 4) page) })
      | none => (.noResources,offset,u)
  | _, _ => (.badArgument,offset,u)

def freeDbSlots (offset count : BitVec 32) (u : Uar) : Uar :=
  if !u.fDbLock ∨ count = 0 ∨ offset % 4 ≠ 0 then u
  else if offset / 4 + count > 128 then u
  else { u with fDbBitmap := forSlots clearSlot (offset / 4).toNat count.toNat u.fDbBitmap }

/-! ## The bitmap by slots -/

variable {b : ℕ → BitVec 64}

theorem slotTaken_eq (b : ℕ → BitVec 64) (k : ℕ) : slotTaken b k = (b (k / 64)).getLsbD (k % 64) := by
  have hword : k >>> 6 = k / 64 := Nat.shiftRight_eq_div_pow k 6
  have hbit : k &&& 63 = k % 64 := Nat.and_two_pow_sub_one_eq_mod k 6
  unfold slotTaken slotBit
  rw [hword, hbit, ← BitVec.twoPow_eq, BitVec.and_twoPow]
  cases hb : (b (k / 64)).getLsbD (k % 64) with
  | false => simp
  | true =>
    have hpow : BitVec.twoPow 64 (k % 64) ≠ 0 := by
      intro hz
      have hone := BitVec.getLsbD_twoPow (w := 64) (k % 64) (k % 64)
      rw [hz] at hone
      simp [Nat.mod_lt] at hone
    simpa using hpow

theorem slotBit_getLsbD (k i : ℕ) : (slotBit k).getLsbD i = decide (k % 64 = i) := by
  have hbit : k &&& 63 = k % 64 := Nat.and_two_pow_sub_one_eq_mod k 6
  rw [slotBit, hbit, ← BitVec.twoPow_eq, BitVec.getLsbD_twoPow, decide_eq_true (Nat.mod_lt k (by decide))]
  rfl

theorem slotTaken_setSlot (b : ℕ → BitVec 64) (k j : ℕ) :
    slotTaken (setSlot b k) j = (decide (j = k) || slotTaken b j) := by
  have hword : k >>> 6 = k / 64 := Nat.shiftRight_eq_div_pow k 6
  rw [slotTaken_eq, slotTaken_eq, setSlot, hword, Function.update_apply]
  split
  · rename_i hw
    rw [BitVec.getLsbD_or, slotBit_getLsbD, ← hw, Bool.or_comm]
    have hiff : k % 64 = j % 64 ↔ j = k := by omega
    rw [decide_eq_decide.mpr hiff]
  · rename_i hw
    have hne : j ≠ k := fun he => hw (by rw [he])
    rw [decide_eq_false hne, Bool.false_or]

theorem slotTaken_clearSlot (b : ℕ → BitVec 64) (k j : ℕ) :
    slotTaken (clearSlot b k) j = (!decide (j = k) && slotTaken b j) := by
  have hword : k >>> 6 = k / 64 := Nat.shiftRight_eq_div_pow k 6
  rw [slotTaken_eq, slotTaken_eq, clearSlot, hword, Function.update_apply]
  split
  · rename_i hw
    have hlt : j % 64 < 64 := Nat.mod_lt j (by decide)
    rw [BitVec.getLsbD_and, BitVec.getLsbD_not, slotBit_getLsbD, ← hw, decide_eq_true hlt, Bool.true_and, Bool.and_comm]
    have hiff : k % 64 = j % 64 ↔ j = k := by omega
    rw [decide_eq_decide.mpr hiff]
  · rename_i hw
    have hne : j ≠ k := fun he => hw (by rw [he])
    rw [decide_eq_false hne, Bool.not_false, Bool.true_and]

theorem forSlots_succ (f : (ℕ → BitVec 64) → ℕ → ℕ → BitVec 64) (slot count : ℕ) (b : ℕ → BitVec 64) :
    forSlots f slot (count + 1) b = f (forSlots f slot count b) (slot + count) := by
  rw [forSlots, List.range_succ, List.foldl_append]
  rfl

theorem has_succ (slot count k : ℕ) : Span.Has ⟨slot,count + 1⟩ k ↔ k = slot + count ∨ Span.Has ⟨slot,count⟩ k := by
  unfold Span.Has
  dsimp only
  omega

theorem slotTaken_setSlots (slot count : ℕ) (b : ℕ → BitVec 64) : slotTaken (forSlots setSlot slot count b) =
    fun k => decide (Span.Has ⟨slot,count⟩ k) || slotTaken b k := by
  funext k
  induction count with
  | zero =>
    have hno : ¬ Span.Has ⟨slot,0⟩ k := by unfold Span.Has; dsimp only; omega
    rw [decide_eq_false hno]
    rfl
  | succ count ih =>
    rw [forSlots_succ, slotTaken_setSlot, ih, ← Bool.or_assoc, ← Bool.decide_or]
    exact congrArg (· || slotTaken b k) (decide_eq_decide.mpr (has_succ slot count k).symm)

theorem slotTaken_clearSlots (slot count : ℕ) (b : ℕ → BitVec 64) : slotTaken (forSlots clearSlot slot count b) =
    fun k => !decide (Span.Has ⟨slot,count⟩ k) && slotTaken b k := by
  funext k
  induction count with
  | zero =>
    have hno : ¬ Span.Has ⟨slot,0⟩ k := by unfold Span.Has; dsimp only; omega
    rw [decide_eq_false hno]
    rfl
  | succ count ih =>
    rw [forSlots_succ, slotTaken_clearSlot, ih, ← Bool.and_assoc, ← Bool.not_or, ← Bool.decide_or]
    exact congrArg (fun x => !x && slotTaken b k) (decide_eq_decide.mpr (has_succ slot count k).symm)

/-! ## Runs -/

/-- The live allocations, as spans of slots, next to the allocator. -/
structure State where
  uar : Uar
  live : List Span

/-- After `init` and `allocDbRecord`. -/
def initial (page : ℕ → BitVec 8) : State := ⟨⟨true,fun _ => 0,some page⟩,[]⟩

inductive Action
  | allocDbSlots (count : BitVec 32) (offset : Option (BitVec 32))
  /-- A live allocation is freed with its own count. -/
  | freeDbSlots (r : Span)
  /-- Somebody writes a byte of the page. -/
  | write (k : ℕ) (x : BitVec 8)
  deriving DecidableEq, Repr

namespace State

def alloc (count : BitVec 32) (offset : Option (BitVec 32)) (s : State) : State :=
  match DbSlots.allocDbSlots count offset s.uar with
  | (.success,some offset,uar) => ⟨uar,s.live ++ [⟨offset.toNat / 4,count.toNat⟩]⟩
  | (_,_,uar) => ⟨uar,s.live⟩

def free (r : Span) (s : State) : State :=
  ⟨DbSlots.freeDbSlots (BitVec.ofNat 32 (r.start * 4)) (BitVec.ofNat 32 r.count) s.uar,s.live.erase r⟩

def step (s : State) : Action → Option State
  | .allocDbSlots count offset => some (s.alloc count offset)
  | .freeDbSlots r => if r ∈ s.live then some (s.free r) else none
  | .write k x => some { s with uar := { s.uar with fDbRecord := s.uar.fDbRecord.map (Function.update · k x) } }

/-- The bitmap marks the slots of the live allocations. -/
structure Kept (s : State) : Prop where
  fDbLock : s.uar.fDbLock = true
  fDbRecord : s.uar.fDbRecord.isSome = true
  marked : Marked 128 (slotTaken s.uar.fDbBitmap) s.live

variable {s t : State} {count : BitVec 32} {offset : Option (BitVec 32)}

theorem kept_initial (page : ℕ → BitVec 8) : (initial page).Kept where
  fDbLock := rfl
  fDbRecord := rfl
  marked := by
    have hfree : slotTaken (fun _ => 0) = fun _ => false := by
      funext k
      rw [slotTaken_eq]
      exact BitVec.getLsbD_zero
    show Marked 128 (slotTaken (fun _ => 0)) []
    rw [hfree]
    exact marked_nil 128

theorem allocDbSlots_cases (h : s.Kept) (count : BitVec 32) (offset : Option (BitVec 32)) :
    (DbSlots.allocDbSlots count offset s.uar = (.badArgument,offset,s.uar) ∧ (offset = none ∨ count = 0 ∨ count > 2)) ∨
    (DbSlots.allocDbSlots count offset s.uar = (.noResources,offset,s.uar) ∧ 0 < count.toNat ∧
      firstFit 128 count.toNat (slotTaken s.uar.fDbBitmap) = none) ∨
    ∃ slot page, firstFit 128 count.toNat (slotTaken s.uar.fDbBitmap) = some slot ∧ s.uar.fDbRecord = some page ∧
      0 < count.toNat ∧ DbSlots.allocDbSlots count offset s.uar =
        (.success,some (BitVec.ofNat 32 (slot * 4)),
          { s.uar with
            fDbBitmap := forSlots setSlot slot count.toNat s.uar.fDbBitmap
            fDbRecord := some (clearBytes (slot * 4) (count.toNat * 4) page) }) := by
  obtain ⟨page,hpage⟩ := Option.isSome_iff_exists.mp h.fDbRecord
  cases offset with
  | none =>
    refine Or.inl ⟨?_,Or.inl rfl⟩
    simp only [DbSlots.allocDbSlots, hpage]
  | some x =>
    by_cases hbad : count = 0 ∨ count > 2
    · refine Or.inl ⟨?_,Or.inr hbad⟩
      simp only [DbSlots.allocDbSlots, hpage, h.fDbLock, Bool.not_true, Bool.false_eq_true, false_or, if_pos hbad]
    · have hpos : 0 < count.toNat := by
        refine Nat.pos_of_ne_zero (fun hz => hbad (Or.inl (BitVec.eq_of_toNat_eq hz)))
      right
      cases hfit : firstFit 128 count.toNat (slotTaken s.uar.fDbBitmap) with
      | none =>
        refine Or.inl ⟨?_,hpos,rfl⟩
        simp only [DbSlots.allocDbSlots, hpage, h.fDbLock, Bool.not_true, Bool.false_eq_true, false_or, if_neg hbad, hfit]
      | some slot =>
        refine Or.inr ⟨slot,page,rfl,hpage,hpos,?_⟩
        simp only [DbSlots.allocDbSlots, hpage, h.fDbLock, Bool.not_true, Bool.false_eq_true, false_or, if_neg hbad, hfit]

theorem slot_toNat {slot : ℕ} (h : slot ≤ 128) : (BitVec.ofNat 32 (slot * 4)).toNat = slot * 4 := by
  rw [BitVec.toNat_ofNat]
  omega

theorem alloc_kept (h : s.Kept) (count : BitVec 32) (offset : Option (BitVec 32)) : (s.alloc count offset).Kept := by
  rcases allocDbSlots_cases h count offset with ⟨heq,-⟩ | ⟨heq,-,-⟩ | ⟨slot,page,hfit,-,hpos,heq⟩
  · simp only [alloc, heq]
    exact h
  · simp only [alloc, heq]
    exact h
  · obtain ⟨hclear,hin,-⟩ := firstFit_some hfit
    have hslot : (BitVec.ofNat 32 (slot * 4)).toNat / 4 = slot := by
      rw [slot_toNat (by omega)]
      omega
    simp only [alloc, heq, hslot]
    refine ⟨h.fDbLock,rfl,?_⟩
    show Marked 128 (slotTaken (forSlots setSlot slot count.toNat s.uar.fDbBitmap)) _
    rw [slotTaken_setSlots]
    exact h.marked.add hclear hpos hin

theorem freeDbSlots_eq {r : Span} (h : s.Kept) (hr : r ∈ s.live) :
    DbSlots.freeDbSlots (BitVec.ofNat 32 (r.start * 4)) (BitVec.ofNat 32 r.count) s.uar =
      { s.uar with fDbBitmap := forSlots clearSlot r.start r.count s.uar.fDbBitmap } := by
  obtain ⟨hpos,hin⟩ := h.marked.inside r hr
  have hstart : (BitVec.ofNat 32 (r.start * 4)).toNat = r.start * 4 := slot_toNat (by omega)
  have hcount : (BitVec.ofNat 32 r.count).toNat = r.count := by
    rw [BitVec.toNat_ofNat]
    omega
  have hdiv : (BitVec.ofNat 32 (r.start * 4) / 4).toNat = r.start := by
    rw [BitVec.toNat_udiv, hstart]
    exact Nat.mul_div_cancel _ (by decide)
  have hne : BitVec.ofNat 32 r.count ≠ 0 := by
    intro hz
    rw [hz] at hcount
    exact Nat.ne_of_gt hpos hcount.symm
  have hmod : ¬ BitVec.ofNat 32 (r.start * 4) % 4 ≠ 0 := by
    refine not_not_intro (BitVec.eq_of_toNat_eq ?_)
    rw [BitVec.toNat_umod, hstart]
    exact Nat.mul_mod_left _ _
  have hle : ¬ BitVec.ofNat 32 (r.start * 4) / 4 + BitVec.ofNat 32 r.count > 128 := by
    have hsum : (BitVec.ofNat 32 (r.start * 4) / 4 + BitVec.ofNat 32 r.count).toNat = r.start + r.count := by
      rw [BitVec.toNat_add, hdiv, hcount]
      omega
    intro hgt
    have hlt : (128 : BitVec 32).toNat < r.start + r.count := hsum ▸ hgt
    have hlimit : (128 : BitVec 32).toNat = 128 := rfl
    omega
  simp only [DbSlots.freeDbSlots, h.fDbLock, Bool.not_true, Bool.false_eq_true, false_or, hne, hmod, if_false, if_neg hle,
    hdiv, hcount]

theorem step_kept {a : Action} (h : s.Kept) (hs : s.step a = some t) : t.Kept := by
  cases a with
  | allocDbSlots count offset =>
    cases hs
    exact alloc_kept h count offset
  | freeDbSlots r =>
    simp only [step] at hs
    split at hs
    · rename_i hr
      cases hs
      have heq := freeDbSlots_eq h hr
      have hmarked := h.marked.remove hr
      unfold free
      rw [heq]
      refine ⟨h.fDbLock,h.fDbRecord,?_⟩
      show Marked 128 (slotTaken (forSlots clearSlot r.start r.count s.uar.fDbBitmap)) _
      rw [slotTaken_clearSlots]
      exact hmarked
    · cases hs
  | write k x =>
    cases hs
    exact ⟨h.fDbLock,by rw [Option.isSome_map]; exact h.fDbRecord,h.marked⟩

/-! ## What an allocation gives -/

def Meets (s : State) (r : Span) : Prop := ∃ k, r.Has k ∧ ∃ r' ∈ s.live, r'.Has k

/-- The slots given out belong to nobody else, and of the page only their records are cleared. -/
structure Allocated (s : State) (count : BitVec 32) (offset : Option (BitVec 32)) (uar : Uar) : Prop where
  span : ∃ slot, offset = some (BitVec.ofNat 32 (slot * 4)) ∧ slot + count.toNat ≤ 128 ∧
    ¬ s.Meets ⟨slot,count.toNat⟩ ∧ ∃ page page', s.uar.fDbRecord = some page ∧ uar.fDbRecord = some page' ∧
      ∀ k, page' k = if slot * 4 ≤ k ∧ k < slot * 4 + count.toNat * 4 then 0 else page k

def Refused (s : State) (count : BitVec 32) (offset : Option (BitVec 32)) (kr : IOReturn) : Prop :=
  kr = .badArgument ∧ (offset = none ∨ count = 0 ∨ count > 2) ∨
  kr = .noResources ∧ ∀ slot, slot + count.toNat ≤ 128 → s.Meets ⟨slot,count.toNat⟩

structure Sound (s : State) : Prop where
  apart : s.live.Pairwise Span.Apart
  inside : ∀ r ∈ s.live, 0 < r.count ∧ r.start + r.count ≤ 128
  allocated : ∀ count offset offset' uar', DbSlots.allocDbSlots count offset s.uar = (.success,offset',uar') →
    s.Allocated count offset' uar'
  refused : ∀ count offset kr offset' uar', DbSlots.allocDbSlots count offset s.uar = (kr,offset',uar') → kr ≠ .success →
    s.Refused count offset kr ∧ offset' = offset ∧ uar' = s.uar

theorem Kept.clear_iff (h : s.Kept) (r : Span) : Clear (slotTaken s.uar.fDbBitmap) r ↔ ¬ s.Meets r := by
  constructor
  · rintro hclear ⟨k,hk,hlive⟩
    have htaken := (h.marked.marks k).mpr hlive
    rw [hclear k hk] at htaken
    cases htaken
  · intro hno k hk
    by_contra hne
    exact hno ⟨k,hk,(h.marked.marks k).mp (by simpa using hne)⟩

theorem Kept.sound (h : s.Kept) : s.Sound where
  apart := h.marked.apart
  inside := h.marked.inside
  allocated count offset offset' uar' ha := by
    rcases allocDbSlots_cases h count offset with ⟨heq,-⟩ | ⟨heq,-,-⟩ | ⟨slot,page,hfit,hpage,-,heq⟩
    · rw [heq] at ha
      cases ha
    · rw [heq] at ha
      cases ha
    · rw [heq] at ha
      cases ha
      obtain ⟨hclear,hin,-⟩ := firstFit_some hfit
      exact ⟨slot,rfl,hin,(h.clear_iff _).mp hclear,page,_,hpage,rfl,fun _ => rfl⟩
  refused count offset kr offset' uar' ha hkr := by
    rcases allocDbSlots_cases h count offset with ⟨heq,hbad⟩ | ⟨heq,-,hfit⟩ | ⟨slot,page,-,-,-,heq⟩
    · rw [heq] at ha
      cases ha
      exact ⟨Or.inl ⟨rfl,hbad⟩,rfl,rfl⟩
    · rw [heq] at ha
      cases ha
      exact ⟨Or.inr ⟨rfl,fun slot hin => not_not.mp (fun hno => firstFit_none hfit hin ((h.clear_iff _).mpr hno))⟩,
        rfl,rfl⟩
    · rw [heq] at ha
      cases ha
      exact absurd rfl hkr

/-! ## Pairs -/

def RequestsPair (_ : State) : Action → Prop
  | .allocDbSlots count _ => count = 2
  | _ => True

theorem step_blocks {a : Action} (h : s.Kept ∧ Blocks 2 s.live) (hm : RequestsPair s a) (hs : s.step a = some t) :
    t.Kept ∧ Blocks 2 t.live := by
  obtain ⟨h,hb⟩ := h
  refine ⟨step_kept h hs,?_⟩
  cases a with
  | allocDbSlots count offset =>
    cases hs
    have hcount : count.toNat = 2 := by rw [show count = 2 from hm]; rfl
    rcases allocDbSlots_cases h count offset with ⟨heq,-⟩ | ⟨heq,-,-⟩ | ⟨slot,page,hfit,-,-,heq⟩
    · simp only [alloc, heq]
      exact hb
    · simp only [alloc, heq]
      exact hb
    · obtain ⟨-,hin,-⟩ := firstFit_some hfit
      have hslot : (BitVec.ofNat 32 (slot * 4)).toNat / 4 = slot := by
        rw [slot_toNat (by omega)]
        omega
      rw [hcount] at hfit
      simp only [alloc, heq, hslot, hcount]
      intro r hr
      rcases List.mem_append.mp hr with hr | hr
      · exact hb r hr
      · rw [List.mem_singleton.mp hr]
        exact ⟨rfl,firstFit_dvd (by decide) h.marked hb hfit⟩
  | freeDbSlots r =>
    simp only [step] at hs
    split at hs
    · cases hs
      exact fun r' hr' => hb r' (List.mem_of_mem_erase hr')
    · cases hs
  | write k x =>
    cases hs
    exact hb

/-- Pairs have offsets that are multiples of 8, and run out with the last of 64. -/
structure PairsSound (s : State) : Prop where
  offset : ∀ x offset' uar', DbSlots.allocDbSlots 2 (some x) s.uar = (.success,offset',uar') →
    ∃ y, offset' = some y ∧ 8 ∣ y.toNat
  full : ∀ x kr offset' uar', DbSlots.allocDbSlots 2 (some x) s.uar = (kr,offset',uar') → kr ≠ .success →
    ∀ q < 64, ⟨2 * q,2⟩ ∈ s.live

theorem pairs_sound (h : s.Kept) (hb : Blocks 2 s.live) : s.PairsSound where
  offset x offset' uar' ha := by
    rcases allocDbSlots_cases h 2 (some x) with ⟨heq,-⟩ | ⟨heq,-,-⟩ | ⟨slot,page,hfit,-,-,heq⟩
    · rw [heq] at ha
      cases ha
    · rw [heq] at ha
      cases ha
    · rw [heq] at ha
      cases ha
      obtain ⟨-,hin,-⟩ := firstFit_some hfit
      obtain ⟨q,hq⟩ := firstFit_dvd (by decide) h.marked hb hfit
      refine ⟨_,rfl,?_⟩
      rw [slot_toNat (by omega)]
      exact ⟨q,by omega⟩
  full x kr offset' uar' ha hkr q hq := by
    rcases allocDbSlots_cases h 2 (some x) with ⟨-,hbad⟩ | ⟨-,-,hfit⟩ | ⟨slot,page,-,-,-,heq⟩
    · rcases hbad with hbad | hbad | hbad
      · cases hbad
      · exact absurd hbad (by decide)
      · exact absurd hbad (by decide)
    · exact firstFit_full (by decide) h.marked hb hfit (by omega)
    · rw [heq] at ha
      cases ha
      exact absurd rfl hkr

theorem dbSlots_run (page : ℕ → BitVec 8) (s : State) (h : Reach step Free (initial page) s) :
    s.Sound ∧ (Reach step RequestsPair (initial page) s → s.PairsSound) := by
  have hkept := h.invariant (kept_initial page) (fun _ _ _ h _ hs => step_kept h hs)
  refine ⟨hkept.sound,fun hp => ?_⟩
  obtain ⟨hk,hb⟩ := hp.invariant ⟨kept_initial page,fun _ hr => absurd hr List.not_mem_nil⟩
    (fun _ _ _ h hm hs => step_blocks h hm hs)
  exact pairs_sound hk hb

/-- A pair takes the place of the first of two. -/
def pairActions : List Action :=
  [.allocDbSlots 2 (some 0),.allocDbSlots 2 (some 0),.write 3 7,.freeDbSlots ⟨0,2⟩,.allocDbSlots 2 (some 9)]

theorem dbSlots_run_threePairs :
    ∃ s, after step pairActions (initial fun _ => 1) = some s ∧ s.live = [⟨2,2⟩,⟨0,2⟩] ∧ s.Sound :=
  ⟨_,rfl,rfl,(dbSlots_run (fun _ => 1) _ (reach_of_after pairActions .start rfl)).1⟩

/-- Three slots are refused for their number, with all slots free. -/
theorem allocDbSlots_threeSlots : ¬ ∀ (page : ℕ → BitVec 8) (s : State), Reach step Free (initial page) s →
    ∀ count offset kr offset' uar', DbSlots.allocDbSlots count offset s.uar = (kr,offset',uar') → kr ≠ .success →
      ∀ slot, slot + count.toNat ≤ 128 → s.Meets ⟨slot,count.toNat⟩ := by
  intro h
  obtain ⟨k,-,r,hr,-⟩ := h (fun _ => 0) (initial fun _ => 0) .start 3 (some 0) .badArgument (some 0) _ rfl
    (fun hkr => by cases hkr) 0 (by decide)
  exact absurd hr List.not_mem_nil

end State

end AppleMCX.DbSlots
