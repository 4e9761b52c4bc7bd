import AppleMCX.Core.Command
import AppleMCX.Interaction.Segments
import Mathlib.Data.List.TakeWhile

/-! # The pages of a ring

`MlxEQ::allocEqBuf` and `MlxCQ::createCQ` ask for the segments of their ring batch by batch
and take every segment for a page. They differ in the segments that they take, and in what
they do about the others.
-/
namespace AppleMCX.RingPages
open Interaction

/-- What `gen64IOVMSegments` answers, with the offset that it moves on to. It has no segment
where it fails. -/
structure Batch where
  segs : List Segment
  offset : ℕ

structure MapRule where
  good : Segment → Bool
  maxPages : ℕ
  -- a segment that is not good sends the offset back to the beginning
  restart : Bool

/-- `offset` and `pageDMA`, whose length is `numPages`. -/
structure Mapped where
  offset : ℕ
  pages : List ℕ

def mapBatch (r : MapRule) : List Segment → List ℕ → Bool × List ℕ
  | [], pages => (false,pages)
  | s :: segs, pages =>
    if pages.length < r.maxPages then
      if r.good s then mapBatch r segs (pages ++ [s.addr]) else (true,pages)
    else (false,pages)

def mapLoop (r : MapRule) (size : ℕ) (gen : ℕ → Batch) : ℕ → Mapped → Option Mapped
  | 0, _ => none
  | fuel + 1, m =>
    if m.offset < size ∧ m.pages.length < r.maxPages then
      if (gen m.offset).segs = [] then some ⟨(gen m.offset).offset,m.pages⟩
      else
        let (bad,pages) := mapBatch r (gen m.offset).segs m.pages
        mapLoop r size gen fuel ⟨if bad ∧ r.restart then 0 else (gen m.offset).offset,pages⟩
    else some m

def MLX_MAX_EQ_PAGES : ℕ := 32

def eqRule : MapRule where
  good := fun s => s.addr % 4096 = 0 ∧ ¬ s.len > 4096
  maxPages := MLX_MAX_EQ_PAGES
  restart := false

def cqRule : MapRule where
  good := fun s => s.addr % 4096 = 0 ∧ s.len ≠ 0 ∧ ¬ s.len > 4096
  maxPages := 32
  restart := true

/-- What the other calls of `allocEqBuf` answer. -/
structure EqAnswers where
  inTaskWithPhysicalMask : Bool
  withSpecification : Bool
  setMemoryDescriptor : Bool
  gen64IOVMSegments : ℕ → Batch

def eqBytes (logSize : ℕ) : ℕ := (2 ^ logSize * 64 + 4095) / 4096 * 4096

/-- `MlxEQ::allocEqBuf`; the buffer that it leaves is described by `pageDMA`. -/
def allocEqBuf (fuel logSize : ℕ) (a : EqAnswers) : Option (Except IOReturn (List ℕ)) :=
  if !a.inTaskWithPhysicalMask then some (.error .noMemory)
  else if !a.withSpecification ∨ !a.setMemoryDescriptor then some (.error .noMemory)
  else
    match mapLoop eqRule (eqBytes logSize) a.gen64IOVMSegments fuel ⟨0,[]⟩ with
    | none => none
    | some m => some (if m.offset ≠ eqBytes logSize ∨ m.pages.length = 0 then .error .noSpace else .ok m.pages)

/-! ## The batches that a pass asks for -/

variable {r : MapRule} {size off off' : ℕ} {gen : ℕ → Batch} {dev : ℕ → ℕ} {front bs full : List (List Segment)}

/-- The batches from one offset up to another that is reached inside of the ring. -/
inductive Asked (gen : ℕ → Batch) (size : ℕ) : ℕ → List (List Segment) → ℕ → Prop
  | nil {off : ℕ} : Asked gen size off [] off
  | cons {off off' : ℕ} {bs : List (List Segment)} (hlt : off < size) (hne : (gen off).segs ≠ [])
      (hrest : Asked gen size (gen off).offset bs off') : Asked gen size off ((gen off).segs :: bs) off'

theorem Asked.concat (h : Asked gen size off front off') (hlt : off' < size) (hne : (gen off').segs ≠ []) :
    Asked gen size off (front ++ [(gen off').segs]) (gen off').offset := by
  induction h with
  | nil => exact .cons hlt hne .nil
  | cons hlt' hne' _ ih => exact .cons hlt' hne' (ih hlt hne)

/-- A pass over the whole ring goes through what has been asked before. -/
theorem Asked.split (h : Asked gen size off front off') (hfull : Asked gen size off full size) :
    ∃ bs, full = front ++ bs ∧ Asked gen size off' bs size := by
  induction h generalizing full with
  | nil => exact ⟨full,rfl,hfull⟩
  | cons hlt _ _ ih =>
    cases hfull with
    | nil => exact absurd hlt (lt_irrefl _)
    | cons _ _ hrest =>
      obtain ⟨bs,rfl,hbs⟩ := ih hrest
      exact ⟨bs,rfl,hbs⟩

theorem Asked.unique (h : Asked gen size off bs size) (hfull : Asked gen size off full size) : full = bs := by
  obtain ⟨rest,rfl,hrest⟩ := h.split hfull
  cases hrest with
  | nil => exact List.append_nil bs
  | cons hlt => exact absurd hlt (lt_irrefl _)

theorem Asked.mem (h : Asked gen size off bs off') : ∀ b ∈ bs, ∃ off, b = (gen off).segs := by
  induction h with
  | nil => exact fun b hb => absurd hb List.not_mem_nil
  | @cons off off' bs _ _ _ ih =>
    intro b hb
    rcases List.mem_cons.1 hb with rfl | hb
    · exact ⟨off,rfl⟩
    · exact ih b hb

/-- The mapper describes the bytes from the offset on, and moves the offset over the batch. -/
def InOrder (dev : ℕ → ℕ) (gen : ℕ → Batch) : Prop :=
  ∀ off, Maps dev off (gen off).segs ∧ (gen off).offset = off + total (gen off).segs

theorem Asked.maps (hgen : InOrder dev gen) (h : Asked gen size off bs off') :
    Maps dev off bs.flatten ∧ off' = off + total bs.flatten := by
  induction h with
  | nil => exact ⟨trivial,rfl⟩
  | @cons off off' bs hlt hne hrest ih =>
    obtain ⟨hmaps,hoff⟩ := hgen off
    rw [List.flatten_cons, maps_append, total_append, ← hoff, ← Nat.add_assoc, ← hoff]
    exact ⟨⟨hmaps,ih.1⟩,ih.2⟩

/-! ## What is kept -/

/-- One batch: the good segments in its front are kept as far as there is room, and whether a
segment was found that is not good. -/
theorem mapBatch_kept (r : MapRule) (segs : List Segment) {pages : List ℕ} (hroom : pages.length ≤ r.maxPages) :
    (mapBatch r segs pages).2 = (pages ++ (segs.takeWhile r.good).map (·.addr)).take r.maxPages ∧
      ((mapBatch r segs pages).1 = true → segs.all r.good = false ∧ (mapBatch r segs pages).2.length < r.maxPages) ∧
      ((mapBatch r segs pages).1 = false → segs.all r.good = true ∨ r.maxPages ≤ (mapBatch r segs pages).2.length) := by
  induction segs generalizing pages with
  | nil => simp [mapBatch, List.take_of_length_le hroom]
  | cons s segs ih =>
    unfold mapBatch
    split
    · rename_i hlt
      cases hs : r.good s with
      | true =>
        have hroom' : (pages ++ [s.addr]).length ≤ r.maxPages := by
          rw [List.length_append, List.length_singleton]
          omega
        have hnext := ih hroom'
        simpa [hs, List.takeWhile_cons, List.all_cons] using hnext
      | false => simp [hs, List.take_of_length_le hroom, hlt]
    · rename_i hfull
      have hfull' : r.maxPages ≤ pages.length := by omega
      refine ⟨?_,fun h => absurd h (by simp),fun _ => .inr hfull'⟩
      rw [List.take_append_of_le_length hfull', List.take_of_length_le hroom]

theorem mapLoop_full {fuel : ℕ} {m m' : Mapped} (hfull : r.maxPages ≤ m.pages.length)
    (h : mapLoop r size gen fuel m = some m') :
    m' = m := by
  cases fuel with
  | zero => cases h
  | succ fuel =>
    rw [mapLoop, if_neg (by omega)] at h
    exact (Option.some.inj h).symm

/-- A loop that ends at the end of the ring is there already, or asks for one more batch. -/
theorem mapLoop_cases {fuel : ℕ} {pages : List ℕ} {m : Mapped} (hgen : ∀ off,
    (gen off).segs = [] → (gen off).offset = off)
    (h : mapLoop r size gen fuel ⟨off,pages⟩ = some m) (hend : m.offset = size) :
    (off = size ∧ m.pages = pages) ∨
      ∃ less < fuel, off < size ∧ pages.length < r.maxPages ∧ (gen off).segs ≠ [] ∧
        mapLoop r size gen less ⟨if (mapBatch r (gen off).segs pages).1 ∧ r.restart then 0 else (gen off).offset,
          (mapBatch r (gen off).segs pages).2⟩ = some m := by
  cases fuel with
  | zero => cases h
  | succ fuel =>
    unfold mapLoop at h
    split at h
    · rename_i hmore
      split at h
      · rename_i hnone
        cases h
        rw [hgen off hnone] at hend
        exact absurd hend hmore.1.ne
      · rename_i hsome
        exact .inr ⟨fuel,Nat.lt_succ_self fuel,hmore.1,hmore.2,hsome,h⟩
    · cases h
      exact .inl ⟨hend,rfl⟩

theorem take_take_append {α : Type} (a b : List α) (n : ℕ) : (a.take n ++ b).take n = (a ++ b).take n := by
  rcases Nat.lt_or_ge n a.length with hlt | hle
  · rw [List.take_append_of_le_length (by rw [List.length_take]; omega), List.take_take, Nat.min_self,
      List.take_append_of_le_length hlt.le]
  · rw [List.take_of_length_le hle]

theorem takeWhile_of_all {α : Type} {p : α → Bool} {a : List α} (h : a.all p = true) : a.takeWhile p = a :=
  List.takeWhile_eq_self_iff.2 (List.all_eq_true.1 h)

theorem takeWhile_append_of_all {α : Type} {p : α → Bool} {a b : List α} (h : a.all p = true) :
    (a ++ b).takeWhile p = a ++ b.takeWhile p :=
  List.takeWhile_append_of_pos (List.all_eq_true.1 h)

theorem takeWhile_append_of_not_all {α : Type} {p : α → Bool} {a b : List α} (h : a.all p = false) :
    (a ++ b).takeWhile p = a.takeWhile p := by
  induction a with
  | nil => cases h
  | cons x a ih =>
    rw [List.cons_append, List.takeWhile_cons, List.takeWhile_cons]
    cases hx : p x with
    | false => rfl
    | true =>
      rw [List.all_cons, hx, Bool.true_and] at h
      rw [ih h]

/-- Without a restart, every batch gives the good segments in its front. -/
theorem mapLoop_kept {fuel : ℕ} {pages : List ℕ} {m : Mapped} (hr : r.restart = false)
    (hgen : ∀ off, (gen off).segs = [] → (gen off).offset = off) (hroom : pages.length ≤ r.maxPages)
    (h : mapLoop r size gen fuel ⟨off,pages⟩ = some m) (hend : m.offset = size) :
    ∃ bs, Asked gen size off bs size ∧
      m.pages = (pages ++ (bs.flatMap (·.takeWhile r.good)).map (·.addr)).take r.maxPages := by
  induction fuel using Nat.strongRecOn generalizing off pages with
  | _ fuel ih =>
    rcases mapLoop_cases hgen h hend with ⟨rfl,hpages⟩ | ⟨less,hless,hlt,-,hne,hnext⟩
    · refine ⟨[],.nil,?_⟩
      rw [hpages, List.flatMap_nil, List.map_nil, List.append_nil, List.take_of_length_le hroom]
    · rw [hr, if_neg (by simp)] at hnext
      have hkept := (mapBatch_kept r (gen off).segs hroom).1
      obtain ⟨bs,hasked,hpages⟩ := ih less hless (by rw [hkept]; exact List.length_take_le _ _) hnext
      refine ⟨(gen off).segs :: bs,.cons hlt hne hasked,?_⟩
      rw [hpages, hkept, take_take_append, List.flatMap_cons, List.map_append, List.append_assoc]

/-- With a restart, the good segments in front of the first other one are kept again and again. -/
theorem mapLoop_cycle {fuel : ℕ} {pages : List ℕ} {m : Mapped} (hr : r.restart = true)
    (hgen : ∀ off, (gen off).segs = [] → (gen off).offset = off) (hroom : pages.length ≤ r.maxPages)
    (hfront : Asked gen size 0 front off) (h : mapLoop r size gen fuel ⟨off,pages⟩ = some m) (hend : m.offset = size) :
    ∃ bs, Asked gen size off bs size ∧
      ∃ n, m.pages = (pages ++ (bs.flatten.takeWhile r.good ++
          if bs.flatten.all r.good then []
          else (List.replicate n ((front ++ bs).flatten.takeWhile r.good)).flatten).map (·.addr)).take r.maxPages ∧
        (bs.flatten.all r.good = false → m.pages.length = r.maxPages) := by
  induction fuel using Nat.strongRecOn generalizing off pages front with
  | _ fuel ih =>
    rcases mapLoop_cases hgen h hend with ⟨rfl,hpages⟩ | ⟨less,hless,hlt,-,hne,hnext⟩
    · refine ⟨[],.nil,0,?_,fun hbad => absurd hbad (by simp)⟩
      simp [hpages, List.take_of_length_le hroom]
    · obtain ⟨hkept,hbad,hgood⟩ := mapBatch_kept r (gen off).segs hroom
      have hroom' : (mapBatch r (gen off).segs pages).2.length ≤ r.maxPages := by
        rw [hkept]
        exact List.length_take_le _ _
      rw [hr] at hnext
      cases hfound : (mapBatch r (gen off).segs pages).1 with
      | true =>
        rw [hfound, if_pos ⟨rfl,rfl⟩] at hnext
        obtain ⟨hnotall,hless'⟩ := hbad hfound
        obtain ⟨full,hasked,n,hpages,hlen⟩ := ih less hless hroom' .nil hnext
        obtain ⟨bs,rfl,hbs⟩ := hfront.split hasked
        obtain ⟨rest,rfl⟩ : ∃ rest, bs = (gen off).segs :: rest := by
          cases hbs with
          | nil => exact absurd hlt (lt_irrefl _)
          | cons => exact ⟨_,rfl⟩
        have hfull : (front ++ (gen off).segs :: rest).flatten.all r.good = false := by
          rw [List.flatten_append, List.flatten_cons, List.all_append, List.all_append, hnotall, Bool.false_and, Bool.and_false]
        refine ⟨_,hbs,n + 1,?_,fun _ => hlen hfull⟩
        rw [List.nil_append, hfull, hkept, take_take_append] at hpages
        rw [List.flatten_cons, List.all_append, hnotall, Bool.false_and, takeWhile_append_of_not_all hnotall, hpages]
        simp [List.replicate_succ]
      | false =>
        rw [hfound, if_neg (by simp)] at hnext
        by_cases hfull : r.maxPages ≤ (mapBatch r (gen off).segs pages).2.length
        · -- the rest of the batch is not looked at
          obtain rfl := mapLoop_full hfull hnext
          have hlast : Asked gen size (gen off).offset [] size := hend ▸ .nil
          refine ⟨[(gen off).segs],.cons hlt hne hlast,0,?_,fun _ => le_antisymm hroom' hfull⟩
          have hlong : r.maxPages ≤ (pages ++ ((gen off).segs.takeWhile r.good).map (·.addr)).length := by
            rw [hkept, List.length_take] at hfull
            omega
          rw [hkept, List.flatten_singleton, List.map_append, ← List.append_assoc, List.take_append_of_le_length hlong]
        · have hall := (hgood hfound).resolve_right hfull
          obtain ⟨bs,hasked,n,hpages,hlen⟩ := ih less hless hroom' (hfront.concat hlt hne) hnext
          rw [hkept, take_take_append, takeWhile_of_all hall] at hpages
          refine ⟨(gen off).segs :: bs,.cons hlt hne hasked,n,?_,?_⟩
          · rw [hpages, List.flatten_cons, List.all_append, hall, Bool.true_and, takeWhile_append_of_all hall]
            simp
          · rw [List.flatten_cons, List.all_append, hall, Bool.true_and]
            exact hlen

/-- The segments that a run keeps of the batches. -/
def MapRule.kept (r : MapRule) (bs : List (List Segment)) : List Segment :=
  (if r.restart then
    if bs.flatten.all r.good then bs.flatten
    else (List.replicate r.maxPages (bs.flatten.takeWhile r.good)).flatten
  else bs.flatMap (·.takeWhile r.good)).take r.maxPages

theorem kept_of_good {r : MapRule} (h : bs.flatten.all r.good = true) : r.kept bs = bs.flatten.take r.maxPages := by
  unfold MapRule.kept
  split
  · rfl
  · congr 1
    rw [List.all_flatten, List.all_eq_true] at h
    rw [List.flatMap_def, List.map_congr_left (fun b hb => takeWhile_of_all (h b hb)), List.map_id']

theorem take_replicate {α : Type} (a : List α) {n m k : ℕ} (hn : k ≤ (List.replicate n a).flatten.length)
    (hm : k ≤ (List.replicate m a).flatten.length) :
    (List.replicate n a).flatten.take k = (List.replicate m a).flatten.take k := by
  have hmore : ∀ n m, n ≤ m → k ≤ (List.replicate n a).flatten.length →
      (List.replicate m a).flatten.take k = (List.replicate n a).flatten.take k := by
    intro n m hnm hk
    obtain ⟨d,rfl⟩ := Nat.exists_eq_add_of_le hnm
    rw [List.replicate_add, List.flatten_append, List.take_append_of_le_length hk]
  rcases Nat.le_total n m with hnm | hmn
  · exact (hmore n m hnm hn).symm
  · exact hmore m n hmn hm

theorem mapLoop_pages {fuel : ℕ} {m : Mapped} (hgen : ∀ off, (gen off).segs = [] → (gen off).offset = off)
    (h : mapLoop r size gen fuel ⟨0,[]⟩ = some m) (hend : m.offset = size) :
    ∃ bs, Asked gen size 0 bs size ∧ m.pages = (r.kept bs).map (·.addr) := by
  cases hr : r.restart with
  | false =>
    obtain ⟨bs,hasked,hpages⟩ := mapLoop_kept hr hgen (Nat.zero_le _) h hend
    refine ⟨bs,hasked,?_⟩
    rw [hpages, MapRule.kept, hr, if_neg (by simp), List.nil_append, List.map_take]
  | true =>
    obtain ⟨bs,hasked,n,hpages,hlen⟩ := mapLoop_cycle hr hgen (Nat.zero_le _) .nil h hend
    refine ⟨bs,hasked,?_⟩
    rw [List.nil_append, List.nil_append] at hpages
    rw [hpages, MapRule.kept, hr, if_pos rfl, List.map_take]
    cases hall : bs.flatten.all r.good with
    | true => rw [if_pos rfl, if_pos rfl, List.append_nil, takeWhile_of_all hall]
    | false =>
      have hlong := hlen hall
      rw [hpages, hall, List.length_take, List.length_map] at hlong
      simp only [Bool.false_eq_true, if_false, ← List.flatten_cons, ← List.replicate_succ] at hlong ⊢
      rw [← List.map_take, ← List.map_take, take_replicate]
      · omega
      · -- some segment is kept in every pass, or the list would not be full
        rw [List.length_flatten, List.map_replicate, List.sum_replicate_nat] at hlong ⊢
        rcases Nat.eq_zero_or_pos (bs.flatten.takeWhile r.good).length with hzero | hpos
        · rw [hzero] at hlong ⊢
          omega
        · exact Nat.le_mul_of_pos_right _ hpos

/-! ## What makes the pages those of the ring -/

/-- The pages are those of the ring, one after the other. -/
def Describes (dev : ℕ → ℕ) (size : ℕ) (pages : List ℕ) : Prop :=
  pages.length = size / 4096 ∧ ∀ i, (hi : i < pages.length) → pages[i] % 4096 = 0 ∧ PageAt 4096 dev i pages[i]

variable {segs : List Segment} {n : ℕ}

/-- A segment that begins at a page goes up to the next one, or what follows is not aligned. -/
theorem total_take_aligned (hmaps : Maps dev 0 segs) (hgood : ∀ s ∈ segs, s.addr % 4096 = 0 ∧ s.len ≤ 4096)
    (hpos : ∀ s ∈ segs, 0 < s.len) {k : ℕ} (hk : k < segs.length)
    (hpages : ∀ i < k, (hi : i < segs.length) → PageAt 4096 dev i segs[i].addr) : total (segs.take k) = 4096 * k := by
  induction k with
  | zero => simp
  | succ k ih =>
    have hstart := ih (by omega) (fun i hi => hpages i (by omega))
    have hsegment := hgood _ (List.getElem_mem (show k < segs.length by omega))
    have hnext := hgood _ (List.getElem_mem hk)
    have hnextPos := hpos _ (List.getElem_mem hk)
    have hat := hmaps.at hk (x := 0) hnextPos
    rw [total_take_succ (by omega), hstart] at hat ⊢
    by_contra hne
    have hinside := hpages k (by omega) (by omega) segs[k].len (by omega)
    rw [Nat.zero_add, Nat.add_zero, Nat.add_zero] at hat
    rw [hat] at hinside
    have hthis := hpos _ (List.getElem_mem (show k < segs.length by omega))
    omega

/-- Aligned segments of at most a page are the pages exactly if each of them is a whole one. -/
theorem describes_good_iff (hmaps : Maps dev 0 segs) (htotal : total segs = 4096 * n) (hn : n ≤ 32)
    (hgood : ∀ s ∈ segs, s.addr % 4096 = 0 ∧ s.len ≤ 4096) (hpos : ∀ s ∈ segs, 0 < s.len) :
    Describes dev (4096 * n) ((segs.take 32).map (·.addr)) ↔ ∀ s ∈ segs, s.len = 4096 := by
  unfold Describes
  simp only [List.length_map, List.length_take, List.getElem_map, List.getElem_take]
  rw [Nat.mul_div_cancel_left _ (by omega : 0 < 4096)]
  constructor
  · rintro ⟨hcount,hpages⟩
    by_cases hlong : segs.length ≤ 32
    · refine pages_of_count (fun s hs => (hgood s hs).2) ?_
      rw [htotal, ← hcount, Nat.min_eq_right hlong]
    · -- the ring is full of pages before the segments end
      exfalso
      have hstart := total_take_aligned hmaps hgood hpos (show 32 < segs.length by omega)
        (fun i hi hlt => (hpages i (by omega)).2)
      have hrest : 0 < total (segs.drop 32) := total_pos (fun s hs => hpos s (List.mem_of_mem_drop hs))
        (by rw [Ne, List.drop_eq_nil_iff]; omega)
      rw [← List.take_append_drop 32 segs, total_append, hstart] at htotal
      omega
  · intro hlen
    have hcount := total_take_pages hlen le_rfl
    rw [List.take_length, htotal] at hcount
    refine ⟨by omega,fun i hi => ⟨(hgood _ (List.getElem_mem _)).1,pageAt_of_pages hmaps hlen (by omega)⟩⟩

/-- The mapper's batches cover the ring, and every segment is one page of it. -/
def OnePageEach (gen : ℕ → Batch) (size : ℕ) : Prop :=
  ∃ bs, Asked gen size 0 bs size ∧ ∀ s ∈ bs.flatten, s.addr % 4096 = 0 ∧ s.len = 4096

def NoneEmpty (gen : ℕ → Batch) : Prop := ∀ off, ∀ s ∈ (gen off).segs, 0 < s.len

/-- The pages of the ring are aligned, and the good segments in the front of the batches begin with them. -/
def EachBegun (r : MapRule) (gen : ℕ → Batch) (dev : ℕ → ℕ) (size : ℕ) : Prop :=
  PagesAligned 4096 dev (size / 4096) ∧ ∃ bs, Asked gen size 0 bs size ∧
    (∀ p ∈ placedBatches r.good 0 bs, 0 < p.2.len) ∧
    (placedBatches r.good 0 bs).map Prod.fst = (List.range (size / 4096)).map (4096 * ·)

/-- The segments in front begin with the first pages, and the pages behind them are at the same addresses again. -/
structure FrontRepeats (dev : ℕ → ℕ) (front : List Segment) : Prop where
  some : front ≠ []
  starts : ∀ k < 32, k < front.length → total (front.take k) = 4096 * k
  again : ∀ i < 32, dev (4096 * i) = dev (4096 * (i % front.length))

/-- A ring of 32 aligned pages whose good segments in front of the first bad one are repeated. -/
def RingRepeats (r : MapRule) (gen : ℕ → Batch) (dev : ℕ → ℕ) (size : ℕ) : Prop :=
  size = 4096 * 32 ∧ PagesAligned 4096 dev 32 ∧ ∃ bs, Asked gen size 0 bs size ∧ bs.flatten.all r.good = false ∧
    FrontRepeats dev (bs.flatten.takeWhile r.good)

/-- Without a restart, where no segment is empty the pages are those of the ring exactly if each is begun. -/
theorem mapLoop_begun {fuel : ℕ} {m : Mapped} (hgen : InOrder dev gen) (hr : r.restart = false) (hmax : n < r.maxPages)
    (hgood : ∀ s, r.good s = true → s.addr % 4096 = 0)
    (h : mapLoop r (4096 * n) gen fuel ⟨0,[]⟩ = some m) (hend : m.offset = 4096 * n) :
    (EachBegun r gen dev (4096 * n) → Describes dev (4096 * n) m.pages) ∧
      (NoneEmpty gen → Describes dev (4096 * n) m.pages → EachBegun r gen dev (4096 * n)) := by
  obtain ⟨bs,hasked,hpages⟩ := mapLoop_kept hr (fun off hnone => by rw [(hgen off).2, hnone]; rfl) (Nat.zero_le _) h hend
  obtain ⟨hmaps,htotal⟩ := hasked.maps hgen
  rw [List.nil_append, ← placedBatches_snd r.good 0, List.map_map] at hpages
  rw [Nat.zero_add] at htotal
  have hn : 4096 * n / 4096 = n := Nat.mul_div_cancel_left _ (by decide)
  have hwithin : ∀ p ∈ placedBatches r.good 0 bs, r.good p.2 = true ∧ 0 ≤ p.1 ∧ p.1 + p.2.len ≤ 4096 * n := by
    rw [htotal, ← Nat.zero_add (total bs.flatten)]
    exact placedBatches_within 0 bs
  -- as few as there are pages are not cut off
  have hiff : (∀ p ∈ placedBatches r.good 0 bs, 0 < p.2.len) → (Describes dev (4096 * n) m.pages ↔
      PagesAligned 4096 dev n ∧ (placedBatches r.good 0 bs).map Prod.fst = (List.range n).map (4096 * ·)) := by
    intro hpos
    rw [← placed_pages_iff (by decide) (fun p hp => ⟨hpos p hp,hgood _ (hwithin p hp).1,(hwithin p hp).2.2⟩)
      (placedBatches_dev hmaps) (placedBatches_ordered 0 bs)]
    unfold Describes
    rw [hn, hpages]
    simp only [List.length_take, List.length_map, List.getElem_take, List.getElem_map, Function.comp_apply]
    constructor
    · rintro ⟨hlen,hat⟩
      exact ⟨by omega,fun i hi => (hat i (by omega)).2⟩
    · rintro ⟨hlen,hat⟩
      refine ⟨by omega,fun i hi => ?_⟩
      have hi' : i < (placedBatches r.good 0 bs).length := by omega
      exact ⟨hgood _ (hwithin _ (List.getElem_mem hi')).1,hat i hi'⟩
  unfold EachBegun
  rw [hn]
  constructor
  · rintro ⟨haligned,bs',hasked',hpos,hstarts⟩
    obtain rfl := hasked.unique hasked'
    exact (hiff hpos).2 ⟨haligned,hstarts⟩
  · intro hnone hdesc
    have hpos : ∀ p ∈ placedBatches r.good 0 bs, 0 < p.2.len := by
      intro p hp
      have hmem := List.mem_map_of_mem (f := Prod.snd) hp
      rw [placedBatches_snd] at hmem
      obtain ⟨b,hb,hmem⟩ := List.mem_flatMap.1 hmem
      obtain ⟨off,rfl⟩ := hasked.mem b hb
      exact hnone off p.2 ((List.takeWhile_sublist _).mem hmem)
    obtain ⟨haligned,hstarts⟩ := (hiff hpos).1 hdesc
    exact ⟨haligned,bs,hasked,hpos,hstarts⟩

theorem getElem?_replicate {α : Type} (a : List α) {k i : ℕ} (hi : i < k * a.length) :
    (List.replicate k a).flatten[i]? = a[i % a.length]? := by
  induction k generalizing i with
  | zero => omega
  | succ k ih =>
    rw [List.replicate_succ, List.flatten_cons, List.getElem?_append]
    split
    · rename_i hlt
      rw [Nat.mod_eq_of_lt hlt]
    · rename_i hge
      rw [Nat.succ_mul] at hi
      rw [ih (by omega), ← Nat.mod_eq_sub_mod (by omega)]

/-- As often as they are repeated, the segments of the front are at the pages in turn. -/
theorem repeated_describes_iff {front : List Segment} (hn : 0 < n) :
    Describes dev (4096 * n) (((List.replicate 32 front).flatten.take 32).map (·.addr)) ↔ n = 32 ∧ front ≠ [] ∧
      ∀ i < 32, ∃ s, front[i % front.length]? = some s ∧ s.addr % 4096 = 0 ∧ PageAt 4096 dev i s.addr := by
  have hlen : ((List.replicate 32 front).flatten.take 32).length = min 32 (32 * front.length) := by
    rw [List.length_take, List.length_flatten, List.map_replicate, List.sum_replicate_nat]
  have hentry : ∀ i, (hi : i < ((List.replicate 32 front).flatten.take 32).length) →
      front[i % front.length]? = some ((List.replicate 32 front).flatten.take 32)[i] := by
    intro i hi
    rw [List.getElem_take, ← getElem?_replicate front (k := 32) (by omega), List.getElem?_eq_getElem]
  unfold Describes
  rw [Nat.mul_div_cancel_left _ (by decide)]
  simp only [List.length_map, List.getElem_map, hlen] at hentry ⊢
  constructor
  · rintro ⟨hcount,hpages⟩
    exact ⟨by omega,List.length_pos_iff.1 (by omega),fun i hi => ⟨_,hentry i (by omega),hpages i (by omega)⟩⟩
  · rintro ⟨rfl,hsome,hat⟩
    have hfront := List.length_pos_iff.2 hsome
    refine ⟨by omega,fun i hi => ?_⟩
    obtain ⟨s,hs,hpage⟩ := hat i (by omega)
    rw [hentry i hi] at hs
    cases hs
    exact hpage

/-- With a restart, a ring with a bad segment is described exactly if its front is repeated. -/
theorem kept_describes_iff (hr : r.restart = true) (hmax : r.maxPages = 32) (hmaps : Maps dev 0 bs.flatten)
    (hgood : ∀ s, r.good s = true → s.addr % 4096 = 0 ∧ s.len ≤ 4096) (hpos : ∀ s, r.good s = true → 0 < s.len)
    (hn : 0 < n) (hbad : bs.flatten.all r.good = false) :
    Describes dev (4096 * n) ((r.kept bs).map (·.addr)) ↔
      n = 32 ∧ PagesAligned 4096 dev 32 ∧ FrontRepeats dev (bs.flatten.takeWhile r.good) := by
  have hkept : r.kept bs = (List.replicate 32 (bs.flatten.takeWhile r.good)).flatten.take 32 := by
    rw [MapRule.kept, if_pos hr, hbad, if_neg Bool.false_ne_true, hmax]
  have hfront : ∀ s ∈ bs.flatten.takeWhile r.good, r.good s = true := fun s hs => List.mem_takeWhile_imp hs
  have hfrontMaps : Maps dev 0 (bs.flatten.takeWhile r.good) := by
    rw [← List.takeWhile_append_dropWhile (p := r.good) (l := bs.flatten), maps_append] at hmaps
    exact hmaps.1
  rw [hkept, repeated_describes_iff hn]
  generalize bs.flatten.takeWhile r.good = front at hfront hfrontMaps ⊢
  constructor
  · rintro ⟨rfl,hsome,hat⟩
    refine ⟨rfl,fun i hi => ?_,hsome,fun k hk hkf => ?_,fun i hi => ?_⟩
    · obtain ⟨s,-,haddr,hpage⟩ := hat i hi
      have hfirst := hpage 0 (by decide)
      rw [Nat.add_zero, Nat.add_zero] at hfirst
      rw [hfirst]
      exact ⟨haddr,hpage⟩
    · refine total_take_aligned hfrontMaps (fun s hs => hgood s (hfront s hs)) (fun s hs => hpos s (hfront s hs)) hkf
        (fun i hi hlt => ?_)
      obtain ⟨s,hs,-,hpage⟩ := hat i (by omega)
      rw [Nat.mod_eq_of_lt hlt, List.getElem?_eq_getElem hlt] at hs
      cases hs
      exact hpage
    · obtain ⟨s,hs,-,hpage⟩ := hat i hi
      obtain ⟨s',hs',-,hpage'⟩ := hat _ ((Nat.mod_le i front.length).trans_lt hi)
      rw [Nat.mod_mod, hs] at hs'
      cases hs'
      exact (hpage 0 (by decide)).trans (hpage' 0 (by decide)).symm
  · rintro ⟨rfl,haligned,hsome,hstarts,hagain⟩
    refine ⟨rfl,hsome,fun i hi => ?_⟩
    have hj := Nat.mod_lt i (List.length_pos_iff.2 hsome)
    have hbyte := hfrontMaps.at hj (x := 0) (hpos _ (hfront _ (List.getElem_mem hj)))
    rw [hstarts _ ((Nat.mod_le i front.length).trans_lt hi) hj, Nat.zero_add,
      Nat.add_zero, Nat.add_zero, ← hagain i hi] at hbyte
    exact ⟨_,List.getElem?_eq_getElem hj,hbyte ▸ haligned i hi⟩

/-- With a restart, the pages are those of the ring exactly if every segment is one, or the ring's front is repeated. -/
theorem mapLoop_repeats {fuel : ℕ} {m : Mapped} (hgen : InOrder dev gen) (hr : r.restart = true) (hmax : r.maxPages = 32)
    (hgood : ∀ s, r.good s = true → s.addr % 4096 = 0 ∧ s.len ≤ 4096) (hpos : ∀ s, r.good s = true → 0 < s.len)
    (hpage : ∀ s : Segment, s.addr % 4096 = 0 → s.len = 4096 → r.good s = true) (hn : 0 < n) (hle : n ≤ 32)
    (h : mapLoop r (4096 * n) gen fuel ⟨0,[]⟩ = some m) (hend : m.offset = 4096 * n) :
    Describes dev (4096 * n) m.pages ↔ OnePageEach gen (4096 * n) ∨ RingRepeats r gen dev (4096 * n) := by
  obtain ⟨bs,hasked,hpages⟩ := mapLoop_pages (fun off hnone => by rw [(hgen off).2, hnone]; rfl) h hend
  obtain ⟨hmaps,htotal⟩ := hasked.maps hgen
  rw [Nat.zero_add] at htotal
  rw [hpages]
  cases hall : bs.flatten.all r.good with
  | true =>
    have hsegs := List.all_eq_true.1 hall
    rw [kept_of_good hall, hmax, describes_good_iff hmaps htotal.symm hle (fun s hs => hgood s (hsegs s hs))
      (fun s hs => hpos s (hsegs s hs))]
    constructor
    · exact fun hlen => .inl ⟨bs,hasked,fun s hs => ⟨(hgood s (hsegs s hs)).1,hlen s hs⟩⟩
    · rintro (⟨bs',hasked',hwhole⟩ | ⟨-,-,bs',hasked',hbad,-⟩)
      · obtain rfl := hasked.unique hasked'
        exact fun s hs => (hwhole s hs).2
      · obtain rfl := hasked.unique hasked'
        rw [hall] at hbad
        cases hbad
  | false =>
    rw [kept_describes_iff hr hmax hmaps hgood hpos hn hall]
    constructor
    · rintro ⟨rfl,haligned,hfront⟩
      exact .inr ⟨rfl,haligned,bs,hasked,hall,hfront⟩
    · rintro (⟨bs',hasked',hwhole⟩ | ⟨hsize,haligned,bs',hasked',-,hfront⟩)
      · obtain rfl := hasked.unique hasked'
        have hgoods : bs'.flatten.all r.good = true :=
          List.all_eq_true.2 fun s hs => hpage s (hwhole s hs).1 (hwhole s hs).2
        rw [hall] at hgoods
        cases hgoods
      · obtain rfl := hasked.unique hasked'
        exact ⟨by omega,haligned,hfront⟩

end AppleMCX.RingPages
