import AppleMCX.Core.RingPages
import Mathlib.Data.Nat.Log

/-! # Creating a completion queue

`MlxCQ::createCQ` with what it holds, and its loop over the pages of the CQE buffer. The
pages of an event queue are here as well, as the two loops have one model.
-/
namespace AppleMCX.CompletionQueue
open Interaction RingPages

inductive Resource
  | context | dbSlots | bufDesc | cqeDmaMap
  deriving DecidableEq, Repr

/-- What the calls of `createCQ` answer. -/
structure Answers where
  malloc : Bool
  allocDbSlots : Bool
  inTaskWithPhysicalMask : Bool
  withSpecification : Bool
  setMemoryDescriptor : Bool
  gen64IOVMSegments : ℕ → Batch
  cmdCreateCQ : IOReturn
  record : Bool
  added : Bool

/-- The outcome, what is held behind it, and the pages that the loop has left. -/
structure Created where
  kr : IOReturn
  held : List Resource
  pageDMA : Option (List ℕ)
  deriving DecidableEq, Repr

def release (rs held : List Resource) : List Resource := rs.foldl (fun held r => held.erase r) held

/-- The least number of bits for the entries, of which there are 64 at least. -/
def logSize (entries : ℕ) : ℕ := Nat.clog 2 (if entries < 64 then 64 else entries)

def cqBytes (entries : ℕ) : ℕ := 2 ^ logSize entries * 64

def afterMap (entries : ℕ) (a : Answers) (held : List Resource) (m : Mapped) : Created :=
  if m.offset ≠ cqBytes entries ∨ m.pages.length = 0 then
    ⟨.noSpace,release [.cqeDmaMap,.dbSlots,.bufDesc,.context] held,none⟩
  else if a.cmdCreateCQ ≠ .success then
    ⟨a.cmdCreateCQ,release [.cqeDmaMap,.dbSlots,.bufDesc,.context] held,some m.pages⟩
  else if !a.record then ⟨.noMemory,release [.cqeDmaMap,.dbSlots,.bufDesc,.context] held,some m.pages⟩
  else if !a.added then ⟨.noMemory,release [.cqeDmaMap,.dbSlots,.bufDesc,.context] held,some m.pages⟩
  else ⟨.success,held,some m.pages⟩

/-- `MlxCQ::createCQ`; it is `none` as long as the loop goes on. -/
def createCQ (fuel entries : ℕ) (a : Answers) : Option Created :=
  if entries = 0 ∨ entries > 2048 then some ⟨.badArgument,[],none⟩
  else if !a.malloc then some ⟨.noMemory,[],none⟩
  else
  let held := [.context]
  if !a.allocDbSlots then some ⟨.noResources,release [.context] held,none⟩
  else
  let held := .dbSlots :: held
  if !a.inTaskWithPhysicalMask then some ⟨.noMemory,release [.dbSlots,.context] held,none⟩
  else
  let held := .bufDesc :: held
  if !a.withSpecification then some ⟨.noMemory,release [.bufDesc,.dbSlots,.context] held,none⟩
  else
  let held := .cqeDmaMap :: held
  if !a.setMemoryDescriptor then some ⟨.noMemory,release [.cqeDmaMap,.bufDesc,.dbSlots,.context] held,none⟩
  else (mapLoop cqRule (cqBytes entries) a.gen64IOVMSegments fuel ⟨0,[]⟩).map (afterMap entries a held)

variable {fuel entries : ℕ} {a : Answers} {gen : ℕ → Batch} {c : Created} {dev : ℕ → ℕ}

/-! ## The size of the ring -/

theorem logSize_bounds (h : entries ≤ 2048) : 6 ≤ logSize entries ∧ logSize entries ≤ 11 := by
  unfold logSize
  constructor
  · rw [← Nat.clog_pow 2 6 (by decide)]
    exact Nat.clog_mono_right 2 (by split <;> omega)
  · rw [← Nat.clog_pow 2 11 (by decide)]
    exact Nat.clog_mono_right 2 (by split <;> omega)

/-- The ring has from one up to 32 pages. -/
theorem cqBytes_pages (h : entries ≤ 2048) : ∃ n, cqBytes entries = 4096 * n ∧ 0 < n ∧ n ≤ 32 := by
  obtain ⟨hlow,hhigh⟩ := logSize_bounds h
  refine ⟨2 ^ (logSize entries - 6),?_,Nat.pow_pos (by decide),Nat.pow_le_pow_right (by decide) (by omega : _ ≤ 5)⟩
  rw [cqBytes, show 4096 = 2 ^ 6 * 64 from rfl, Nat.mul_right_comm, ← Nat.pow_add]
  congr 2
  omega

theorem eqBytes_pages {logSize : ℕ} (h : logSize ≤ 10) : ∃ n, eqBytes logSize = 4096 * n ∧ n < 32 := by
  refine ⟨(2 ^ logSize * 64 + 4095) / 4096,Nat.mul_comm _ _,?_⟩
  have hpow := Nat.pow_le_pow_right (show 0 < 2 by decide) h
  omega

/-! ## The pages -/

/-- What a creation returns is an early failure that holds nothing, or comes behind the loop. -/
theorem createCQ_cases (h : createCQ fuel entries a = some c) :
    c.kr ≠ .success ∧ c.held = [] ∧ c.pageDMA = none ∨
      entries ≤ 2048 ∧ ∃ m, mapLoop cqRule (cqBytes entries) a.gen64IOVMSegments fuel ⟨0,[]⟩ = some m ∧
        afterMap entries a [.cqeDmaMap,.bufDesc,.dbSlots,.context] m = c := by
  unfold createCQ at h
  simp only at h
  split_ifs at h with hentries
  on_goal 7 =>
    obtain ⟨m,hm,hc⟩ := Option.map_eq_some_iff.1 h
    exact .inr ⟨by omega,m,hm,hc⟩
  all_goals
    cases h
    exact .inl ⟨IOReturn.noConfusion,rfl,rfl⟩

theorem createCQ_mapped {pages : List ℕ} (h : createCQ fuel entries a = some c) (hpages : c.pageDMA = some pages) :
    entries ≤ 2048 ∧ ∃ m, mapLoop cqRule (cqBytes entries) a.gen64IOVMSegments fuel ⟨0,[]⟩ = some m ∧
      m.offset = cqBytes entries ∧ m.pages = pages := by
  rcases createCQ_cases h with ⟨-,-,hnone⟩ | ⟨hentries,m,hm,rfl⟩
  · rw [hnone] at hpages
    cases hpages
  · refine ⟨hentries,m,hm,?_⟩
    unfold afterMap at hpages
    split_ifs at hpages with hloop
    all_goals
      cases hpages
      exact ⟨by omega,rfl⟩

theorem allocEqBuf_mapped {logSize : ℕ} {a : EqAnswers} {pages : List ℕ} (h : allocEqBuf fuel logSize a = some (.ok pages)) :
    ∃ m, mapLoop eqRule (eqBytes logSize) a.gen64IOVMSegments fuel ⟨0,[]⟩ = some m ∧ m.offset = eqBytes logSize ∧
      m.pages = pages := by
  unfold allocEqBuf at h
  split_ifs at h
  · cases h
  · cases h
  cases hm : mapLoop eqRule (eqBytes logSize) a.gen64IOVMSegments fuel ⟨0,[]⟩ with
  | none => rw [hm] at h; cases h
  | some m =>
    rw [hm] at h
    simp only [Option.some.injEq] at h
    split_ifs at h with hloop
    cases h
    exact ⟨m,rfl,by omega,rfl⟩

/-- The list is that of the ring's pages, for an event queue, if the segments that are taken begin with the aligned pages
of the ring, and only then where no segment is empty; for a completion queue exactly if every segment is a page, or 32
pages repeat the front of the ring. -/
theorem pages_describe_iff (fuel : ℕ) (dev : ℕ → ℕ) :
    (∀ logSize (a : EqAnswers) pages, logSize ≤ 10 → InOrder dev a.gen64IOVMSegments →
      allocEqBuf fuel logSize a = some (.ok pages) →
      (EachBegun eqRule a.gen64IOVMSegments dev (eqBytes logSize) → Describes dev (eqBytes logSize) pages) ∧
      (NoneEmpty a.gen64IOVMSegments → Describes dev (eqBytes logSize) pages →
        EachBegun eqRule a.gen64IOVMSegments dev (eqBytes logSize))) ∧
    (∀ entries (a : Answers) c pages, InOrder dev a.gen64IOVMSegments →
      createCQ fuel entries a = some c → c.pageDMA = some pages →
      (Describes dev (cqBytes entries) pages ↔ OnePageEach a.gen64IOVMSegments (cqBytes entries) ∨
        RingRepeats cqRule a.gen64IOVMSegments dev (cqBytes entries))) := by
  constructor
  · intro logSize a pages hlog hgen h
    obtain ⟨m,hm,hend,rfl⟩ := allocEqBuf_mapped h
    obtain ⟨n,hsize,hn⟩ := eqBytes_pages hlog
    rw [hsize] at hm hend ⊢
    refine mapLoop_begun hgen rfl hn (fun s hs => ?_) hm hend
    simp only [eqRule, decide_eq_true_eq] at hs
    exact hs.1
  · intro entries a c pages hgen h hpages
    obtain ⟨hentries,m,hm,hend,rfl⟩ := createCQ_mapped h hpages
    obtain ⟨n,hsize,hpos,hn⟩ := cqBytes_pages hentries
    rw [hsize] at hm hend ⊢
    refine mapLoop_repeats hgen rfl rfl (fun s hs => ?_) (fun s hs => ?_) (fun s haddr hlen => ?_) hpos hn hm hend
    · simp only [cqRule, decide_eq_true_eq] at hs
      omega
    · simp only [cqRule, decide_eq_true_eq] at hs
      omega
    · simp only [cqRule, decide_eq_true_eq]
      omega

def oneBatch (segs : List Segment) (off : ℕ) : Batch := if off = 0 then ⟨segs,total segs⟩ else ⟨[],off⟩

theorem oneBatch_inOrder {segs : List Segment} (h : Maps dev 0 segs) : InOrder dev (oneBatch segs) := by
  intro off
  unfold oneBatch
  split
  · rename_i hzero
    rw [hzero, Nat.zero_add]
    exact ⟨h,rfl⟩
  · exact ⟨trivial,rfl⟩

/-- Two runs of bytes, the second from `len` on. -/
def twoRuns (first second len : ℕ) (x : ℕ) : ℕ := if x < len then first + x else second + (x - len)

theorem maps_twoRuns (first second len len' : ℕ) : Maps (twoRuns first second len) 0 [⟨first,len⟩,⟨second,len'⟩] := by
  refine ⟨fun x hx => ?_,fun x hx => ?_,trivial⟩
  · rw [Nat.zero_add, twoRuns, if_pos hx]
  · rw [Nat.zero_add, twoRuns, if_neg (Nat.not_lt.2 (Nat.le_add_right _ _)), Nat.add_sub_cancel_left]

def exampleEq (segs : List Segment) : EqAnswers := ⟨true,true,true,oneBatch segs⟩

def exampleCq (segs : List Segment) : Answers := ⟨true,true,true,true,true,oneBatch segs,.success,true,true⟩

/-- The first page in two halves, the second one in a batch of its own. -/
def halvesFirst (off : ℕ) : Batch :=
  if off = 0 then ⟨[⟨0x10000,2048⟩,⟨0x10800,2048⟩],4096⟩
  else if off = 4096 then ⟨[⟨0x40000,4096⟩],8192⟩
  else ⟨[],off⟩

theorem halvesFirst_inOrder : InOrder (twoRuns 0x10000 0x40000 4096) halvesFirst := by
  intro off
  unfold halvesFirst
  split_ifs with hzero hsecond
  · rw [hzero]
    refine ⟨⟨fun x (hx : x < 2048) => ?_,fun x (hx : x < 2048) => ?_,trivial⟩,rfl⟩
    · rw [Nat.zero_add, twoRuns, if_pos (by omega)]
    · show twoRuns 0x10000 0x40000 4096 (2048 + x) = 0x10800 + x
      rw [twoRuns, if_pos (by omega)]
      omega
  · rw [hsecond]
    refine ⟨⟨fun x _ => ?_,trivial⟩,rfl⟩
    rw [twoRuns, if_neg (by omega), Nat.add_sub_cancel_left]
  · exact ⟨trivial,rfl⟩

/-- Rings of two pages: an event queue whose first page comes in two halves, and a completion queue with each page in a
segment. -/
theorem pages_describe_wholePages :
    Describes (twoRuns 0x10000 0x40000 4096) 8192 [0x10000,0x40000] ∧
      Describes (twoRuns 0x10000 0x40000 4096) 8192 [0x10000,0x40000] := by
  have hbegun : EachBegun eqRule halvesFirst (twoRuns 0x10000 0x40000 4096) 8192 := by
    refine ⟨fun i hi => ?_,[[⟨0x10000,2048⟩,⟨0x10800,2048⟩],[⟨0x40000,4096⟩]],
      .cons (by decide) (by decide) (.cons (by decide) (by decide) .nil),by decide,by decide⟩
    have hcases : i = 0 ∨ i = 1 := by omega
    rcases hcases with rfl | rfl
    · refine ⟨by decide,fun x hx => ?_⟩
      simp only [twoRuns]
      split_ifs <;> omega
    · refine ⟨by decide,fun x hx => ?_⟩
      simp only [twoRuns]
      split_ifs <;> omega
  have hpages : OnePageEach (oneBatch [⟨0x10000,4096⟩,⟨0x40000,4096⟩]) 8192 :=
    ⟨[[⟨0x10000,4096⟩,⟨0x40000,4096⟩]],.cons (by decide) (by decide) .nil,by decide⟩
  have heq : allocEqBuf 9 7 ⟨true,true,true,halvesFirst⟩ = some (.ok [0x10000,0x40000]) := rfl
  have hcq : createCQ 9 128 (exampleCq [⟨0x10000,4096⟩,⟨0x40000,4096⟩]) =
      some ⟨.success,[.cqeDmaMap,.bufDesc,.dbSlots,.context],some [0x10000,0x40000]⟩ := by decide +kernel
  exact ⟨((pages_describe_iff 9 _).1 7 _ _ (by decide) halvesFirst_inOrder heq).1 hbegun,
    ((pages_describe_iff 9 _).2 128 _ _ _ (oneBatch_inOrder (maps_twoRuns 0x10000 0x40000 4096 4096)) hcq rfl).2 (.inl hpages)⟩

/-- An event queue whose second page is misaligned is left with one page, and a completion
queue of one page in two aligned halves gets two. -/
theorem pages_describe_pieces :
    (¬ ∀ fuel logSize (a : EqAnswers) dev pages, logSize ≤ 10 → InOrder dev a.gen64IOVMSegments →
      allocEqBuf fuel logSize a = some (.ok pages) → Describes dev (eqBytes logSize) pages) ∧
    (¬ ∀ fuel entries (a : Answers) dev c pages, InOrder dev a.gen64IOVMSegments →
      createCQ fuel entries a = some c → c.pageDMA = some pages → Describes dev (cqBytes entries) pages) := by
  constructor
  · intro hall
    have hdesc := hall 9 7 (exampleEq [⟨0x10000,4096⟩,⟨0x40800,4096⟩]) _ [0x10000] (by decide)
      (oneBatch_inOrder (maps_twoRuns 0x10000 0x40800 4096 4096)) rfl
    exact absurd hdesc.1 (by decide)
  · intro hall
    have hcq : createCQ 9 64 (exampleCq [⟨0x10000,2048⟩,⟨0x40000,2048⟩]) =
        some ⟨.success,[.cqeDmaMap,.bufDesc,.dbSlots,.context],some [0x10000,0x40000]⟩ := by decide +kernel
    have hdesc := hall 9 64 _ _ _ _ (oneBatch_inOrder (maps_twoRuns 0x10000 0x40000 2048 2048)) hcq rfl
    exact absurd hdesc.1 (by decide +kernel)

/-! ## The end of the loop -/

/-- The first segment of all is good, if there is one. -/
def FirstGood (gen : ℕ → Batch) : Prop := ∀ s ∈ (gen 0).segs.head?, cqRule.good s = true

theorem mapBatch_bad {r : MapRule} {s : Segment} {segs : List Segment} {pages : List ℕ} (hroom : pages.length < r.maxPages)
    (hbad : r.good s = false) : mapBatch r (s :: segs) pages = (true,pages) := by
  rw [mapBatch, if_pos hroom, hbad, if_neg (by simp)]

theorem mapBatch_good {r : MapRule} {s : Segment} (segs : List Segment) {pages : List ℕ} (hroom : pages.length < r.maxPages)
    (hgood : r.good s = true) : pages.length < (mapBatch r (s :: segs) pages).2.length := by
  rw [(mapBatch_kept r (s :: segs) hroom.le).1, List.takeWhile_cons, hgood, if_pos rfl, List.length_take, List.length_append,
    List.map_cons, List.length_cons]
  omega

/-- Two calls give a page: one that may come across a bad segment, and then one from the beginning. -/
def callsLeft (m : Mapped) : ℕ := 2 * (cqRule.maxPages - m.pages.length) + if m.offset = 0 then 0 else 1

theorem mapLoop_ends (size : ℕ) (h : FirstGood gen) (m : Mapped) :
    ∃ fuel m', mapLoop cqRule size gen fuel m = some m' := by
  induction hk : callsLeft m using Nat.strongRecOn generalizing m with
  | _ k ih =>
    by_cases hmore : m.offset < size ∧ m.pages.length < cqRule.maxPages
    · cases hsegs : (gen m.offset).segs with
      | nil => exact ⟨1,_,by rw [mapLoop, if_pos hmore, if_pos hsegs]⟩
      | cons s segs =>
        obtain ⟨next,hnext⟩ : ∃ next : Mapped, next =
          ⟨if (mapBatch cqRule (s :: segs) m.pages).1 ∧ cqRule.restart then 0 else (gen m.offset).offset,
            (mapBatch cqRule (s :: segs) m.pages).2⟩ := ⟨_,rfl⟩
        have hless : callsLeft next < k := by
          rw [← hk, hnext]
          unfold callsLeft
          cases hs : cqRule.good s with
          | true =>
            have hgain := mapBatch_good segs hmore.2 hs
            dsimp only
            split <;> split <;> omega
          | false =>
            have hoff : m.offset ≠ 0 := by
              intro hzero
              have hfirst := h s (by rw [← hzero, hsegs]; rfl)
              rw [hs] at hfirst
              cases hfirst
            rw [mapBatch_bad hmore.2 hs, if_neg hoff]
            exact Nat.lt_succ_self _
        obtain ⟨fuel,m',hm'⟩ := ih _ hless next rfl
        refine ⟨fuel + 1,m',?_⟩
        rw [mapLoop, if_pos hmore, hsegs, if_neg (List.cons_ne_nil _ _), ← hm', hnext]
    · exact ⟨1,m,by rw [mapLoop, if_neg hmore]⟩

/-- A first segment that is not good is met again by every call. -/
theorem mapLoop_never {size : ℕ} (hsize : 0 < size) {s : Segment} {segs : List Segment} (hsegs : (gen 0).segs = s :: segs)
    (hbad : cqRule.good s = false) (fuel : ℕ) : mapLoop cqRule size gen fuel ⟨0,[]⟩ = none := by
  induction fuel with
  | zero => rfl
  | succ fuel ih =>
    rw [mapLoop, if_pos ⟨hsize,by decide⟩, hsegs, if_neg (List.cons_ne_nil _ _), mapBatch_bad (by decide) hbad]
    exact ih

theorem cqBytes_pos (entries : ℕ) : 0 < cqBytes entries := Nat.mul_pos (Nat.pow_pos (by decide)) (by decide)

/-- A creation that returns a failure holds nothing. -/
theorem createCQ_released (h : createCQ fuel entries a = some c) (hkr : c.kr ≠ .success) : c.held = [] := by
  rcases createCQ_cases h with ⟨-,hheld,-⟩ | ⟨-,m,-,rfl⟩
  · exact hheld
  · unfold afterMap at hkr ⊢
    split_ifs at hkr ⊢
    all_goals first | rfl | exact absurd rfl hkr

theorem createCQ_returns (h : FirstGood a.gen64IOVMSegments) : ∃ fuel c, createCQ fuel entries a = some c := by
  obtain ⟨fuel,m,hm⟩ := mapLoop_ends (cqBytes entries) h ⟨0,[]⟩
  refine ⟨fuel,?_⟩
  unfold createCQ
  simp only [hm, Option.map_some]
  split_ifs <;> exact ⟨_,rfl⟩

/-- The answers of a mapper, with nothing else going wrong. -/
def succeed (gen : ℕ → Batch) : Answers := ⟨true,true,true,true,true,gen,.success,true,true⟩

theorem createCQ_never (hpos : 0 < entries) (hmax : entries ≤ 2048) {s : Segment} {segs : List Segment}
    (hsegs : (gen 0).segs = s :: segs) (hbad : cqRule.good s = false) (fuel : ℕ) :
    createCQ fuel entries (succeed gen) = none := by
  have hnever := mapLoop_never (cqBytes_pos entries) hsegs hbad fuel
  rw [createCQ, if_neg (by omega)]
  simp [succeed, hnever]

/-- Every creation that the mapper is asked in returns, and holds nothing if it fails, exactly
if the first segment of the buffer is good. -/
theorem createCQ_returns_iff (hpos : 0 < entries) (hmax : entries ≤ 2048) :
    (∀ a : Answers, a.gen64IOVMSegments = gen → (∃ fuel c, createCQ fuel entries a = some c) ∧
      ∀ fuel c, createCQ fuel entries a = some c → c.kr ≠ .success → c.held = []) ↔ FirstGood gen := by
  constructor
  · intro hall s hs
    by_contra hbad
    obtain ⟨segs,hsegs⟩ : ∃ segs, (gen 0).segs = s :: segs := by
      cases hgen : (gen 0).segs with
      | nil => rw [hgen] at hs; cases hs
      | cons t segs =>
        rw [hgen] at hs
        cases hs
        exact ⟨segs,rfl⟩
    obtain ⟨⟨fuel,c,hc⟩,-⟩ := hall (succeed gen) rfl
    rw [createCQ_never hpos hmax hsegs (eq_false_of_ne_true hbad)] at hc
    cases hc
  · rintro h a rfl
    exact ⟨createCQ_returns h,fun fuel c hc hkr => createCQ_released hc hkr⟩

theorem createCQ_returns_onePage : (∃ fuel c, createCQ fuel 64 (exampleCq [⟨0x10000,4096⟩]) = some c) ∧
    ∀ fuel c, createCQ fuel 64 (exampleCq [⟨0x10000,4096⟩]) = some c → c.kr ≠ .success → c.held = [] :=
  (createCQ_returns_iff (by decide) (by decide)).2 (by rintro s ⟨⟩; rfl) (exampleCq [⟨0x10000,4096⟩]) rfl

/-- The loop goes on for ever when the buffer begins with a misaligned segment. -/
theorem createCQ_returns_misaligned : ¬ ∀ (entries : ℕ) (gen : ℕ → Batch), 0 < entries → entries ≤ 2048 →
    ∀ a : Answers, a.gen64IOVMSegments = gen → (∃ fuel c, createCQ fuel entries a = some c) ∧
      ∀ fuel c, createCQ fuel entries a = some c → c.kr ≠ .success → c.held = [] := by
  intro hall
  obtain ⟨⟨fuel,c,hc⟩,-⟩ := hall 64 _ (by decide) (by decide) (succeed (oneBatch [⟨0x10800,4096⟩])) rfl
  rw [createCQ_never (by decide) (by decide) rfl rfl] at hc
  cases hc

end AppleMCX.CompletionQueue
