import AppleMCX.Core.Command
import AppleMCX.Hw.P0Encoding
import AppleMCX.Interaction.Segments

/-! # The pages of a memory region

`MlxMR::buildPBL` makes the list of device pages that the memory key of a user buffer gets.
-/
namespace AppleMCX.MemoryRegion
open Interaction Hw

def MLX_MAX_MR_SEGMENTS : ℕ := 480

/-- What the calls of `buildPBL` answer. `gen64IOVMSegments` answers by the segments that it
finds from the offset on, and by none where it fails. -/
structure Answers where
  getLength : ℕ
  withSpecification : Bool
  setMemoryDescriptor : IOReturn
  gen64IOVMSegments : List (List Segment)

/-- `kr`, `offset` and `paList` of `buildPBL` behind its loop. -/
structure Pbl where
  kr : IOReturn
  offset : ℕ
  pages : List ℕ

/-- The segments of one answer, as long as there is room. -/
def pblBatch (startAddr : ℕ) : List Segment → ℕ → List ℕ → IOReturn × List ℕ
  | [], _, pages => (.success,pages)
  | s :: batch, batchOffset, pages =>
    if pages.length < MLX_MAX_MR_SEGMENTS then
      if s.addr % 4096 ≠ (startAddr + batchOffset) % 4096 then (.unsupported,pages)
      else
        match mlxAppendMttPages s.addr s.len MLX_MAX_MR_SEGMENTS pages with
        | (false,pages) => (.noSpace,pages)
        | (true,pages) => pblBatch startAddr batch (batchOffset + s.len) pages
    else (.success,pages)

/-- `gen64IOVMSegments` moves the offset over all the segments that it answers by. -/
def pblLoop (startAddr length : ℕ) : List (List Segment) → ℕ → List ℕ → Pbl
  | [], offset, pages =>
    ⟨if offset < length ∧ pages.length < MLX_MAX_MR_SEGMENTS then .ioError else .success,offset,pages⟩
  | batch :: replies, offset, pages =>
    if offset < length ∧ pages.length < MLX_MAX_MR_SEGMENTS then
      if batch = [] then ⟨.success,offset,pages⟩
      else
        match pblBatch startAddr batch offset pages with
        | (.success,pages) => pblLoop startAddr length replies (offset + total batch) pages
        | (kr,pages) => ⟨kr,offset + total batch,pages⟩
    else ⟨.success,offset,pages⟩

def buildPBL (startAddr length : ℕ) (a : Answers) : Except IOReturn (List ℕ) :=
  if length = 0 ∨ length ≠ a.getLength then .error .badArgument
  else if !a.withSpecification then .error .noMemory
  else if a.setMemoryDescriptor ≠ .success then .error a.setMemoryDescriptor
  else
    let p := pblLoop startAddr length a.gen64IOVMSegments 0 []
    let expectedPages := mlxMttPageCount startAddr length
    if p.kr ≠ .success ∨ p.offset ≠ length ∨ p.pages.length ≠ expectedPages then
      .error (if p.pages.length ≥ MLX_MAX_MR_SEGMENTS ∨ expectedPages > MLX_MAX_MR_SEGMENTS then .noSpace else .ioError)
    else if p.pages.length = 0 then .error .ioError
    else .ok p.pages

/-! ## What a list of pages says -/

variable {startAddr length : ℕ} {dev : ℕ → ℕ} {pages pages' : List ℕ}

/-- The page of the user range that byte `k` lies in, counted from the first one. -/
def userPage (startAddr k : ℕ) : ℕ := (startAddr % 4096 + k) / 4096

/-- The device finds the first `x` bytes where they are. -/
def Translates (startAddr : ℕ) (dev : ℕ → ℕ) (x : ℕ) (pages : List ℕ) : Prop :=
  ∀ k < x, ∃ page, pages[userPage startAddr k]? = some page ∧ dev k = page + (startAddr + k) % 4096

/-- Bytes of different user pages are in different device pages. -/
def Separate (startAddr length : ℕ) (dev : ℕ → ℕ) : Prop :=
  ∀ k < length, ∀ k' < length, (startAddr + k) / 4096 ≠ (startAddr + k') / 4096 → dev k / 4096 ≠ dev k' / 4096

def InOnePiece (startAddr length : ℕ) (dev : ℕ → ℕ) : Prop :=
  ∃ base : ℕ → ℕ, ∀ k < length, dev k = base (userPage startAddr k) + (startAddr + k) % 4096

/-- The number of user pages that the first `x` bytes touch. -/
def touched (startAddr x : ℕ) : ℕ := if x = 0 then 0 else userPage startAddr (x - 1) + 1

theorem mlxMttPageCount_eq (hne : mlxMttPageCount startAddr length ≠ 0) :
    mlxMttPageCount startAddr length = touched startAddr length := by
  unfold mlxMttPageCount touched userPage at *
  simp only at *
  split_ifs at * <;> omega

/-- The list that the first `x` bytes have left. -/
structure Listed (startAddr length : ℕ) (dev : ℕ → ℕ) (x : ℕ) (pages : List ℕ) : Prop where
  aligned : ∀ k < x, dev k % 4096 = (startAddr + k) % 4096
  last : pages.getLast? = if x = 0 then none else some (dev (x - 1) - dev (x - 1) % 4096)
  touched_le : touched startAddr x ≤ pages.length
  translates : pages.length = touched startAddr x → Translates startAddr dev x pages
  onePiece : InOnePiece startAddr length dev → pages.length = touched startAddr x

theorem listed_nil : Listed startAddr length dev 0 [] where
  aligned := fun k hk => absurd hk (Nat.not_lt_zero k)
  last := rfl
  touched_le := Nat.le_refl 0
  translates := fun _ k hk => absurd hk (Nat.not_lt_zero k)
  onePiece := fun _ => rfl

/-- The `step` bytes from `x` on are at `a`, inside of one page, where the user has them in the page. -/
structure Piece (startAddr : ℕ) (dev : ℕ → ℕ) (x a step : ℕ) : Prop where
  dev : ∀ j < step, dev (x + j) = a + j
  congr : a % 4096 = (startAddr + x) % 4096
  pos : 0 < step
  le : step ≤ 4096 - a % 4096

section piece

variable {x a step : ℕ} (h : Listed startAddr length dev x pages) (hp : Piece startAddr dev x a step)
include hp

theorem Piece.touched : touched startAddr (x + step) = userPage startAddr x + 1 := by
  obtain ⟨-,ha,hpos,hstep⟩ := hp
  unfold MemoryRegion.touched userPage
  rw [if_neg (by omega)]
  omega

theorem Piece.dev_at {k : ℕ} (hx : x ≤ k) (hk : k < x + step) : dev k = a + (k - x) := by
  have hdev := hp.dev (k - x) (by omega)
  rwa [Nat.add_sub_cancel' hx] at hdev

theorem Piece.aligned (hold : ∀ k < x, dev k % 4096 = (startAddr + k) % 4096) :
    ∀ k < x + step, dev k % 4096 = (startAddr + k) % 4096 := by
  intro k hk
  by_cases hx : k < x
  · exact hold k hx
  · have hdev := hp.dev_at (by omega) hk
    have hcongr := hp.congr
    omega

theorem Piece.last : some (a - a % 4096) =
    if x + step = 0 then none else some (dev (x + step - 1) - dev (x + step - 1) % 4096) := by
  have hdev := hp.dev_at (k := x + step - 1)
  obtain ⟨-,-,hpos,hstep⟩ := hp
  rw [if_neg (by omega), hdev (by omega) (by omega)]
  congr 1
  omega

theorem Piece.translates (hold : Translates startAddr dev x pages) (hpage : pages[userPage startAddr x]? = some (a - a % 4096)) :
    Translates startAddr dev (x + step) pages := by
  intro k hk
  by_cases hx : k < x
  · exact hold k hx
  · have hdev := hp.dev_at (by omega) hk
    obtain ⟨-,ha,-,hstep⟩ := hp
    have hsame : userPage startAddr k = userPage startAddr x := by
      unfold userPage
      omega
    exact ⟨a - a % 4096,by rw [hsame]; exact hpage,by omega⟩

include h

/-- The bytes go on in the last page of the list, so the user page is the last one as well. -/
theorem Listed.same (hsep : Separate startAddr length dev) (hlen : x + step ≤ length)
    (hlast : pages.getLast? = some (a - a % 4096)) : Listed startAddr length dev (x + step) pages := by
  have hx0 : x ≠ 0 := by
    intro hx0
    rw [h.last, if_pos hx0] at hlast
    cases hlast
  have hdev := hp.dev 0 hp.pos
  have hbefore : dev (x - 1) - dev (x - 1) % 4096 = a - a % 4096 := by
    rw [h.last, if_neg hx0] at hlast
    exact Option.some.inj hlast
  have huser : (startAddr + (x - 1)) / 4096 = (startAddr + x) / 4096 := by
    by_contra hne
    have hapart := hsep (x - 1) (by omega) x (by have := hp.pos; omega) hne
    rw [Nat.add_zero, Nat.add_zero] at hdev
    omega
  have htouched : touched startAddr x = userPage startAddr x + 1 := by
    unfold MemoryRegion.touched userPage
    rw [if_neg hx0]
    omega
  have hnext := hp.touched
  refine ⟨hp.aligned h.aligned,hlast.trans hp.last,?_,?_,?_⟩
  · rw [hnext, ← htouched]
    exact h.touched_le
  · intro hcount
    rw [hnext, ← htouched] at hcount
    refine hp.translates (h.translates hcount) ?_
    rwa [List.getLast?_eq_getElem?, hcount, htouched] at hlast
  · intro hone
    rw [hnext, ← htouched]
    exact h.onePiece hone

/-- In one piece, bytes in a page that the list does not end with begin a user page. -/
theorem Listed.starts (hlen : x + step ≤ length) (hlast : pages.getLast? ≠ some (a - a % 4096))
    (hone : InOnePiece startAddr length dev) : userPage startAddr x = touched startAddr x := by
  by_cases hx0 : x = 0
  · subst hx0
    unfold touched userPage
    rw [if_pos rfl]
    omega
  · unfold touched
    rw [if_neg hx0]
    by_contra hne
    have hsame : userPage startAddr (x - 1) = userPage startAddr x := by
      unfold userPage at hne ⊢
      omega
    obtain ⟨base,hbase⟩ := hone
    have hpos := hp.pos
    have hbefore := hbase (x - 1) (by omega)
    have hhere := hbase x (by omega)
    have haligned := h.aligned (x - 1) (by omega)
    have hdev := hp.dev 0 hpos
    have hcongr := hp.congr
    rw [Nat.add_zero, Nat.add_zero] at hdev
    rw [hsame] at hbefore
    apply hlast
    rw [h.last, if_neg hx0]
    congr 1
    omega

theorem Listed.append (hlen : x + step ≤ length) (hlast : pages.getLast? ≠ some (a - a % 4096)) :
    Listed startAddr length dev (x + step) (pages ++ [a - a % 4096]) := by
  have hnext := hp.touched
  have hle : userPage startAddr x ≤ touched startAddr x := by
    unfold touched userPage
    split <;> omega
  have hcovered := h.touched_le
  refine ⟨hp.aligned h.aligned,?_,?_,?_,?_⟩
  · rw [List.getLast?_concat]
    exact hp.last
  · rw [hnext, List.length_append, List.length_singleton]
    omega
  · intro hcount
    rw [hnext, List.length_append, List.length_singleton] at hcount
    have hindex : userPage startAddr x = pages.length := by omega
    refine hp.translates ?_ ?_
    · intro k hk
      obtain ⟨page,hpage,hdev⟩ := h.translates (by omega) k hk
      exact ⟨page,by rw [List.getElem?_append_left (List.getElem?_eq_some_iff.1 hpage).1, hpage],hdev⟩
    · rw [hindex, List.getElem?_concat_length]
  · intro hone
    rw [hnext, List.length_append, List.length_singleton, h.onePiece hone, h.starts hp hlen hlast hone]

theorem Listed.appendPage (hsep : Separate startAddr length dev) (hlen : x + step ≤ length) {capacity : ℕ}
    (hpages : appendPage capacity (a - a % 4096) pages = some pages') :
    Listed startAddr length dev (x + step) pages' := by
  unfold Hw.appendPage at hpages
  split_ifs at hpages with hlast
  · cases hpages
    exact h.same hp hsep hlen hlast
  · cases hpages
    exact h.append hp hlen hlast

end piece

/-! ## What the loops build -/

theorem appendMttLoop_listed (hsep : Separate startAddr length dev) {capacity fuel a len x : ℕ} (hfuel : len ≤ fuel)
    (h : Listed startAddr length dev x pages) (hdev : ∀ j < len, dev (x + j) = a + j)
    (ha : a % 4096 = (startAddr + x) % 4096) (hlen : x + len ≤ length)
    (hok : appendMttLoop capacity fuel a len pages = (true,pages')) : Listed startAddr length dev (x + len) pages' := by
  induction fuel generalizing a len x pages with
  | zero =>
    obtain rfl : len = 0 := by omega
    cases hok
    exact h
  | succ fuel ih =>
    unfold appendMttLoop at hok
    split at hok
    · rename_i hzero
      cases hok
      rw [hzero]
      exact h
    · cases hpages : appendPage capacity (a - a % 4096) pages with
      | none =>
        rw [hpages] at hok
        cases hok
      | some next =>
        rw [hpages] at hok
        have hp : Piece startAddr dev x a (min (4096 - a % 4096) len) :=
          ⟨fun j hj => hdev j (by omega),ha,by omega,by omega⟩
        have hnext := h.appendPage hp hsep (by omega) hpages
        have hrest := ih (by omega) hnext (fun j hj => by
          rw [Nat.add_assoc, hdev _ (by omega), Nat.add_assoc]) (by omega) (by omega) hok
        rwa [show x + min (4096 - a % 4096) len + (len - min (4096 - a % 4096) len) = x + len by omega] at hrest

theorem mlxAppendMttPages_listed (hsep : Separate startAddr length dev) {capacity x : ℕ} {s : Segment}
    (h : Listed startAddr length dev x pages) (hdev : ∀ j < s.len, dev (x + j) = s.addr + j)
    (ha : s.addr % 4096 = (startAddr + x) % 4096) (hlen : x + s.len ≤ length)
    (hok : mlxAppendMttPages s.addr s.len capacity pages = (true,pages')) :
    Listed startAddr length dev (x + s.len) pages' := by
  unfold mlxAppendMttPages at hok
  split_ifs at hok
  · cases hok
  · exact appendMttLoop_listed hsep le_rfl h hdev ha hlen hok

def entries (segs : List Segment) : List ℕ :=
  segs.foldl (fun pages s => (mlxAppendMttPages s.addr s.len MLX_MAX_MR_SEGMENTS pages).2) []

theorem entries_concat (segs : List Segment) (s : Segment) :
    entries (segs ++ [s]) = (mlxAppendMttPages s.addr s.len MLX_MAX_MR_SEGMENTS (entries segs)).2 := by
  rw [entries, List.foldl_append]
  rfl

/-- The list is that of the segments `done`, which have nothing wrong. -/
structure Built (startAddr length : ℕ) (dev : ℕ → ℕ) (done : List Segment) (pages : List ℕ) : Prop where
  entries : pages = entries done
  listed : Listed startAddr length dev (total done) pages

/-- The segments from some place on have been passed over. -/
def Skips (rest : List Segment) (pages : List ℕ) : Prop := rest = [] ∨ MLX_MAX_MR_SEGMENTS ≤ pages.length

theorem pblBatch_built (hsep : Separate startAddr length dev) {done batch : List Segment}
    (h : Built startAddr length dev done pages) (hmaps : Maps dev (total done) batch)
    (hlen : total done + total batch ≤ length)
    (hok : pblBatch startAddr batch (total done) pages = (.success,pages')) :
    ∃ front rest, batch = front ++ rest ∧ Built startAddr length dev (done ++ front) pages' ∧ Skips rest pages' := by
  induction batch generalizing done pages with
  | nil =>
    cases hok
    exact ⟨[],[],rfl,by rwa [List.append_nil],.inl rfl⟩
  | cons s batch ih =>
    rw [total_cons] at hlen
    unfold pblBatch at hok
    split at hok
    · split at hok
      · cases hok
      · rename_i hcongr
        cases hpages : mlxAppendMttPages s.addr s.len MLX_MAX_MR_SEGMENTS pages with
        | mk ok next =>
          cases ok with
          | false =>
            rw [hpages] at hok
            cases hok
          | true =>
            rw [hpages] at hok
            have hnext : Built startAddr length dev (done ++ [s]) next := by
              refine ⟨?_,?_⟩
              · rw [entries_concat, ← h.entries, hpages]
              · rw [total_append, total_cons, total_nil, Nat.add_zero]
                exact mlxAppendMttPages_listed hsep h.listed hmaps.1 (not_not.1 hcongr) (by omega) hpages
            have htotal : total (done ++ [s]) = total done + s.len := by
              rw [total_append, total_cons, total_nil, Nat.add_zero]
            obtain ⟨front,rest,hsplit,hbuilt,hskips⟩ := ih hnext (htotal ▸ hmaps.2) (by omega) (htotal ▸ hok)
            refine ⟨s :: front,rest,by rw [hsplit, List.cons_append],?_,hskips⟩
            rwa [List.append_assoc, List.singleton_append] at hbuilt
    · rename_i hfull
      cases hok
      exact ⟨[],s :: batch,rfl,by rwa [List.append_nil],.inr (by omega)⟩

theorem pblLoop_full (replies : List (List Segment)) (offset : ℕ) (hfull : MLX_MAX_MR_SEGMENTS ≤ pages.length) :
    pblLoop startAddr length replies offset pages = ⟨.success,offset,pages⟩ := by
  cases replies with
  | nil => rw [pblLoop, if_neg (by omega)]
  | cons => rw [pblLoop, if_neg (by omega)]

/-- A loop that ends at the end of the region is there already, or its next batch is taken. -/
theorem pblLoop_cases {batch : List Segment} {replies : List (List Segment)} {offset : ℕ}
    (hok : (pblLoop startAddr length (batch :: replies) offset pages).kr = .success)
    (hend : (pblLoop startAddr length (batch :: replies) offset pages).offset = length) :
    (offset = length ∧ pblLoop startAddr length (batch :: replies) offset pages = ⟨.success,offset,pages⟩) ∨
      ∃ next, pblBatch startAddr batch offset pages = (.success,next) ∧
        pblLoop startAddr length (batch :: replies) offset pages =
          pblLoop startAddr length replies (offset + total batch) next := by
  rw [pblLoop] at hok hend ⊢
  split at hok
  · rename_i hmore
    rw [if_pos hmore] at hend ⊢
    split at hok
    · rename_i hnone
      rw [if_pos hnone] at hend
      exact absurd hend hmore.1.ne
    · rename_i hsome
      rw [if_neg hsome]
      cases hbatch : pblBatch startAddr batch offset pages with
      | mk kr next =>
        rw [hbatch] at hok
        cases kr with
        | success => exact .inr ⟨next,rfl,rfl⟩
        | _ => cases hok
  · rename_i hdone
    rw [if_neg hdone] at hend ⊢
    exact .inl ⟨hend,rfl⟩

theorem pblLoop_built (hsep : Separate startAddr length dev) {done : List Segment} {replies : List (List Segment)}
    (h : Built startAddr length dev done pages) (hmaps : Maps dev (total done) replies.flatten)
    (hlen : total done + total replies.flatten ≤ length) (hpos : ∀ s ∈ replies.flatten, 0 < s.len)
    (hok : (pblLoop startAddr length replies (total done) pages).kr = .success)
    (hend : (pblLoop startAddr length replies (total done) pages).offset = length) :
    ∃ front rest, replies.flatten = front ++ rest ∧
      Built startAddr length dev (done ++ front) (pblLoop startAddr length replies (total done) pages).pages ∧
      Skips rest (pblLoop startAddr length replies (total done) pages).pages := by
  induction replies generalizing done pages with
  | nil => exact ⟨[],[],rfl,by rwa [List.append_nil],.inl rfl⟩
  | cons batch replies ih =>
    rw [List.flatten_cons] at hmaps hlen hpos ⊢
    rw [total_append] at hlen
    rcases pblLoop_cases hok hend with ⟨hdone,hloop⟩ | ⟨next,hbatch,hloop⟩
    · rw [hloop]
      refine ⟨[],_,rfl,by rwa [List.append_nil],.inl ?_⟩
      by_contra hne
      have hleft := total_pos hpos hne
      rw [total_append] at hleft
      omega
    · rw [hloop] at hok hend ⊢
      obtain ⟨front,rest,hsplit,hbuilt,hskips⟩ := pblBatch_built hsep h (maps_append.1 hmaps).1 (by omega) hbatch
      by_cases hfull : MLX_MAX_MR_SEGMENTS ≤ next.length
      · rw [pblLoop_full _ _ hfull]
        exact ⟨front,rest ++ replies.flatten,by rw [hsplit, List.append_assoc],hbuilt,.inr hfull⟩
      · obtain rfl : rest = [] := hskips.resolve_right hfull
        rw [List.append_nil] at hsplit
        subst hsplit
        have htotal : total (done ++ batch) = total done + total batch := total_append done batch
        have hnext := ih hbuilt (htotal ▸ (maps_append.1 hmaps).2) (by omega)
          (fun s hs => hpos s (List.mem_append_right _ hs)) (htotal ▸ hok) (htotal ▸ hend)
        rw [htotal] at hnext
        obtain ⟨more,rest,hsplit,hbuilt,hskips⟩ := hnext
        refine ⟨batch ++ more,rest,by rw [hsplit, List.append_assoc],?_,hskips⟩
        rwa [List.append_assoc] at hbuilt

/-- A run that succeeds has gone through the segments from the front, and has passed over
others only when the list was full. -/
theorem buildPBL_built (hsep : Separate startAddr length dev) {a : Answers} (h : Covers dev length a.gen64IOVMSegments.flatten)
    (hok : buildPBL startAddr length a = .ok pages) :
    pages.length = mlxMttPageCount startAddr length ∧ pages.length = touched startAddr length ∧
      ∃ front rest, a.gen64IOVMSegments.flatten = front ++ rest ∧ Built startAddr length dev front pages ∧
      Skips rest pages := by
  unfold buildPBL at hok
  simp only at hok
  split_ifs at hok with _ _ _ hfinal hcount
  cases hok
  simp only [not_or, not_not] at hfinal
  obtain ⟨hkr,hoffset,hpages⟩ := hfinal
  have hbuilt := pblLoop_built hsep (⟨rfl,listed_nil⟩ : Built startAddr length dev [] [])
    h.maps (by rw [h.total]; exact (Nat.zero_add length).le) h.pos hkr hoffset
  exact ⟨hpages,hpages.trans (mlxMttPageCount_eq (by omega)),hbuilt⟩

/-- Without a segment that is passed over, the number of pages is the only thing to check. -/
theorem buildPBL_all (hsep : Separate startAddr length dev) {a : Answers} (h : Covers dev length a.gen64IOVMSegments.flatten)
    (hok : buildPBL startAddr length a = .ok pages)
    (hlate : ∀ front rest, a.gen64IOVMSegments.flatten = front ++ rest →
    rest ≠ [] → (entries front).length < MLX_MAX_MR_SEGMENTS) :
    Translates startAddr dev length pages := by
  obtain ⟨-,hcount,front,rest,hsplit,hbuilt,hskips⟩ := buildPBL_built hsep h hok
  obtain rfl : rest = [] := by
    by_contra hne
    have hfull := hskips.resolve_left hne
    have hless := hlate front rest hsplit hne
    rw [← hbuilt.entries] at hless
    omega
  rw [List.append_nil] at hsplit
  have hlisted := hbuilt.listed
  rw [← hsplit, h.total] at hlisted
  exact hlisted.translates hcount

/-- Where every user page is in one piece, the bytes that are passed over are in a page of the list. -/
theorem buildPBL_onePiece (hsep : Separate startAddr length dev) {a : Answers}
    (h : Covers dev length a.gen64IOVMSegments.flatten) (hok : buildPBL startAddr length a = .ok pages)
    (hone : InOnePiece startAddr length dev) : Translates startAddr dev length pages := by
  obtain ⟨-,hcount,front,rest,hsplit,hbuilt,-⟩ := buildPBL_built hsep h hok
  have hx := hbuilt.listed.onePiece hone
  have htrans := hbuilt.listed.translates hx
  obtain ⟨base,hbase⟩ := hone
  have hle : total front ≤ length := by
    rw [← h.total, hsplit, total_append]
    exact Nat.le_add_right _ _
  intro k hk
  by_cases hkx : k < total front
  · exact htrans k hkx
  · have hx0 : total front ≠ 0 := by
      intro hx0
      rw [hcount, hx0] at hx
      simp only [touched, if_true] at hx
      split at hx <;> omega
    obtain ⟨page,hpage,hdev⟩ := htrans (total front - 1) (by omega)
    have hsame : userPage startAddr k = userPage startAddr (total front - 1) := by
      rw [hcount] at hx
      simp only [touched, if_neg hx0] at hx
      unfold userPage at *
      split at hx <;> omega
    have hbefore := hbase (total front - 1) (by omega)
    have hhere := hbase k hk
    rw [← hsame] at hbefore hpage
    exact ⟨page,hpage,by omega⟩

theorem onePiece_of_translates (h : Translates startAddr dev length pages) : InOnePiece startAddr length dev := by
  refine ⟨fun i => pages.getD i 0,fun k hk => ?_⟩
  obtain ⟨page,hpage,hdev⟩ := h k hk
  have hentry : pages.getD (userPage startAddr k) 0 = page := by
    rw [List.getD_eq_getElem?_getD, hpage, Option.getD_some]
  dsimp only
  rw [hdev, hentry]

/-- `numSegs` and `paList` are those of the buffer that starts at `startAddr`. -/
def Describes (startAddr length : ℕ) (dev : ℕ → ℕ) (pages : List ℕ) : Prop :=
  pages.length = mlxMttPageCount startAddr length ∧ Translates startAddr dev length pages

/-- Besides buffers whose pages are all in one piece, the list is right exactly for those that
leave it room up to the last segment. -/
theorem buildPBL_describes_iff (hsep : Separate startAddr length dev) {a : Answers}
    (h : Covers dev length a.gen64IOVMSegments.flatten) (hok : buildPBL startAddr length a = .ok pages) :
    Describes startAddr length dev pages ↔
      (∀ front rest, a.gen64IOVMSegments.flatten = front ++ rest →
      rest ≠ [] → (entries front).length < MLX_MAX_MR_SEGMENTS) ∨
        InOnePiece startAddr length dev := by
  have hcount := (buildPBL_built hsep h hok).1
  constructor
  · rintro ⟨-,htrans⟩
    exact .inr (onePiece_of_translates htrans)
  · rintro (hlate | hone)
    · exact ⟨hcount,buildPBL_all hsep h hok hlate⟩
    · exact ⟨hcount,buildPBL_onePiece hsep h hok hone⟩

theorem buildPBL_describes_twoPages :
    Describes 0x1800 0x1000 (fun k => if k < 0x800 then 0x40800 + k else 0x90000 + (k - 0x800))
    [0x40000,0x90000] := by
  have hcovers : Covers (fun k => if k < 0x800 then 0x40800 + k else 0x90000 + (k - 0x800)) 0x1000
      [⟨0x40800,0x800⟩,⟨0x90000,0x800⟩] := by
    refine ⟨⟨fun x hx => ?_,fun x hx => ?_,trivial⟩,by decide,rfl⟩ <;> dsimp only at hx ⊢ <;> split <;> omega
  have hsep : Separate 0x1800 0x1000 (fun k => if k < 0x800 then 0x40800 + k else 0x90000 + (k - 0x800)) := by
    intro k hk k' hk' hne
    dsimp only
    split <;> split <;> omega
  have hone : InOnePiece 0x1800 0x1000 (fun k => if k < 0x800 then 0x40800 + k else 0x90000 + (k - 0x800)) := by
    refine ⟨fun i => if i = 0 then 0x40000 else 0x90000,fun k hk => ?_⟩
    dsimp only [userPage]
    split <;> split <;> omega
  exact (buildPBL_describes_iff (a := ⟨0x1000,true,.success,[[⟨0x40800,0x800⟩,⟨0x90000,0x800⟩]]⟩) hsep hcovers
    (by decide +kernel)).2 (.inr hone)

/-- 480 pages in one answer: the first page is in two halves, and the last is never looked at. -/
def exampleSegs : List Segment := [⟨0x10000,2048⟩,⟨0x20800,2048⟩,⟨0x1000000,4096 * 478⟩,⟨0x80000,4096⟩]

def exampleDev (k : ℕ) : ℕ :=
  if k < 2048 then 0x10000 + k
  else if k < 4096 then 0x20000 + k
  else if k < 4096 * 479 then 0x1000000 + (k - 4096)
  else 0x80000 + (k - 4096 * 479)

theorem pblBatch_cons {s : Segment} {batch : List Segment} {batchOffset : ℕ} (hroom : pages.length < MLX_MAX_MR_SEGMENTS)
    (hcongr : s.addr % 4096 = (startAddr + batchOffset) % 4096)
    (hpages : mlxAppendMttPages s.addr s.len MLX_MAX_MR_SEGMENTS pages = (true,pages')) :
    pblBatch startAddr (s :: batch) batchOffset pages = pblBatch startAddr batch (batchOffset + s.len) pages' := by
  rw [pblBatch, if_pos hroom, if_neg (not_not.2 hcongr), hpages]

/-- Whole pages in a row all go to the list. -/
theorem appendMttLoop_run {capacity fuel n a : ℕ} (hfuel : 4096 * n ≤ fuel) (ha : a % 4096 = 0)
    (hlast : pages.getLast? ≠ some a) (hroom : pages.length + n ≤ capacity) :
    appendMttLoop capacity fuel a (4096 * n) pages = (true,pages ++ (List.range' 0 n).map (a + 4096 * ·)) := by
  induction n generalizing fuel a pages with
  | zero => cases fuel <;> simp [appendMttLoop]
  | succ n ih =>
    rw [Nat.mul_succ] at hfuel ⊢
    obtain ⟨fuel,rfl⟩ : ∃ more, fuel = more + 1 := ⟨fuel - 1,by omega⟩
    have hpage : appendPage capacity (a - a % 4096) pages = some (pages ++ [a]) := by
      rw [appendPage, ha, Nat.sub_zero, if_neg hlast, if_neg (by omega)]
    have hlast' : (pages ++ [a]).getLast? ≠ some (a + 4096) := by
      rw [List.getLast?_concat]
      exact fun he => absurd (Option.some.inj he) (by omega)
    have hroom' : (pages ++ [a]).length + n ≤ capacity := by
      rw [List.length_append, List.length_singleton]
      omega
    have hnext := ih (by omega : 4096 * n ≤ fuel) (by omega) hlast' hroom'
    rw [appendMttLoop, if_neg (by omega), hpage]
    dsimp only
    rw [show min (4096 - a % 4096) (4096 * n + 4096) = 4096 by omega, Nat.add_sub_cancel, hnext,
      List.range'_succ, List.map_cons, List.append_assoc, List.singleton_append, Nat.mul_zero, Nat.add_zero,
      List.range'_succ_left, List.map_map]
    refine congrArg (fun rest => (true,pages ++ a :: rest)) (List.map_congr_left fun i _ => ?_)
    simp only [Function.comp]
    omega

def examplePages : List ℕ := [0x10000,0x20000] ++ (List.range' 0 478).map (0x1000000 + 4096 * ·)

/-- The run ends well, with an entry for each half. -/
theorem exampleSegs_built :
    buildPBL 0x7f0000000 (4096 * 480) ⟨4096 * 480,true,.success,[exampleSegs]⟩ = .ok examplePages := by
  have hfirst : mlxAppendMttPages 0x10000 2048 MLX_MAX_MR_SEGMENTS [] = (true,[0x10000]) := by decide +kernel
  have hsecond : mlxAppendMttPages 0x20800 2048 MLX_MAX_MR_SEGMENTS [0x10000] = (true,[0x10000,0x20000]) := by
    decide +kernel
  have hthird : mlxAppendMttPages 0x1000000 (4096 * 478) MLX_MAX_MR_SEGMENTS [0x10000,0x20000] = (true,examplePages) := by
    rw [mlxAppendMttPages, if_neg (by decide)]
    exact appendMttLoop_run le_rfl (by decide) (by decide) (by decide)
  have hcount : examplePages.length = MLX_MAX_MR_SEGMENTS := by
    rw [examplePages, List.length_append, List.length_map, List.length_range']
    rfl
  have hbatch : pblBatch 0x7f0000000 exampleSegs 0 [] = (.success,examplePages) := by
    refine (pblBatch_cons (s := ⟨0x10000,2048⟩) (by decide) (by decide) hfirst).trans ?_
    refine (pblBatch_cons (s := ⟨0x20800,2048⟩) (by decide) (by decide) hsecond).trans ?_
    refine (pblBatch_cons (s := ⟨0x1000000,4096 * 478⟩) (by decide) (by decide) hthird).trans ?_
    rw [pblBatch, hcount, if_neg (lt_irrefl _)]
  have hloop : pblLoop 0x7f0000000 (4096 * 480) [exampleSegs] 0 [] = ⟨.success,4096 * 480,examplePages⟩ := by
    have htotal : 0 + total exampleSegs = 4096 * 480 := by decide
    rw [pblLoop, if_pos (by decide), if_neg (by decide), hbatch]
    dsimp only
    rw [pblLoop_full _ _ hcount.ge, htotal]
  have hexpected : mlxMttPageCount 0x7f0000000 (4096 * 480) = MLX_MAX_MR_SEGMENTS := by decide
  rw [buildPBL, if_neg (by decide), if_neg (by decide), if_neg (by decide), hloop, hexpected]
  dsimp only
  rw [hcount, if_neg (by decide), if_neg (by decide)]

theorem buildPBL_describes_halves : ¬ ∀ (startAddr length : ℕ) (dev : ℕ → ℕ) (a : Answers) (pages : List ℕ),
    Separate startAddr length dev → Covers dev length a.gen64IOVMSegments.flatten →
    buildPBL startAddr length a = .ok pages → Describes startAddr length dev pages := by
  intro hall
  have hsep : Separate 0x7f0000000 (4096 * 480) exampleDev := by
    intro k hk k' hk' hne
    unfold exampleDev
    split_ifs <;> omega
  have hcovers : Covers exampleDev (4096 * 480) [exampleSegs].flatten := by
    refine ⟨⟨fun x hx => ?_,fun x hx => ?_,fun x hx => ?_,fun x hx => ?_,trivial⟩,by decide,rfl⟩ <;>
      dsimp only [exampleDev] at hx ⊢ <;> split_ifs <;> omega
  obtain ⟨page,hpage,hdev⟩ := (hall _ _ exampleDev _ _ hsep hcovers exampleSegs_built).2 4096 (by decide)
  have hentry : some 0x20000 = some page := hpage
  cases hentry
  exact absurd hdev (by decide)

end AppleMCX.MemoryRegion
