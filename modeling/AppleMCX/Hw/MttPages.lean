import AppleMCX.Hw.P0Encoding
import AppleMCX.Interaction.Loop

/-! # Page expansion

What `mlxAppendMttPages` puts behind a list of pages, and its loop as the code runs it, on
64-bit words.
-/
namespace AppleMCX.Hw
open Interaction

def MLX_MTT_PAGE_SIZE : BitVec 64 := 4096

/-- A round of the loop of `mlxAppendMttPages`. -/
def appendRound (capacity : ℕ) : (BitVec 64 × BitVec 64) × List ℕ →
    (Bool × List ℕ) ⊕ (BitVec 64 × BitVec 64) × List ℕ
  | ((dmaAddress,length),pages) =>
    if length = 0 then .inl (true,pages)
    else
      match appendPage capacity (dmaAddress &&& ~~~(MLX_MTT_PAGE_SIZE - 1)).toNat pages with
      | none => .inl (false,pages)
      | some pages =>
        let step := MLX_MTT_PAGE_SIZE - (dmaAddress &&& (MLX_MTT_PAGE_SIZE - 1))
        let step := if step > length then length else step
        .inr ((dmaAddress + step,length - step),pages)

/-- The pages that `[dmaAddress, dmaAddress + length)` touches, in order. -/
def touchedPages (dmaAddress length : ℕ) : List ℕ :=
  if length = 0 then []
  else (List.range' (dmaAddress / 4096) ((dmaAddress + length - 1) / 4096 - dmaAddress / 4096 + 1)).map (4096 * ·)

/-- The first of them is left out where the list ends with it. -/
def newPages (dmaAddress length : ℕ) (pages : List ℕ) : List ℕ :=
  if pages.getLast? = (touchedPages dmaAddress length).head? then (touchedPages dmaAddress length).tail
  else touchedPages dmaAddress length

variable {dmaAddress length capacity : ℕ} {pages : List ℕ}

theorem mem_touchedPages {page : ℕ} : page ∈ touchedPages dmaAddress length ↔
    ∃ k < length, page = dmaAddress + k - (dmaAddress + k) % 4096 := by
  unfold touchedPages
  split_ifs with h
  · refine iff_of_false List.not_mem_nil ?_
    rintro ⟨k,hk,-⟩
    omega
  · rw [List.mem_map]
    constructor
    · rintro ⟨n,hn,rfl⟩
      rw [List.mem_range'_1] at hn
      refine ⟨4096 * n - dmaAddress,?_,?_⟩ <;> omega
    · rintro ⟨k,hk,rfl⟩
      refine ⟨(dmaAddress + k) / 4096,?_,?_⟩
      · rw [List.mem_range'_1]
        omega
      · omega

/-! ## One round -/

def roundBytes (dmaAddress length : ℕ) : ℕ := min (4096 - dmaAddress % 4096) length

theorem touchedPages_round (h : length ≠ 0) : touchedPages dmaAddress length = (dmaAddress - dmaAddress % 4096) ::
    touchedPages (dmaAddress + roundBytes dmaAddress length) (length - roundBytes dmaAddress length) := by
  have hpage : 4096 * (dmaAddress / 4096) = dmaAddress - dmaAddress % 4096 := by omega
  unfold roundBytes touchedPages
  rw [if_neg h, List.range'_succ, List.map_cons, hpage]
  congr 1
  split_ifs with hend
  · rw [show (dmaAddress + length - 1) / 4096 - dmaAddress / 4096 = 0 by omega]
    rfl
  · have hstep : min (4096 - dmaAddress % 4096) length = 4096 - dmaAddress % 4096 := by omega
    have hnext : dmaAddress + (4096 - dmaAddress % 4096) = 4096 * (dmaAddress / 4096 + 1) := by omega
    have hlast : dmaAddress + (4096 - dmaAddress % 4096) + (length - (4096 - dmaAddress % 4096)) - 1 =
        dmaAddress + length - 1 := by omega
    have hlater : dmaAddress / 4096 + 1 ≤ (dmaAddress + length - 1) / 4096 := by
      rw [Nat.le_div_iff_mul_le (by decide), Nat.mul_comm, ← hnext]
      omega
    rw [hstep, hlast, hnext, Nat.mul_div_cancel_left _ (by decide)]
    congr 2
    omega

/-- The next round does not begin in the page of this one. -/
theorem newPages_round (hlast : pages.getLast? = some (dmaAddress - dmaAddress % 4096)) :
    newPages (dmaAddress + roundBytes dmaAddress length) (length - roundBytes dmaAddress length) pages =
      touchedPages (dmaAddress + roundBytes dmaAddress length) (length - roundBytes dmaAddress length) := by
  unfold newPages
  refine if_neg ?_
  rw [hlast]
  by_cases hend : length - roundBytes dmaAddress length = 0
  · rw [hend, touchedPages, if_pos rfl]
    exact Option.some_ne_none _
  · rw [touchedPages_round hend, List.head?_cons, Option.some.injEq]
    unfold roundBytes at hend ⊢
    omega

theorem newPages_of_ne (h : length ≠ 0) (hlast : pages.getLast? ≠ some (dmaAddress - dmaAddress % 4096)) :
    newPages dmaAddress length pages = touchedPages dmaAddress length := by
  rw [newPages, touchedPages_round h, List.head?_cons, if_neg hlast]

theorem newPages_of_eq (h : length ≠ 0) (hlast : pages.getLast? = some (dmaAddress - dmaAddress % 4096)) :
    newPages dmaAddress length pages =
      touchedPages (dmaAddress + roundBytes dmaAddress length) (length - roundBytes dmaAddress length) := by
  rw [newPages, touchedPages_round h, List.head?_cons, if_pos hlast, List.tail_cons]

/-! ## The loop -/

def Fits (capacity : ℕ) (pages new : List ℕ) : Prop := new = [] ∨ pages.length + new.length ≤ capacity

theorem fits_iff (h : pages.length ≤ capacity) (new : List ℕ) :
    Fits capacity pages new ↔ (pages ++ new).length ≤ capacity := by
  rw [List.length_append]
  refine or_iff_right_of_imp ?_
  rintro rfl
  exact h

/-- All the new pages where they fit, as many as there is room for where they do not. -/
structure Appended (capacity : ℕ) (pages new : List ℕ) (r : Bool × List ℕ) : Prop where
  true_iff : r.1 = true ↔ Fits capacity pages new
  list : r.2 = pages ++ if r.1 then new else new.take (capacity - pages.length)

theorem appended_cons {page : ℕ} {rest : List ℕ} {r : Bool × List ℕ} (hroom : pages.length < capacity)
    (h : Appended capacity (pages ++ [page]) rest r) : Appended capacity pages (page :: rest) r := by
  obtain ⟨hiff,hlist⟩ := h
  constructor
  · rw [hiff, Fits, Fits, List.length_append, List.length_singleton, List.length_cons]
    constructor
    · rintro (rfl | hle)
      · exact Or.inr hroom
      · exact Or.inr (by omega)
    · rintro (hnil | hle)
      · cases hnil
      · exact Or.inr (by omega)
  · rw [hlist, List.append_assoc]
    congr 1
    cases r.1 with
    | true => rfl
    | false =>
      obtain ⟨room,hr⟩ := Nat.exists_eq_add_of_lt hroom
      rw [hr, List.length_append, List.length_singleton]
      rw [show pages.length + room + 1 - pages.length = room + 1 by omega,
        show pages.length + room + 1 - (pages.length + 1) = room by omega]
      rfl

theorem newPages_zero (dmaAddress : ℕ) (pages : List ℕ) : newPages dmaAddress 0 pages = [] := by
  rw [newPages, touchedPages, if_pos rfl]
  exact ite_self []

theorem appended_nil (capacity : ℕ) (pages : List ℕ) : Appended capacity pages [] (true,pages) :=
  ⟨iff_of_true rfl (Or.inl rfl),(List.append_nil pages).symm⟩

/-- As many rounds as there are bytes are enough. -/
theorem appendMttLoop_appended {fuel : ℕ} (hfuel : length ≤ fuel) :
    Appended capacity pages (newPages dmaAddress length pages) (appendMttLoop capacity fuel dmaAddress length pages) := by
  induction fuel generalizing dmaAddress length pages with
  | zero =>
    rw [Nat.le_zero.mp hfuel, newPages_zero]
    exact appended_nil capacity pages
  | succ fuel ih =>
    by_cases hlen : length = 0
    · rw [hlen, newPages_zero, appendMttLoop, if_pos rfl]
      exact appended_nil capacity pages
    · have hrest : length - roundBytes dmaAddress length ≤ fuel := by
        unfold roundBytes
        omega
      rw [appendMttLoop, if_neg hlen, appendPage]
      by_cases hlast : pages.getLast? = some (dmaAddress - dmaAddress % 4096)
      · rw [if_pos hlast, newPages_of_eq hlen hlast, ← newPages_round hlast]
        exact ih hrest
      · rw [if_neg hlast, newPages_of_ne hlen hlast, touchedPages_round hlen]
        by_cases hfull : pages.length ≥ capacity
        · rw [if_pos hfull]
          refine ⟨iff_of_false Bool.false_ne_true ?_,?_⟩
          · rintro (hnil | hle)
            · cases hnil
            · rw [List.length_cons] at hle
              omega
          · rw [Nat.sub_eq_zero_of_le hfull]
            exact (List.append_nil pages).symm
        · rw [if_neg hfull]
          have hnext : (pages ++ [dmaAddress - dmaAddress % 4096]).getLast? = some (dmaAddress - dmaAddress % 4096) :=
            List.getLast?_concat
          refine appended_cons (Nat.lt_of_not_le hfull) ?_
          rw [← newPages_round hnext]
          exact ih hrest

/-! ## The words of the code -/

theorem pageOffset_toNat (a : BitVec 64) : (a &&& (MLX_MTT_PAGE_SIZE - 1)).toNat = a.toNat % 4096 := by
  rw [BitVec.toNat_and]
  exact Nat.and_two_pow_sub_one_eq_mod a.toNat 12

theorem pageBase_toNat (a : BitVec 64) : (a &&& ~~~(MLX_MTT_PAGE_SIZE - 1)).toNat = a.toNat - a.toNat % 4096 := by
  have hmask : ∀ i, i < 64 → (~~~(MLX_MTT_PAGE_SIZE - 1)).getLsbD i = decide (12 ≤ i) := by decide
  have hbase : a.toNat - a.toNat % 4096 = 2 ^ 12 * (a.toNat / 2 ^ 12) := by
    rw [show 2 ^ 12 = 4096 from rfl]
    omega
  apply Nat.eq_of_testBit_eq
  intro i
  rw [hbase, Nat.testBit_two_pow_mul, Nat.testBit_div_two_pow, BitVec.testBit_toNat, BitVec.testBit_toNat, BitVec.getLsbD_and]
  by_cases hi : i < 64
  · rw [hmask i hi, Bool.and_comm]
    by_cases h12 : 12 ≤ i
    · rw [decide_eq_true h12, Nat.sub_add_cancel h12]
    · rw [decide_eq_false h12, Bool.false_and, Bool.false_and]
  · rw [BitVec.getLsbD_of_ge a i (by omega), Bool.false_and]
    by_cases h12 : 12 ≤ i
    · rw [Nat.sub_add_cancel h12, BitVec.getLsbD_of_ge a i (by omega), Bool.and_false]
    · rw [decide_eq_false h12, Bool.false_and]

theorem roundBytes_toNat (a len : BitVec 64) :
    (if MLX_MTT_PAGE_SIZE - (a &&& (MLX_MTT_PAGE_SIZE - 1)) > len then len
      else MLX_MTT_PAGE_SIZE - (a &&& (MLX_MTT_PAGE_SIZE - 1))).toNat = roundBytes a.toNat len.toNat := by
  have hoffset := pageOffset_toNat a
  have hstep : (MLX_MTT_PAGE_SIZE - (a &&& (MLX_MTT_PAGE_SIZE - 1))).toNat = 4096 - a.toNat % 4096 := by
    have hle : a &&& (MLX_MTT_PAGE_SIZE - 1) ≤ MLX_MTT_PAGE_SIZE := by
      rw [BitVec.le_def, hoffset]
      exact (Nat.mod_lt _ (by decide)).le
    rw [BitVec.toNat_sub_of_le hle, hoffset]
    rfl
  unfold roundBytes
  split_ifs with h
  · rw [gt_iff_lt, BitVec.lt_def, hstep] at h
    omega
  · rw [gt_iff_lt, BitVec.lt_def, hstep] at h
    omega

/-- The loop of the code ends where `appendMttLoop` does, and its address does not wrap. -/
theorem appendRound_ends {fuel : ℕ} {dmaAddress length : BitVec 64} (hfuel : length.toNat ≤ fuel)
    (hend : dmaAddress.toNat + length.toNat ≤ UINT64_MAX) (pages : List ℕ) :
    Ends (appendRound capacity) ((dmaAddress,length),pages)
      (appendMttLoop capacity fuel dmaAddress.toNat length.toNat pages) := by
  induction fuel generalizing dmaAddress length pages with
  | zero =>
    have hlen : length = 0 := BitVec.eq_of_toNat_eq (Nat.le_zero.mp hfuel)
    refine ends_stop ?_
    rw [appendRound, if_pos hlen, appendMttLoop]
  | succ fuel ih =>
    rw [appendMttLoop]
    by_cases hlen : length = 0
    · refine ends_stop ?_
      rw [appendRound, if_pos hlen, if_pos (by rw [hlen]; rfl)]
    · have hpos : length.toNat ≠ 0 := fun h0 => hlen (BitVec.eq_of_toNat_eq h0)
      rw [if_neg hpos, ← pageBase_toNat]
      cases hp : appendPage capacity (dmaAddress &&& ~~~(MLX_MTT_PAGE_SIZE - 1)).toNat pages with
      | none =>
        refine ends_stop ?_
        rw [appendRound, if_neg hlen, hp]
      | some pages' =>
        have hstep := roundBytes_toNat dmaAddress length
        generalize hs : (if MLX_MTT_PAGE_SIZE - (dmaAddress &&& (MLX_MTT_PAGE_SIZE - 1)) > length then length
          else MLX_MTT_PAGE_SIZE - (dmaAddress &&& (MLX_MTT_PAGE_SIZE - 1))) = step at hstep
        have hle : step.toNat ≤ length.toNat := by
          rw [hstep]
          exact min_le_right _ _
        have hpos' : 0 < step.toNat := by
          rw [hstep, roundBytes]
          omega
        have haddr : (dmaAddress + step).toNat = dmaAddress.toNat + step.toNat := by
          rw [BitVec.toNat_add, Nat.mod_eq_of_lt]
          unfold UINT64_MAX at hend
          omega
        have hlength : (length - step).toNat = length.toNat - step.toNat := BitVec.toNat_sub_of_le hle
        have hround : appendRound capacity ((dmaAddress,length),pages) = .inr ((dmaAddress + step,length - step),pages') := by
          rw [appendRound, if_neg hlen, hp]
          dsimp only
          rw [hs]
        refine Ends.round hround ?_
        have hrest := @ih (dmaAddress + step) (length - step) (by omega) (by omega) pages'
        rw [haddr, hlength, hstep] at hrest
        exact hrest

/-! ## Results -/

/-- `mlxAppendMttPages` returns and leaves `r`. -/
def Returns (dmaAddress length : BitVec 64) (capacity : ℕ) (pages : List ℕ) (r : Bool × List ℕ) : Prop :=
  if length = 0 ∨ length > BitVec.allOnes 64 - dmaAddress then r = (false,pages)
  else Ends (appendRound capacity) ((dmaAddress,length),pages) r

theorem guard_iff (dmaAddress length : BitVec 64) : length = 0 ∨ length > BitVec.allOnes 64 - dmaAddress ↔
    length.toNat = 0 ∨ length.toNat > UINT64_MAX - dmaAddress.toNat := by
  have hones : (BitVec.allOnes 64).toNat = UINT64_MAX := BitVec.toNat_allOnes
  have hle : dmaAddress ≤ BitVec.allOnes 64 := by
    rw [BitVec.le_def, hones, UINT64_MAX]
    omega
  rw [gt_iff_lt, BitVec.lt_def, BitVec.toNat_sub_of_le hle, hones, ← BitVec.toNat_inj]
  exact Iff.rfl

theorem mlxAppendMttPages_returns (dmaAddress length : BitVec 64) (capacity : ℕ) (pages : List ℕ) :
    Returns dmaAddress length capacity pages (mlxAppendMttPages dmaAddress.toNat length.toNat capacity pages) := by
  unfold Returns mlxAppendMttPages
  by_cases hguard : length.toNat = 0 ∨ length.toNat > UINT64_MAX - dmaAddress.toNat
  · rw [if_pos ((guard_iff dmaAddress length).mpr hguard), if_pos hguard]
  · rw [if_neg (fun h => hguard ((guard_iff dmaAddress length).mp h)), if_neg hguard]
    exact appendRound_ends le_rfl (by omega) pages

/-- The range is not empty and does not reach beyond the last address. -/
def InRange (dmaAddress length : ℕ) : Prop := 0 < length ∧ dmaAddress + length ≤ UINT64_MAX

theorem not_guard_iff : ¬ (length = 0 ∨ length > UINT64_MAX - dmaAddress) ↔ InRange dmaAddress length := by
  unfold InRange
  omega

theorem mlxAppendMttPages_appended (h : InRange dmaAddress length) (capacity : ℕ) (pages : List ℕ) :
    Appended capacity pages (newPages dmaAddress length pages) (mlxAppendMttPages dmaAddress length capacity pages) := by
  rw [mlxAppendMttPages, if_neg (not_guard_iff.mpr h)]
  exact appendMttLoop_appended le_rfl

theorem mlxAppendMttPages_of_not_inRange (h : ¬ InRange dmaAddress length) (capacity : ℕ) (pages : List ℕ) :
    mlxAppendMttPages dmaAddress length capacity pages = (false,pages) := by
  rw [← not_guard_iff, not_not] at h
  rw [mlxAppendMttPages, if_pos h]

theorem mlxAppendMttPages_true_iff : (mlxAppendMttPages dmaAddress length capacity pages).1 = true ↔
    InRange dmaAddress length ∧ Fits capacity pages (newPages dmaAddress length pages) := by
  by_cases h : InRange dmaAddress length
  · rw [(mlxAppendMttPages_appended h capacity pages).true_iff]
    exact (and_iff_right h).symm
  · rw [mlxAppendMttPages_of_not_inRange h]
    exact iff_of_false Bool.false_ne_true (fun hand => h hand.1)

theorem mlxAppendMttPages_list (h : (mlxAppendMttPages dmaAddress length capacity pages).1 = true) :
    (mlxAppendMttPages dmaAddress length capacity pages).2 = pages ++ newPages dmaAddress length pages := by
  rw [(mlxAppendMttPages_appended (mlxAppendMttPages_true_iff.mp h).1 capacity pages).list, h]
  rfl

/-! ## The count -/

theorem touchedPages_length (h : length ≠ 0) :
    (touchedPages dmaAddress length).length = (dmaAddress + length - 1) / 4096 - dmaAddress / 4096 + 1 := by
  rw [touchedPages, if_neg h, List.length_map, List.length_range']

theorem span_pages {span : ℕ} (h : 0 < span) :
    (span / 4096 + if span % 4096 ≠ 0 then 1 else 0) = (span - 1) / 4096 + 1 := by
  split_ifs with hspan <;> omega

/-- The third guard of `mlxMttPageCount` is no narrower than the second one. -/
theorem mlxMttPageCount_touchedPages (h : InRange dmaAddress length) :
    mlxMttPageCount dmaAddress length = (touchedPages dmaAddress length).length := by
  obtain ⟨hpos,hend⟩ := h
  have hguard : ¬ (length = 0 ∨ length > UINT64_MAX - dmaAddress ∨ length > UINT64_MAX - dmaAddress % 4096) := by
    have hoffset := Nat.mod_le dmaAddress 4096
    omega
  have hlast : dmaAddress + length - 1 = dmaAddress % 4096 + length - 1 + 4096 * (dmaAddress / 4096) := by
    have hsplit := Nat.mod_add_div dmaAddress 4096
    omega
  rw [touchedPages_length hpos.ne', hlast, Nat.add_mul_div_left _ _ (by decide), Nat.add_sub_cancel]
  unfold mlxMttPageCount
  dsimp only
  rw [if_neg hguard]
  exact span_pages (Nat.add_pos_right _ hpos)

theorem mlxMttPageCount_of_not_inRange (h : ¬ InRange dmaAddress length) : mlxMttPageCount dmaAddress length = 0 := by
  rw [← not_guard_iff, not_not] at h
  rw [mlxMttPageCount]
  exact if_pos (h.imp_right Or.inl)

theorem newPages_nil (dmaAddress length : ℕ) : newPages dmaAddress length [] = touchedPages dmaAddress length := by
  by_cases h : length = 0
  · rw [h, newPages_zero, touchedPages, if_pos rfl]
  · refine newPages_of_ne h ?_
    rw [List.getLast?_nil]
    exact (Option.some_ne_none _).symm

theorem mlxAppendMttPages_count (h : mlxMttPageCount dmaAddress length ≤ capacity) :
    (mlxAppendMttPages dmaAddress length capacity []).2.length = mlxMttPageCount dmaAddress length := by
  by_cases hr : InRange dmaAddress length
  · have hcount := mlxMttPageCount_touchedPages hr
    have hfits : Fits capacity [] (newPages dmaAddress length []) := by
      rw [newPages_nil, fits_iff (Nat.zero_le capacity), List.nil_append, ← hcount]
      exact h
    rw [mlxAppendMttPages_list (mlxAppendMttPages_true_iff.mpr ⟨hr,hfits⟩), newPages_nil, List.nil_append, hcount]
  · rw [mlxAppendMttPages_of_not_inRange hr, mlxMttPageCount_of_not_inRange hr]
    rfl

/-- What `mlxAppendMttPages` does. A list that is longer than `capacity` already stays, with `true`, where
nothing is put behind it. -/
structure PageExpansion (dmaAddress length : BitVec 64) (capacity : ℕ) (pages : List ℕ) : Prop where
  returns : ∃ r, Returns dmaAddress length capacity pages r
  result : ∀ r, Returns dmaAddress length capacity pages r →
    r = mlxAppendMttPages dmaAddress.toNat length.toNat capacity pages
  true_iff : (mlxAppendMttPages dmaAddress.toNat length.toNat capacity pages).1 = true ↔
    0 < length.toNat ∧ dmaAddress.toNat + length.toNat ≤ UINT64_MAX ∧
      (newPages dmaAddress.toNat length.toNat pages = [] ∨
        (pages ++ newPages dmaAddress.toNat length.toNat pages).length ≤ capacity)
  fits : pages.length ≤ capacity → ((mlxAppendMttPages dmaAddress.toNat length.toNat capacity pages).1 = true ↔
    0 < length.toNat ∧ dmaAddress.toNat + length.toNat ≤ UINT64_MAX ∧
      (pages ++ newPages dmaAddress.toNat length.toNat pages).length ≤ capacity)
  list : (mlxAppendMttPages dmaAddress.toNat length.toNat capacity pages).1 = true →
    (mlxAppendMttPages dmaAddress.toNat length.toNat capacity pages).2 = pages ++ newPages dmaAddress.toNat length.toNat pages
  touched : ∀ page, page ∈ touchedPages dmaAddress.toNat length.toNat ↔
    ∃ k < length.toNat, page = dmaAddress.toNat + k - (dmaAddress.toNat + k) % 4096
  count : pages = [] → mlxMttPageCount dmaAddress.toNat length.toNat ≤ capacity →
    (mlxAppendMttPages dmaAddress.toNat length.toNat capacity pages).2.length =
      mlxMttPageCount dmaAddress.toNat length.toNat

theorem Returns.unique {dmaAddress length : BitVec 64} {r r' : Bool × List ℕ} (h : Returns dmaAddress length capacity pages r)
    (h' : Returns dmaAddress length capacity pages r') : r = r' := by
  unfold Returns at h h'
  split_ifs at h h' with hguard
  · exact h.trans h'.symm
  · exact h.unique h'

theorem mlxAppendMttPages_expansion (dmaAddress length : BitVec 64) (capacity : ℕ) (pages : List ℕ) :
    PageExpansion dmaAddress length capacity pages where
  returns := ⟨_,mlxAppendMttPages_returns dmaAddress length capacity pages⟩
  result := fun _ h => h.unique (mlxAppendMttPages_returns dmaAddress length capacity pages)
  true_iff := by
    rw [mlxAppendMttPages_true_iff, InRange, Fits, List.length_append, and_assoc]
  fits := by
    intro h
    rw [mlxAppendMttPages_true_iff, InRange, fits_iff h, and_assoc]
  list := mlxAppendMttPages_list
  touched := fun _ => mem_touchedPages
  count := by
    rintro rfl h
    exact mlxAppendMttPages_count h

/-- The page that ends the list is not put there twice. -/
example : mlxAppendMttPages 0x1ffe 4 8 [0x1000] = (true,[0x1000,0x2000]) := by decide +kernel

end AppleMCX.Hw
