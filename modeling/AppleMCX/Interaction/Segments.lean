import Mathlib.Algebra.BigOperators.Group.List.Basic
import Mathlib.Algebra.GroupWithZero.Nat
import Mathlib.Algebra.Order.Group.Nat
import Mathlib.Data.List.TakeDrop
import Mathlib.Tactic.Common

/-! # Buffers in pieces

A mapper describes where the bytes of a buffer are by a list of segments, in order. Hardware
that is told of pages wants the address of every page, and the page in one piece behind it.
-/
namespace Interaction

/-- Consecutive bytes at consecutive addresses. -/
structure Segment where
  addr : ℕ
  len : ℕ
  deriving DecidableEq, Repr

def total (segs : List Segment) : ℕ := (segs.map (·.len)).sum

/-- The segments describe the bytes from `off` on, whose addresses are those of `dev`. -/
def Maps (dev : ℕ → ℕ) : ℕ → List Segment → Prop
  | _, [] => True
  | off, s :: segs => (∀ x < s.len, dev (off + x) = s.addr + x) ∧ Maps dev (off + s.len) segs

/-- Segments of positive length that cover a buffer of `length` bytes, in order. -/
structure Covers (dev : ℕ → ℕ) (length : ℕ) (segs : List Segment) : Prop where
  maps : Maps dev 0 segs
  pos : ∀ s ∈ segs, 0 < s.len
  total : total segs = length

variable {dev : ℕ → ℕ} {off : ℕ} {segs : List Segment}

@[simp] theorem total_nil : total [] = 0 := rfl
@[simp] theorem total_cons (s : Segment) (segs : List Segment) : total (s :: segs) = s.len + total segs := by
  simp [total]
@[simp] theorem total_append (a b : List Segment) : total (a ++ b) = total a + total b := by
  simp [total]

theorem maps_append {a b : List Segment} : Maps dev off (a ++ b) ↔ Maps dev off a ∧ Maps dev (off + total a) b := by
  induction a generalizing off with
  | nil => simp [Maps]
  | cons s a ih => simp only [List.cons_append, Maps, ih, total_cons, and_assoc, Nat.add_assoc]

theorem total_take_succ {i : ℕ} (hi : i < segs.length) :
    total (segs.take (i + 1)) = total (segs.take i) + segs[i].len := by
  rw [List.take_succ_eq_append_getElem hi, total_append, total_cons, total_nil, Nat.add_zero]

theorem Maps.at {i x : ℕ} (h : Maps dev off segs) (hi : i < segs.length) (hx : x < segs[i].len) :
    dev (off + total (segs.take i) + x) = segs[i].addr + x := by
  have hsplit := List.take_append_drop i segs
  rw [← hsplit, maps_append, List.drop_eq_getElem_cons hi] at h
  exact h.2.1 x hx

theorem total_pos (hpos : ∀ s ∈ segs, 0 < s.len) (hne : segs ≠ []) : 0 < total segs := by
  cases segs with
  | nil => exact absurd rfl hne
  | cons s segs =>
    have hs := hpos s List.mem_cons_self
    rw [total_cons]
    omega

theorem total_le {n : ℕ} (hle : ∀ s ∈ segs, s.len ≤ n) : total segs ≤ n * segs.length := by
  induction segs with
  | nil => simp
  | cons s segs ih =>
    have hs := hle s List.mem_cons_self
    have hrest := ih (fun t ht => hle t (List.mem_cons_of_mem _ ht))
    rw [total_cons, List.length_cons, Nat.mul_succ]
    omega

/-- As many segments as pages, none of them longer. -/
theorem pages_of_count {n : ℕ} (hle : ∀ s ∈ segs, s.len ≤ n) (htotal : total segs = n * segs.length) :
    ∀ s ∈ segs, s.len = n := by
  induction segs with
  | nil => simp
  | cons s segs ih =>
    have hs := hle s List.mem_cons_self
    have hrest := total_le (fun t ht => hle t (List.mem_cons_of_mem _ ht))
    rw [total_cons, List.length_cons, Nat.mul_succ] at htotal
    intro t ht
    rcases List.mem_cons.1 ht with rfl | ht
    · omega
    · exact ih (fun t ht => hle t (List.mem_cons_of_mem _ ht)) (by omega) t ht

/-- Two buffers, one behind the other. -/
def behind (length : ℕ) (dev dev' : ℕ → ℕ) (x : ℕ) : ℕ := if x < length then dev x else dev' (x - length)

theorem maps_behind_left {length : ℕ} {dev' : ℕ → ℕ} (h : Maps dev off segs) (hlen : off + total segs ≤ length) :
    Maps (behind length dev dev') off segs := by
  induction segs generalizing off with
  | nil => trivial
  | cons s segs ih =>
    rw [total_cons] at hlen
    refine ⟨fun x hx => ?_,ih h.2 (by omega)⟩
    rw [behind, if_pos (by omega)]
    exact h.1 x hx

theorem maps_behind_right {length : ℕ} {dev' : ℕ → ℕ} (h : Maps dev' off segs) :
    Maps (behind length dev dev') (length + off) segs := by
  induction segs generalizing off with
  | nil => trivial
  | cons s segs ih =>
    refine ⟨fun x hx => ?_,?_⟩
    · rw [behind, if_neg (by omega), Nat.add_assoc, Nat.add_sub_cancel_left]
      exact h.1 x hx
    · rw [Nat.add_assoc]
      exact ih h.2

theorem Covers.behind {length length' : ℕ} {dev' : ℕ → ℕ} {segs' : List Segment} (h : Covers dev length segs)
    (h' : Covers dev' length' segs') : Covers (behind length dev dev') (length + length') (segs ++ segs') := by
  refine ⟨?_,?_,?_⟩
  · have hright : Maps (Interaction.behind length dev dev') (length + 0) segs' := maps_behind_right h'.maps
    rw [maps_append, h.total, Nat.zero_add]
    exact ⟨maps_behind_left h.maps (by rw [h.total, Nat.zero_add]),hright⟩
  · intro s hs
    exact (List.mem_append.1 hs).elim (h.pos s) (h'.pos s)
  · rw [total_append, h.total, h'.total]

/-! ## Pages -/

/-- Page number `i` of the buffer is in one piece at an address. -/
def PageAt (size : ℕ) (dev : ℕ → ℕ) (i a : ℕ) : Prop := ∀ x < size, dev (size * i + x) = a + x

variable {size : ℕ}

/-- Segments of one page each are the pages. -/
theorem total_take_pages (hlen : ∀ s ∈ segs, s.len = size) {i : ℕ} (hi : i ≤ segs.length) :
    total (segs.take i) = size * i := by
  induction i with
  | zero => simp
  | succ i ih => rw [total_take_succ hi, ih (by omega), hlen _ (List.getElem_mem hi), Nat.mul_succ]

theorem pageAt_of_pages (h : Maps dev 0 segs) (hlen : ∀ s ∈ segs, s.len = size) {i : ℕ} (hi : i < segs.length) :
    PageAt size dev i segs[i].addr := by
  intro x hx
  have hat := h.at hi (x := x) (by rw [hlen _ (List.getElem_mem hi)]; exact hx)
  rwa [Nat.zero_add, total_take_pages hlen hi.le] at hat

section converse

variable (h : Maps dev 0 segs) (hpages : ∀ i, (hi : i < segs.length) → PageAt size dev i segs[i].addr)
include h hpages

/-- A segment that starts in front of its page ends in front of it. -/
theorem total_behind {i : ℕ} (hi : i < segs.length) (hlt : total (segs.take i) < size * i) :
    total (segs.take (i + 1)) < size * (i + 1) := by
  have hsize : 0 < size := by
    rcases Nat.eq_zero_or_pos size with rfl | hsize
    · simp at hlt
    · exact hsize
  have hstart := hpages i hi 0 hsize
  have hlen : segs[i].len ≤ size * i - total (segs.take i) := by
    by_contra hcon
    have hat := h.at hi (x := size * i - total (segs.take i)) (by omega)
    rw [Nat.zero_add, Nat.add_sub_cancel' hlt.le] at hat
    rw [Nat.add_zero] at hstart
    omega
  rw [total_take_succ hi, Nat.mul_succ]
  omega

/-- A segment that starts behind the start of its page starts behind the whole of it. -/
theorem total_ahead (hpos : ∀ s ∈ segs, 0 < s.len) {i : ℕ} (hi : i < segs.length) (hlt : size * i < total (segs.take i)) :
    size * (i + 1) < total (segs.take (i + 1)) := by
  have hlen := hpos _ (List.getElem_mem hi)
  have hpage : size ≤ total (segs.take i) - size * i := by
    by_contra hcon
    have hat := h.at hi (x := 0) hlen
    have hpage := hpages i hi (total (segs.take i) - size * i) (by omega)
    rw [Nat.add_sub_cancel' hlt.le] at hpage
    rw [Nat.zero_add, Nat.add_zero] at hat
    omega
  rw [total_take_succ hi, Nat.mul_succ]
  omega

/-- A list of as many segments as pages gives the pages only if every segment is one. -/
theorem pages_of_pageAt (hpos : ∀ s ∈ segs, 0 < s.len) (htotal : total segs = size * segs.length) :
    ∀ s ∈ segs, s.len = size := by
  have hend : total (segs.take segs.length) = size * segs.length := by rw [List.take_length, htotal]
  have hstay {P : ℕ → Prop} (hstep : ∀ i < segs.length, P i → P (i + 1)) :
      ∀ n i, i + n = segs.length → P i → P segs.length := by
    intro n
    induction n with
    | zero => rintro i rfl hi; exact hi
    | succ n ih => exact fun i hn hi => ih (i + 1) (by omega) (hstep i (by omega) hi)
  have hstart : ∀ i ≤ segs.length, total (segs.take i) = size * i := by
    intro i hi
    rcases Nat.lt_trichotomy (total (segs.take i)) (size * i) with hlt | heq | hlt
    · have := hstay (P := fun i => total (segs.take i) < size * i) (fun i hi => total_behind h hpages hi)
        (segs.length - i) i (by omega) hlt
      omega
    · exact heq
    · have := hstay (P := fun i => size * i < total (segs.take i)) (fun i hi => total_ahead h hpages hpos hi)
        (segs.length - i) i (by omega) hlt
      omega
  intro s hs
  obtain ⟨i, hi, rfl⟩ := List.mem_iff_getElem.1 hs
  have hnext := hstart (i + 1) hi
  rw [total_take_succ hi, hstart i hi.le, Nat.mul_succ] at hnext
  omega

end converse

/-- Exactly when every segment is one page is the list of their addresses the list of the pages. -/
theorem pages_iff {length : ℕ} (h : Covers dev length segs) (hdvd : size ∣ length) :
    ((segs.map (·.addr)).length = length / size ∧
      ∀ i, (hi : i < (segs.map (·.addr)).length) → PageAt size dev i (segs.map (·.addr))[i]) ↔ ∀ s ∈ segs,
      s.len = size := by
  simp only [List.length_map, List.getElem_map]
  constructor
  · rintro ⟨hcount,hpages⟩
    exact pages_of_pageAt h.maps hpages h.pos (by rw [h.total, hcount, Nat.mul_div_cancel' hdvd])
  · intro hlen
    refine ⟨?_,fun i hi => pageAt_of_pages h.maps hlen hi⟩
    have htotal := total_take_pages hlen le_rfl
    rw [List.take_length, h.total] at htotal
    rcases Nat.eq_zero_or_pos size with rfl | hsize
    · cases segs with
      | nil => simp
      | cons s segs =>
        have hs := h.pos s List.mem_cons_self
        rw [hlen s List.mem_cons_self] at hs
        omega
    · rw [htotal, Nat.mul_div_cancel_left _ hsize]

/-- Every page of the buffer is in one piece, at a multiple of its size. -/
def PagesAligned (size : ℕ) (dev : ℕ → ℕ) (n : ℕ) : Prop :=
  ∀ i < n, dev (size * i) % size = 0 ∧ PageAt size dev i (dev (size * i))

/-! ## Segments that are taken for pages -/

variable {good : Segment → Bool} {bs : List (List Segment)} {n : ℕ}

/-- The segments in front of the first one that is not good, each with the byte that it begins with. -/
def placed (good : Segment → Bool) : ℕ → List Segment → List (ℕ × Segment)
  | _, [] => []
  | off, s :: segs => if good s then (off,s) :: placed good (off + s.len) segs else []

def placedBatches (good : Segment → Bool) : ℕ → List (List Segment) → List (ℕ × Segment)
  | _, [] => []
  | off, b :: bs => placed good off b ++ placedBatches good (off + total b) bs

theorem placed_snd (good : Segment → Bool) (off : ℕ) (segs : List Segment) :
    (placed good off segs).map Prod.snd = segs.takeWhile good := by
  induction segs generalizing off with
  | nil => rfl
  | cons s segs ih =>
    rw [placed, List.takeWhile_cons]
    split
    · rw [List.map_cons, ih]
    · rfl

theorem placedBatches_snd (good : Segment → Bool) (off : ℕ) (bs : List (List Segment)) :
    (placedBatches good off bs).map Prod.snd = bs.flatMap (·.takeWhile good) := by
  induction bs generalizing off with
  | nil => rfl
  | cons b bs ih => rw [placedBatches, List.map_append, placed_snd, ih, List.flatMap_cons]

theorem placed_within (off : ℕ) (segs : List Segment) :
    ∀ p ∈ placed good off segs, good p.2 = true ∧ off ≤ p.1 ∧ p.1 + p.2.len ≤ off + total segs := by
  induction segs generalizing off with
  | nil => exact fun p hp => absurd hp List.not_mem_nil
  | cons s segs ih =>
    intro p hp
    rw [placed] at hp
    rw [total_cons]
    split at hp
    · rename_i hs
      rcases List.mem_cons.1 hp with rfl | hp
      · exact ⟨hs,le_rfl,by dsimp only; omega⟩
      · obtain ⟨hgood,hstart,hstop⟩ := ih _ p hp
        exact ⟨hgood,by omega,by omega⟩
    · exact absurd hp List.not_mem_nil

theorem placedBatches_within (off : ℕ) (bs : List (List Segment)) :
    ∀ p ∈ placedBatches good off bs, good p.2 = true ∧ off ≤ p.1 ∧ p.1 + p.2.len ≤ off + total bs.flatten := by
  induction bs generalizing off with
  | nil => exact fun p hp => absurd hp List.not_mem_nil
  | cons b bs ih =>
    intro p hp
    rw [List.flatten_cons, total_append]
    rcases List.mem_append.1 hp with hp | hp
    · obtain ⟨hgood,hstart,hstop⟩ := placed_within _ b p hp
      exact ⟨hgood,hstart,by omega⟩
    · obtain ⟨hgood,hstart,hstop⟩ := ih _ p hp
      exact ⟨hgood,by omega,by omega⟩

theorem placed_dev (h : Maps dev off segs) :
    ∀ p ∈ placed good off segs, ∀ x < p.2.len, dev (p.1 + x) = p.2.addr + x := by
  induction segs generalizing off with
  | nil => exact fun p hp => absurd hp List.not_mem_nil
  | cons s segs ih =>
    intro p hp
    rw [placed] at hp
    split at hp
    · rcases List.mem_cons.1 hp with rfl | hp
      · exact h.1
      · exact ih h.2 p hp
    · exact absurd hp List.not_mem_nil

theorem placedBatches_dev (h : Maps dev off bs.flatten) :
    ∀ p ∈ placedBatches good off bs, ∀ x < p.2.len, dev (p.1 + x) = p.2.addr + x := by
  induction bs generalizing off with
  | nil => exact fun p hp => absurd hp List.not_mem_nil
  | cons b bs ih =>
    intro p hp
    rw [List.flatten_cons, maps_append] at h
    rcases List.mem_append.1 hp with hp | hp
    · exact placed_dev h.1 p hp
    · exact ih h.2 p hp

theorem placed_ordered (off : ℕ) (segs : List Segment) :
    (placed good off segs).Pairwise (fun p q => p.1 + p.2.len ≤ q.1) := by
  induction segs generalizing off with
  | nil => exact .nil
  | cons s segs ih =>
    rw [placed]
    split
    · exact .cons (fun q hq => (placed_within _ segs q hq).2.1) (ih _)
    · exact .nil

theorem placedBatches_ordered (off : ℕ) (bs : List (List Segment)) :
    (placedBatches good off bs).Pairwise (fun p q => p.1 + p.2.len ≤ q.1) := by
  induction bs generalizing off with
  | nil => exact .nil
  | cons b bs ih =>
    refine List.pairwise_append.2 ⟨placed_ordered off b,ih _,fun p hp q hq => ?_⟩
    exact (placed_within off b p hp).2.2.trans (placedBatches_within _ bs q hq).2.1

/-- Multiples that increase below a bound, as many as there are below it. -/
theorem eq_multiples {l : List ℕ} {k : ℕ} (hlen : l.length = n) (hl : l.Pairwise (· < ·))
    (hmul : ∀ p ∈ l, ∃ q, k ≤ q ∧ q < k + n ∧ p = size * q) : l = (List.range' k n).map (size * ·) := by
  induction l generalizing k n with
  | nil =>
    subst hlen
    rfl
  | cons p l ih =>
    subst hlen
    obtain ⟨hfirst,hrest⟩ := List.pairwise_cons.1 hl
    obtain ⟨q,hkq,hq,rfl⟩ := hmul p List.mem_cons_self
    have hbehind : ∀ p ∈ l, ∃ q, k + 1 ≤ q ∧ q < k + 1 + l.length ∧ p = size * q := by
      intro p hp
      obtain ⟨r,-,hr,rfl⟩ := hmul p (List.mem_cons_of_mem _ hp)
      have hlt := Nat.lt_of_mul_lt_mul_left (hfirst _ hp)
      rw [List.length_cons] at hr
      exact ⟨r,by omega,by omega,rfl⟩
    have hl' := ih rfl hrest hbehind
    have hqk : q = k := by
      cases l with
      | nil =>
        rw [List.length_singleton] at hq
        omega
      | cons p l =>
        -- the next one is at `k + 1`
        have hp : p = size * (k + 1) := by
          rw [List.length_cons, List.range'_succ, List.map_cons] at hl'
          exact (List.cons.inj hl').1
        have hlt := Nat.lt_of_mul_lt_mul_left (hp ▸ hfirst p List.mem_cons_self)
        omega
    rw [hqk, List.length_cons, List.range'_succ, List.map_cons, ← hl']

/-- Aligned segments, in order and none of them empty, are at the pages exactly if they begin with the pages and these are
aligned. -/
theorem placed_pages_iff (hsize : 0 < size) {ps : List (ℕ × Segment)}
    (hps : ∀ p ∈ ps, 0 < p.2.len ∧ p.2.addr % size = 0 ∧ p.1 + p.2.len ≤ size * n)
    (hdev : ∀ p ∈ ps, ∀ x < p.2.len, dev (p.1 + x) = p.2.addr + x) (hord : ps.Pairwise (fun p q => p.1 + p.2.len ≤ q.1)) :
    (ps.length = n ∧ ∀ i, (hi : i < ps.length) → PageAt size dev i ps[i].2.addr) ↔
      PagesAligned size dev n ∧ ps.map Prod.fst = (List.range n).map (size * ·) := by
  constructor
  · rintro ⟨hlen,hpages⟩
    have haligned : PagesAligned size dev n := by
      intro i hi
      have hpage := hpages i (hlen ▸ hi)
      have hfirst := hpage 0 hsize
      rw [Nat.add_zero, Nat.add_zero] at hfirst
      rw [hfirst]
      exact ⟨(hps _ (List.getElem_mem _)).2.1,hpage⟩
    refine ⟨haligned,?_⟩
    rw [List.range_eq_range']
    refine eq_multiples (by rw [List.length_map, hlen]) ?_ ?_
    · exact (hord.imp_of_mem (fun {p q} hp _ hpq => by have := (hps p hp).1; omega)).map Prod.fst (fun _ _ h => h)
    · intro x hx
      obtain ⟨p,hp,rfl⟩ := List.mem_map.1 hx
      obtain ⟨hpos,haddr,hstop⟩ := hps p hp
      have hpage : p.1 / size < n := Nat.div_lt_of_lt_mul (by omega)
      obtain ⟨hbase,hat⟩ := haligned _ hpage
      have hbyte := hat (p.1 % size) (Nat.mod_lt _ hsize)
      have hstart := hdev p hp 0 hpos
      rw [Nat.div_add_mod] at hbyte
      rw [Nat.add_zero, Nat.add_zero, hbyte] at hstart
      -- both addresses are aligned, so the segment begins with its page
      rw [← hstart, Nat.add_mod, hbase, Nat.zero_add, Nat.mod_mod, Nat.mod_mod] at haddr
      exact ⟨p.1 / size,Nat.zero_le _,by omega,(Nat.mul_div_cancel' (Nat.dvd_of_mod_eq_zero haddr)).symm⟩
  · rintro ⟨haligned,hstarts⟩
    have hlen : ps.length = n := by
      have hcount := congrArg List.length hstarts
      rwa [List.length_map, List.length_map, List.length_range] at hcount
    refine ⟨hlen,fun i hi => ?_⟩
    obtain ⟨hpos,-,-⟩ := hps _ (List.getElem_mem hi)
    have hstart : ps[i].1 = size * i := by
      have hget := congrArg (fun l => l[i]?) hstarts
      simpa [hi, hlen ▸ hi] using hget
    have hbyte := hdev _ (List.getElem_mem hi) 0 hpos
    rw [hstart, Nat.add_zero, Nat.add_zero] at hbyte
    rw [← hbyte]
    exact (haligned i (hlen ▸ hi)).2

end Interaction
