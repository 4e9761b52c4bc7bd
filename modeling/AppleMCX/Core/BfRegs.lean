import AppleMCX.Core.Command
import AppleMCX.Interaction.Transition
import Mathlib.Data.BitVec

/-! # BF registers

`MlxUAR::allocBfreg` and `freeBfreg` give out the registers behind `MLX_BF_OFFSET` of the mapped
UAR page. The distance of two registers is a capability of the device, and whether a register is
inside the page is found out after its bit was set.
-/
namespace AppleMCX.BfRegs
open Interaction

def bfOffset : BitVec 32 := 0x800

structure MlxBfreg where
  map : BitVec 64
  offset : BitVec 32
  deriving DecidableEq, Repr

/-- `fUarMap` is the address that the page is mapped to, and `logBfRegSize` is a field of five bits. -/
structure Uar where
  logBfRegSize : BitVec 5
  fUarMap : Option (BitVec 64)
  fUarOffset : BitVec 32
  fUarBitmap : BitVec 32
  deriving DecidableEq, Repr

/-- `__builtin_ctz`, for a word that is not zero. -/
def ctz (x : BitVec 32) : ℕ := ((List.range 32).find? (fun i => x.getLsbD i)).getD 32

namespace Uar

def stride (u : Uar) : BitVec 32 := 1#32 <<< u.logBfRegSize.toNat

def getUarVirtualAddress (u : Uar) : BitVec 64 :=
  match u.fUarMap with
  | some va => va + u.fUarOffset.setWidth 64
  | none => 0

def allocBfreg (bfreg : MlxBfreg) (u : Uar) : IOReturn × MlxBfreg × Uar :=
  let free := ~~~u.fUarBitmap &&& 0xf#32
  if free = 0 then (.noSpace,bfreg,u)
  else
    let dbi := ctz free
    let taken := u.fUarBitmap ||| 1#32 <<< dbi
    let offset := bfOffset + BitVec.ofNat 32 dbi * u.stride
    if u.fUarMap.isNone ∨ offset.toNat + 8 > 4096 then
      (.notReady,{ bfreg with offset },{ u with fUarBitmap := taken &&& ~~~(1#32 <<< dbi) })
    else (.success,⟨u.getUarVirtualAddress + offset.setWidth 64,offset⟩,{ u with fUarBitmap := taken })

def freeBfreg (bfreg : Option MlxBfreg) (u : Uar) : Uar :=
  match bfreg with
  | none => u
  | some bfreg =>
    if bfreg.offset < bfOffset then u
    else if u.stride = 0 ∨ (bfreg.offset - bfOffset) % u.stride ≠ 0 then u
    else
      let dbi := (bfreg.offset - bfOffset) / u.stride
      if dbi ≥ 4 then u else { u with fUarBitmap := u.fUarBitmap &&& ~~~(1#32 <<< dbi.toNat) }

end Uar

/-- `live` are the offsets of the registers given out and not given back. -/
structure State where
  uar : Uar
  live : List (BitVec 32)

def initial (logBfRegSize : BitVec 5) : State := ⟨⟨logBfRegSize,none,0,0⟩,[]⟩

inductive Action
  | allocBfreg (bfreg : MlxBfreg)
  | freeBfreg (bfreg : Option MlxBfreg)
  /-- `allocUar` or `freeUar` -/
  | setUarMap (fUarMap : Option (BitVec 64)) (fUarOffset : BitVec 32)
  deriving DecidableEq, Repr

/-- What is freed is live, or it was never given out: the driver clears the structures. -/
def step (s : State) : Action → Option State
  | .allocBfreg bfreg =>
    let (kr,bfreg,uar) := s.uar.allocBfreg bfreg
    some ⟨uar,if kr = .success then s.live ++ [bfreg.offset] else s.live⟩
  | .freeBfreg bfreg =>
    if bfreg.all (fun bfreg => s.live.contains bfreg.offset || bfreg.offset < bfOffset) then
      some ⟨s.uar.freeBfreg bfreg,bfreg.elim s.live (fun bfreg => s.live.erase bfreg.offset)⟩
    else none
  | .setUarMap fUarMap fUarOffset => some { s with uar := { s.uar with fUarMap, fUarOffset } }

/-! ## The registers of a page -/

def regOffset (k i : ℕ) : ℕ := 0x800 + i * 2 ^ k

/-- There is such a register, and it is inside the page. -/
def Fits (k i : ℕ) : Prop := i < 4 ∧ regOffset k i + 8 ≤ 4096

variable {k i j : ℕ} {logBfRegSize : BitVec 5} {s t : State}

theorem Fits.mono (h : Fits k i) (hj : j ≤ i) : Fits k j := by
  obtain ⟨hi,hend⟩ := h
  have hle : j * 2 ^ k ≤ i * 2 ^ k := Nat.mul_le_mul_right _ hj
  unfold regOffset at hend
  exact ⟨by omega,by unfold regOffset; omega⟩

theorem fits_zero (k : ℕ) : Fits k 0 := ⟨by decide,by simp [regOffset]⟩

theorem Fits.toNat (h : Fits k i) : (BitVec.ofNat 32 (regOffset k i)).toNat = regOffset k i := by
  obtain ⟨-,hend⟩ := h
  rw [BitVec.toNat_ofNat]
  exact Nat.mod_eq_of_lt (by omega)

theorem regOffset_lt (k : ℕ) (h : i < j) : regOffset k i + 2 ^ k ≤ regOffset k j := by
  have hle : (i + 1) * 2 ^ k ≤ j * 2 ^ k := Nat.mul_le_mul_right _ h
  rw [Nat.succ_mul] at hle
  unfold regOffset
  omega

theorem Fits.eq (hi : Fits k i) (hj : Fits k j) (he : BitVec.ofNat 32 (regOffset k i) = BitVec.ofNat 32 (regOffset k j)) :
    i = j := by
  have hnat := congrArg BitVec.toNat he
  rw [hi.toNat, hj.toNat] at hnat
  have hpos := Nat.two_pow_pos k
  rcases lt_trichotomy i j with hlt | heq | hlt
  · have hle := regOffset_lt k hlt
    omega
  · exact heq
  · have hle := regOffset_lt k hlt
    omega

theorem stride_mul (u : Uar) (i : ℕ) :
    bfOffset + BitVec.ofNat 32 i * u.stride = BitVec.ofNat 32 (regOffset u.logBfRegSize.toNat i) := by
  have hstride : u.stride = BitVec.ofNat 32 (2 ^ u.logBfRegSize.toNat) := by
    rw [Uar.stride, ← BitVec.twoPow_eq]
    apply BitVec.eq_of_toNat_eq
    rw [BitVec.toNat_twoPow, BitVec.toNat_ofNat]
  rw [hstride, ← BitVec.ofNat_mul, regOffset, BitVec.ofNat_add]
  rfl

/-- The first register that is not inside the page ends behind it also in 32 bits. -/
theorem regOffset_beyond (hk : k < 32) (hno : ¬ Fits k i) (hi : i < 4) (hprev : ∀ j < i, Fits k j) :
    4096 < (BitVec.ofNat 32 (regOffset k i)).toNat + 8 := by
  have hpow : 2 ^ k ≤ 2 ^ 31 := Nat.pow_le_pow_right (by decide) (by omega)
  have hend : 4096 < regOffset k i + 8 := by
    by_contra hle
    exact hno ⟨hi,by omega⟩
  rw [BitVec.toNat_ofNat]
  obtain _ | _ | i := i
  · exact absurd (fits_zero k) hno
  · unfold regOffset at hend ⊢
    omega
  · -- two strides are inside the page already
    obtain ⟨-,hone⟩ := hprev 1 (by omega)
    have hmul : (i + 1 + 1) * 2 ^ k ≤ 3 * 2 ^ k := Nat.mul_le_mul_right _ (by omega)
    unfold regOffset at hone hend ⊢
    omega

/-! ## The bitmap -/

theorem free_getLsbD (bitmap : BitVec 32) (i : ℕ) :
    (~~~bitmap &&& 0xf#32).getLsbD i = (decide (i < 4) && !bitmap.getLsbD i) := by
  have hlow : ∀ i, i < 32 → (0xf#32).getLsbD i = decide (i < 4) := by decide
  rw [BitVec.getLsbD_and, BitVec.getLsbD_not]
  by_cases hi : i < 32
  · rw [hlow i hi, decide_eq_true hi, Bool.true_and, Bool.and_comm]
  · rw [BitVec.getLsbD_of_ge (0xf#32) i (by omega), decide_eq_false (by omega : ¬ i < 4)]
    simp

theorem ctz_spec {x : BitVec 32} (h : x ≠ 0) : x.getLsbD (ctz x) = true ∧ ∀ j < ctz x, x.getLsbD j = false := by
  unfold ctz
  cases hfind : (List.range 32).find? (fun i => x.getLsbD i) with
  | none =>
    refine absurd (BitVec.eq_of_getLsbD_eq (fun i hi => ?_)) h
    have hno := List.find?_range_eq_none.mp hfind i hi
    simpa using hno
  | some i =>
    obtain ⟨hbit,-,hfirst⟩ := List.find?_range_eq_some.mp hfind
    exact ⟨hbit,fun j hj => by simpa using hfirst j hj⟩

theorem setBit_getLsbD (bitmap : BitVec 32) (hi : i < 32) (j : ℕ) :
    (bitmap ||| 1#32 <<< i).getLsbD j = (decide (j = i) || bitmap.getLsbD j) := by
  rw [BitVec.getLsbD_or, ← BitVec.twoPow_eq, BitVec.getLsbD_twoPow, decide_eq_true hi, Bool.true_and, Bool.or_comm,
    decide_eq_decide.mpr (eq_comm : i = j ↔ j = i)]

theorem clearBit_getLsbD (bitmap : BitVec 32) (hi : i < 32) (j : ℕ) :
    (bitmap &&& ~~~(1#32 <<< i)).getLsbD j = (!decide (j = i) && bitmap.getLsbD j) := by
  rw [BitVec.getLsbD_and, BitVec.getLsbD_not, ← BitVec.twoPow_eq, BitVec.getLsbD_twoPow, decide_eq_true hi, Bool.true_and,
    decide_eq_decide.mpr (eq_comm : i = j ↔ j = i), Bool.and_comm]
  by_cases hj : j < 32
  · rw [decide_eq_true hj, Bool.true_and]
  · rw [BitVec.getLsbD_of_ge bitmap j (by omega), Bool.and_false, Bool.and_false]

/-! ## What holds of a run -/

def State.Has (s : State) (k i : ℕ) : Prop := BitVec.ofNat 32 (regOffset k i) ∈ s.live

structure Marked (logBfRegSize : BitVec 5) (s : State) : Prop where
  log : s.uar.logBfRegSize = logBfRegSize
  bits : ∀ i, s.uar.fUarBitmap.getLsbD i = true ↔ Fits logBfRegSize.toNat i ∧ s.Has logBfRegSize.toNat i
  nodup : s.live.Nodup
  regs : ∀ o ∈ s.live, ∃ i, Fits logBfRegSize.toNat i ∧ o = BitVec.ofNat 32 (regOffset logBfRegSize.toNat i)

theorem marked_initial (logBfRegSize : BitVec 5) : Marked logBfRegSize (initial logBfRegSize) where
  log := rfl
  bits i := by
    refine iff_of_false ?_ (fun h => List.not_mem_nil h.2)
    simp [initial]
  nodup := List.nodup_nil
  regs o ho := absurd ho List.not_mem_nil

/-- The first register that is free is given out, where it is inside a mapped page. -/
theorem allocBfreg_cases (h : Marked logBfRegSize s) (bfreg : MlxBfreg) :
    (∃ i va, s.uar.fUarMap = some va ∧ Fits logBfRegSize.toNat i ∧ ¬ s.Has logBfRegSize.toNat i ∧
      (∀ j < i, s.Has logBfRegSize.toNat j) ∧ s.uar.allocBfreg bfreg = (.success,
        ⟨s.uar.getUarVirtualAddress + (BitVec.ofNat 32 (regOffset logBfRegSize.toNat i)).setWidth 64,
          BitVec.ofNat 32 (regOffset logBfRegSize.toNat i)⟩,{ s.uar with fUarBitmap := s.uar.fUarBitmap ||| 1#32 <<< i })) ∨
    ((s.uar.fUarMap = none ∨ ∀ i, Fits logBfRegSize.toNat i → s.Has logBfRegSize.toNat i) ∧
      ∃ kr b, kr ≠ .success ∧ s.uar.allocBfreg bfreg = (kr,b,s.uar)) := by
  have hlog := h.log
  subst hlog
  unfold Uar.allocBfreg
  dsimp only
  by_cases hfree : ~~~s.uar.fUarBitmap &&& 0xf#32 = 0
  · rw [if_pos hfree]
    refine Or.inr ⟨Or.inr (fun i hi => ?_),_,_,(fun he => by cases he),rfl⟩
    have hbit := free_getLsbD s.uar.fUarBitmap i
    rw [hfree, decide_eq_true hi.1, Bool.true_and] at hbit
    have hset : s.uar.fUarBitmap.getLsbD i = true := by simpa using hbit
    exact ((h.bits i).mp hset).2
  · rw [if_neg hfree]
    obtain ⟨hbit,hfirst⟩ := ctz_spec hfree
    generalize ctz (~~~s.uar.fUarBitmap &&& 0xf#32) = dbi at hbit hfirst ⊢
    rw [free_getLsbD, Bool.and_eq_true, decide_eq_true_iff, Bool.not_eq_true'] at hbit
    obtain ⟨hlt,hclear⟩ := hbit
    have hbelow : ∀ j < dbi, Fits s.uar.logBfRegSize.toNat j ∧ s.Has s.uar.logBfRegSize.toNat j := by
      intro j hj
      have hno := hfirst j hj
      rw [free_getLsbD, decide_eq_true (hj.trans hlt), Bool.true_and, Bool.not_eq_false'] at hno
      exact (h.bits j).mp hno
    have hundo : (s.uar.fUarBitmap ||| 1#32 <<< dbi) &&& ~~~(1#32 <<< dbi) = s.uar.fUarBitmap := by
      apply BitVec.eq_of_getLsbD_eq
      intro j _
      rw [clearBit_getLsbD _ (by omega), setBit_getLsbD _ (by omega)]
      by_cases hj : j = dbi
      · rw [hj, hclear]
        simp
      · simp [hj]
    rw [stride_mul, hundo]
    by_cases hfits : Fits s.uar.logBfRegSize.toNat dbi
    · have hhas : ¬ s.Has s.uar.logBfRegSize.toNat dbi := by
        intro hhas
        rw [(h.bits dbi).mpr ⟨hfits,hhas⟩] at hclear
        cases hclear
      by_cases hmap : s.uar.fUarMap.isNone = true
      · rw [if_pos (Or.inl hmap)]
        exact Or.inr ⟨Or.inl (Option.isNone_iff_eq_none.mp hmap),_,_,(fun he => by cases he),rfl⟩
      · obtain ⟨va,hva⟩ := Option.ne_none_iff_exists'.mp (mt Option.isNone_iff_eq_none.mpr hmap)
        have hin : ¬ (BitVec.ofNat 32 (regOffset s.uar.logBfRegSize.toNat dbi)).toNat + 8 > 4096 := by
          rw [hfits.toNat]
          exact Nat.not_lt.mpr hfits.2
        rw [if_neg (not_or.mpr ⟨hmap,hin⟩)]
        exact Or.inl ⟨dbi,va,hva,hfits,hhas,fun j hj => (hbelow j hj).2,rfl⟩
    · have hout := regOffset_beyond s.uar.logBfRegSize.isLt hfits hlt (fun j hj => (hbelow j hj).1)
      rw [if_pos (Or.inr hout)]
      refine Or.inr ⟨Or.inr (fun i hi => ?_),_,_,(fun he => by cases he),rfl⟩
      have hi : i < dbi := by
        by_contra hle
        exact hfits (hi.mono (by omega))
      exact (hbelow i hi).2

theorem alloc_marked (h : Marked logBfRegSize s) (bfreg : MlxBfreg) (hs : step s (.allocBfreg bfreg) = some t) :
    Marked logBfRegSize t := by
  simp only [step] at hs
  rcases allocBfreg_cases h bfreg with ⟨i,va,-,hfits,hno,-,heq⟩ | ⟨-,kr,b,hkr,heq⟩
  · rw [heq] at hs
    simp only [if_true, Option.some.injEq] at hs
    subst hs
    have hlt : i < 32 := lt_trans hfits.1 (by decide)
    refine ⟨h.log,fun j => ?_,List.nodup_append'.mpr ⟨h.nodup,List.nodup_singleton _,?_⟩,fun o ho => ?_⟩
    · dsimp only
      rw [setBit_getLsbD _ hlt, Bool.or_eq_true, decide_eq_true_iff, h.bits]
      constructor
      · rintro (rfl | ⟨hj,hhas⟩)
        · exact ⟨hfits,List.mem_append_right _ List.mem_cons_self⟩
        · exact ⟨hj,List.mem_append_left _ hhas⟩
      · rintro ⟨hj,hhas⟩
        rcases List.mem_append.mp hhas with hhas | hhas
        · exact Or.inr ⟨hj,hhas⟩
        · exact Or.inl (hj.eq hfits (List.mem_singleton.mp hhas))
    · exact List.disjoint_singleton.mpr hno
    · rcases List.mem_append.mp ho with ho | ho
      · exact h.regs o ho
      · exact ⟨i,hfits,List.mem_singleton.mp ho⟩
  · rw [heq] at hs
    simp only [if_neg hkr, Option.some.injEq] at hs
    subst hs
    exact h

theorem freeBfreg_live (h : Marked logBfRegSize s) (hfits : Fits logBfRegSize.toNat i) (map : BitVec 64) :
    s.uar.freeBfreg (some ⟨map,BitVec.ofNat 32 (regOffset logBfRegSize.toNat i)⟩) =
      { s.uar with fUarBitmap := s.uar.fUarBitmap &&& ~~~(1#32 <<< i) } := by
  have hend := hfits.2
  have hpos := Nat.two_pow_pos logBfRegSize.toNat
  have hstride : s.uar.stride.toNat = 2 ^ logBfRegSize.toNat := by
    rw [Uar.stride, h.log, ← BitVec.twoPow_eq, BitVec.toNat_twoPow, Nat.mod_eq_of_lt]
    exact Nat.pow_lt_pow_right (by decide) logBfRegSize.isLt
  have hsub : (BitVec.ofNat 32 (regOffset logBfRegSize.toNat i) - bfOffset).toNat = i * 2 ^ logBfRegSize.toNat := by
    rw [BitVec.toNat_sub_of_le, hfits.toNat]
    · exact Nat.add_sub_cancel_left _ _
    · rw [BitVec.le_def, hfits.toNat]
      exact Nat.le_add_right _ _
  have hdiv : (BitVec.ofNat 32 (regOffset logBfRegSize.toNat i) - bfOffset) / s.uar.stride = BitVec.ofNat 32 i := by
    apply BitVec.eq_of_toNat_eq
    rw [BitVec.toNat_udiv, hsub, hstride, Nat.mul_div_cancel _ hpos, BitVec.toNat_ofNat, Nat.mod_eq_of_lt]
    exact lt_trans hfits.1 (by decide)
  have hmod : (BitVec.ofNat 32 (regOffset logBfRegSize.toNat i) - bfOffset) % s.uar.stride = 0 := by
    apply BitVec.eq_of_toNat_eq
    rw [BitVec.toNat_umod, hsub, hstride, Nat.mul_mod_left]
    rfl
  have hi : (BitVec.ofNat 32 i).toNat = i := Nat.mod_eq_of_lt (lt_trans hfits.1 (by decide))
  unfold Uar.freeBfreg
  dsimp only
  have hge : ¬ BitVec.ofNat 32 (regOffset logBfRegSize.toNat i) < bfOffset := by
    rw [BitVec.lt_def, hfits.toNat]
    exact Nat.not_lt.mpr (Nat.le_add_right _ _)
  have hgood : ¬ (s.uar.stride = 0 ∨ (BitVec.ofNat 32 (regOffset logBfRegSize.toNat i) - bfOffset) % s.uar.stride ≠ 0) := by
    rintro (hzero | hne)
    · rw [hzero] at hstride
      exact absurd hstride.symm hpos.ne'
    · exact hne hmod
  have hfour : ¬ BitVec.ofNat 32 i ≥ 4 := by
    rw [ge_iff_le, BitVec.le_def, hi]
    exact Nat.not_le.mpr hfits.1
  rw [if_neg hge, if_neg hgood, hdiv, if_neg hfour, hi]

theorem free_marked (h : Marked logBfRegSize s) (bfreg : Option MlxBfreg) (hs : step s (.freeBfreg bfreg) = some t) :
    Marked logBfRegSize t := by
  simp only [step] at hs
  split at hs
  · rename_i hok
    cases hs
    cases bfreg with
    | none => exact h
    | some bfreg =>
      rw [Option.all_some, Bool.or_eq_true, List.contains_iff_mem, decide_eq_true_iff] at hok
      rcases hok with hlive | hbelow
      · obtain ⟨map,offset⟩ := bfreg
        obtain ⟨i,hfits,rfl⟩ := h.regs offset hlive
        have hlt : i < 32 := lt_trans hfits.1 (by decide)
        rw [freeBfreg_live h hfits]
        refine ⟨h.log,fun j => ?_,h.nodup.erase _,fun o ho => h.regs o (List.mem_of_mem_erase ho)⟩
        dsimp only [Option.elim_some]
        rw [clearBit_getLsbD _ hlt, Bool.and_eq_true, Bool.not_eq_true', decide_eq_false_iff_not, h.bits]
        constructor
        · rintro ⟨hne,hj,hhas⟩
          exact ⟨hj,(List.mem_erase_of_ne (fun he => hne (hj.eq hfits he))).mpr hhas⟩
        · rintro ⟨hj,hhas⟩
          refine ⟨?_,hj,List.mem_of_mem_erase hhas⟩
          rintro rfl
          exact h.nodup.not_mem_erase hhas
      · -- a structure that was never filled in
        have hnot : bfreg.offset ∉ s.live := by
          intro hlive
          obtain ⟨i,hfits,he⟩ := h.regs bfreg.offset hlive
          rw [he, BitVec.lt_def, hfits.toNat] at hbelow
          exact absurd hbelow (Nat.not_lt.mpr (Nat.le_add_right _ _))
        have hsame : s.uar.freeBfreg (some bfreg) = s.uar := by
          unfold Uar.freeBfreg
          dsimp only
          rw [if_pos hbelow]
        rw [hsame]
        dsimp only [Option.elim_some]
        rw [List.erase_of_not_mem hnot]
        exact h
  · cases hs

theorem step_marked {a : Action} (h : Marked logBfRegSize s) (hs : step s a = some t) : Marked logBfRegSize t := by
  cases a with
  | allocBfreg bfreg => exact alloc_marked h bfreg hs
  | freeBfreg bfreg => exact free_marked h bfreg hs
  | setUarMap fUarMap fUarOffset =>
    cases hs
    exact ⟨h.log,h.bits,h.nodup,h.regs⟩

/-- The live registers are apart and inside the page; the next one is the first that is free, and none is refused while
there is one. -/
structure Sound (k : ℕ) (s : State) : Prop where
  inside : ∀ o ∈ s.live, 0x800 ≤ o.toNat ∧ o.toNat + 8 ≤ 4096
  apart : s.live.Pairwise (fun o o' => o.toNat + 2 ^ k ≤ o'.toNat ∨ o'.toNat + 2 ^ k ≤ o.toNat)
  allocated : ∀ bfreg b u, s.uar.allocBfreg bfreg = (.success,b,u) → b.offset ∉ s.live ∧
    b.map = s.uar.getUarVirtualAddress + b.offset.setWidth 64 ∧
    ∃ i, Fits k i ∧ b.offset.toNat = regOffset k i ∧ ∀ j < i, s.Has k j
  complete : ∀ bfreg, (s.uar.allocBfreg bfreg).1 = .success ↔ s.uar.fUarMap.isSome = true ∧ ∃ i, Fits k i ∧ ¬ s.Has k i
  refused : ∀ bfreg kr b u, s.uar.allocBfreg bfreg = (kr,b,u) → kr ≠ .success → u = s.uar

theorem Marked.sound (h : Marked logBfRegSize s) : Sound logBfRegSize.toNat s where
  inside o ho := by
    obtain ⟨i,hfits,rfl⟩ := h.regs o ho
    rw [hfits.toNat]
    exact ⟨Nat.le_add_right _ _,hfits.2⟩
  apart := by
    refine h.nodup.imp_of_mem (fun {o o'} ho ho' hne => ?_)
    obtain ⟨i,hi,rfl⟩ := h.regs o ho
    obtain ⟨j,hj,rfl⟩ := h.regs o' ho'
    rw [hi.toNat, hj.toNat]
    have hij : i ≠ j := fun he => hne (by rw [he])
    rcases Nat.lt_or_gt_of_ne hij with hlt | hlt
    · exact Or.inl (regOffset_lt _ hlt)
    · exact Or.inr (regOffset_lt _ hlt)
  allocated bfreg b u ha := by
    rcases allocBfreg_cases h bfreg with ⟨i,va,-,hfits,hno,hbelow,heq⟩ | ⟨-,kr,b',hkr,heq⟩
    · rw [heq] at ha
      cases ha
      exact ⟨hno,rfl,i,hfits,hfits.toNat,hbelow⟩
    · rw [heq] at ha
      cases ha
      exact absurd rfl hkr
  complete bfreg := by
    rcases allocBfreg_cases h bfreg with ⟨i,va,hmap,hfits,hno,-,heq⟩ | ⟨hno,kr,b,hkr,heq⟩
    · rw [heq]
      exact iff_of_true rfl ⟨by rw [hmap]; rfl,i,hfits,hno⟩
    · rw [heq]
      refine iff_of_false hkr ?_
      rintro ⟨hmap,i,hfits,hnot⟩
      rcases hno with hnone | hall
      · rw [hnone] at hmap
        cases hmap
      · exact hnot (hall i hfits)
  refused bfreg kr b u ha hkr := by
    rcases allocBfreg_cases h bfreg with ⟨i,va,-,-,-,-,heq⟩ | ⟨-,kr',b',-,heq⟩
    · rw [heq] at ha
      cases ha
      exact absurd rfl hkr
    · rw [heq] at ha
      cases ha
      rfl

theorem bfRegs_run (logBfRegSize : BitVec 5) (hr : Reach step Free (initial logBfRegSize) s) :
    Sound logBfRegSize.toNat s :=
  (hr.invariant (marked_initial logBfRegSize) (fun _ _ _ h _ hs => step_marked h hs)).sound

/-- Of registers that are 1 KiB apart, the page has two; the third request finds one outside it. -/
def twoRegs : List Action :=
  [.setUarMap (some 0x10000) 0,.allocBfreg ⟨0,0⟩,.allocBfreg ⟨0,0⟩,.allocBfreg ⟨0,0⟩,
    .freeBfreg (some ⟨0x10800,0x800⟩)]

theorem bfRegs_run_twoRegs : ∃ s, after step twoRegs (initial 10) = some s ∧ s.live = [0xc00] ∧ Sound 10 s :=
  ⟨_,rfl,rfl,bfRegs_run 10 (reach_of_after twoRegs .start rfl)⟩

end AppleMCX.BfRegs
