import AppleMCX.Hw.P0Encoding

/-! # QPC transition images

The encoders of the queue pair transitions with the buffer they write to. Each of them writes
the fields of its field list; the lists are free of overlaps, so every attribute is read back.
-/
namespace AppleMCX.Hw.Qpc
open Interaction

def qpcBytes : ℕ := 0x740 / 8

/-- The result, the buffer and `*optParamMask`; `none` is a null pointer. -/
abbrev Outcome := Bool × Option Buffer × Option (BitVec 32)

def mlxEncodeRst2InitQpc (qpcBuffer : Option Buffer) (qpcSize : ℕ) (pkeyIndex portNum : BitVec 32)
    (optParamMask : Option (BitVec 32)) : Outcome :=
  match qpcBuffer with
  | none => (false,none,optParamMask)
  | some qpc =>
    if qpcSize < qpcBytes ∨ pkeyIndex > 0xffff ∨ portNum = 0 ∨ portNum > 0xff then (false,some qpc,optParamMask)
    else
      let qpc := mlxSetBits qpc 0x08 8 0
      let qpc := mlxSetBits qpc (ads + 0x10) 16 (pkeyIndex.setWidth 64)
      let qpc := mlxSetBits qpc (ads + 0x128) 8 (portNum.setWidth 64)
      (true,some qpc,optParamMask.map (fun _ => 0))

/-- `memcpy` into the buffer. -/
def memcpy (dst : ℕ) (src : List Byte) (bytes : Buffer) : Buffer :=
  fun a => if dst ≤ a ∧ a < dst + src.length then src.getD (a - dst) 0 else bytes a

def mlxEncodeRocePrimaryPath (qpcBuffer : Option Buffer) (qpcSize : ℕ) (path : Option MlxRocePathFields) :
    Bool × Option Buffer :=
  match qpcBuffer, path with
  | some qpc, some path =>
    if qpcSize < qpcBytes ∨ path.sgidIndex > 0xff ∨ path.portNum = 0 then (false,some qpc)
    else
      let qpc := mlxSetBits qpc (ads + 0x10) 16 (path.pkeyIndex.setWidth 64)
      let qpc := mlxSetBits qpc (ads + 0x48) 8 (path.sgidIndex.setWidth 64)
      let qpc := mlxSetBits qpc (ads + 0x58) 8 (if path.hopLimit ≠ 0 then path.hopLimit.setWidth 64 else 64)
      let qpc := mlxSetBits qpc (ads + 0x10a) 6 ((path.trafficClass >>> 2).setWidth 64)
      let qpc := mlxSetBits qpc (ads + 0x110) 16 (path.udpSport.setWidth 64)
      let qpc := mlxSetBits qpc (ads + 0x121) 3 0
      let qpc := mlxSetBits qpc (ads + 0x128) 8 (path.portNum.setWidth 64)
      let qpc := memcpy ((ads + 0x80) / 8) path.dgid.val qpc
      let qpc := memcpy ((ads + 0x130) / 8) path.dmac.val qpc
      (true,some qpc)
  | qpcBuffer, _ => (false,qpcBuffer)

def mlxEncodeInit2RtrQpc (qpcBuffer : Option Buffer) (qpcSize : ℕ) (path : Option MlxRocePathFields)
    (destQpn pathMtu rqPsn maxDestRdAtomic : BitVec 32) (optParamMask : Option (BitVec 32)) : Outcome :=
  match qpcBuffer with
  | none => (false,none,optParamMask)
  | some qpc =>
    if qpcSize < qpcBytes ∨ path = none ∨ destQpn > 0xffffff ∨ pathMtu = 0 ∨ pathMtu > 5 ∨ rqPsn > 0xffffff ∨
        maxDestRdAtomic > 128 ∨ maxDestRdAtomic &&& (maxDestRdAtomic - 1) ≠ 0 then (false,some qpc,optParamMask)
    else
      let qpc := mlxSetBits qpc 0x08 8 0
      let qpc := mlxSetBits qpc 0x40 3 (pathMtu.setWidth 64)
      let qpc := mlxSetBits qpc 0xa8 24 (destQpn.setWidth 64)
      let qpc := mlxSetBits qpc 0x4a8 24 (rqPsn.setWidth 64)
      match mlxEncodeRocePrimaryPath (some qpc) qpcSize path with
      | (false,qpc) => (false,qpc,optParamMask)
      | (true,qpc) =>
        if maxDestRdAtomic ≠ 0 then
          (true,qpc.map (fun qpc =>
            let qpc := mlxSetBits qpc 0x488 3 (BitVec.ofNat 64 (mlxLog2PowerOfTwo maxDestRdAtomic))
            let qpc := mlxSetBits qpc 0x490 1 1
            mlxSetBits qpc 0x491 1 1),optParamMask.map (fun _ => 1#32 <<< 1 ||| 1#32 <<< 3))
        else (true,qpc,optParamMask.map (fun _ => 0))

def mlxEncodeRtr2RtsQpc (qpcBuffer : Option Buffer) (qpcSize : ℕ) (sqPsn minRnrTimer maxRdAtomic : BitVec 32)
    (optParamMask : Option (BitVec 32)) : Outcome :=
  match qpcBuffer with
  | none => (false,none,optParamMask)
  | some qpc =>
    if qpcSize < qpcBytes ∨ sqPsn > 0xffffff ∨ minRnrTimer > 0x1f ∨ maxRdAtomic > 128 ∨
        maxRdAtomic &&& (maxRdAtomic - 1) ≠ 0 then (false,some qpc,optParamMask)
    else
      let qpc := mlxSetBits qpc 0x08 8 0
      let qpc := mlxSetBits qpc 0x3c8 24 (sqPsn.setWidth 64)
      let qpc := mlxSetBits qpc 0x4a3 5 (minRnrTimer.setWidth 64)
      let qpc := if maxRdAtomic ≠ 0 then mlxSetBits qpc 0x388 3 (BitVec.ofNat 64 (mlxLog2PowerOfTwo maxRdAtomic)) else qpc
      (true,some qpc,optParamMask.map (fun _ => 1#32 <<< 6))

/-! ## The field lists are what is written -/

theorem mem_bytesAt {bitOffset : ℕ} {bytes : List Byte} {f : BitField} (h : f ∈ bytesAt bitOffset bytes) :
    ∃ i, ∃ hi : i < bytes.length, f = ⟨bitOffset + 8 * i,8,(bytes.get ⟨i,hi⟩).toNat⟩ := by
  obtain ⟨i,hi,rfl⟩ := List.mem_mapIdx.mp h
  exact ⟨i,hi,rfl⟩

theorem bytesAt_mem {bitOffset i : ℕ} {bytes : List Byte} (hi : i < bytes.length) :
    ⟨bitOffset + 8 * i,8,(bytes.get ⟨i,hi⟩).toNat⟩ ∈ bytesAt bitOffset bytes := List.mem_mapIdx.mpr ⟨i,hi,rfl⟩

theorem bytesAt_range {bitOffset : ℕ} {bytes : List Byte} {f : BitField} (h : f ∈ bytesAt bitOffset bytes) :
    bitOffset ≤ f.bitOffset ∧ f.bitOffset + f.bitWidth ≤ bitOffset + 8 * bytes.length := by
  obtain ⟨i,hi,rfl⟩ := mem_bytesAt h
  dsimp only
  omega

theorem bytesAt_layout (bitOffset : ℕ) (bytes : List Byte) : Layout (bytesAt bitOffset bytes) where
  width := by
    intro f hf
    obtain ⟨i,hi,rfl⟩ := mem_bytesAt hf
    exact (by decide : 8 ≤ 64)
  fits := by
    intro f hf
    obtain ⟨i,hi,rfl⟩ := mem_bytesAt hf
    exact BitVec.isLt _
  apart := by
    have harray : (bytesAt bitOffset bytes).map BitField.field =
        Field.array bitOffset 8 (fun i => (bytes.getD i 0).toNat) bytes.length := by
      refine List.ext_getElem (by simp [bytesAt, Field.array]) (fun i hi _ => ?_)
      have hi' : i < bytes.length := by simpa [bytesAt] using hi
      simp [bytesAt, Field.array, BitField.field, hi']
    rw [← List.pairwise_map (R := Field.Apart), harray]
    exact Field.array_apart _ _ _ _

theorem memcpy_eq (dst : ℕ) (src : List Byte) (bytes : Buffer) :
    memcpy dst src bytes = setFields (bytesAt (8 * dst) src) bytes := by
  have hlayout := bytesAt_layout (8 * dst) src
  funext a
  unfold memcpy
  by_cases ha : dst ≤ a ∧ a < dst + src.length
  · obtain ⟨i,rfl⟩ := Nat.exists_eq_add_of_le ha.1
    have hi : i < src.length := by omega
    have hread := hlayout.read (bytesAt_mem hi) bytes
    rw [mlxGetBits_eq, ← Nat.mul_add, getField_byte] at hread
    have hbyte : ∀ x y : Byte, BitVec.ofNat 64 x.toNat = BitVec.ofNat 64 y.toNat → x = y := by
      intro x y h
      have hx := x.isLt
      have hy := y.isLt
      have hnat := congrArg BitVec.toNat h
      rw [BitVec.toNat_ofNat, BitVec.toNat_ofNat, Nat.mod_eq_of_lt (by omega), Nat.mod_eq_of_lt (by omega)] at hnat
      exact BitVec.eq_of_toNat_eq hnat
    rw [if_pos ha, hbyte _ _ hread, Nat.add_sub_cancel_left, List.getD_eq_getElem _ _ hi]
    rfl
  · rw [if_neg ha]
    have hsame : ∀ k, k / 8 = a → bitAt bytes k = bitAt (setFields (bytesAt (8 * dst) src) bytes) k := by
      intro k hk
      have hframe : Frame _ (dst + src.length) bytes (setFields (bytesAt (8 * dst) src) bytes) :=
        hlayout.frame (fun f hf => by have hrange := bytesAt_range hf; omega) bytes
      refine (hframe.outside k (fun f hf => ?_)).symm
      obtain ⟨i,hi,rfl⟩ := mem_bytesAt hf
      dsimp only
      omega
    exact byte_ext hsame

theorem setFields_append (fields more : List BitField) (bytes : Buffer) :
    setFields (fields ++ more) bytes = setFields more (setFields fields bytes) := List.foldl_append

/-- The encoder accepted and wrote the field list. -/
def Writes (qpcBuffer : Option Buffer) (optParamMask : Option (BitVec 32)) (encoded : Option Encoded) (result : Outcome) : Prop :=
  ∃ before e, qpcBuffer = some before ∧ encoded = some e ∧
    result = (true,some (setFields e.fields before),optParamMask.map (fun _ => e.optParamMask))

variable {qpcBuffer : Option Buffer} {qpcSize : ℕ} {optParamMask : Option (BitVec 32)}

theorem rst2Init_cases (pkeyIndex portNum : BitVec 32) :
    (mlxEncodeRst2InitQpc qpcBuffer qpcSize pkeyIndex portNum optParamMask).1 = false ∨
    Writes qpcBuffer optParamMask (Hw.mlxEncodeRst2InitQpc pkeyIndex portNum)
      (mlxEncodeRst2InitQpc qpcBuffer qpcSize pkeyIndex portNum optParamMask) := by
  cases qpcBuffer with
  | none => exact Or.inl rfl
  | some before =>
    unfold mlxEncodeRst2InitQpc Hw.mlxEncodeRst2InitQpc
    dsimp only
    by_cases hbad : qpcSize < qpcBytes ∨ pkeyIndex > 0xffff ∨ portNum = 0 ∨ portNum > 0xff
    · exact Or.inl (by rw [if_pos hbad])
    · rw [if_neg hbad, if_neg (fun h => hbad (Or.inr h))]
      refine Or.inr ⟨before,_,rfl,rfl,?_⟩
      simp only [setFields, List.foldl_cons, List.foldl_nil, BitVec.ofNat_toNat]
      rfl

theorem rocePrimaryPath_cases (qpcSize : ℕ) (path : Option MlxRocePathFields) (before : Buffer) :
    mlxEncodeRocePrimaryPath (some before) qpcSize path = (false,some before) ∨
    ∃ p primary, path = some p ∧ Hw.mlxEncodeRocePrimaryPath p = some primary ∧
      mlxEncodeRocePrimaryPath (some before) qpcSize path = (true,some (setFields primary before)) := by
  cases path with
  | none => exact Or.inl rfl
  | some p =>
    unfold mlxEncodeRocePrimaryPath Hw.mlxEncodeRocePrimaryPath
    dsimp only
    by_cases hbad : qpcSize < qpcBytes ∨ p.sgidIndex > 0xff ∨ p.portNum = 0
    · exact Or.inl (by rw [if_pos hbad])
    · rw [if_neg hbad]
      refine Or.inr ⟨p,_,rfl,if_neg (fun h => hbad (Or.inr h)),?_⟩
      have hhop : (if p.hopLimit ≠ 0 then p.hopLimit.setWidth 64 else 64) =
          BitVec.ofNat 64 (if p.hopLimit ≠ 0 then p.hopLimit.toNat else 64) := by
        split
        · exact (BitVec.ofNat_toNat _ _).symm
        · rfl
      have hclass : (p.trafficClass >>> 2).setWidth 64 = BitVec.ofNat 64 (p.trafficClass.toNat >>> 2) := by
        rw [← BitVec.ofNat_toNat, BitVec.toNat_ushiftRight]
      rw [setFields_append, setFields_append, memcpy_eq, memcpy_eq, hhop, hclass]
      simp only [setFields, List.foldl_cons, List.foldl_nil, BitVec.ofNat_toNat]
      rfl

theorem rdAtomicInvalid_false {rdAtomic : BitVec 32} (h : ¬ (rdAtomic > 128 ∨ rdAtomic &&& (rdAtomic - 1) ≠ 0)) :
    rdAtomicInvalid rdAtomic = false := decide_eq_false h

theorem init2Rtr_cases (path : Option MlxRocePathFields) (destQpn pathMtu rqPsn maxDestRdAtomic : BitVec 32) :
    (mlxEncodeInit2RtrQpc qpcBuffer qpcSize path destQpn pathMtu rqPsn maxDestRdAtomic optParamMask).1 = false ∨
    ∃ p, path = some p ∧ Writes qpcBuffer optParamMask (Hw.mlxEncodeInit2RtrQpc p destQpn pathMtu rqPsn maxDestRdAtomic)
      (mlxEncodeInit2RtrQpc qpcBuffer qpcSize path destQpn pathMtu rqPsn maxDestRdAtomic optParamMask) := by
  cases qpcBuffer with
  | none => exact Or.inl rfl
  | some before =>
    unfold mlxEncodeInit2RtrQpc
    dsimp only
    by_cases hbad : qpcSize < qpcBytes ∨ path = none ∨ destQpn > 0xffffff ∨
      pathMtu = 0 ∨ pathMtu > 5 ∨ rqPsn > 0xffffff ∨
        maxDestRdAtomic > 128 ∨ maxDestRdAtomic &&& (maxDestRdAtomic - 1) ≠ 0
    · exact Or.inl (by rw [if_pos hbad])
    rw [if_neg hbad]
    rcases rocePrimaryPath_cases qpcSize path _ with hrefused | ⟨p,primary,rfl,hprimary,hwritten⟩
    · rw [hrefused]
      exact Or.inl rfl
    · rw [hwritten]
      simp only [not_or] at hbad
      obtain ⟨_,_,hqpn,hmtu,hmtu',hpsn,hrd⟩ := hbad
      have hgood : ¬ (destQpn > 0xffffff ∨ pathMtu = 0 ∨ pathMtu > 5 ∨ rqPsn > 0xffffff ∨
          rdAtomicInvalid maxDestRdAtomic = true) := by
        rw [rdAtomicInvalid_false (not_or.mpr hrd)]
        simp only [not_or]
        exact ⟨hqpn,hmtu,hmtu',hpsn,Bool.false_ne_true⟩
      refine Or.inr ⟨p,rfl,?_⟩
      unfold Hw.mlxEncodeInit2RtrQpc
      rw [if_neg hgood, hprimary]
      dsimp only
      by_cases hsome : maxDestRdAtomic ≠ 0
      · rw [if_pos hsome, if_pos hsome]
        refine ⟨before,_,rfl,rfl,?_⟩
        rw [setFields_append, setFields_append]
        simp only [setFields, List.foldl_cons, List.foldl_nil, BitVec.ofNat_toNat, Option.map_some]
        rfl
      · rw [if_neg hsome, if_neg hsome]
        refine ⟨before,_,rfl,rfl,?_⟩
        rw [setFields_append]
        simp only [setFields, List.foldl_cons, List.foldl_nil, BitVec.ofNat_toNat]
        rfl

theorem rtr2Rts_cases (sqPsn minRnrTimer maxRdAtomic : BitVec 32) :
    (mlxEncodeRtr2RtsQpc qpcBuffer qpcSize sqPsn minRnrTimer maxRdAtomic optParamMask).1 = false ∨
    Writes qpcBuffer optParamMask (Hw.mlxEncodeRtr2RtsQpc sqPsn minRnrTimer maxRdAtomic)
      (mlxEncodeRtr2RtsQpc qpcBuffer qpcSize sqPsn minRnrTimer maxRdAtomic optParamMask) := by
  cases qpcBuffer with
  | none => exact Or.inl rfl
  | some before =>
    unfold mlxEncodeRtr2RtsQpc
    dsimp only
    by_cases hbad : qpcSize < qpcBytes ∨ sqPsn > 0xffffff ∨ minRnrTimer > 0x1f ∨ maxRdAtomic > 128 ∨
        maxRdAtomic &&& (maxRdAtomic - 1) ≠ 0
    · exact Or.inl (by rw [if_pos hbad])
    · rw [if_neg hbad]
      have hgood : ¬ (sqPsn > 0xffffff ∨ minRnrTimer > 0x1f ∨ rdAtomicInvalid maxRdAtomic = true) := by
        rw [rdAtomicInvalid_false (fun h => hbad (Or.inr (Or.inr (Or.inr h))))]
        simp only [not_or] at hbad ⊢
        exact ⟨hbad.2.1,hbad.2.2.1,Bool.false_ne_true⟩
      unfold Hw.mlxEncodeRtr2RtsQpc
      rw [if_neg hgood]
      by_cases hrd : maxRdAtomic ≠ 0
      · rw [if_pos hrd, if_pos hrd]
        refine Or.inr ⟨before,_,rfl,rfl,?_⟩
        simp only [setFields, List.foldl_cons, List.foldl_nil, List.cons_append, List.nil_append, BitVec.ofNat_toNat]
        rfl
      · rw [if_neg hrd, if_neg hrd]
        refine Or.inr ⟨before,_,rfl,rfl,?_⟩
        simp only [setFields, List.foldl_cons, List.foldl_nil, BitVec.ofNat_toNat]
        rfl

/-! ## Reading the images back -/

theorem log2_powerOfTwo {rdAtomic : BitVec 32} (h : rdAtomicInvalid rdAtomic = false) (h₀ : rdAtomic ≠ 0) :
    2 ^ mlxLog2PowerOfTwo rdAtomic = rdAtomic.toNat ∧ mlxLog2PowerOfTwo rdAtomic < 2 ^ 3 := by
  have hall : ∀ n, n < 129 → BitVec.ofNat 32 n &&& (BitVec.ofNat 32 n - 1) = 0 → n ≠ 0 →
      2 ^ Nat.log2 n = n ∧ Nat.log2 n < 2 ^ 3 := by decide +kernel
  have hvalid := of_decide_eq_false h
  simp only [not_or, ne_eq, not_not] at hvalid
  have hle : rdAtomic.toNat ≤ 128 := Nat.not_lt.mp hvalid.1
  refine hall rdAtomic.toNat (by omega) ?_ (fun hz => h₀ (BitVec.eq_of_toNat_eq hz))
  rw [BitVec.ofNat_toNat, BitVec.setWidth_eq]
  exact hvalid.2

structure Rst2InitImage (pkeyIndex portNum : BitVec 32) (after : Buffer) : Prop where
  pkeyIndex : mlxGetBits after (ads + 0x10) 16 = pkeyIndex.setWidth 64
  portNum : mlxGetBits after (ads + 0x128) 8 = portNum.setWidth 64

structure Init2RtrImage (path : MlxRocePathFields) (destQpn pathMtu rqPsn maxDestRdAtomic : BitVec 32) (after : Buffer) :
    Prop where
  pathMtu : mlxGetBits after 0x40 3 = pathMtu.setWidth 64
  destQpn : mlxGetBits after 0xa8 24 = destQpn.setWidth 64
  rqPsn : mlxGetBits after 0x4a8 24 = rqPsn.setWidth 64
  pkeyIndex : mlxGetBits after (ads + 0x10) 16 = path.pkeyIndex.setWidth 64
  sgidIndex : mlxGetBits after (ads + 0x48) 8 = path.sgidIndex.setWidth 64
  hopLimit : mlxGetBits after (ads + 0x58) 8 = if path.hopLimit = 0 then 64 else path.hopLimit.setWidth 64
  trafficClass : mlxGetBits after (ads + 0x10a) 6 = (path.trafficClass >>> 2).setWidth 64
  udpSport : mlxGetBits after (ads + 0x110) 16 = path.udpSport.setWidth 64
  portNum : mlxGetBits after (ads + 0x128) 8 = path.portNum.setWidth 64
  dgid : ∀ i, i < 16 → mlxGetBits after (ads + 0x80 + 8 * i) 8 = (path.dgid.val.getD i 0).setWidth 64
  dmac : ∀ i, i < 6 → mlxGetBits after (ads + 0x130 + 8 * i) 8 = (path.dmac.val.getD i 0).setWidth 64
  maxDestRdAtomic : maxDestRdAtomic ≠ 0 → 2 ^ (mlxGetBits after 0x488 3).toNat = maxDestRdAtomic.toNat

structure Rtr2RtsImage (sqPsn minRnrTimer maxRdAtomic : BitVec 32) (after : Buffer) : Prop where
  sqPsn : mlxGetBits after 0x3c8 24 = sqPsn.setWidth 64
  minRnrTimer : mlxGetBits after 0x4a3 5 = minRnrTimer.setWidth 64
  maxRdAtomic : maxRdAtomic ≠ 0 → 2 ^ (mlxGetBits after 0x388 3).toNat = maxRdAtomic.toNat

theorem rst2Init_image {pkeyIndex portNum : BitVec 32} {e : Encoded} (h : Hw.mlxEncodeRst2InitQpc pkeyIndex portNum = some e)
    (before : Buffer) : Rst2InitImage pkeyIndex portNum (setFields e.fields before) ∧
      Frame e.fields qpcBytes before (setFields e.fields before) := by
  unfold Hw.mlxEncodeRst2InitQpc at h
  split at h
  · cases h
  · rename_i hgood
    cases h
    simp only [not_or] at hgood
    have hpkey : pkeyIndex.toNat < 2 ^ 16 := Nat.lt_succ_of_le (Nat.not_lt.mp hgood.1)
    have hport : portNum.toNat < 2 ^ 8 := Nat.lt_succ_of_le (Nat.not_lt.mp hgood.2.2)
    have hlayout : Layout [⟨0x08,8,0⟩,⟨ads + 0x10,16,pkeyIndex.toNat⟩,⟨ads + 0x128,8,portNum.toNat⟩] :=
      ⟨by simp,by simp; omega,by simp [BitField.field, Field.Apart, ads]⟩
    refine ⟨⟨?_,?_⟩,hlayout.frame (by simp [ads, qpcBytes]) before⟩
    · exact (hlayout.read (List.mem_of_getElem? (i := 1) rfl) before).trans (BitVec.ofNat_toNat _ _)
    · exact (hlayout.read (List.mem_of_getElem? (i := 2) rfl) before).trans (BitVec.ofNat_toNat _ _)

def headFields (destQpn pathMtu rqPsn : BitVec 32) : List BitField :=
  [⟨0x08,8,0⟩,⟨0x40,3,pathMtu.toNat⟩,⟨0xa8,24,destQpn.toNat⟩,⟨0x4a8,24,rqPsn.toNat⟩]

/-- The fields of the path that are no byte copies. -/
def pathFields (path : MlxRocePathFields) : List BitField :=
  [⟨ads + 0x10,16,path.pkeyIndex.toNat⟩,⟨ads + 0x48,8,path.sgidIndex.toNat⟩,
    ⟨ads + 0x58,8,if path.hopLimit ≠ 0 then path.hopLimit.toNat else 64⟩,⟨ads + 0x10a,6,path.trafficClass.toNat >>> 2⟩,
    ⟨ads + 0x110,16,path.udpSport.toNat⟩,⟨ads + 0x121,3,0⟩,⟨ads + 0x128,8,path.portNum.toNat⟩]

def limitFields (maxDestRdAtomic : BitVec 32) : List BitField :=
  [⟨0x488,3,mlxLog2PowerOfTwo maxDestRdAtomic⟩,⟨0x490,1,1⟩,⟨0x491,1,1⟩]

/-- The fields of the transition to RTR, grouped by what they are. -/
def rtrFields (path : MlxRocePathFields) (destQpn pathMtu rqPsn maxDestRdAtomic : BitVec 32) : List BitField :=
  headFields destQpn pathMtu rqPsn ++ pathFields path ++ (if maxDestRdAtomic ≠ 0 then limitFields maxDestRdAtomic else []) ++
    bytesAt (ads + 0x80) path.dgid.val ++ bytesAt (ads + 0x130) path.dmac.val

section
variable {path : MlxRocePathFields} {destQpn pathMtu rqPsn maxDestRdAtomic : BitVec 32} {e : Encoded}

theorem perm_grouped (a b l d m : List BitField) : (a ++ b ++ l ++ d ++ m).Perm (a ++ (b ++ d ++ m) ++ l) := by
  have hswap : (l ++ (d ++ m)).Perm (d ++ m ++ l) := List.perm_append_comm
  simp only [List.append_assoc] at hswap ⊢
  exact (hswap.append_left b).append_left a

/-- What the encoder accepts, and which fields it writes. -/
theorem init2Rtr_fields (h : Hw.mlxEncodeInit2RtrQpc path destQpn pathMtu rqPsn maxDestRdAtomic = some e) :
    (destQpn.toNat ≤ 0xffffff ∧ pathMtu.toNat ≤ 5 ∧ rqPsn.toNat ≤ 0xffffff ∧ path.sgidIndex.toNat ≤ 0xff) ∧
      rdAtomicInvalid maxDestRdAtomic = false ∧ (rtrFields path destQpn pathMtu rqPsn maxDestRdAtomic).Perm e.fields := by
  unfold Hw.mlxEncodeInit2RtrQpc at h
  split at h
  · cases h
  · rename_i hgood
    simp only [not_or] at hgood
    unfold Hw.mlxEncodeRocePrimaryPath at h
    split at h
    · cases h
    · rename_i primary hprimary
      split at hprimary
      · cases hprimary
      · rename_i hpath
        cases hprimary
        simp only [not_or] at hpath
        refine ⟨⟨Nat.not_lt.mp hgood.1,Nat.not_lt.mp hgood.2.2.1,Nat.not_lt.mp hgood.2.2.2.1,Nat.not_lt.mp hpath.1⟩,
          Bool.eq_false_of_not_eq_true hgood.2.2.2.2,?_⟩
        unfold rtrFields
        by_cases hsome : maxDestRdAtomic ≠ 0
        · rw [if_pos hsome] at h ⊢
          cases h
          exact perm_grouped (headFields destQpn pathMtu rqPsn) (pathFields path) (limitFields maxDestRdAtomic) _ _
        · rw [if_neg hsome] at h ⊢
          cases h
          have hperm := perm_grouped (headFields destQpn pathMtu rqPsn) (pathFields path) []
            (bytesAt (ads + 0x80) path.dgid.val) (bytesAt (ads + 0x130) path.dmac.val)
          exact hperm.trans (.of_eq (List.append_nil _))

theorem rtrFields_layout (hbounds : destQpn.toNat ≤ 0xffffff ∧ pathMtu.toNat ≤ 5 ∧ rqPsn.toNat ≤ 0xffffff ∧
      path.sgidIndex.toNat ≤ 0xff) (hrd : rdAtomicInvalid maxDestRdAtomic = false) :
    Layout (rtrFields path destQpn pathMtu rqPsn maxDestRdAtomic) := by
  have hall : Layout (headFields destQpn pathMtu rqPsn ++ pathFields path ++ limitFields maxDestRdAtomic) := by
    refine ⟨by simp [headFields, pathFields, limitFields],
      ?_,by simp [headFields, pathFields, limitFields, BitField.field, Field.Apart, ads]⟩
    have hhop : (if path.hopLimit ≠ 0 then path.hopLimit.toNat else 64) < 2 ^ 8 := by
      split
      · exact path.hopLimit.isLt
      · decide
    have hclass : path.trafficClass.toNat >>> 2 < 2 ^ 6 := by
      rw [Nat.shiftRight_eq_div_pow]
      have hlt := path.trafficClass.isLt
      omega
    have hlog : mlxLog2PowerOfTwo maxDestRdAtomic < 2 ^ 3 := by
      by_cases hz : maxDestRdAtomic = 0
      · rw [hz]
        decide
      · exact (log2_powerOfTwo hrd hz).2
    simp only [headFields, pathFields, limitFields, List.cons_append, List.nil_append, List.forall_mem_cons, List.not_mem_nil,
      false_implies, implies_true, and_true]
    exact ⟨by decide,by omega,by omega,by omega,BitVec.isLt _,by omega,hhop,hclass,BitVec.isLt _,by decide,BitVec.isLt _,
      hlog,by decide,by decide⟩
  have hscalar : Layout (headFields destQpn pathMtu rqPsn ++ pathFields path ++
      if maxDestRdAtomic ≠ 0 then limitFields maxDestRdAtomic else []) := by
    split
    · exact hall
    · exact hall.sublist (List.Sublist.append_left (List.nil_sublist _) _)
  have hfree : ∀ f ∈ headFields destQpn pathMtu rqPsn ++ pathFields path ++
      (if maxDestRdAtomic ≠ 0 then limitFields maxDestRdAtomic else []),
      (f.bitOffset + f.bitWidth ≤ 0x140 ∨ 0x1c0 ≤ f.bitOffset) ∧
        (f.bitOffset + f.bitWidth ≤ 0x1f0 ∨ 0x220 ≤ f.bitOffset) := by
    split <;> simp [headFields, pathFields, limitFields, ads]
  have hdgid : ∀ f ∈ bytesAt (ads + 0x80) path.dgid.val, 0x140 ≤ f.bitOffset ∧ f.bitOffset + f.bitWidth ≤ 0x1c0 := by
    intro f hf
    have hrange := bytesAt_range hf
    rwa [path.dgid.property] at hrange
  have hdmac : ∀ f ∈ bytesAt (ads + 0x130) path.dmac.val, 0x1f0 ≤ f.bitOffset ∧ f.bitOffset + f.bitWidth ≤ 0x220 := by
    intro f hf
    have hrange := bytesAt_range hf
    rwa [path.dmac.property] at hrange
  refine (hscalar.append (bytesAt_layout _ _) (fun f hf => (hfree f hf).1) hdgid).append (bytesAt_layout _ _)
    (fun f hf => ?_) hdmac
  rcases List.mem_append.mp hf with hf | hf
  · exact (hfree f hf).2
  · have hrange := hdgid f hf
    omega

theorem rtrFields_end {f : BitField} (hf : f ∈ rtrFields path destQpn pathMtu rqPsn maxDestRdAtomic) :
    f.bitOffset + f.bitWidth ≤ 8 * qpcBytes := by
  have hscalar : ∀ f ∈ headFields destQpn pathMtu rqPsn ++ pathFields path ++
      (if maxDestRdAtomic ≠ 0 then limitFields maxDestRdAtomic else []), f.bitOffset + f.bitWidth ≤ 8 * qpcBytes := by
    split <;> simp [headFields, pathFields, limitFields, ads, qpcBytes]
  rcases List.mem_append.mp hf with hf | hf
  · rcases List.mem_append.mp hf with hf | hf
    · exact hscalar f hf
    · have hrange := bytesAt_range hf
      rw [path.dgid.property] at hrange
      exact hrange.2.trans (by decide)
  · have hrange := bytesAt_range hf
    rw [path.dmac.property] at hrange
    exact hrange.2.trans (by decide)

theorem init2Rtr_image (h : Hw.mlxEncodeInit2RtrQpc path destQpn pathMtu rqPsn maxDestRdAtomic = some e) (before : Buffer) :
    Init2RtrImage path destQpn pathMtu rqPsn maxDestRdAtomic (setFields e.fields before) ∧
      Frame e.fields qpcBytes before (setFields e.fields before) := by
  obtain ⟨hbounds,hrd,hperm⟩ := init2Rtr_fields h
  have hlayout := (rtrFields_layout hbounds hrd).perm hperm
  have hread : ∀ {bitOffset bitWidth value : ℕ},
      ⟨bitOffset,bitWidth,value⟩ ∈ rtrFields path destQpn pathMtu rqPsn maxDestRdAtomic →
      mlxGetBits (setFields e.fields before) bitOffset bitWidth = BitVec.ofNat 64 value :=
    fun hf => hlayout.read (hperm.mem_iff.mp hf) before
  have hat : ∀ (i : ℕ) {bitOffset bitWidth value : ℕ},
      (headFields destQpn pathMtu rqPsn ++ pathFields path)[i]? = some ⟨bitOffset,bitWidth,value⟩ →
      mlxGetBits (setFields e.fields before) bitOffset bitWidth = BitVec.ofNat 64 value := by
    intro i _ _ _ hi
    exact hread (List.mem_append_left _ (List.mem_append_left _ (List.mem_append_left _ (List.mem_of_getElem? hi))))
  have hdgid : ∀ i, i < 16 → mlxGetBits (setFields e.fields before) (ads + 0x80 + 8 * i) 8 =
      (path.dgid.val.getD i 0).setWidth 64 := by
    intro i hi
    have hi' : i < path.dgid.val.length := hi.trans_eq path.dgid.property.symm
    rw [hread (List.mem_append_left _ (List.mem_append_right _ (bytesAt_mem hi'))), BitVec.ofNat_toNat,
      List.getD_eq_getElem _ _ hi']
    rfl
  have hdmac : ∀ i, i < 6 → mlxGetBits (setFields e.fields before) (ads + 0x130 + 8 * i) 8 =
      (path.dmac.val.getD i 0).setWidth 64 := by
    intro i hi
    have hi' : i < path.dmac.val.length := hi.trans_eq path.dmac.property.symm
    rw [hread (List.mem_append_right _ (bytesAt_mem hi')), BitVec.ofNat_toNat, List.getD_eq_getElem _ _ hi']
    rfl
  refine ⟨⟨(hat 1 rfl).trans (BitVec.ofNat_toNat _ _),(hat 2 rfl).trans (BitVec.ofNat_toNat _ _),
    (hat 3 rfl).trans (BitVec.ofNat_toNat _ _),(hat 4 rfl).trans (BitVec.ofNat_toNat _ _),
    (hat 5 rfl).trans (BitVec.ofNat_toNat _ _),(hat 6 rfl).trans ?_,(hat 7 rfl).trans ?_,
    (hat 8 rfl).trans (BitVec.ofNat_toNat _ _),(hat 10 rfl).trans (BitVec.ofNat_toNat _ _),hdgid,hdmac,fun hsome => ?_⟩,
    hlayout.frame (fun f hf => ?_) before⟩
  · by_cases hhop : path.hopLimit = 0
    · rw [if_pos hhop, if_neg (not_not.mpr hhop)]
      rfl
    · rw [if_neg hhop, if_pos hhop, BitVec.ofNat_toNat]
  · rw [← BitVec.toNat_ushiftRight, BitVec.ofNat_toNat]
  · have hlog := log2_powerOfTwo hrd hsome
    have hmem : (⟨0x488,3,mlxLog2PowerOfTwo maxDestRdAtomic⟩ : BitField) ∈
        rtrFields path destQpn pathMtu rqPsn maxDestRdAtomic := by
      unfold rtrFields
      rw [if_pos hsome]
      exact List.mem_append_left _ (List.mem_append_left _ (List.mem_append_right _ List.mem_cons_self))
    rw [hread hmem, BitVec.toNat_ofNat, Nat.mod_eq_of_lt (by omega), hlog.1]
  · exact rtrFields_end (hperm.mem_iff.mpr hf)

theorem rtr2Rts_image {sqPsn minRnrTimer maxRdAtomic : BitVec 32}
    (h : Hw.mlxEncodeRtr2RtsQpc sqPsn minRnrTimer maxRdAtomic = some e) (before : Buffer) :
    Rtr2RtsImage sqPsn minRnrTimer maxRdAtomic (setFields e.fields before) ∧
      Frame e.fields qpcBytes before (setFields e.fields before) := by
  unfold Hw.mlxEncodeRtr2RtsQpc at h
  split at h
  · cases h
  · rename_i hgood
    simp only [not_or] at hgood
    have hpsn : sqPsn.toNat < 2 ^ 24 := Nat.lt_succ_of_le (Nat.not_lt.mp hgood.1)
    have htimer : minRnrTimer.toNat < 2 ^ 5 := Nat.lt_succ_of_le (Nat.not_lt.mp hgood.2.1)
    have hrd : rdAtomicInvalid maxRdAtomic = false := Bool.eq_false_of_not_eq_true hgood.2.2
    by_cases hsome : maxRdAtomic ≠ 0
    · have hlog := log2_powerOfTwo hrd hsome
      rw [if_pos hsome] at h
      cases h
      have hlayout : Layout ([⟨0x08,8,0⟩,⟨0x3c8,24,sqPsn.toNat⟩,⟨0x4a3,5,minRnrTimer.toNat⟩] ++
          [⟨0x388,3,mlxLog2PowerOfTwo maxRdAtomic⟩]) := ⟨by simp,by simp; omega,by simp [BitField.field, Field.Apart]⟩
      refine ⟨⟨?_,?_,fun _ => ?_⟩,hlayout.frame (by simp [qpcBytes]) before⟩
      · exact (hlayout.read (List.mem_of_getElem? (i := 1) rfl) before).trans (BitVec.ofNat_toNat _ _)
      · exact (hlayout.read (List.mem_of_getElem? (i := 2) rfl) before).trans (BitVec.ofNat_toNat _ _)
      · have hread := hlayout.read (List.mem_of_getElem? (i := 3) rfl) before
        rw [hread, BitVec.toNat_ofNat, Nat.mod_eq_of_lt (by omega), hlog.1]
    · rw [if_neg hsome] at h
      cases h
      have hlayout : Layout [⟨0x08,8,0⟩,⟨0x3c8,24,sqPsn.toNat⟩,⟨0x4a3,5,minRnrTimer.toNat⟩] :=
        ⟨by simp,by simp; omega,by simp [BitField.field, Field.Apart]⟩
      refine ⟨⟨?_,?_,fun h => absurd h hsome⟩,hlayout.frame (by simp [qpcBytes]) before⟩
      · exact (hlayout.read (List.mem_of_getElem? (i := 1) rfl) before).trans (BitVec.ofNat_toNat _ _)
      · exact (hlayout.read (List.mem_of_getElem? (i := 2) rfl) before).trans (BitVec.ofNat_toNat _ _)

end

/-- The encoder refuses, or it leaves an image of the request and changes nothing but its fields. -/
def ReadsBack (qpcBuffer : Option Buffer) (encoded : Option Encoded) (Image : Buffer → Prop) (result : Outcome) : Prop :=
  result.1 = false ∨ ∃ before after e mask, qpcBuffer = some before ∧
    encoded = some e ∧ result = (true,some after,mask) ∧
    Image after ∧ Frame e.fields qpcBytes before after

theorem Writes.readsBack {encoded : Option Encoded} {Image : Buffer → Prop} {result : Outcome}
    (h : Writes qpcBuffer optParamMask encoded result)
    (himage : ∀ e before, encoded = some e → Image (setFields e.fields before) ∧
      Frame e.fields qpcBytes before (setFields e.fields before)) : ReadsBack qpcBuffer encoded Image result := by
  obtain ⟨before,e,hbuffer,he,hresult⟩ := h
  exact Or.inr ⟨before,_,e,_,hbuffer,he,hresult,himage e before he⟩

/-- For every buffer and all arguments of the three transitions. -/
theorem qpcEncoders_readBack (qpcBuffer : Option Buffer) (qpcSize : ℕ) (optParamMask : Option (BitVec 32)) :
    (∀ pkeyIndex portNum, ReadsBack qpcBuffer (Hw.mlxEncodeRst2InitQpc pkeyIndex portNum) (Rst2InitImage pkeyIndex portNum)
      (mlxEncodeRst2InitQpc qpcBuffer qpcSize pkeyIndex portNum optParamMask)) ∧
    (∀ path destQpn pathMtu rqPsn maxDestRdAtomic,
      (mlxEncodeInit2RtrQpc qpcBuffer qpcSize path destQpn pathMtu rqPsn maxDestRdAtomic optParamMask).1 = false ∨
      ∃ p, path = some p ∧ ReadsBack qpcBuffer (Hw.mlxEncodeInit2RtrQpc p destQpn pathMtu rqPsn maxDestRdAtomic)
        (Init2RtrImage p destQpn pathMtu rqPsn maxDestRdAtomic)
        (mlxEncodeInit2RtrQpc qpcBuffer qpcSize path destQpn pathMtu rqPsn maxDestRdAtomic optParamMask)) ∧
    (∀ sqPsn minRnrTimer maxRdAtomic, ReadsBack qpcBuffer (Hw.mlxEncodeRtr2RtsQpc sqPsn minRnrTimer maxRdAtomic)
      (Rtr2RtsImage sqPsn minRnrTimer maxRdAtomic)
      (mlxEncodeRtr2RtsQpc qpcBuffer qpcSize sqPsn minRnrTimer maxRdAtomic optParamMask)) := by
  refine ⟨fun pkeyIndex portNum => ?_,fun path destQpn pathMtu rqPsn maxDestRdAtomic => ?_,
    fun sqPsn minRnrTimer maxRdAtomic => ?_⟩
  · rcases rst2Init_cases pkeyIndex portNum with h | h
    · exact Or.inl h
    · exact h.readsBack (fun e before he => rst2Init_image he before)
  · rcases init2Rtr_cases path destQpn pathMtu rqPsn maxDestRdAtomic with h | ⟨p,hp,h⟩
    · exact Or.inl h
    · exact Or.inr ⟨p,hp,h.readsBack (fun e before he => init2Rtr_image he before)⟩
  · rcases rtr2Rts_cases sqPsn minRnrTimer maxRdAtomic with h | h
    · exact Or.inl h
    · exact h.readsBack (fun e before he => rtr2Rts_image he before)

end AppleMCX.Hw.Qpc
