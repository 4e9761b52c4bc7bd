import AppleMCX.Hw.P0Encoding

/-! # The CREATE_MKEY image

`mlxEncodeCreateMkey` with the buffer it writes to: every refusal comes before the first write,
and what is written are disjoint fields inside the size it reports.
-/
namespace AppleMCX.Hw
open Interaction

def mlxMrAccessLocalWrite : BitVec 32 := 1 <<< 0
def mlxMrAccessRemoteWrite : BitVec 32 := 1 <<< 1
def mlxMrAccessRemoteRead : BitVec 32 := 1 <<< 2
def mlxMrAccessRemoteAtomic : BitVec 32 := 1 <<< 3
def mlxMrAccessSupported : BitVec 32 := 1 <<< 4 - 1
/-- `MLX_CREATE_MKEY_MKC_BIT_OFFSET` -/
def mkc : ℕ := 0x80
def mlxCreateMkeyMaxPages : BitVec 32 := 480

def mlxMttOctwordCount (pageCount : BitVec 32) : BitVec 32 := (pageCount + 1) / 2

def mlxCreateMkeyInputSize (pageCount : BitVec 32) : BitVec 32 := 272 + mlxMttOctwordCount pageCount * 16

/-- `!!(flags & flag)` -/
def hasFlag (flags flag : BitVec 32) : ℕ := if flags &&& flag ≠ 0 then 1 else 0

/-- The numbers that `mlxEncodeCreateMkey` gets. -/
structure MkeyRequest where
  pageCount : BitVec 32
  startAddress : BitVec 64
  length : BitVec 64
  accessFlags : BitVec 32
  pd : BitVec 32
  keyVariant : BitVec 8
  deriving DecidableEq, Repr

/-- The fields in front of the pages, in the order in which they are written. -/
def mkeyFields (r : MkeyRequest) : List BitField :=
  let xltOctwords := (mlxMttOctwordCount r.pageCount).toNat
  [⟨mkc + 0x11,1,hasFlag r.accessFlags mlxMrAccessRemoteAtomic⟩,
    ⟨mkc + 0x12,1,hasFlag r.accessFlags mlxMrAccessRemoteWrite⟩,
    ⟨mkc + 0x13,1,hasFlag r.accessFlags mlxMrAccessRemoteRead⟩,⟨mkc + 0x14,1,hasFlag r.accessFlags mlxMrAccessLocalWrite⟩,
    ⟨mkc + 0x15,1,1⟩,⟨mkc + 0x16,2,1⟩,⟨mkc + 0x10,1,1⟩,⟨mkc + 0x20,24,0xffffff⟩,
    ⟨mkc + 0x38,8,r.keyVariant.toNat⟩,
    ⟨mkc + 0x60,1,1⟩,⟨mkc + 0x68,24,r.pd.toNat⟩,⟨mkc + 0x80,64,r.startAddress.toNat⟩,
    ⟨mkc + 0xc0,64,r.length.toNat⟩,
    ⟨mkc + 0x1a0,32,xltOctwords⟩,⟨mkc + 0x1db,5,12⟩,⟨0x300,32,xltOctwords⟩]

def createMkeyFields (r : MkeyRequest) (pages : ℕ → BitVec 64) : List BitField :=
  mkeyFields r ++ pageFields 0x880 pages r.pageCount.toNat

/-- The result, the buffer and `*inputSize`; `none` is a null pointer. -/
def mlxEncodeCreateMkey (input : Option Buffer) (capacity : ℕ) (pages : Option (ℕ → BitVec 64)) (r : MkeyRequest)
    (inputSize : Option (BitVec 32)) : Bool × Option Buffer × Option (BitVec 32) :=
  if r.pageCount > mlxCreateMkeyMaxPages then (false,input,inputSize)
  else
    let expectedPages := mlxMttPageCount r.startAddress.toNat r.length.toNat
    let size := mlxCreateMkeyInputSize r.pageCount
    match input, pages with
    | some buffer, some pages =>
      if r.pageCount = 0 ∨ r.length = 0 ∨ r.keyVariant = 0 ∨ r.accessFlags &&& ~~~mlxMrAccessSupported ≠ 0 ∨
          r.pd > 0xffffff ∨ expectedPages ≠ r.pageCount.toNat ∨ size.toNat > capacity then (false,input,inputSize)
      else if (List.range r.pageCount.toNat).any (fun i => pages i &&& 0xfff ≠ 0) then (false,input,inputSize)
      else (true,some (setFields (createMkeyFields r pages) buffer),inputSize.map (fun _ => size))
    | _, _ => (false,input,inputSize)

/-- What `mlxEncodeCreateMkey` insists on. -/
structure MkeyRequest.Encodes (r : MkeyRequest) (pages : ℕ → BitVec 64) : Prop where
  pageCount : r.pageCount.toNat = mlxMttPageCount r.startAddress.toNat r.length.toNat
  positive : 1 ≤ r.pageCount.toNat
  max : r.pageCount.toNat ≤ 480
  aligned : ∀ i, i < r.pageCount.toNat → 4096 ∣ (pages i).toNat
  accessFlags : r.accessFlags.toNat ≤ 0xf
  pd : r.pd.toNat ≤ 0xffffff
  keyVariant : r.keyVariant ≠ 0

def MkeyRequest.bytes (r : MkeyRequest) : ℕ := 272 + 16 * ((r.pageCount.toNat + 1) / 2)

/-- What stands in the buffer afterwards. -/
structure MkeyRequest.Image (r : MkeyRequest) (pages : ℕ → BitVec 64) (before after : Buffer) : Prop where
  remoteAtomic : mlxGetBits after (mkc + 0x11) 1 = if r.accessFlags &&& mlxMrAccessRemoteAtomic ≠ 0 then 1 else 0
  remoteWrite : mlxGetBits after (mkc + 0x12) 1 = if r.accessFlags &&& mlxMrAccessRemoteWrite ≠ 0 then 1 else 0
  remoteRead : mlxGetBits after (mkc + 0x13) 1 = if r.accessFlags &&& mlxMrAccessRemoteRead ≠ 0 then 1 else 0
  localWrite : mlxGetBits after (mkc + 0x14) 1 = if r.accessFlags &&& mlxMrAccessLocalWrite ≠ 0 then 1 else 0
  pd : mlxGetBits after (mkc + 0x68) 24 = r.pd.setWidth 64
  keyVariant : mlxGetBits after (mkc + 0x38) 8 = r.keyVariant.setWidth 64
  startAddress : mlxGetBits after (mkc + 0x80) 64 = r.startAddress
  length : mlxGetBits after (mkc + 0xc0) 64 = r.length
  xltOctwords : mlxGetBits after (mkc + 0x1a0) 32 = BitVec.ofNat 64 ((r.pageCount.toNat + 1) / 2)
  actualXltOctwords : mlxGetBits after 0x300 32 = BitVec.ofNat 64 ((r.pageCount.toNat + 1) / 2)
  page : ∀ i, i < r.pageCount.toNat → mlxGetBits after (0x880 + 64 * i) 64 = pages i
  frame : Frame (createMkeyFields r pages) r.bytes before after

variable {r : MkeyRequest} {pages : ℕ → BitVec 64}

theorem hasFlag_lt (flags flag : BitVec 32) : hasFlag flags flag < 2 ^ 1 := by
  unfold hasFlag
  split <;> decide

theorem ofNat_hasFlag (flags flag : BitVec 32) :
    BitVec.ofNat 64 (hasFlag flags flag) = if flags &&& flag ≠ 0 then 1 else 0 := by
  unfold hasFlag
  split <;> rfl

theorem mkeyFields_end {f : BitField} (hf : f ∈ mkeyFields r) : f.bitOffset + f.bitWidth ≤ 0x880 := by
  simp only [mkeyFields, List.mem_cons, List.not_mem_nil, or_false] at hf
  rcases hf with rfl | rfl | rfl | rfl | rfl | rfl | rfl | rfl | rfl | rfl | rfl | rfl | rfl | rfl | rfl | rfl <;>
    exact of_decide_eq_true rfl

theorem mkeyFields_layout (hpd : r.pd.toNat ≤ 0xffffff) : Layout (mkeyFields r) where
  width := by simp [mkeyFields]
  fits := by
    have hpd' : r.pd.toNat < 2 ^ 24 := Nat.lt_succ_of_le hpd
    simp only [mkeyFields, List.forall_mem_cons, List.not_mem_nil, false_implies, implies_true, and_true]
    exact ⟨hasFlag_lt _ _,hasFlag_lt _ _,hasFlag_lt _ _,hasFlag_lt _ _,by decide,by decide,by decide,by decide,
      r.keyVariant.isLt,by decide,hpd',r.startAddress.isLt,r.length.isLt,BitVec.isLt _,by decide,BitVec.isLt _⟩
  apart := by simp [mkeyFields, BitField.field, Field.Apart, mkc]

/-- Whatever the number of pages, no two fields overlap. -/
theorem createMkeyFields_layout (hpd : r.pd.toNat ≤ 0xffffff) (pages : ℕ → BitVec 64) :
    Layout (createMkeyFields r pages) := by
  exact (mkeyFields_layout hpd).append (pageFields_layout _ _ _) (fun f hf => Or.inl (mkeyFields_end hf))
    (fun _ hf => pageFields_range hf)

theorem mlxMttOctwordCount_toNat (h : r.pageCount.toNat ≤ 480) :
    (mlxMttOctwordCount r.pageCount).toNat = (r.pageCount.toNat + 1) / 2 := by
  have hadd : (r.pageCount + 1).toNat = r.pageCount.toNat + 1 := by
    rw [BitVec.toNat_add]
    exact Nat.mod_eq_of_lt (by show r.pageCount.toNat + 1 < 2 ^ 32; omega)
  rw [mlxMttOctwordCount, BitVec.toNat_udiv, hadd]
  rfl

theorem mlxCreateMkeyInputSize_toNat (h : r.pageCount.toNat ≤ 480) :
    (mlxCreateMkeyInputSize r.pageCount).toNat = r.bytes := by
  rw [mlxCreateMkeyInputSize, BitVec.toNat_add, BitVec.toNat_mul, mlxMttOctwordCount_toNat h, MkeyRequest.bytes]
  show (272 + (r.pageCount.toNat + 1) / 2 * 16 % 2 ^ 32) % 2 ^ 32 = _
  omega

theorem page_aligned (page : BitVec 64) : page &&& 0xfff = 0 ↔ 4096 ∣ page.toNat := by
  rw [← BitVec.toNat_inj, BitVec.toNat_and, Nat.dvd_iff_mod_eq_zero]
  exact iff_of_eq (congrArg (· = 0) (Nat.and_two_pow_sub_one_eq_mod page.toNat 12))

theorem supported_iff (flags : BitVec 32) : flags &&& ~~~mlxMrAccessSupported = 0 ↔ flags.toNat ≤ 0xf := by
  have hmask : ∀ i, i < 32 → (~~~mlxMrAccessSupported).getLsbD i = decide (4 ≤ i) := by decide
  constructor
  · intro h
    refine Nat.le_of_lt_succ (Nat.lt_pow_two_of_testBit (n := 4) _ (fun i hi => ?_))
    have hbit := congrArg (fun x => x.getLsbD i) h
    rw [BitVec.testBit_toNat]
    by_cases hi' : i < 32
    · simpa [hmask i hi', hi] using hbit
    · exact BitVec.getLsbD_of_ge _ _ (by omega)
  · intro h
    apply BitVec.eq_of_getLsbD_eq
    intro i hi
    rw [BitVec.getLsbD_and, hmask i hi]
    by_cases hlow : 4 ≤ i
    · have hlt : flags.toNat < 2 ^ i := lt_of_lt_of_le (by omega : flags.toNat < 2 ^ 4) (Nat.pow_le_pow_right (by decide) hlow)
      rw [← BitVec.testBit_toNat, Nat.testBit_lt_two_pow hlt]
      simp
    · simp [hlow]

theorem MkeyRequest.Encodes.image (h : r.Encodes pages) (before : Buffer) :
    r.Image pages before (setFields (createMkeyFields r pages) before) := by
  have hlayout := createMkeyFields_layout h.pd pages
  have hread : ∀ {bitOffset bitWidth value : ℕ}, ⟨bitOffset,bitWidth,value⟩ ∈ mkeyFields r →
      mlxGetBits (setFields (createMkeyFields r pages) before) bitOffset bitWidth = BitVec.ofNat 64 value :=
    fun hf => hlayout.read (List.mem_append_left _ hf) before
  have hflag : ∀ {offset : ℕ} {flag : BitVec 32}, ⟨offset,1,hasFlag r.accessFlags flag⟩ ∈ mkeyFields r →
      mlxGetBits (setFields (createMkeyFields r pages) before) offset 1 = if r.accessFlags &&& flag ≠ 0 then 1 else 0 :=
    fun hf => (hread hf).trans (ofNat_hasFlag _ _)
  have hxlt : ∀ {offset : ℕ}, ⟨offset,32,(mlxMttOctwordCount r.pageCount).toNat⟩ ∈ mkeyFields r →
      mlxGetBits (setFields (createMkeyFields r pages) before) offset 32 = BitVec.ofNat 64 ((r.pageCount.toNat + 1) / 2) := by
    intro offset hf
    rw [← mlxMttOctwordCount_toNat h.max]
    exact hread hf
  have hat : ∀ (i : ℕ) {f : BitField}, (mkeyFields r)[i]? = some f → f ∈ mkeyFields r := fun _ _ => List.mem_of_getElem?
  refine ⟨hflag (hat 0 rfl),hflag (hat 1 rfl),hflag (hat 2 rfl),hflag (hat 3 rfl),?_,?_,?_,?_,hxlt (hat 13 rfl),
    hxlt (hat 15 rfl),fun i hi => ?_,hlayout.frame (fun f hf => ?_) before⟩
  · exact (hread (hat 10 rfl)).trans (BitVec.ofNat_toNat _ _)
  · exact (hread (hat 8 rfl)).trans (BitVec.ofNat_toNat _ _)
  · exact (hread (hat 11 rfl)).trans (by rw [BitVec.ofNat_toNat, BitVec.setWidth_eq])
  · exact (hread (hat 12 rfl)).trans (by rw [BitVec.ofNat_toNat, BitVec.setWidth_eq])
  · have hpage : (⟨0x880 + i * 64,64,(pages i).toNat⟩ : BitField) ∈ pageFields 0x880 pages r.pageCount.toNat :=
      List.mem_map_of_mem (List.mem_range.mpr hi)
    rw [Nat.mul_comm, hlayout.read (List.mem_append_right _ hpage), BitVec.ofNat_toNat, BitVec.setWidth_eq]
  · unfold MkeyRequest.bytes
    rcases List.mem_append.mp hf with hf | hf
    · have hend := mkeyFields_end hf
      omega
    · have hrange := pageFields_range hf
      omega

/-- For every buffer, page array and request: either nothing is touched, or the image is complete,
inside the reported size, and nothing else has changed. -/
theorem mlxEncodeCreateMkey_spec (input : Option Buffer) (capacity : ℕ) (pages : Option (ℕ → BitVec 64)) (r : MkeyRequest)
    (inputSize : Option (BitVec 32)) :
    mlxEncodeCreateMkey input capacity pages r inputSize = (false,input,inputSize) ∨
    ∃ before after page, input = some before ∧ pages = some page ∧ r.bytes ≤ capacity ∧ r.Encodes page ∧
      r.Image page before after ∧ mlxEncodeCreateMkey input capacity pages r inputSize =
        (true,some after,inputSize.map (fun _ => BitVec.ofNat 32 r.bytes)) := by
  unfold mlxEncodeCreateMkey
  by_cases hmax : r.pageCount > mlxCreateMkeyMaxPages
  · exact Or.inl (if_pos hmax)
  have hle : r.pageCount.toNat ≤ 480 := Nat.not_lt.mp hmax
  have hbytes := mlxCreateMkeyInputSize_toNat hle
  rw [if_neg hmax]
  cases input with
  | none => exact Or.inl rfl
  | some before =>
    cases pages with
    | none => exact Or.inl rfl
    | some page =>
      dsimp only
      by_cases hbad : r.pageCount = 0 ∨ r.length = 0 ∨ r.keyVariant = 0 ∨
        r.accessFlags &&& ~~~mlxMrAccessSupported ≠ 0 ∨
          r.pd > 0xffffff ∨ mlxMttPageCount r.startAddress.toNat r.length.toNat ≠ r.pageCount.toNat ∨
          (mlxCreateMkeyInputSize r.pageCount).toNat > capacity
      · exact Or.inl (if_pos hbad)
      rw [if_neg hbad]
      by_cases halign : (List.range r.pageCount.toNat).any (fun i => page i &&& 0xfff ≠ 0) = true
      · exact Or.inl (if_pos halign)
      rw [if_neg halign]
      simp only [not_or, ne_eq, not_not] at hbad
      obtain ⟨hcount,_,hvariant,hflags,hpd,hexpected,hsize⟩ := hbad
      have haccepted : r.Encodes page := by
        refine ⟨hexpected.symm,?_,hle,fun i hi => ?_,(supported_iff _).mp hflags,Nat.not_lt.mp hpd,hvariant⟩
        · refine Nat.pos_of_ne_zero (fun h => hcount (BitVec.eq_of_toNat_eq h))
        · by_contra hi'
          refine halign (List.any_eq_true.mpr ⟨i,List.mem_range.mpr hi,decide_eq_true (fun h => hi' ((page_aligned _).mp h))⟩)
      refine Or.inr ⟨before,_,page,rfl,rfl,?_,haccepted,haccepted.image before,?_⟩
      · rw [← hbytes]
        exact Nat.not_lt.mp hsize
      · rw [← hbytes, BitVec.ofNat_toNat, BitVec.setWidth_eq]

end AppleMCX.Hw
