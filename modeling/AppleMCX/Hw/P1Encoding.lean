import AppleMCX.Hw.IfcHelpers

/-! # Capability pages and MANAGE_PAGES

The parts of `MlxP1Encoding.hpp` that read the general capabilities and encode the page commands.
-/
namespace AppleMCX.Hw
open Interaction

/-! ## General capabilities -/

structure MlxP1GeneralCaps where
  logMaxQp : BitVec 8
  logMaxCq : BitVec 8
  logMaxMkey : BitVec 8
  portType : BitVec 8
  numPorts : BitVec 8
  logBfRegSize : BitVec 8
  gidTableEncoding : BitVec 8
  pkeyTableEncoding : BitVec 8
  roce : Bool
  roceRwSupported : Bool
  uar4k : Bool
  bf : Bool
  nicFlowTable : Bool
  ethNetOffloads : Bool
  deriving DecidableEq, Repr

def mlxP1HcaCapBytes : ℕ := 4096

/-- The result and `*out`; `none` is a null pointer. -/
def mlxP1ParseGeneralCaps (cap : Option Buffer) (length : ℕ) (out : Option MlxP1GeneralCaps) :
    Bool × Option MlxP1GeneralCaps :=
  match cap, out with
  | some cap, some _ =>
    if length < mlxP1HcaCapBytes then (false,out)
    else
      (true,some
        { logMaxQp := (mlxGetBits cap 0x9b 5).setWidth 8
          logMaxCq := (mlxGetBits cap 0xdb 5).setWidth 8
          logMaxMkey := (mlxGetBits cap 0xea 6).setWidth 8
          gidTableEncoding := (mlxGetBits cap 0x170 16).setWidth 8
          pkeyTableEncoding := (mlxGetBits cap 0x190 16).setWidth 8
          nicFlowTable := mlxGetBits cap 0x1a6 1 ≠ 0
          portType := (mlxGetBits cap 0x1b6 2).setWidth 8
          numPorts := (mlxGetBits cap 0x1b8 8).setWidth 8
          ethNetOffloads := mlxGetBits cap 0x21b 1 ≠ 0
          roce := mlxGetBits cap 0x21c 1 ≠ 0
          uar4k := mlxGetBits cap 0x240 1 ≠ 0
          bf := mlxGetBits cap 0x260 1 ≠ 0
          logBfRegSize := (mlxGetBits cap 0x26b 5).setWidth 8
          roceRwSupported := mlxGetBits cap 0x3a1 1 ≠ 0 })
  | _, _ => (false,out)

def mlxP1GidTableSize (encoding : BitVec 16) : BitVec 32 := if encoding ≤ 4 then 8#32 <<< encoding.toNat else 0

def mlxP1PkeyTableSize (encoding : BitVec 16) : BitVec 32 := if encoding ≤ 5 then 128#32 <<< encoding.toNat else 0

/-- Every field is the whole value of its bit field, and the table sizes are those of the encodings in the page. -/
structure MlxP1GeneralCaps.Lossless (cap : Buffer) (out : MlxP1GeneralCaps) : Prop where
  logMaxQp : out.logMaxQp.setWidth 64 = mlxGetBits cap 0x9b 5
  logMaxCq : out.logMaxCq.setWidth 64 = mlxGetBits cap 0xdb 5
  logMaxMkey : out.logMaxMkey.setWidth 64 = mlxGetBits cap 0xea 6
  gidTableEncoding : out.gidTableEncoding.setWidth 64 = mlxGetBits cap 0x170 16
  pkeyTableEncoding : out.pkeyTableEncoding.setWidth 64 = mlxGetBits cap 0x190 16
  nicFlowTable : (BitVec.ofBool out.nicFlowTable).setWidth 64 = mlxGetBits cap 0x1a6 1
  portType : out.portType.setWidth 64 = mlxGetBits cap 0x1b6 2
  numPorts : out.numPorts.setWidth 64 = mlxGetBits cap 0x1b8 8
  ethNetOffloads : (BitVec.ofBool out.ethNetOffloads).setWidth 64 = mlxGetBits cap 0x21b 1
  roce : (BitVec.ofBool out.roce).setWidth 64 = mlxGetBits cap 0x21c 1
  uar4k : (BitVec.ofBool out.uar4k).setWidth 64 = mlxGetBits cap 0x240 1
  bf : (BitVec.ofBool out.bf).setWidth 64 = mlxGetBits cap 0x260 1
  logBfRegSize : out.logBfRegSize.setWidth 64 = mlxGetBits cap 0x26b 5
  roceRwSupported : (BitVec.ofBool out.roceRwSupported).setWidth 64 = mlxGetBits cap 0x3a1 1
  gidTableSize : mlxP1GidTableSize (out.gidTableEncoding.setWidth 16) = mlxP1GidTableSize ((mlxGetBits cap 0x170 16).setWidth 16)
  pkeyTableSize : mlxP1PkeyTableSize (out.pkeyTableEncoding.setWidth 16) =
    mlxP1PkeyTableSize ((mlxGetBits cap 0x190 16).setWidth 16)
  gidUnsupported : mlxGetBits cap 0x170 16 > 4 → mlxP1GidTableSize (out.gidTableEncoding.setWidth 16) = 0
  pkeyUnsupported : mlxGetBits cap 0x190 16 > 5 → mlxP1PkeyTableSize (out.pkeyTableEncoding.setWidth 16) = 0

theorem mlxGetBits_lt (bytes : Buffer) (bitOffset : ℕ) {bitWidth : ℕ} (h : bitWidth ≤ 64) :
    (mlxGetBits bytes bitOffset bitWidth).toNat < 2 ^ bitWidth := by
  have hlt := getField_lt bitOffset bitWidth bytes
  have hpow : 2 ^ bitWidth ≤ 2 ^ 64 := Nat.pow_le_pow_right (by decide) h
  rw [mlxGetBits_eq, BitVec.toNat_ofNat, Nat.mod_eq_of_lt (lt_of_lt_of_le hlt hpow)]
  exact hlt

/-- Nothing is lost where the value fits. -/
theorem narrow_eq_iff (x : BitVec 64) : (x.setWidth 8).setWidth 64 = x ↔ x.toNat < 256 := by
  rw [← BitVec.toNat_inj, BitVec.toNat_setWidth, BitVec.toNat_setWidth]
  have hlt := x.isLt
  omega

theorem narrow_field (bytes : Buffer) (bitOffset : ℕ) {bitWidth : ℕ} (h : bitWidth ≤ 8) :
    ((mlxGetBits bytes bitOffset bitWidth).setWidth 8).setWidth 64 = mlxGetBits bytes bitOffset bitWidth :=
  (narrow_eq_iff _).mpr (lt_of_lt_of_le (mlxGetBits_lt bytes bitOffset (h.trans (by decide)))
    (Nat.pow_le_pow_right (by decide) h))

theorem flag_field (bytes : Buffer) (bitOffset : ℕ) :
    (BitVec.ofBool (decide (mlxGetBits bytes bitOffset 1 ≠ 0))).setWidth 64 = mlxGetBits bytes bitOffset 1 := by
  have hlt := mlxGetBits_lt bytes bitOffset (by decide : 1 ≤ 64)
  have hcases : mlxGetBits bytes bitOffset 1 = 0 ∨ mlxGetBits bytes bitOffset 1 = 1 := by
    rcases Nat.lt_succ_iff_lt_or_eq.mp hlt with h | h
    · exact Or.inl (BitVec.eq_of_toNat_eq (Nat.lt_one_iff.mp h))
    · exact Or.inr (BitVec.eq_of_toNat_eq h)
  rcases hcases with h | h <;> rw [h] <;> rfl

theorem mlxP1GidTableSize_unsupported {encoding : BitVec 16} (h : 4 < encoding.toNat) :
    mlxP1GidTableSize encoding = 0 :=
  if_neg (Nat.not_le.mpr h)

theorem mlxP1PkeyTableSize_unsupported {encoding : BitVec 16} (h : 5 < encoding.toNat) :
    mlxP1PkeyTableSize encoding = 0 :=
  if_neg (Nat.not_le.mpr h)

/-- The narrowed encoding stands for the whole one where it fits. -/
theorem narrow_encoding {x : BitVec 64} (h : x.toNat < 256) : (x.setWidth 8).setWidth 16 = x.setWidth 16 := by
  apply BitVec.eq_of_toNat_eq
  rw [BitVec.toNat_setWidth, BitVec.toNat_setWidth, BitVec.toNat_setWidth]
  omega

/-- For every capability page the parsed fields are those of the page exactly where both table
encodings fit the eight bits they are narrowed to. -/
theorem mlxP1ParseGeneralCaps_lossless_iff (cap : Buffer) (out : MlxP1GeneralCaps) :
    ∃ caps, mlxP1ParseGeneralCaps (some cap) mlxP1HcaCapBytes (some out) = (true,some caps) ∧
      (caps.Lossless cap ↔ (mlxGetBits cap 0x170 16).toNat < 256 ∧ (mlxGetBits cap 0x190 16).toNat < 256) := by
  refine ⟨_,rfl,?_⟩
  constructor
  · intro h
    exact ⟨(narrow_eq_iff _).mp h.gidTableEncoding,(narrow_eq_iff _).mp h.pkeyTableEncoding⟩
  · rintro ⟨hgid,hpkey⟩
    have hgidSize := narrow_encoding hgid
    have hpkeySize := narrow_encoding hpkey
    have hwhole : ∀ {x : BitVec 64}, x.toNat < 256 → ((x.setWidth 8).setWidth 16).toNat = x.toNat := by
      intro x hx
      rw [narrow_encoding hx, BitVec.toNat_setWidth, Nat.mod_eq_of_lt (by omega)]
    refine ⟨narrow_field _ _ (by decide),narrow_field _ _ (by decide),narrow_field _ _ (by decide),
      (narrow_eq_iff _).mpr hgid,(narrow_eq_iff _).mpr hpkey,flag_field _ _,narrow_field _ _ (by decide),
      narrow_field _ _ (by decide),flag_field _ _,flag_field _ _,flag_field _ _,flag_field _ _,
      narrow_field _ _ (by decide),flag_field _ _,congrArg mlxP1GidTableSize hgidSize,congrArg mlxP1PkeyTableSize hpkeySize,
      fun h => mlxP1GidTableSize_unsupported ?_,fun h => mlxP1PkeyTableSize_unsupported ?_⟩
    · exact lt_of_lt_of_eq h (hwhole hgid).symm
    · exact lt_of_lt_of_eq h (hwhole hpkey).symm

/-- A page whose GID and pkey table encodings are the unsupported 0x100. -/
def wideEncodings : Buffer := fun a => if a = 46 ∨ a = 50 then 1 else 0

/-- Both encodings are parsed as zero, so that both table sizes are plausible ones. -/
theorem mlxP1ParseGeneralCaps_wideEncodings : ∃ caps,
    mlxP1ParseGeneralCaps (some wideEncodings) mlxP1HcaCapBytes (some ⟨0,0,0,0,0,0,0,0,false,false,false,false,false,false⟩) =
      (true,some caps) ∧ mlxGetBits wideEncodings 0x170 16 = 0x100 ∧
      mlxP1GidTableSize (caps.gidTableEncoding.setWidth 16) = 8 ∧
      mlxGetBits wideEncodings 0x190 16 = 0x100 ∧ mlxP1PkeyTableSize (caps.pkeyTableEncoding.setWidth 16) = 128 ∧
      ¬ caps.Lossless wideEncodings := by
  refine ⟨_,rfl,by decide,by decide,by decide,by decide,fun h => ?_⟩
  have hzero := h.gidUnsupported (by decide)
  revert hzero
  decide

/-! ## MANAGE_PAGES -/

def mlxP1MaxManagePages : BitVec 32 := 512
def mlxP1PagesGive : BitVec 16 := 1
def mlxP1PagesTake : BitVec 16 := 2

def mlxP1ManagePagesSize (count : BitVec 32) : BitVec 32 := if count ≤ mlxP1MaxManagePages then 16 + count * 8 else 0

/-- `memset(in, 0, needed)` -/
def zeroed (needed : ℕ) (bytes : Buffer) : Buffer := fun a => if a < needed then 0 else bytes a

/-- The fields in the order in which they are written. -/
def managePagesFields (opMod functionId : BitVec 16) (embedded : Bool) (pages : Option (ℕ → BitVec 64)) (count : BitVec 32) :
    List BitField :=
  [⟨0x00,16,0x108⟩,⟨0x30,16,opMod.toNat⟩,⟨0x40,1,embedded.toNat⟩,⟨0x50,16,functionId.toNat⟩,
    ⟨0x60,32,count.toNat⟩] ++
    (if opMod = mlxP1PagesGive then pageFields 0x80 (pages.getD (fun _ => 0)) count.toNat else [])

/-- The result and the buffer; `none` is a null pointer. -/
def mlxP1EncodeManagePages (input : Option Buffer) (length : ℕ) (opMod functionId : BitVec 16) (embedded : Bool)
    (pages : Option (ℕ → BitVec 64)) (count : BitVec 32) : Bool × Option Buffer :=
  let needed := if opMod = mlxP1PagesGive then mlxP1ManagePagesSize count else 16
  match input with
  | none => (false,none)
  | some bytes =>
    if needed = 0 ∨ length < needed.toNat ∨ count > mlxP1MaxManagePages ∨ opMod > mlxP1PagesTake ∨
        (opMod = mlxP1PagesGive ∧ (pages.isNone ∨ count = 0)) then (false,input)
    else (true,some (setFields (managePagesFields opMod functionId embedded pages count) (zeroed needed.toNat bytes)))

/-- The size that the command needs. -/
def managePagesNeeded (opMod : BitVec 16) (count : BitVec 32) : ℕ :=
  if opMod = mlxP1PagesGive then 16 + 8 * count.toNat else 16

structure ManagePagesValid (input : Option Buffer) (length : ℕ) (opMod : BitVec 16) (pages : Option (ℕ → BitVec 64))
    (count : BitVec 32) : Prop where
  modifier : opMod.toNat ≤ 2
  max : count.toNat ≤ 512
  buffer : input.isSome ∧ managePagesNeeded opMod count ≤ length
  given : opMod = mlxP1PagesGive → pages.isSome ∧ count ≠ 0

structure ManagePagesImage (opMod functionId : BitVec 16) (embedded : Bool) (pages : Option (ℕ → BitVec 64))
    (count : BitVec 32) (before after : Buffer) : Prop where
  readOpcode : mlxGetBits after 0x00 16 = 0x108
  readOpMod : mlxGetBits after 0x30 16 = opMod.setWidth 64
  readEmbedded : mlxGetBits after 0x40 1 = if embedded then 1 else 0
  readFunctionId : mlxGetBits after 0x50 16 = functionId.setWidth 64
  readCount : mlxGetBits after 0x60 32 = count.setWidth 64
  readPage : opMod = mlxP1PagesGive → ∀ page, pages = some page → ∀ i, i < count.toNat →
    mlxGetBits after (0x80 + 64 * i) 64 = page i
  zero : ∀ k, k < 8 * managePagesNeeded opMod count →
    (∀ f ∈ managePagesFields opMod functionId embedded pages count, k < f.bitOffset ∨ f.bitOffset + f.bitWidth ≤ k) →
    bitAt after k = false
  beyond : ∀ a, managePagesNeeded opMod count ≤ a → after a = before a

variable {opMod functionId : BitVec 16} {embedded : Bool} {pages : Option (ℕ → BitVec 64)} {count : BitVec 32}

theorem managePagesFields_layout : Layout (managePagesFields opMod functionId embedded pages count) := by
  have hhead : Layout [⟨0x00,16,0x108⟩,⟨0x30,16,opMod.toNat⟩,⟨0x40,1,embedded.toNat⟩,
      ⟨0x50,16,functionId.toNat⟩,⟨0x60,32,count.toNat⟩] := by
    refine ⟨by simp,?_,by simp [BitField.field, Field.Apart]⟩
    simp only [List.forall_mem_cons, List.not_mem_nil, false_implies, implies_true, and_true]
    exact ⟨by decide,opMod.isLt,Bool.toNat_lt embedded,functionId.isLt,count.isLt⟩
  unfold managePagesFields
  split
  · refine hhead.append (pageFields_layout _ _ _) ?_ (fun _ hf => pageFields_range hf)
    simp
  · rw [List.append_nil]
    exact hhead

theorem managePagesFields_end {f : BitField} (hf : f ∈ managePagesFields opMod functionId embedded pages count) :
    f.bitOffset + f.bitWidth ≤ 8 * managePagesNeeded opMod count := by
  have hhead : ∀ f ∈ ([⟨0x00,16,0x108⟩,⟨0x30,16,opMod.toNat⟩,⟨0x40,1,embedded.toNat⟩,
      ⟨0x50,16,functionId.toNat⟩,⟨0x60,32,count.toNat⟩] : List BitField), f.bitOffset + f.bitWidth ≤ 0x80 := by simp
  unfold managePagesFields at hf
  unfold managePagesNeeded
  rcases List.mem_append.mp hf with hf | hf
  · have hend := hhead f hf
    split <;> omega
  · split at hf
    · rename_i hgive
      have hrange := pageFields_range hf
      rw [if_pos hgive]
      omega
    · cases hf

theorem managePages_image (before : Buffer) : ManagePagesImage opMod functionId embedded pages count before
    (setFields (managePagesFields opMod functionId embedded pages count) (zeroed (managePagesNeeded opMod count) before)) := by
  have hlayout : Layout (managePagesFields opMod functionId embedded pages count) := managePagesFields_layout
  have hframe := hlayout.frame (fun f hf => managePagesFields_end hf) (zeroed (managePagesNeeded opMod count) before)
  have hat : ∀ (i : ℕ) {bitOffset bitWidth value : ℕ}, (managePagesFields opMod functionId embedded pages count)[i]? =
      some ⟨bitOffset,bitWidth,value⟩ → mlxGetBits (setFields (managePagesFields opMod functionId embedded pages count)
        (zeroed (managePagesNeeded opMod count) before)) bitOffset bitWidth = BitVec.ofNat 64 value :=
    fun _ _ _ _ hi => hlayout.read (List.mem_of_getElem? hi) _
  refine ⟨hat 0 rfl,(hat 1 rfl).trans (BitVec.ofNat_toNat _ _),(hat 2 rfl).trans ?_,(hat 3 rfl).trans (BitVec.ofNat_toNat _ _),
    (hat 4 rfl).trans (BitVec.ofNat_toNat _ _),fun hgive page hpage i hi => ?_,fun k hk hout => ?_,fun a ha => ?_⟩
  · cases embedded <;> rfl
  · have hmem : (⟨0x80 + i * 64,64,(page i).toNat⟩ : BitField) ∈
        managePagesFields opMod functionId embedded pages count := by
      unfold managePagesFields
      rw [if_pos hgive, hpage]
      exact List.mem_append_right _ (List.mem_map_of_mem (List.mem_range.mpr hi))
    rw [Nat.mul_comm, hlayout.read hmem, BitVec.ofNat_toNat, BitVec.setWidth_eq]
  · rw [hframe.outside k hout, bitAt, zeroed, if_pos (by omega)]
    exact BitVec.getLsbD_zero
  · rw [hframe.beyond a ha, zeroed, if_neg (Nat.not_lt.mpr ha)]

theorem mlxP1ManagePagesSize_toNat (h : count.toNat ≤ 512) :
    (mlxP1ManagePagesSize count).toNat = 16 + 8 * count.toNat := by
  have hsize : mlxP1ManagePagesSize count = 16 + count * 8 := if_pos h
  rw [hsize, BitVec.toNat_add, BitVec.toNat_mul]
  show (16 + count.toNat * 8 % 2 ^ 32) % 2 ^ 32 = _
  omega

/-- The encoder accepts exactly the valid commands, and leaves the buffer alone otherwise. -/
theorem mlxP1EncodeManagePages_cases (input : Option Buffer) (length : ℕ) (opMod functionId : BitVec 16) (embedded : Bool)
    (pages : Option (ℕ → BitVec 64)) (count : BitVec 32) :
    (¬ ManagePagesValid input length opMod pages count ∧
      mlxP1EncodeManagePages input length opMod functionId embedded pages count = (false,input)) ∨
    (ManagePagesValid input length opMod pages count ∧ ∃ before after, input = some before ∧
      ManagePagesImage opMod functionId embedded pages count before after ∧
      mlxP1EncodeManagePages input length opMod functionId embedded pages count = (true,some after)) := by
  have hneeded : count.toNat ≤ 512 →
      (if opMod = mlxP1PagesGive then mlxP1ManagePagesSize count else 16).toNat = managePagesNeeded opMod count := by
    intro hmax
    unfold managePagesNeeded
    split
    · exact mlxP1ManagePagesSize_toNat hmax
    · rfl
  unfold mlxP1EncodeManagePages
  cases input with
  | none => exact Or.inl ⟨fun h => Bool.false_ne_true h.buffer.1,rfl⟩
  | some before =>
    dsimp only
    by_cases hvalid : ManagePagesValid (some before) length opMod pages count
    · have hsize := hneeded hvalid.max
      have hgood : ¬ ((if opMod = mlxP1PagesGive then mlxP1ManagePagesSize count else 16) = 0 ∨
          length < (if opMod = mlxP1PagesGive then mlxP1ManagePagesSize count else 16).toNat ∨ count > mlxP1MaxManagePages ∨
          opMod > mlxP1PagesTake ∨ (opMod = mlxP1PagesGive ∧ (pages.isNone ∨ count = 0))) := by
        have hsize' : managePagesNeeded opMod count ≥ 16 := by
          unfold managePagesNeeded
          split <;> omega
        simp only [not_or, not_and]
        refine ⟨fun hz => ?_,?_,Nat.not_lt.mpr hvalid.max,Nat.not_lt.mpr hvalid.modifier,fun hgive => ?_⟩
        · have hzero : managePagesNeeded opMod count = 0 := by
            rw [← hsize, hz]
            rfl
          omega
        · rw [hsize]
          exact Nat.not_lt.mpr hvalid.buffer.2
        · obtain ⟨hpages,hcount⟩ := hvalid.given hgive
          obtain ⟨page,rfl⟩ := Option.isSome_iff_exists.mp hpages
          exact ⟨Bool.false_ne_true,hcount⟩
      rw [if_neg hgood, hsize]
      exact Or.inr ⟨hvalid,before,_,rfl,managePages_image before,rfl⟩
    · refine Or.inl ⟨hvalid,if_pos ?_⟩
      by_contra hgood
      simp only [not_or, not_and] at hgood
      obtain ⟨_,hlength,hmax,hmod,hgiven⟩ := hgood
      have hmax' : count.toNat ≤ 512 := Nat.not_lt.mp hmax
      rw [hneeded hmax'] at hlength
      refine hvalid ⟨Nat.not_lt.mp hmod,hmax',⟨rfl,Nat.not_lt.mp hlength⟩,fun hgive => ⟨?_,(hgiven hgive).2⟩⟩
      rw [← Option.not_isNone]
      exact Bool.not_eq_true' _ ▸ Bool.eq_false_of_not_eq_true (hgiven hgive).1

/-! ## Capability queries -/

/-- `MlxP1CapType` -/
def mlxP1CapGeneral : BitVec 16 := 0
def mlxP1CapEthernetOffloads : BitVec 16 := 1
def mlxP1CapRoce : BitVec 16 := 4
def mlxP1CapFlowTable : BitVec 16 := 7

/-- `MlxP1CapMode` -/
def mlxP1CapMax : BitVec 16 := 0
def mlxP1CapCurrent : BitVec 16 := 1

def mlxP1HcaCapOpMod (type mode : BitVec 16) : BitVec 16 := type <<< 1 ||| mode &&& 1

def queryHcaCapFields (type mode : BitVec 16) : List BitField :=
  [⟨0x00,16,0x100⟩,⟨0x30,16,(mlxP1HcaCapOpMod type mode).toNat⟩]

def mlxP1EncodeQueryHcaCap (input : Option Buffer) (length : ℕ) (type mode : BitVec 16) : Bool × Option Buffer :=
  match input with
  | none => (false,none)
  | some bytes =>
    if length < 16 then (false,input)
    else (true,some (setFields (queryHcaCapFields type mode) (zeroed 16 bytes)))

/-- The firmware finds the modifier that was asked for. -/
theorem mlxP1EncodeQueryHcaCap_opMod (type mode : BitVec 16) (bytes : Buffer) :
    mlxGetBits (setFields (queryHcaCapFields type mode) (zeroed 16 bytes))
      0x30 16 = (mlxP1HcaCapOpMod type mode).setWidth 64 := by
  have hlayout : Layout (queryHcaCapFields type mode) := by
    refine ⟨by simp [queryHcaCapFields],?_,by simp [queryHcaCapFields, BitField.field, Field.Apart]⟩
    simp only [queryHcaCapFields, List.forall_mem_cons, List.not_mem_nil, false_implies, implies_true, and_true]
    exact ⟨by decide,(mlxP1HcaCapOpMod type mode).isLt⟩
  rw [hlayout.read (List.mem_cons_of_mem _ List.mem_cons_self), BitVec.ofNat_toNat]

structure MlxP1RoceCaps where
  sourceUdpPortWritable : Bool
  versions : BitVec 8
  destinationUdpPort : BitVec 16
  minimumSourceUdpPort : BitVec 16
  addressTableSize : BitVec 16
  deriving DecidableEq, Repr

structure MlxP1FlowCaps where
  nicRx : Bool
  nicTx : Bool
  deriving DecidableEq, Repr

structure MlxP1EthernetCaps where
  checksum : Bool
  vlan : Bool
  deriving DecidableEq, Repr

def mlxP1ParseRoceCaps (cap : Option Buffer) (length : ℕ) (out : Option MlxP1RoceCaps) : Bool × Option MlxP1RoceCaps :=
  match cap, out with
  | some cap, some _ =>
    if length < mlxP1HcaCapBytes then (false,out)
    else
      (true,some
        { sourceUdpPortWritable := mlxGetBits cap 0x04 1 ≠ 0
          versions := (mlxGetBits cap 0x98 8).setWidth 8
          destinationUdpPort := (mlxGetBits cap 0xb0 16).setWidth 16
          minimumSourceUdpPort := (mlxGetBits cap 0xd0 16).setWidth 16
          addressTableSize := (mlxGetBits cap 0xf0 16).setWidth 16 })
  | _, _ => (false,out)

def mlxP1ParseFlowCaps (cap : Option Buffer) (length : ℕ) (out : Option MlxP1FlowCaps) : Bool × Option MlxP1FlowCaps :=
  match cap, out with
  | some cap, some _ =>
    if length < mlxP1HcaCapBytes then (false,out)
    else (true,some ⟨mlxGetBits cap 0x200 1 ≠ 0,mlxGetBits cap 0x800 1 ≠ 0⟩)
  | _, _ => (false,out)

def mlxP1ParseEthernetCaps (cap : Option Buffer) (length : ℕ) (out : Option MlxP1EthernetCaps) :
    Bool × Option MlxP1EthernetCaps :=
  match cap, out with
  | some cap, some _ =>
    if length < mlxP1HcaCapBytes then (false,out)
    else (true,some ⟨mlxGetBits cap 0x00 1 ≠ 0,mlxGetBits cap 0x01 1 ≠ 0⟩)
  | _, _ => (false,out)

def mlxP1RoceVersionsForAbi (firmwareVersions : BitVec 8) : BitVec 8 :=
  (if firmwareVersions &&& 1 ≠ 0 then 1 else 0) ||| (if firmwareVersions &&& 4 ≠ 0 then 2 else 0)

def mlxP1LogResourceSize (logSize : BitVec 8) : BitVec 32 := if logSize < 32 then 1#32 <<< logSize.toNat else 0

end AppleMCX.Hw
