import AppleMCX.Hw.P1Encoding

/-! # Negotiating the capabilities

`setHcaCaps` and `queryHcaCaps` of `MlxPCIDriver`, on a device that keeps the general
capabilities it is given, and the addresses of UAR pages that `MlxUAR` computes from the result.
-/
namespace AppleMCX.HcaCaps
open Hw Interaction

/-- The capability pages by the modifier of `QUERY_HCA_CAP`; `none` where the command fails or there is no memory
for its output. -/
structure Firmware where
  pages : BitVec 64 → Option Buffer

/-- The device reads the modifier from the image of the command. -/
def Firmware.answer (fw : Firmware) (input : Buffer) : Option Buffer := fw.pages (mlxGetBits input 0x30 16)

def queryHcaCap (fw : Firmware) (type mode : BitVec 16) : Option Buffer :=
  (mlxP1EncodeQueryHcaCap (some fun _ => 0) 16 type mode).2.bind fw.answer

/-! ## Setting -/

/-- `MLX_P1_CMD_HEADER_BYTES`, in bits -/
def headerBits : ℕ := 8 * 16

/-- The general capabilities that are set, where the page size is `2 ^ pageShift`. -/
def negotiatedFields (pageShift : ℕ) (maxCap : Buffer) : List BitField :=
  [⟨headerBits + 0x210,2,0⟩,⟨headerBits + 0x20f,1,1⟩,⟨headerBits + 0x145,1,(mlxGetBits maxCap 0x145 1).toNat⟩,
    ⟨headerBits + 0x240,1,(decide (2 ^ pageShift > 4096 ∧ mlxGetBits maxCap 0x240 1 ≠ 0)).toNat⟩,
    ⟨headerBits + 0x490,16,if pageShift > 12 then pageShift - 12 else 0⟩]

/-- The image of `SET_HCA_CAP`. -/
def setHcaCapIn (pageShift : ℕ) (maxCap curCap : Buffer) : Buffer :=
  setFields ([⟨0x00,16,0x109⟩,⟨0x30,16,0⟩] ++ negotiatedFields pageShift maxCap)
    (fun a => if 16 ≤ a ∧ a < 16 + 256 then curCap (a - 16) else 0)

/-- The result, and the image where the command was submitted. -/
def setHcaCaps (memory : Bool) (pageShift : ℕ) (accepted : Bool) (fw : Firmware) : Bool × Option Buffer :=
  if !memory then (false,none)
  else
    match queryHcaCap fw mlxP1CapGeneral mlxP1CapMax, queryHcaCap fw mlxP1CapGeneral mlxP1CapCurrent with
    | some maxCap, some curCap => (accepted,some (setHcaCapIn pageShift maxCap curCap))
    | _, _ => (false,none)

/-- The device keeps the 256 bytes that it is given. -/
def Firmware.setHcaCap (image : Buffer) (fw : Firmware) : Firmware :=
  ⟨Function.update fw.pages 1#64 ((fw.pages 1#64).map (fun cur a => if a < 256 then image (16 + a) else cur a))⟩

/-! ## Querying -/

structure MlxHcaCaps where
  fwRev : BitVec 32
  cmdifRev : BitVec 16
  portType : BitVec 8
  numPorts : BitVec 32
  maxQp : BitVec 32
  maxCq : BitVec 32
  maxMr : BitVec 32
  roce : Bool
  roceRwSupported : Bool
  roceVersions : BitVec 8
  roceMaxGid : BitVec 16
  roceDstUdpPort : BitVec 16
  roceMinSrcUdpPort : BitVec 16
  roceCcCaps : Bool
  dcqcnEnabled : Bool
  uar4k : Bool
  logUarPageSize : BitVec 16
  logBfRegSize : BitVec 8
  swRoceSrcUdpPort : Bool
  nicFlowTable : Bool
  ethNetOffloads : Bool
  ibMaxLids : BitVec 16
  ibMaxPkeys : BitVec 16
  ibSupported : Bool
  deriving DecidableEq, Repr

/-- One of the further pages, where the general one says that there is one. -/
def furtherCaps {Caps : Type} (has : Bool) (page : Option Buffer)
    (parse : Option Buffer → ℕ → Option Caps → Bool × Option Caps)
    (zero : Caps) : Bool × Caps :=
  if !has ∨ page.isNone then (false,zero)
  else
    let (ok,caps) := parse page mlxP1HcaCapBytes (some zero)
    (ok,caps.getD zero)

def queryHcaCaps (memory : Bool) (fwRev : BitVec 32) (cmdifRev : BitVec 16) (fw : Firmware) : Option MlxHcaCaps :=
  if !memory then none
  else
    match queryHcaCap fw mlxP1CapGeneral mlxP1CapCurrent with
    | none => none
    | some general =>
      match mlxP1ParseGeneralCaps (some general) mlxP1HcaCapBytes
          (some ⟨0,0,0,0,0,0,0,0,false,false,false,false,false,false⟩) with
      | (true,some parsed) =>
        let (haveRoce,parsedRoce) := furtherCaps parsed.roce (queryHcaCap fw mlxP1CapRoce mlxP1CapCurrent)
          mlxP1ParseRoceCaps ⟨false,0,0,0,0⟩
        let (haveFlow,parsedFlow) := furtherCaps parsed.nicFlowTable (queryHcaCap fw mlxP1CapFlowTable mlxP1CapCurrent)
          mlxP1ParseFlowCaps ⟨false,false⟩
        let (haveEthernet,parsedEthernet) := furtherCaps parsed.ethNetOffloads
          (queryHcaCap fw mlxP1CapEthernetOffloads mlxP1CapCurrent) mlxP1ParseEthernetCaps ⟨false,false⟩
        let caps : MlxHcaCaps :=
          { fwRev
            cmdifRev
            portType := parsed.portType
            numPorts := parsed.numPorts.setWidth 32
            maxQp := mlxP1LogResourceSize parsed.logMaxQp
            maxCq := mlxP1LogResourceSize parsed.logMaxCq
            maxMr := mlxP1LogResourceSize parsed.logMaxMkey
            roce := haveRoce
            roceRwSupported := parsed.roceRwSupported
            roceVersions := if haveRoce then mlxP1RoceVersionsForAbi parsedRoce.versions else 0
            roceMaxGid := if haveRoce then parsedRoce.addressTableSize else 0
            roceDstUdpPort := if haveRoce then parsedRoce.destinationUdpPort else 0
            roceMinSrcUdpPort := if haveRoce then parsedRoce.minimumSourceUdpPort else 0
            roceCcCaps := false
            dcqcnEnabled := false
            uar4k := parsed.uar4k
            logUarPageSize := (mlxGetBits general 0x490 16).setWidth 16
            logBfRegSize := if parsed.bf then parsed.logBfRegSize else 0
            swRoceSrcUdpPort := haveRoce && parsedRoce.sourceUdpPortWritable
            nicFlowTable := haveFlow && parsedFlow.nicRx && parsedFlow.nicTx
            ethNetOffloads := haveEthernet && parsedEthernet.checksum && parsedEthernet.vlan
            ibMaxLids := 0
            ibMaxPkeys := (mlxP1PkeyTableSize (parsed.pkeyTableEncoding.setWidth 16)).setWidth 16
            ibSupported := parsed.portType = 0 }
        if caps.numPorts = 0 ∨ caps.maxQp = 0 ∨ caps.maxCq = 0 ∨ caps.maxMr = 0 then none else some caps
      | _ => none

/-! ## The address of a UAR page -/

def uarPhys (barAddr : BitVec 64) (pageShift : ℕ) (caps : MlxHcaCaps) (index : BitVec 32) : BitVec 64 :=
  let systemPage : BitVec 64 := (if caps.uar4k then index >>> caps.logUarPageSize.toNat else index).setWidth 64
  barAddr + systemPage * BitVec.ofNat 64 (2 ^ pageShift)

/-- What `allocUar` makes of the index. -/
def uarOffset (pageShift : ℕ) (caps : MlxHcaCaps) (index : BitVec 32) : BitVec 32 :=
  if caps.uar4k then (index &&& BitVec.ofNat 32 (2 ^ pageShift / 4096 - 1)) * 4096 else 0

/-! ## What is negotiated -/

variable {pageShift : ℕ} {maxCap curCap : Buffer} {fw : Firmware}

theorem queryHcaCap_eq (fw : Firmware) (type mode : BitVec 16) :
    queryHcaCap fw type mode = fw.pages ((mlxP1HcaCapOpMod type mode).setWidth 64) := by
  unfold queryHcaCap mlxP1EncodeQueryHcaCap Firmware.answer
  rw [← mlxP1EncodeQueryHcaCap_opMod type mode fun _ => 0]
  rfl

theorem setHcaCapIn_layout (hle : pageShift ≤ 16) (maxCap : Buffer) :
    Layout ([⟨0x00,16,0x109⟩,⟨0x30,16,0⟩] ++ negotiatedFields pageShift maxCap) where
  width := by simp [negotiatedFields]
  fits := by
    have hflag := mlxGetBits_lt maxCap 0x145 (by decide : 1 ≤ 64)
    have hlog : (if pageShift > 12 then pageShift - 12 else 0) < 2 ^ 16 := by split <;> omega
    simp only [negotiatedFields, List.cons_append, List.nil_append, List.forall_mem_cons, List.not_mem_nil, false_implies,
      implies_true, and_true]
    exact ⟨by decide,by decide,by decide,by decide,hflag,Bool.toNat_lt _,hlog⟩
  apart := by simp [negotiatedFields, BitField.field, Field.Apart, headerBits]

theorem negotiatedFields_range {f : BitField} (hf : f ∈ negotiatedFields pageShift maxCap) :
    headerBits ≤ f.bitOffset ∧ f.bitOffset + f.bitWidth ≤ 8 * 272 := by
  simp only [negotiatedFields, List.mem_cons, List.not_mem_nil, or_false] at hf
  rcases hf with rfl | rfl | rfl | rfl | rfl <;> exact of_decide_eq_true rfl

theorem setHcaCapIn_frame (hle : pageShift ≤ 16) (maxCap curCap : Buffer) :
    Frame ([⟨0x00,16,0x109⟩,⟨0x30,16,0⟩] ++ negotiatedFields pageShift maxCap) 272
      (fun a => if 16 ≤ a ∧ a < 16 + 256 then curCap (a - 16) else 0) (setHcaCapIn pageShift maxCap curCap) := by
  refine (setHcaCapIn_layout hle maxCap).frame (fun f hf => ?_) _
  rcases List.mem_append.mp hf with hf | hf
  · simp only [List.mem_cons, List.not_mem_nil, or_false] at hf
    rcases hf with rfl | rfl <;> exact of_decide_eq_true rfl
  · exact (negotiatedFields_range hf).2

/-- Bits of the page that are not negotiated are as they were. -/
theorem setHcaCapIn_kept (hle : pageShift ≤ 16) {k : ℕ} (hk : k < 2048) (hout : ∀ f ∈ negotiatedFields pageShift maxCap,
    headerBits + k < f.bitOffset ∨ f.bitOffset + f.bitWidth ≤ headerBits + k) :
    bitAt (setHcaCapIn pageShift maxCap curCap) (headerBits + k) = bitAt curCap k := by
  rw [(setHcaCapIn_frame hle maxCap curCap).outside (headerBits + k) (fun f hf => ?_)]
  · have hbyte : (headerBits + k) / 8 = k / 8 + 16 := by unfold headerBits; omega
    have hbit : (headerBits + k) % 8 = k % 8 := by unfold headerBits; omega
    unfold bitAt
    rw [hbyte, hbit]
    dsimp only
    rw [if_pos (by omega), Nat.add_sub_cancel]
  · rcases List.mem_append.mp hf with hf | hf
    · simp only [List.mem_cons, List.not_mem_nil, or_false] at hf
      unfold headerBits
      rcases hf with rfl | rfl <;> right <;> dsimp only <;> omega
    · exact hout f hf

theorem setHcaCapIn_read (hle : pageShift ≤ 16) {f : BitField}
    (hf : f ∈ [⟨0x00,16,0x109⟩,⟨0x30,16,0⟩] ++ negotiatedFields pageShift maxCap) :
    mlxGetBits (setHcaCapIn pageShift maxCap curCap) f.bitOffset f.bitWidth = BitVec.ofNat 64 f.value :=
  (setHcaCapIn_layout hle maxCap).read hf _

/-- The general page of the device afterwards. -/
def keptPage (image curCap : Buffer) : Buffer := fun a => if a < 256 then image (16 + a) else curCap a

theorem bitAt_keptPage (image curCap : Buffer) {k : ℕ} (hk : k < 2048) :
    bitAt (keptPage image curCap) k = bitAt image (headerBits + k) := by
  have hbyte : (headerBits + k) / 8 = 16 + k / 8 := by unfold headerBits; omega
  have hbit : (headerBits + k) % 8 = k % 8 := by unfold headerBits; omega
  unfold bitAt keptPage
  rw [if_pos (by omega), hbyte, hbit]

theorem mlxGetBits_keptPage (image curCap : Buffer) {bitOffset bitWidth : ℕ} (hend : bitOffset + bitWidth ≤ 2048) :
    mlxGetBits (keptPage image curCap) bitOffset bitWidth = mlxGetBits image (headerBits + bitOffset) bitWidth := by
  rw [mlxGetBits_eq, mlxGetBits_eq]
  congr 1
  unfold getField
  refine List.foldl_ext _ _ _ (fun value i hi => ?_)
  rw [bitAt_keptPage _ _ (by have := List.mem_range.mp hi; omega), Nat.add_assoc]

theorem mlxGetBits_kept (hle : pageShift ≤ 16) {bitOffset bitWidth : ℕ} (hend : bitOffset + bitWidth ≤ 2048)
    (hapart : ∀ f ∈ negotiatedFields pageShift maxCap,
      headerBits + bitOffset + bitWidth ≤ f.bitOffset ∨ f.bitOffset + f.bitWidth ≤ headerBits + bitOffset) :
    mlxGetBits (keptPage (setHcaCapIn pageShift maxCap curCap) curCap) bitOffset bitWidth =
      mlxGetBits curCap bitOffset bitWidth := by
  rw [mlxGetBits_eq, mlxGetBits_eq]
  congr 1
  refine getField_congr (fun i hi => ?_)
  rw [bitAt_keptPage _ _ (by omega)]
  refine setHcaCapIn_kept hle (by omega) (fun f hf => ?_)
  have h := hapart f hf
  omega

/-- The fields that `queryHcaCaps` reads of the general page. -/
def readFields : List (ℕ × ℕ) :=
  [(0x9b,5),(0xdb,5),(0xea,6),(0x170,16),(0x190,16),(0x1a6,1),(0x1b6,2),(0x1b8,8),(0x21b,1),(0x21c,1),(0x260,1),(0x26b,5),
    (0x3a1,1)]

theorem readFields_kept (hle : pageShift ≤ 16) {r : ℕ × ℕ} (hr : r ∈ readFields) :
    mlxGetBits (keptPage (setHcaCapIn pageShift maxCap curCap) curCap) r.1 r.2 = mlxGetBits curCap r.1 r.2 := by
  refine mlxGetBits_kept hle ?_ (fun f hf => ?_)
  · revert r
    decide
  · simp only [negotiatedFields, List.mem_cons, List.not_mem_nil, or_false] at hf
    rcases hf with rfl | rfl | rfl | rfl | rfl <;> dsimp only <;> revert r <;> decide

/-- Set where the page is larger than 4 KiB and the device says that it can. -/
def uar4kOf (pageShift : ℕ) (maxCap : Buffer) : Bool := 2 ^ pageShift > 4096 ∧ mlxGetBits maxCap 0x240 1 ≠ 0

theorem uar4k_kept (hle : pageShift ≤ 16) :
    decide (mlxGetBits (keptPage (setHcaCapIn pageShift maxCap curCap) curCap) 0x240 1 ≠ 0) = uar4kOf pageShift maxCap := by
  have hread : mlxGetBits (setHcaCapIn pageShift maxCap curCap) (headerBits + 0x240) 1 =
      BitVec.ofNat 64 (uar4kOf pageShift maxCap).toNat :=
    setHcaCapIn_read hle (f := ⟨headerBits + 0x240,1,(uar4kOf pageShift maxCap).toNat⟩) (List.mem_of_getElem? (i := 5) rfl)
  rw [mlxGetBits_keptPage _ _ (by decide), hread]
  cases uar4kOf pageShift maxCap <;> rfl

theorem logUarPageSize_kept (hle : pageShift ≤ 16) :
    mlxGetBits (keptPage (setHcaCapIn pageShift maxCap curCap) curCap) 0x490 16 = BitVec.ofNat 64 (pageShift - 12) := by
  have hread : mlxGetBits (setHcaCapIn pageShift maxCap curCap) (headerBits + 0x490) 16 =
      BitVec.ofNat 64 (if pageShift > 12 then pageShift - 12 else 0) :=
    setHcaCapIn_read hle (f := ⟨headerBits + 0x490,16,if pageShift > 12 then pageShift - 12 else 0⟩)
      (List.mem_of_getElem? (i := 6) rfl)
  rw [mlxGetBits_keptPage _ _ (by decide), hread]
  congr 1
  split <;> omega

theorem mlxP1ParseGeneralCaps_kept (hle : pageShift ≤ 16) (maxCap curCap : Buffer) (zero : MlxP1GeneralCaps) :
    ∃ parsed, mlxP1ParseGeneralCaps (some curCap) mlxP1HcaCapBytes (some zero) = (true,some parsed) ∧
      mlxP1ParseGeneralCaps (some (keptPage (setHcaCapIn pageShift maxCap curCap) curCap)) mlxP1HcaCapBytes (some zero) =
        (true,some { parsed with uar4k := uar4kOf pageShift maxCap }) := by
  refine ⟨_,rfl,?_⟩
  have h : ∀ r ∈ readFields, mlxGetBits (keptPage (setHcaCapIn pageShift maxCap curCap) curCap) r.1 r.2 =
      mlxGetBits curCap r.1 r.2 := fun r hr => readFields_kept hle hr
  simp only [readFields, List.forall_mem_cons, List.not_mem_nil, false_implies, implies_true, and_true] at h
  obtain ⟨h1,h2,h3,h4,h5,h6,h7,h8,h9,h10,h11,h12,h13⟩ := h
  unfold mlxP1ParseGeneralCaps
  simp only [h1, h2, h3, h4, h5, h6, h7, h8, h9, h10, h11, h12, h13, uar4k_kept hle]
  rfl

/-- What the driver makes of the general page afterwards. -/
def negotiated (pageShift : ℕ) (maxCap : Buffer) (caps : MlxHcaCaps) : MlxHcaCaps :=
  { caps with uar4k := uar4kOf pageShift maxCap, logUarPageSize := BitVec.ofNat 16 (pageShift - 12) }

theorem queryHcaCap_set (image : Buffer) (fw : Firmware) {type mode : BitVec 16} (h : mlxP1HcaCapOpMod type mode ≠ 1) :
    queryHcaCap (fw.setHcaCap image) type mode = queryHcaCap fw type mode := by
  have hne : (mlxP1HcaCapOpMod type mode).setWidth 64 ≠ 1#64 := by
    refine fun heq => h (BitVec.eq_of_toNat_eq ?_)
    have hval := congrArg BitVec.toNat heq
    rw [BitVec.toNat_setWidth_of_le (by decide)] at hval
    exact hval
  rw [queryHcaCap_eq, queryHcaCap_eq]
  exact Function.update_of_ne hne _ fw.pages

theorem queryHcaCap_set_general {image curCap : Buffer} (hcur : fw.pages 1#64 = some curCap) :
    queryHcaCap (fw.setHcaCap image) mlxP1CapGeneral mlxP1CapCurrent = some (keptPage image curCap) := by
  rw [queryHcaCap_eq]
  calc (fw.setHcaCap image).pages 1#64
      = (fw.pages 1#64).map (keptPage image) := by simp only [Firmware.setHcaCap, Function.update_self]; rfl
    _ = some (keptPage image curCap) := by rw [hcur, Option.map_some]

/-- The driver finds the capabilities that it found before, but for the size of a UAR. -/
theorem queryHcaCaps_set (hle : pageShift ≤ 16) (maxCap : Buffer) (hcur : fw.pages 1#64 = some curCap) (fwRev : BitVec 32)
    (cmdifRev : BitVec 16) :
    queryHcaCaps true fwRev cmdifRev (fw.setHcaCap (setHcaCapIn pageShift maxCap curCap)) =
      (queryHcaCaps true fwRev cmdifRev fw).map (negotiated pageShift maxCap) := by
  obtain ⟨parsed,hbefore,hafter⟩ := mlxP1ParseGeneralCaps_kept hle maxCap curCap
    ⟨0,0,0,0,0,0,0,0,false,false,false,false,false,false⟩
  have hgeneral : queryHcaCap fw mlxP1CapGeneral mlxP1CapCurrent = some curCap := (queryHcaCap_eq _ _ _).trans hcur
  unfold queryHcaCaps
  rw [queryHcaCap_set_general hcur, hgeneral, queryHcaCap_set _ _ (by decide), queryHcaCap_set _ _ (by decide),
    queryHcaCap_set _ _ (by decide)]
  simp only [hbefore, hafter, logUarPageSize_kept hle, Bool.not_true, Bool.false_eq_true, if_false]
  rw [apply_ite (Option.map (negotiated pageShift maxCap))]
  congr 1
  simp only [Option.map_some, negotiated, Option.some.injEq, MlxHcaCaps.mk.injEq, true_and, and_true]
  exact BitVec.eq_of_toNat_eq (by rw [BitVec.toNat_setWidth, BitVec.toNat_ofNat, BitVec.toNat_ofNat]; omega)

/-! ## The pages -/

theorem shift_and_mask (index s : ℕ) : index / 2 ^ s * 2 ^ (s + 12) + index % 2 ^ s * 4096 = index * 4096 := by
  calc index / 2 ^ s * 2 ^ (s + 12) + index % 2 ^ s * 4096
      = (2 ^ s * (index / 2 ^ s) + index % 2 ^ s) * 4096 := by
        rw [pow_add, ← Nat.mul_assoc, Nat.mul_comm (2 ^ s), Nat.add_mul]; rfl
    _ = index * 4096 := by rw [Nat.div_add_mod]

theorem uarOffset_toNat (h12 : 12 ≤ pageShift) (h16 : pageShift ≤ 16) {caps : MlxHcaCaps} (h : caps.uar4k = true)
    (index : BitVec 32) : (uarOffset pageShift caps index).toNat = index.toNat % 2 ^ (pageShift - 12) * 4096 := by
  have hpow : 2 ^ pageShift / 4096 = 2 ^ (pageShift - 12) := by
    conv_lhs => rw [← Nat.sub_add_cancel h12, pow_add]
    exact Nat.mul_div_cancel _ (by decide)
  have hle : 2 ^ (pageShift - 12) ≤ 2 ^ 4 := Nat.pow_le_pow_right (by decide) (by omega)
  have hlt : index.toNat % 2 ^ (pageShift - 12) < 2 ^ (pageShift - 12) := Nat.mod_lt _ (Nat.two_pow_pos _)
  have hmask : (2 ^ (pageShift - 12) - 1) % 2 ^ 32 = 2 ^ (pageShift - 12) - 1 := Nat.mod_eq_of_lt (by omega)
  unfold uarOffset
  rw [if_pos h, hpow, BitVec.toNat_mul, BitVec.toNat_and, BitVec.toNat_ofNat, hmask, Nat.and_two_pow_sub_one_eq_mod]
  change index.toNat % 2 ^ (pageShift - 12) * 4096 % 2 ^ 32 = _
  exact Nat.mod_eq_of_lt (by omega)

/-- The register page of a UAR is at its index in steps of its size, wherever the system page starts. -/
theorem uarPhys_add_uarOffset (h12 : 12 ≤ pageShift) (h16 : pageShift ≤ 16) {caps : MlxHcaCaps}
    (hlog : caps.uar4k = true → caps.logUarPageSize = BitVec.ofNat 16 (pageShift - 12)) (barAddr : BitVec 64)
    (index : BitVec 32) :
    uarPhys barAddr pageShift caps index + (uarOffset pageShift caps index).setWidth 64 =
      barAddr + index.setWidth 64 * BitVec.ofNat 64 (if caps.uar4k then 4096 else 2 ^ pageShift) := by
  cases h : caps.uar4k with
  | false => simp [uarPhys, uarOffset, h]
  | true =>
    have hshift : caps.logUarPageSize.toNat = pageShift - 12 := by
      rw [hlog h, BitVec.toNat_ofNat]
      omega
    have hpow : (2 : ℕ) ^ pageShift = 2 ^ (pageShift - 12 + 12) := by rw [Nat.sub_add_cancel h12]
    unfold uarPhys
    simp only [h, if_true]
    rw [BitVec.add_assoc]
    congr 1
    refine BitVec.eq_of_toNat_eq ?_
    have hindex := index.isLt
    rw [BitVec.toNat_add, BitVec.toNat_mul, BitVec.toNat_mul, BitVec.toNat_setWidth_of_le (by decide),
      BitVec.toNat_setWidth_of_le (by decide), BitVec.toNat_setWidth_of_le (by decide), uarOffset_toNat h12 h16 h,
      BitVec.toNat_ofNat, BitVec.toNat_ofNat, BitVec.toNat_ushiftRight, hshift, Nat.shiftRight_eq_div_pow, hpow,
      Nat.mul_mod_mod, Nat.mod_add_mod, shift_and_mask]

/-- The page that holds the registers is inside the system page that is mapped. -/
theorem uarOffset_inside (h12 : 12 ≤ pageShift) (h16 : pageShift ≤ 16) (caps : MlxHcaCaps) (index : BitVec 32) :
    (uarOffset pageShift caps index).toNat + 4096 ≤ 2 ^ pageShift := by
  cases h : caps.uar4k with
  | false =>
    have hle : 2 ^ 12 ≤ 2 ^ pageShift := Nat.pow_le_pow_right (by decide) h12
    simp only [uarOffset, h, Bool.false_eq_true, if_false]
    exact hle
  | true =>
    have hlt : index.toNat % 2 ^ (pageShift - 12) < 2 ^ (pageShift - 12) := Nat.mod_lt _ (Nat.two_pow_pos _)
    rw [uarOffset_toNat h12 h16 h]
    calc index.toNat % 2 ^ (pageShift - 12) * 4096 + 4096
        = (index.toNat % 2 ^ (pageShift - 12) + 1) * 4096 := (Nat.succ_mul _ _).symm
      _ ≤ 2 ^ (pageShift - 12) * 2 ^ 12 := Nat.mul_le_mul_right _ hlt
      _ = 2 ^ pageShift := by rw [← pow_add, Nat.sub_add_cancel h12]

/-! ## The negotiation -/

/-- The image asks for the negotiated capabilities and for what the device has now. -/
structure Negotiated (pageShift : ℕ) (maxCap curCap image : Buffer) : Prop where
  opcode : mlxGetBits image 0x00 16 = 0x109
  opMod : mlxGetBits image 0x30 16 = 0
  fields : ∀ f ∈ negotiatedFields pageShift maxCap, mlxGetBits image f.bitOffset f.bitWidth = BitVec.ofNat 64 f.value
  kept : ∀ k < 2048, (∀ f ∈ negotiatedFields pageShift maxCap,
    headerBits + k < f.bitOffset ∨ f.bitOffset + f.bitWidth ≤ headerBits + k) →
    bitAt image (headerBits + k) = bitAt curCap k
  zero : ∀ a, 272 ≤ a → image a = 0

theorem setHcaCapIn_negotiated (hle : pageShift ≤ 16) (maxCap curCap : Buffer) :
    Negotiated pageShift maxCap curCap (setHcaCapIn pageShift maxCap curCap) where
  opcode := setHcaCapIn_read hle (f := ⟨0x00,16,0x109⟩) List.mem_cons_self
  opMod := setHcaCapIn_read hle (f := ⟨0x30,16,0⟩) (List.mem_cons_of_mem _ List.mem_cons_self)
  fields _ hf := setHcaCapIn_read hle (List.mem_append_right _ hf)
  kept _ hk hout := setHcaCapIn_kept hle hk hout
  zero a ha := by
    rw [(setHcaCapIn_frame hle maxCap curCap).beyond a ha]
    exact if_neg (by omega)

/-- What the driver finds is what the device reported, but for the size of a UAR; and with it each UAR is found in steps of its
size, in a system page that holds it. -/
theorem setHcaCaps_queryHcaCaps (h12 : 12 ≤ pageShift) (h16 : pageShift ≤ 16) {image : Buffer}
    (hset : setHcaCaps true pageShift true fw = (true,some image)) :
    ∃ maxCap curCap, fw.pages 0#64 = some maxCap ∧ fw.pages 1#64 = some curCap ∧
    Negotiated pageShift maxCap curCap image ∧
      ∀ fwRev cmdifRev,
        queryHcaCaps true fwRev cmdifRev (fw.setHcaCap image) =
          (queryHcaCaps true fwRev cmdifRev fw).map (negotiated pageShift maxCap) ∧
        ∀ caps, queryHcaCaps true fwRev cmdifRev (fw.setHcaCap image) = some caps → ∀ barAddr index,
          uarPhys barAddr pageShift caps index + (uarOffset pageShift caps index).setWidth 64 =
              barAddr + index.setWidth 64 * BitVec.ofNat 64 (if caps.uar4k then 4096 else 2 ^ pageShift) ∧
            (uarOffset pageShift caps index).toNat + 4096 ≤ 2 ^ pageShift := by
  unfold setHcaCaps at hset
  cases hmax : queryHcaCap fw mlxP1CapGeneral mlxP1CapMax with
  | none => simp [hmax] at hset
  | some maxCap =>
    cases hcur : queryHcaCap fw mlxP1CapGeneral mlxP1CapCurrent with
    | none => simp [hmax, hcur] at hset
    | some curCap =>
      have himage : setHcaCapIn pageShift maxCap curCap = image := by simpa [hmax, hcur] using hset
      subst himage
      rw [queryHcaCap_eq] at hmax hcur
      refine ⟨maxCap,curCap,hmax,hcur,setHcaCapIn_negotiated h16 maxCap curCap,fun fwRev cmdifRev => ⟨?_,?_⟩⟩
      · exact queryHcaCaps_set h16 maxCap hcur fwRev cmdifRev
      · intro caps hcaps barAddr index
        rw [queryHcaCaps_set h16 maxCap hcur] at hcaps
        obtain ⟨old,-,rfl⟩ := Option.map_eq_some_iff.mp hcaps
        exact ⟨uarPhys_add_uarOffset h12 h16 (fun _ => rfl) barAddr index,uarOffset_inside h12 h16 _ index⟩

/-- A device with one port that could do with UARs of 4 KiB and does not yet. -/
def onePort : Firmware :=
  ⟨fun opMod => some (fun a => if a = 72 then if opMod = 0#64 then 0x80 else 0
    else if a = 55 then 1 else if a < 32 then 4 else 0)⟩

theorem setHcaCaps_queryHcaCaps_onePort : ∃ image, setHcaCaps true 14 true onePort = (true,some image) ∧
    (queryHcaCaps true 0 5 onePort).map (fun caps => (caps.uar4k,caps.logUarPageSize)) = some (false,0) ∧
    (queryHcaCaps true 0 5 (onePort.setHcaCap image)).map (fun caps => (caps.uar4k,caps.logUarPageSize)) = some (true,2) := by
  obtain ⟨image,hset⟩ : ∃ image, setHcaCaps true 14 true onePort = (true,some image) := ⟨_,rfl⟩
  refine ⟨image,hset,by decide +kernel,?_⟩
  obtain ⟨maxCap,curCap,hmax,-,-,h⟩ := setHcaCaps_queryHcaCaps (by decide) (by decide) hset
  have huar : uar4kOf 14 maxCap = true := by
    obtain rfl := Option.some.inj hmax
    decide +kernel
  rw [(h 0 5).1, Option.map_map]
  have hold : (queryHcaCaps true 0 5 onePort).isSome := by decide +kernel
  obtain ⟨caps,hcaps⟩ := Option.isSome_iff_exists.mp hold
  rw [hcaps, Option.map_some]
  simp only [Function.comp_apply, negotiated, huar]
  rfl

end AppleMCX.HcaCaps
