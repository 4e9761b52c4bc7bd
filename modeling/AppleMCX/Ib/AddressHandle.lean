import AppleMCX.Core.Command
import AppleMCX.Interaction.Bytes
import Mathlib.Data.BitVec

/-! # Address handles

`MlxAH` with the address vectors that it keeps, and what the documented layout reads from them.
-/
namespace AppleMCX.AddressHandle
open Interaction

structure CreateAhReq where
  dmac : Block 6
  dgid : Block 16
  sgidIndex : BitVec 32
  hopLimit : BitVec 8
  trafficClass : BitVec 8
  udpSport : BitVec 16
  portNum : BitVec 32
  ahType : BitVec 32
  dlid : BitVec 16
  pathBits : BitVec 8
  sl : BitVec 8

/-- Numbers of more than a byte are in network order. `udp_sport` is `rlid`. -/
structure MlxAV where
  key : Block 8
  dqp_dct : Block 4
  stat_rate_sl : BitVec 8
  fl_mlid : BitVec 8
  rlid : Block 2
  reserved0 : Block 4
  rmac : Block 6
  tclass : BitVec 8
  hop_limit : BitVec 8
  grh_gid_fl : Block 4
  rgid : Block 16

def MLX_AV_GRH_PRESENT : BitVec 32 := 1#32 <<< 30
def MLX_AV_SGID_INDEX_SHIFT : ℕ := 20
def MLX_AV_ECN_ENABLED : BitVec 8 := 1#8 <<< 1
def MLX_ROCE_V2_UDP_DPORT : BitVec 16 := 4791

def MlxAV.zero : MlxAV := ⟨.zero 8,.zero 4,0,0,.zero 2,.zero 4,.zero 6,0,0,.zero 4,.zero 16⟩

/-- `dgid[0] || dgid[1]` -/
def CreateAhReq.hasPrefix (req : CreateAhReq) : Prop := req.dgid.val.getD 0 0 ≠ 0 ∨ req.dgid.val.getD 1 0 ≠ 0

instance (req : CreateAhReq) : Decidable req.hasPrefix := inferInstanceAs (Decidable (_ ∨ _))

def encodeAV (req : CreateAhReq) : MlxAV :=
  let av := MlxAV.zero
  let av :=
    if req.ahType = 0 ∨ req.hasPrefix then
      { av with
        rgid := req.dgid
        grh_gid_fl := beBlock 4 (MLX_AV_GRH_PRESENT ||| req.sgidIndex <<< MLX_AV_SGID_INDEX_SHIFT).toNat
        hop_limit := if req.hopLimit ≠ 0 then req.hopLimit else 64
        tclass := req.trafficClass }
    else av
  let av := { av with stat_rate_sl := 0 }
  if req.ahType = 1 then
    { av with
      rlid := beBlock 2 req.dlid.toNat
      fl_mlid := req.pathBits &&& 0x7f
      stat_rate_sl := av.stat_rate_sl ||| (req.sl &&& 0xf) }
  else
    { av with
      hop_limit := if req.hopLimit ≠ 0 then req.hopLimit else 64
      tclass := req.trafficClass ||| MLX_AV_ECN_ENABLED
      rmac := req.dmac
      rlid := beBlock 2 (if req.udpSport ≠ 0 then req.udpSport else MLX_ROCE_V2_UDP_DPORT).toNat
      stat_rate_sl := av.stat_rate_sl ||| (0 &&& 0x7) <<< 1 }

structure MlxAHContext where
  ahHandle : BitVec 32
  portNum : BitVec 32
  av : MlxAV
  isRoCE : Bool

structure MlxAH where
  fAhTable : List MlxAHContext
  fNextHandle : BitVec 32

/-- Which allocations of `createAH` succeed. -/
structure Answers where
  IOMallocZero : Bool
  withBytesNoCopy : Bool
  setObject : Bool

namespace MlxAH

def init : MlxAH := ⟨[],1⟩

def newContext (req : CreateAhReq) (s : MlxAH) : MlxAHContext where
  ahHandle := s.fNextHandle
  portNum := if req.portNum ≠ 0 then req.portNum else 1
  av := encodeAV req
  isRoCE := true

/-- `createAH` answers by the handle. -/
def createAH (req : CreateAhReq) (a : Answers) (s : MlxAH) : Except IOReturn (BitVec 32) × MlxAH :=
  if !a.IOMallocZero then (.error .noMemory,s)
  else
    let ctx := s.newContext req
    let s := { s with fNextHandle := s.fNextHandle + 1 }
    if !a.withBytesNoCopy then (.error .noMemory,s)
    else if !a.setObject then (.error .noMemory,s)
    else (.ok ctx.ahHandle,{ s with fAhTable := s.fAhTable ++ [ctx] })

def destroyAH (ahHandle : BitVec 32) (s : MlxAH) : IOReturn × MlxAH :=
  match s.fAhTable.find? (fun ctx => ctx.ahHandle = ahHandle) with
  | some _ => (.success,{ s with fAhTable := s.fAhTable.eraseP (fun ctx => ctx.ahHandle = ahHandle) })
  | none => (.notFound,s)

def lookup (ahHandle : BitVec 32) (s : MlxAH) : Option MlxAHContext :=
  s.fAhTable.find? (fun ctx => ctx.ahHandle = ahHandle)

end MlxAH

/-! ## The documented layout -/

namespace MlxAV

def grh (av : MlxAV) : BitVec 32 := BitVec.ofNat 32 (ofBytes av.grh_gid_fl.val)

def grhPresent (av : MlxAV) : Bool := av.grh.getLsbD 30

def sgidIndex (av : MlxAV) : BitVec 10 := av.grh.extractLsb' 20 10

def flowLabel (av : MlxAV) : BitVec 20 := av.grh.extractLsb' 0 20

/-- `rlid` or `udp_sport`. -/
def lid (av : MlxAV) : BitVec 16 := BitVec.ofNat 16 (ofBytes av.rlid.val)

end MlxAV

/-- What both readings of a RoCE address share. -/
structure RoceFields (req : CreateAhReq) (av : MlxAV) : Prop where
  rgid : av.rgid = req.dgid
  rmac : av.rmac = req.dmac
  grhPresent : av.grhPresent = true
  flowLabel : av.flowLabel = 0
  hop_limit : av.hop_limit = if req.hopLimit = 0 then 64 else req.hopLimit
  tclass : av.tclass = req.trafficClass ||| MLX_AV_ECN_ENABLED

structure IbFields (req : CreateAhReq) (av : MlxAV) : Prop where
  rlid : av.lid = req.dlid
  fl_mlid : av.fl_mlid.toNat = req.pathBits.toNat % 2 ^ 7
  stat_rate_sl : av.stat_rate_sl.toNat = req.sl.toNat % 2 ^ 4

/-- The vector says all of the request. -/
structure GivesBack (req : CreateAhReq) (av : MlxAV) : Prop where
  roce : req.ahType = 0 → RoceFields req av ∧ av.sgidIndex.toNat = req.sgidIndex.toNat ∧ av.lid = req.udpSport
  ib : req.ahType = 1 → IbFields req av ∧ (req.dgid ≠ .zero 16 → av.grhPresent = true ∧ av.rgid = req.dgid)

/-- The vector says what fits it: port 4791 stands for none, the index has ten bits, and a GID that
begins with two zero bytes may be left out of an IB address. -/
structure Faithful (req : CreateAhReq) (av : MlxAV) : Prop where
  roce : req.ahType = 0 → RoceFields req av
  sgidIndex : req.ahType = 0 → req.sgidIndex.toNat < 1024 → av.sgidIndex.toNat = req.sgidIndex.toNat
  udpSport : req.ahType = 0 → av.lid = if req.udpSport = 0 then MLX_ROCE_V2_UDP_DPORT else req.udpSport
  ib : req.ahType = 1 → IbFields req av
  grh : req.ahType = 1 → req.hasPrefix → av.grhPresent = true ∧ av.rgid = req.dgid

/-! ## Numbers in network order -/

theorem ofBytes_beBlock_word {w n : ℕ} (h : 2 ^ w = 256 ^ n) (x : BitVec w) :
    BitVec.ofNat w (ofBytes (beBlock n x.toNat).val) = x := by
  rw [ofBytes_beBlock (h ▸ x.isLt), BitVec.ofNat_toNat, BitVec.setWidth_eq]

/-- The word that holds the source GID index. -/
def grhWord (sgidIndex : BitVec 32) : BitVec 32 := MLX_AV_GRH_PRESENT ||| sgidIndex <<< MLX_AV_SGID_INDEX_SHIFT

theorem getLsbD_grhWord (sgidIndex : BitVec 32) {i : ℕ} (hi : i < 32) :
    (grhWord sgidIndex).getLsbD i = (decide (30 = i) || (decide (20 ≤ i) && sgidIndex.getLsbD (i - 20))) := by
  have hshift : decide (i < 20) = !decide (20 ≤ i) := by
    rw [← decide_not, decide_eq_decide]
    exact Nat.not_le.symm
  rw [grhWord, MLX_AV_GRH_PRESENT, MLX_AV_SGID_INDEX_SHIFT, ← BitVec.twoPow_eq, BitVec.getLsbD_or, BitVec.getLsbD_twoPow,
    BitVec.getLsbD_shiftLeft, decide_eq_true hi, decide_eq_true (by decide : 30 < 32), hshift, Bool.not_not, Bool.true_and,
    Bool.true_and]

theorem grhWord_present (sgidIndex : BitVec 32) : (grhWord sgidIndex).getLsbD 30 = true := by
  rw [getLsbD_grhWord sgidIndex (by decide)]
  rfl

theorem grhWord_flowLabel (sgidIndex : BitVec 32) : (grhWord sgidIndex).extractLsb' 0 20 = 0 := by
  apply BitVec.eq_of_getLsbD_eq
  intro i hi
  rw [BitVec.getLsbD_extractLsb', getLsbD_grhWord sgidIndex (by omega), decide_eq_false (by omega : ¬ 30 = 0 + i),
    decide_eq_false (by omega : ¬ 20 ≤ 0 + i), Bool.false_and, Bool.or_false, Bool.and_false]
  exact BitVec.getLsbD_zero.symm

/-- The ten bits hold the low bits of the index. -/
theorem grhWord_sgidIndex (sgidIndex : BitVec 32) : (grhWord sgidIndex).extractLsb' 20 10 = sgidIndex.setWidth 10 := by
  apply BitVec.eq_of_getLsbD_eq
  intro i hi
  rw [BitVec.getLsbD_extractLsb', getLsbD_grhWord sgidIndex (by omega), decide_eq_true hi, BitVec.getLsbD_setWidth,
    decide_eq_true hi, decide_eq_true (Nat.le_add_right 20 i), Nat.add_sub_cancel_left,
    decide_eq_false (by omega : ¬ 30 = 20 + i),
    Bool.false_or, Bool.true_and]

/-! ## What is encoded -/

structure HasGrh (req : CreateAhReq) (av : MlxAV) : Prop where
  rgid : av.rgid = req.dgid
  grh : av.grh = grhWord req.sgidIndex

variable {req : CreateAhReq}

theorem ofNat_grhWord (sgidIndex : BitVec 32) :
    BitVec.ofNat 32 (ofBytes (beBlock 4 (grhWord sgidIndex).toNat).val) = grhWord sgidIndex :=
  ofBytes_beBlock_word (by decide) _

theorem encodeAV_hasGrh (h : req.ahType = 0 ∨ req.hasPrefix) : HasGrh req (encodeAV req) := by
  unfold encodeAV
  dsimp only
  rw [if_pos h]
  by_cases hib : req.ahType = 1
  · rw [if_pos hib]
    exact ⟨rfl,ofNat_grhWord req.sgidIndex⟩
  · rw [if_neg hib]
    exact ⟨rfl,ofNat_grhWord req.sgidIndex⟩

theorem HasGrh.present {av : MlxAV} (h : HasGrh req av) : av.grhPresent = true := by
  rw [MlxAV.grhPresent, h.grh, grhWord_present]

theorem roce_ne_ib (h : req.ahType = 0) : ¬ req.ahType = 1 := by
  rw [h]
  decide

/-- The fields of every address that is not an IB address. -/
structure HasMac (req : CreateAhReq) (av : MlxAV) : Prop where
  hop_limit : av.hop_limit = if req.hopLimit ≠ 0 then req.hopLimit else 64
  tclass : av.tclass = req.trafficClass ||| MLX_AV_ECN_ENABLED
  rmac : av.rmac = req.dmac
  rlid : av.rlid = beBlock 2 (if req.udpSport ≠ 0 then req.udpSport else MLX_ROCE_V2_UDP_DPORT).toNat

theorem encodeAV_hasMac (h : ¬ req.ahType = 1) : HasMac req (encodeAV req) := by
  unfold encodeAV
  dsimp only
  rw [if_neg h]
  exact ⟨rfl,rfl,rfl,rfl⟩

theorem encodeAV_roce (h : req.ahType = 0) : RoceFields req (encodeAV req) := by
  have hgrh := encodeAV_hasGrh (.inl h)
  have hmac := encodeAV_hasMac (roce_ne_ib h)
  refine ⟨hgrh.rgid,hmac.rmac,hgrh.present,?_,?_,hmac.tclass⟩
  · rw [MlxAV.flowLabel, hgrh.grh, grhWord_flowLabel]
  · exact hmac.hop_limit.trans (ite_not _ _ _)

theorem encodeAV_sgidIndex (h : req.ahType = 0) (hindex : req.sgidIndex.toNat < 1024) :
    (encodeAV req).sgidIndex.toNat = req.sgidIndex.toNat := by
  rw [MlxAV.sgidIndex, (encodeAV_hasGrh (.inl h)).grh, grhWord_sgidIndex, BitVec.toNat_setWidth, Nat.mod_eq_of_lt hindex]

theorem encodeAV_udpSport (h : req.ahType = 0) :
    (encodeAV req).lid = if req.udpSport = 0 then MLX_ROCE_V2_UDP_DPORT else req.udpSport := by
  rw [MlxAV.lid, (encodeAV_hasMac (roce_ne_ib h)).rlid, ofBytes_beBlock_word (by decide)]
  exact ite_not _ _ _

theorem encodeAV_ib (h : req.ahType = 1) : IbFields req (encodeAV req) := by
  unfold encodeAV
  dsimp only
  rw [if_pos h]
  refine ⟨ofBytes_beBlock_word (by decide) _,?_,?_⟩
  · dsimp only
    rw [BitVec.toNat_and]
    exact Nat.and_two_pow_sub_one_eq_mod _ 7
  · dsimp only
    rw [show 0 ||| (req.sl &&& 0xf) = req.sl &&& 0xf from BitVec.zero_or, BitVec.toNat_and]
    exact Nat.and_two_pow_sub_one_eq_mod _ 4

theorem encodeAV_faithful (req : CreateAhReq) : Faithful req (encodeAV req) where
  roce := encodeAV_roce
  sgidIndex := encodeAV_sgidIndex
  udpSport := encodeAV_udpSport
  ib := encodeAV_ib
  grh := fun _ hprefix => ⟨(encodeAV_hasGrh (.inr hprefix)).present,(encodeAV_hasGrh (.inr hprefix)).rgid⟩

/-! ## The table -/

namespace MlxAH
variable {a : Answers} {s : MlxAH} {handle : BitVec 32}

/-- A request that is accepted puts one context at the end of the table. -/
theorem createAH_ok (h : (s.createAH req a).1 = .ok handle) :
    ∃ ctx, (s.createAH req a).2.fAhTable = s.fAhTable ++ [ctx] ∧ ctx.ahHandle = handle ∧ ctx.av = encodeAV req := by
  unfold createAH at h ⊢
  split_ifs at h ⊢
  exact ⟨s.newContext req,rfl,Except.ok.inj h,rfl⟩

theorem createAH_error {kr : IOReturn} (h : (s.createAH req a).1 = .error kr) :
    (s.createAH req a).2.fAhTable = s.fAhTable := by
  unfold createAH at h ⊢
  split_ifs at h ⊢ <;> rfl

/-- The stored vector gives the request back, with the port and the index that fit it. -/
theorem createAH_faithful (h : (s.createAH req a).1 = .ok handle) :
    ∃ ctx, (s.createAH req a).2.fAhTable = s.fAhTable ++ [ctx] ∧ ctx.ahHandle = handle ∧ Faithful req ctx.av := by
  obtain ⟨ctx,htable,hhandle,hav⟩ := createAH_ok h
  exact ⟨ctx,htable,hhandle,hav ▸ encodeAV_faithful req⟩

end MlxAH

/-! ## Runs -/

inductive Call
  | createAH (req : CreateAhReq) (a : Answers)
  | destroyAH (ahHandle : BitVec 32)

def Call.run (s : MlxAH) : Call → MlxAH
  | .createAH req a => (s.createAH req a).2
  | .destroyAH ahHandle => (s.destroyAH ahHandle).2

def run (calls : List Call) : MlxAH := calls.foldl Call.run .init

/-- The context is that of a `createAH` among the calls, which answered with its handle. -/
def MadeBy (calls : List Call) (ctx : MlxAHContext) : Prop :=
  ∃ before req a after, calls = before ++ .createAH req a :: after ∧
    ((run before).createAH req a).1 = .ok ctx.ahHandle ∧
    ctx.av = encodeAV req

theorem MadeBy.concat {calls : List Call} {ctx : MlxAHContext} (h : MadeBy calls ctx) (call : Call) :
    MadeBy (calls ++ [call]) ctx := by
  obtain ⟨before,req,a,after,rfl,hanswer,hav⟩ := h
  exact ⟨before,req,a,after ++ [call],by simp,hanswer,hav⟩

theorem madeBy_run (calls : List Call) : ∀ ctx ∈ (run calls).fAhTable, MadeBy calls ctx := by
  induction calls using List.reverseRecOn with
  | nil =>
    intro ctx hctx
    cases hctx
  | append_singleton calls call ih =>
    intro ctx hctx
    rw [run, List.foldl_concat, ← run] at hctx
    cases call with
    | createAH req a =>
      rw [Call.run] at hctx
      cases hkr : ((run calls).createAH req a).1 with
      | error kr =>
        rw [MlxAH.createAH_error hkr] at hctx
        exact (ih ctx hctx).concat _
      | ok handle =>
        obtain ⟨new,htable,rfl,hav⟩ := MlxAH.createAH_ok hkr
        rw [htable] at hctx
        rcases List.mem_append.mp hctx with hold | hnew
        · exact (ih ctx hold).concat _
        · rw [List.mem_singleton.mp hnew]
          exact ⟨calls,req,a,[],rfl,hkr,hav⟩
    | destroyAH ahHandle =>
      rw [Call.run, MlxAH.destroyAH] at hctx
      split at hctx
      · exact (ih ctx (List.mem_of_mem_eraseP hctx)).concat _
      · exact (ih ctx hctx).concat _

/-- What `lookup` finds after any calls is faithful to the request of a `createAH` that answered with the handle. -/
theorem lookup_faithful (calls : List Call) {handle : BitVec 32} {ctx : MlxAHContext} (h : (run calls).lookup handle = some ctx) :
    ∃ before req a after, calls = before ++ .createAH req a :: after ∧ ((run before).createAH req a).1 = .ok handle ∧
      Faithful req ctx.av := by
  obtain ⟨before,req,a,after,hcalls,hanswer,hav⟩ := madeBy_run calls ctx (List.mem_of_find?_eq_some h)
  have hhandle : ctx.ahHandle = handle := by simpa using List.find?_some h
  exact ⟨before,req,a,after,hcalls,hhandle ▸ hanswer,hav ▸ encodeAV_faithful req⟩

/-! ## Requests -/

def roceReq (sgidIndex : BitVec 32) (udpSport : BitVec 16) : CreateAhReq :=
  ⟨.zero 6,.zero 16,sgidIndex,0,0,udpSport,1,0,0,0,0⟩

/-- A GID of which only the last byte is not zero. -/
def ibReq : CreateAhReq := ⟨.zero 6,beBlock 16 1,0,0,0,0,1,1,7,0,0⟩

def granted : Answers := ⟨true,true,true⟩

theorem createAH_faithful_roce : ∃ ctx, (MlxAH.init.createAH (roceReq 5 4660) granted).2.fAhTable = [ctx] ∧
    ctx.ahHandle = 1 ∧
    Faithful (roceReq 5 4660) ctx.av :=
  MlxAH.createAH_faithful rfl

/-- Every vector that the request gets gives it back. -/
def GivenBack (req : CreateAhReq) : Prop := ∀ (a : Answers) (s : MlxAH) (handle : BitVec 32),
    (s.createAH req a).1 = .ok handle →
  ∃ ctx, (s.createAH req a).2.fAhTable = s.fAhTable ++ [ctx] ∧ GivesBack req ctx.av

theorem GivenBack.encodeAV {req : CreateAhReq} (h : GivenBack req) : GivesBack req (encodeAV req) := by
  obtain ⟨ctx,htable,hback⟩ := h granted .init 1 rfl
  obtain rfl : MlxAH.init.newContext req = ctx := List.singleton_inj.mp htable
  exact hback

/-- No port, an index of eleven bits, and a GID that begins with zero bytes. -/
theorem createAH_not_givenBack : ¬ GivenBack (roceReq 5 0) ∧ ¬ GivenBack (roceReq 1024 4660) ∧ ¬ GivenBack ibReq := by
  refine ⟨fun h => ?_,fun h => ?_,fun h => ?_⟩
  · have hport := (h.encodeAV.roce rfl).2.2
    revert hport
    decide
  · have hindex := (h.encodeAV.roce rfl).2.1
    revert hindex
    decide
  · have hgrh := ((h.encodeAV.ib rfl).2 (by decide)).1
    revert hgrh
    decide

end AppleMCX.AddressHandle
