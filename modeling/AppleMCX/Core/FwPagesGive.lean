import AppleMCX.Core.FwPagesBatches
import AppleMCX.Hw.P1Encoding

/-! # Giving pages

What `givePages` does as a function of the outcome of its allocations and commands: which pages
each GIVE names, and which of them stay tracked.
-/
namespace AppleMCX.FwPages
open Interaction Hw

/-! ## Allocating -/

theorem allocatePage_post (functionId : ℕ) (embedded : Bool) (phase : Phase) (w : World) :
    Prog.Post anyEnv (allocatePage functionId embedded phase) (fun es r t => Quiet es ∧ r.1 ≠ .timeout ∧
      if r.1 = .success then ∃ p : FwPage, r.2 = p.record ∧ p.record = w.host.nextRecord ∧ p.functionId = functionId ∧
        p.embedded = embedded ∧ p.ownership = .hostPrepared ∧ t = { w with host := w.host.insertPage p }
      else t = w) w := by
  simp only [allocatePage, Prog.bind_eq, Prog.pure_eq, post_allocate, post_setMemoryDescriptor, post_gen64IOVMSegments, post_host,
    Prog.post_ite, Prog.post_done]
  simp only [reduceCtorEq, ↓reduceIte, ne_eq, not_false_eq_true, true_and]
  refine fun a => ⟨fun _ => ⟨quiet_nil,trivial⟩,
    fun _ b => ⟨fun _ => ⟨quiet_nil,trivial⟩,fun _ c => ⟨fun _ => ⟨quiet_nil,trivial⟩,
    fun _ d => ⟨fun _ => ⟨quiet_nil,trivial⟩,fun _ kr => ⟨fun _ => ⟨quiet_nil,trivial⟩,fun _ segment =>
      ⟨fun _ => ⟨quiet_nil,trivial⟩,fun _ => ?_⟩⟩⟩⟩⟩⟩
  exact ⟨quiet_inserted w _,(fun h => by cases h),_,rfl,rfl,rfl,rfl,rfl,rfl⟩

/-- The pages allocated so far: prepared, new, and on top of the list. -/
structure Allocated (functionId : ℕ) (embedded : Bool) (w : World) (pages : List FwPage) (t : World) : Prop where
  stacked : Stacked t.host [] pages w.host.fPages
  accounted : t.host.Accounted
  later : w.host.nextRecord ≤ t.host.nextRecord
  prepared : ∀ p ∈ pages, p.ownership = .hostPrepared
  new : ∀ p ∈ pages, w.host.nextRecord ≤ p.record ∧ p.functionId = functionId ∧ p.embedded = embedded

theorem Allocated.length {functionId : ℕ} {embedded : Bool} {w t : World} {pages : List FwPage}
    (h : Allocated functionId embedded w pages t) : t.host.fTrackedPages = pages.length + w.host.fPages.length := by
  rw [h.accounted.tracked, h.stacked]
  simp

theorem allocatePages_post (functionId : ℕ) (embedded : Bool) (phase : Phase)
    (more : ℕ) {w : World} (pages : List FwPage) {t : World}
    (h : Allocated functionId embedded w pages t) (hmax : t.host.fTrackedPages + more ≤ maxTrackedPages) :
    Prog.Post anyEnv (allocatePages functionId embedded phase more (pages.map (·.record)))
      (fun es r u => Quiet es ∧ r.1 ≠ .timeout ∧
      ∃ pages', r.2 = pages'.map (·.record) ∧ Allocated functionId embedded w pages' u ∧
        (r.1 = .success → pages'.length = pages.length + more)) t := by
  induction more generalizing pages t with
  | zero => exact ⟨quiet_nil,by simp,pages,rfl,h,fun _ => rfl⟩
  | succ more ih =>
    refine Prog.Post.bind (allocatePage_post functionId embedded phase t) ?_
    rintro es ⟨kr,record⟩ u ⟨hq,ht,hpost⟩
    by_cases hk : kr = .success
    · simp only [hk, ↓reduceIte] at hpost
      obtain ⟨p,rfl,hrecord,hf,he,ho,rfl⟩ := hpost
      simp only [hk, ne_eq, not_true_eq_false, ↓reduceIte]
      have hnext : Allocated functionId embedded w (pages ++ [p]) { t with host := t.host.insertPage p } := by
        have hlater := h.later
        refine ⟨?_,h.accounted.insertPage hrecord (by omega),?_,?_,?_⟩
        · show p :: t.host.fPages = _
          rw [h.stacked]
          simp
        · show w.host.nextRecord ≤ p.record + 1
          omega
        · intro q hq
          rcases List.mem_append.mp hq with hq | hq
          · exact h.prepared q hq
          · rw [List.mem_singleton.mp hq]
            exact ho
        · intro q hq
          rcases List.mem_append.mp hq with hq | hq
          · exact h.new q hq
          · rw [List.mem_singleton.mp hq]
            exact ⟨by omega,hf,he⟩
      have hcount : (t.host.insertPage p).fTrackedPages + more ≤ maxTrackedPages := by
        show t.host.fTrackedPages + 1 + more ≤ _
        omega
      have hrest := ih (pages ++ [p]) hnext hcount
      rw [List.map_append] at hrest
      refine hrest.mono ?_
      rintro es' r u ⟨hq',ht',pages',hr,halloc,hlen⟩
      refine ⟨hq.append hq',ht',pages',hr,halloc,fun hs => ?_⟩
      rw [hlen hs, List.length_append, List.length_singleton]
      omega
    · simp only [hk, ↓reduceIte] at hpost
      subst hpost
      simp only [ne_eq, hk, not_false_eq_true, ↓reduceIte, Prog.pure_eq, Prog.post_done, List.append_nil]
      exact ⟨hq,ht,pages,rfl,h,fun hs => hs.elim⟩

/-! ## `givePages` -/

/-- What a call of `givePages` leads to: `new` are the pages it allocates, in the batches `done` that
succeeded, the batch `failed` that did not, and the pages `later` that were never given. -/
structure GiveOutcome (functionId : ℕ) (embedded : Bool) (pageCount : ℕ) (w : World) (es : List PageEvent) (kr : IOReturn)
    (t : World) (new : List FwPage) (done : List (List FwPage)) (failed later : List FwPage) : Prop where
  fresh : ∀ p ∈ new, w.host.nextRecord ≤ p.record ∧ p.functionId = functionId ∧ p.embedded = embedded
  distinct : (new.map (·.record)).Nodup
  split : new = done.flatten ++ (failed ++ later)
  sizes : ∀ batch ∈ done, 1 ≤ batch.length ∧ batch.length ≤ maxManagePages
  /-- A page is named by the GIVE of its batch and by no other; a batch that fails is the last. -/
  commands : ∃ last, gives es = done.map (fun batch => ⟨functionId,embedded,batch,.success⟩) ++ last ∧
    (last = [⟨functionId,embedded,failed,kr⟩] ∧ 1 ≤ failed.length ∧
      failed.length ≤ maxManagePages ∨ last = [] ∧ kr ≠ .timeout)
  success : kr = .success → new.length = pageCount ∧ done.flatten = new
  tracked : t.host.fPages = (keptPages done failed kr).reverse ++ w.host.fPages
  released : releases es = ((if kr = .timeout then [] else failed) ++ later).map some
  fatal : kr ≠ .success → keptPages done failed kr ≠ [] → t.host.fFatal = true

theorem Gave.outcome {functionId : ℕ} {embedded : Bool} {pageCount : ℕ} {w t u : World} {es : List PageEvent} {kr : IOReturn}
    {new failed later : List FwPage} {done : List (List FwPage)} (halloc : Allocated functionId embedded w new u)
    (g : Gave functionId embedded 0 [] new w.host.fPages es kr t.host done failed later)
    (hcount : kr = .success → new.length = pageCount) :
    GiveOutcome functionId embedded pageCount w es kr t new done failed later where
  fresh := halloc.new
  distinct := by
    have hn := halloc.accounted.nodup
    rw [halloc.stacked, List.map_append, List.nil_append, List.map_reverse] at hn
    exact List.nodup_reverse.mp (List.nodup_append.mp hn).1
  split := g.split
  sizes := fun batch hb => ⟨List.length_pos_of_ne_nil (g.sizes batch hb).1,(g.sizes batch hb).2⟩
  commands := by
    obtain ⟨last,hg,hlast⟩ := g.commands
    exact ⟨last,hg,hlast.imp (fun h => ⟨h.1,List.length_pos_of_ne_nil h.2.1,h.2.2⟩) id⟩
  success := by
    intro hk
    obtain ⟨rfl,rfl⟩ := g.success hk
    have hsplit := g.split
    rw [List.append_nil, List.append_nil] at hsplit
    exact ⟨hcount hk,hsplit.symm⟩
  tracked := g.tracked
  released := g.released
  fatal := by
    refine fun hk hkept => g.fatal hk (Or.inr ?_)
    by_contra hnone
    simp only [not_or, ne_eq, not_not] at hnone
    refine hkept ?_
    rw [keptPages, hnone.1, if_neg hnone.2]
    rfl

theorem givePages_post (functionId : ℕ) (embedded : Bool) (pageCount : ℕ) (phase : Phase) (notifyFailure : Bool) {w : World}
    (hacc : w.host.Accounted) :
    Prog.Post anyEnv (givePages functionId embedded pageCount phase notifyFailure) (fun es kr t =>
      ∃ new done failed later, GiveOutcome functionId embedded pageCount w es kr t new done failed later) w := by
  have hstart : Allocated functionId embedded w [] w :=
    ⟨rfl,hacc,le_rfl,fun p hp => absurd hp List.not_mem_nil,fun p hp => absurd hp List.not_mem_nil⟩
  have hnone : ∀ {kr : IOReturn} {es : List PageEvent}, gives es = [] → releases es = [] → kr ≠ .timeout →
      (kr = .success → pageCount = 0) →
      ∃ new done failed later, GiveOutcome functionId embedded pageCount w es kr w new done failed later := by
    intro kr es hg hr ht hzero
    exact ⟨[],[],[],[],Gave.outcome hstart (.ungiven hg hr ht rfl (fun _ => rfl) (fun _ => rfl)) (fun hk => (hzero hk).symm)⟩
  simp only [givePages, Prog.bind_eq, Prog.pure_eq, Prog.post_ite, Prog.post_done, post_host, post_allocate,
    post_notifyAllocationFailure]
  refine ⟨fun hz => hnone rfl rfl (by decide) (fun _ => hz),fun hz => ⟨fun _ =>
    ⟨fun _ _ => hnone rfl rfl (by decide) (fun h => by cases h),fun _ => hnone rfl rfl (by decide) (fun h => by cases h)⟩,
    fun hmax a b => ⟨fun _ => ⟨fun _ _ => hnone rfl rfl (by decide) (fun h => by cases h),
      fun _ => hnone rfl rfl (by decide) (fun h => by cases h)⟩,fun _ => ?_⟩⟩⟩
  rw [not_or, not_lt, not_lt] at hmax
  have halloc := allocatePages_post functionId embedded phase pageCount [] hstart (by omega)
  rw [List.map_nil] at halloc
  refine Prog.Post.bind halloc ?_
  rintro es ⟨kr,records⟩ t ⟨hq,ht,new,hrecords,hnew,hcount⟩
  dsimp only at ht hrecords hcount
  subst hrecords
  have hq : Quiet (.asked .allocate a :: .asked .allocate b :: es) := hq
  rw [Prog.post_ite]
  refine ⟨fun hk => ?_,fun hk => ?_⟩
  · refine Prog.Post.bind (forEach_cleanUp_post cleansUp_releasePage hnew.stacked hnew.accounted) ?_
    rintro es' _ u ⟨_,hg,hr,hu⟩
    have houtcome : ∀ es'' : List PageEvent, Quiet es'' → ∃ new done failed later,
        GiveOutcome functionId embedded pageCount w (.asked .allocate a :: .asked .allocate b :: es ++ (es' ++ es'')) kr u
          new done failed later := by
      intro es'' hq''
      refine ⟨new,[],[],new,Gave.outcome hnew (.ungiven ?_ ?_ ht ?_ (fun h => absurd h hk) (fun _ => rfl))
        (fun h => absurd h hk)⟩
      · rw [gives_append, gives_append, hq.1, hg, hq''.1]
        rfl
      · rw [releases_append, releases_append, hq.2, hr, hq''.2]
        simp
      · rw [Stacked, hu]
        simp
    simp only [Prog.post_ite, Prog.post_done, post_notifyAllocationFailure]
    exact ⟨fun _ _ => houtcome _ ⟨rfl,rfl⟩,fun _ => houtcome [] quiet_nil⟩
  · have hs : kr = .success := not_not.mp hk
    have hlen := hcount hs
    rw [List.length_nil, Nat.zero_add] at hlen
    refine (giveBatches_post functionId embedded pageCount 0 hnew.stacked hnew.accounted hnew.prepared (Nat.le_of_eq hlen)
      (fun h => absurd rfl h)).mono ?_
    rintro es' kr' u ⟨done,failed,later,g⟩
    refine ⟨new,done,failed,later,Gave.outcome hnew ⟨g.split,g.sizes,?_,g.success,g.tracked,?_,g.fatal⟩ (fun _ => hlen)⟩
    · have hgives : gives (.asked .allocate a :: .asked .allocate b :: es ++ es') = gives es' := by
        rw [gives_append, hq.1]
        rfl
      obtain ⟨last,hg,hlast⟩ := g.commands
      exact ⟨last,hgives.trans hg,hlast⟩
    · have hreleases : releases (.asked .allocate a :: .asked .allocate b :: es ++ es') = releases es' := by
        rw [releases_append, hq.2]
        rfl
      exact hreleases.trans g.released

/-- In every run of page operations the account holds, and for every request, every allocation and every
command outcome `givePages` leads to one of the outcomes above. -/
theorem givePages_accounting (fEmbedded : Bool) :
    (∀ w, Passes anyEnv Operation.run (fun _ _ => True) (initial fEmbedded) w →
      w.host.fTrackedPages = w.host.fPages.length ∧ (w.host.fPages.map (·.record)).Nodup ∧
        w.host.fPages.length ≤ maxTrackedPages) ∧
    (∀ w, Passes anyEnv Operation.run (fun _ _ => True) (initial fEmbedded) w →
      ∀ functionId embedded pageCount phase notifyFailure es kr t,
        Prog.Traces anyEnv (givePages functionId embedded pageCount phase notifyFailure) w es kr t →
        ∃ new done failed later, GiveOutcome functionId embedded pageCount w es kr t new done failed later) := by
  refine ⟨fun w hw => ?_,fun w hw functionId embedded pageCount phase notifyFailure es kr t ht => ?_⟩
  · have hacc := passes_accounted fEmbedded hw
    exact ⟨hacc.tracked,hacc.nodup,hacc.max⟩
  · exact (givePages_post functionId embedded pageCount phase notifyFailure (passes_accounted fEmbedded hw)).traces ht

/-- A boot page is allocated and given. -/
theorem givePages_accounting_oneBootPage : ∃ es new done failed later,
    GiveOutcome 0 false 1 (initial false) es .success
      ((givePages 0 false 1 .boot false).run anyEnv (fun _ => onePageAnswers) 0 (initial false)).2 new done failed later := by
  obtain ⟨es,hes⟩ := (Prog.run_returns (E := anyEnv) (fun _ => onePageAnswers) (fun _ _ _ => trivial)
    (givePages 0 false 1 .boot false) 0 (initial false)).traces
  exact ⟨es,(givePages_accounting false).2 _ (.inl .start) 0 false 1 .boot false es .success _ hes⟩

/-! ## The image of a GIVE -/

def GiveCommand.addresses (c : GiveCommand) :
    ℕ → BitVec 64 := fun i => BitVec.ofNat 64 ((c.pages.map (·.dmaAddress)).getD i 0)

/-- What `giveBatch` encodes into a fresh buffer of `mlxP1ManagePagesSize(count)` bytes. -/
def GiveCommand.encoded (c : GiveCommand) : Bool × Option Buffer :=
  let count := BitVec.ofNat 32 c.pages.length
  mlxP1EncodeManagePages (some (fun _ => 0)) (mlxP1ManagePagesSize count).toNat mlxP1PagesGive (BitVec.ofNat 16 c.functionId)
    c.embedded (some c.addresses) count

def imageAddresses (image : Buffer) : List (BitVec 64) :=
  (List.range (mlxGetBits image 0x60 32).toNat).map (fun i => mlxGetBits image (0x80 + 64 * i) 64)

theorem GiveCommand.encoded_addresses (c : GiveCommand) (hne : c.pages ≠ []) (hmax : c.pages.length ≤ maxManagePages) :
    ∃ image, c.encoded = (true,some image) ∧ imageAddresses image = c.pages.map (fun p => BitVec.ofNat 64 p.dmaAddress) := by
  have hlen : (BitVec.ofNat 32 c.pages.length).toNat = c.pages.length := by
    rw [BitVec.toNat_ofNat]
    exact Nat.mod_eq_of_lt (lt_of_le_of_lt hmax (by decide))
  have hmax' : (BitVec.ofNat 32 c.pages.length).toNat ≤ 512 := hlen.trans_le hmax
  have hvalid : ManagePagesValid (some (fun _ => 0)) (mlxP1ManagePagesSize (BitVec.ofNat 32 c.pages.length)).toNat
      mlxP1PagesGive (some c.addresses) (BitVec.ofNat 32 c.pages.length) := by
    refine ⟨by decide,hmax',⟨rfl,?_⟩,fun _ => ⟨rfl,fun hz => ?_⟩⟩
    · rw [mlxP1ManagePagesSize_toNat hmax', managePagesNeeded, if_pos rfl]
    · have hzero := congrArg BitVec.toNat hz
      rw [hlen] at hzero
      exact hne (List.length_eq_zero_iff.mp hzero)
  rcases mlxP1EncodeManagePages_cases (some (fun _ => 0)) (mlxP1ManagePagesSize (BitVec.ofNat 32 c.pages.length)).toNat
    mlxP1PagesGive (BitVec.ofNat 16 c.functionId) c.embedded (some c.addresses) (BitVec.ofNat 32 c.pages.length)
    with ⟨hno,_⟩ | ⟨_,before,image,_,himage,hencoded⟩
  · exact absurd hvalid hno
  · refine ⟨image,hencoded,?_⟩
    have hcount : (mlxGetBits image 0x60 32).toNat = c.pages.length := by
      rw [himage.readCount, BitVec.toNat_setWidth, hlen]
      exact Nat.mod_eq_of_lt (lt_of_le_of_lt hmax (by decide))
    rw [imageAddresses, hcount]
    refine List.ext_getElem (by simp) (fun i hi hi' => ?_)
    have hlt : i < c.pages.length := by simpa using hi'
    rw [List.getElem_map, List.getElem_map, List.getElem_range,
      himage.readPage rfl c.addresses rfl i (hlt.trans_eq hlen.symm)]
    simp [GiveCommand.addresses, hlt]

/-- The encoder accepts exactly the valid commands, touches nothing otherwise and leaves the image of
the command; and the pages that a successful batch gets marked firmware-owned are, in order, those at the
addresses in the image of its one GIVE. -/
theorem managePages_encoding :
    (∀ input length opMod functionId embedded pages count,
      (¬ ManagePagesValid input length opMod pages count ∧
        mlxP1EncodeManagePages input length opMod functionId embedded pages count = (false,input)) ∨
      (ManagePagesValid input length opMod pages count ∧ ∃ before after, input = some before ∧
        ManagePagesImage opMod functionId embedded pages count before after ∧
        mlxP1EncodeManagePages input length opMod functionId embedded pages count = (true,some after))) ∧
    (∀ fEmbedded w, Passes anyEnv Operation.run (fun _ _ => True) (initial fEmbedded) w →
      ∀ batch : List FwPage, (∀ p ∈ batch, p ∈ w.host.fPages) → ∀ functionId embedded es t,
        Prog.Traces anyEnv (giveBatch (batch.map (·.record)) functionId embedded) w es .success t →
        ∃ c image, gives es = [c] ∧ c.functionId = functionId ∧ c.embedded = embedded ∧ c.encoded = (true,some image) ∧
          imageAddresses image = batch.map (fun p => BitVec.ofNat 64 p.dmaAddress) ∧
          t.host.fPages = w.host.fPages.map (fun p => if p.record ∈ batch.map (·.record) then p.owned .firmwareOwned
            else p)) := by
  refine ⟨mlxP1EncodeManagePages_cases,fun fEmbedded w hw batch hb functionId embedded es t ht => ?_⟩
  obtain ⟨_,⟨_,hno,_⟩ | ⟨hne,hmax,hg,hhost⟩⟩ :=
    (giveBatch_post hb (passes_accounted fEmbedded hw) functionId embedded).traces ht
  · exact absurd rfl hno
  · obtain ⟨image,hencoded,himage⟩ := GiveCommand.encoded_addresses ⟨functionId,embedded,batch,.success⟩ hne hmax
    refine ⟨_,image,hg,rfl,rfl,hencoded,himage,?_⟩
    rw [hhost, setOwnerships_eq]
    rfl

def bootPageWorld : World :=
  ((Operation.satisfyStartupPages .boot).run.run anyEnv (fun _ => onePageAnswers) 0 (initial false)).2

theorem managePages_encoding_bootPage : ∃ es c image, gives es = [c] ∧ c.encoded = (true,some image) ∧
    imageAddresses image = [4096] := by
  have hw : Passes anyEnv Operation.run (fun _ _ => True) (initial false) bootPageWorld :=
    .inl (.next (o := .satisfyStartupPages .boot) .start trivial
      (Prog.run_returns _ (fun _ _ _ => trivial) (Operation.satisfyStartupPages .boot).run 0 _))
  obtain ⟨es,hes⟩ := (Prog.run_returns (E := anyEnv) (fun _ => onePageAnswers) (fun _ _ _ => trivial)
    (giveBatch (bootPageWorld.host.fPages.map (·.record)) 0 false) 0 bootPageWorld).traces
  obtain ⟨c,image,hg,_,_,hencoded,himage,_⟩ := managePages_encoding.2 false bootPageWorld hw bootPageWorld.host.fPages
    (fun _ hp => hp) 0 false es _ hes
  exact ⟨es,c,image,hg,hencoded,himage⟩

end AppleMCX.FwPages
