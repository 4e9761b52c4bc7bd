import AppleMCX.Core.FwPagesTake

/-! # Accounting of the lent pages

`fTrackedPages` is the length of `fPages`, no record stands there twice, and the limit holds.
Every step of every operation keeps this, whatever the firmware answers.
-/
namespace AppleMCX.FwPages
open Interaction

structure State.Accounted (s : State) : Prop where
  tracked : s.fTrackedPages = s.fPages.length
  nodup : (s.fPages.map (·.record)).Nodup
  below : ∀ p ∈ s.fPages, p.record < s.nextRecord
  max : s.fPages.length ≤ maxTrackedPages

theorem accounted_initial (fEmbedded : Bool) : (initial fEmbedded).host.Accounted :=
  ⟨rfl,List.nodup_nil,by simp [initial],Nat.zero_le _⟩

namespace State.Accounted
variable {s : State}

/-- Changes that keep the record and the number of each page. -/
theorem map (h : s.Accounted) {f : FwPage → FwPage} (hf : ∀ p, (f p).record = p.record) :
    { s with fPages := s.fPages.map f }.Accounted where
  tracked := by simpa using h.tracked
  nodup := by simpa [Function.comp_def, hf] using h.nodup
  below := by
    intro p hp
    obtain ⟨q,hq,rfl⟩ := List.mem_map.mp hp
    rw [hf]
    exact h.below q hq
  max := by simpa using h.max

theorem setOwnership (h : s.Accounted) (record : ℕ) (o : Ownership) : (s.setOwnership record o).Accounted :=
  h.map (fun p => by split <;> rfl)

theorem markFunctionAmbiguous (h : s.Accounted) (functionId : ℕ) (embedded : Bool) :
    (s.markFunctionAmbiguous functionId embedded).Accounted := h.map (fun p => by split <;> rfl)

theorem setFatal (h : s.Accounted) (fault : Fault) : (s.setFatal fault).Accounted := ⟨h.tracked,h.nodup,h.below,h.max⟩

theorem insertPage (h : s.Accounted) {p : FwPage} (hp : p.record = s.nextRecord) (hmax : s.fTrackedPages < maxTrackedPages) :
    (s.insertPage p).Accounted where
  tracked := congrArg (· + 1) h.tracked
  nodup := by
    refine List.nodup_cons.mpr ⟨fun hm => ?_,h.nodup⟩
    obtain ⟨q,hq,hqp⟩ := List.mem_map.mp hm
    have hb := h.below q hq
    dsimp only at hqp
    omega
  below := by
    intro q hq
    rcases List.mem_cons.mp hq with rfl | hq
    · exact Nat.lt_succ_self _
    · have hb := h.below q hq
      show q.record < p.record + 1
      omega
  max := by
    rw [h.tracked] at hmax
    exact hmax

theorem releasePage (h : s.Accounted) {record : ℕ} (hr : record ∈ s.fPages.map (·.record)) :
    (s.releasePage record).Accounted where
  tracked := by
    obtain ⟨p,hp,hpr⟩ := List.mem_map.mp hr
    have hlen := List.length_eraseP_of_mem hp (p := fun q => q.record == record) (by simpa using hpr)
    exact (congrArg (· - 1) h.tracked).trans hlen.symm
  nodup := h.nodup.sublist (List.eraseP_sublist.map _)
  below := fun p hp => h.below p (List.mem_of_mem_eraseP hp)
  max := le_trans List.length_eraseP_le h.max

end State.Accounted

/-! ## The operations -/

def World.records (w : World) : List ℕ := w.host.fPages.map (·.record)

/-- Every state that a run passes through is accounted. -/
abbrev Keeps {α : Type} (p : Pages α) (R : α → World → Prop) (w : World) : Prop :=
  Prog.Always anyEnv (fun t => t.host.Accounted) p R w

section
variable {α : Type} {R : α → World → Prop} {w : World}

theorem keeps_query {q : Question} {f : Answer q → Pages α} : Keeps ((Prog.query q).bind f) R w ↔
    w.host.Accounted ∧ ∀ a, Keeps (f a) R { w with fw := fwEffect w.fw q a } :=
  and_congr_right (fun _ => forall_congr' (fun _ => forall_prop_of_true trivial))

theorem keeps_allocate {f : Bool → Pages α} : Keeps (allocate.bind f) R w ↔ w.host.Accounted ∧ ∀ a, Keeps (f a) R w :=
  keeps_query

theorem keeps_setMemoryDescriptor {f : IOReturn → Pages α} :
    Keeps (setMemoryDescriptor.bind f) R w ↔ w.host.Accounted ∧ ∀ a, Keeps (f a) R w := keeps_query

theorem keeps_gen64IOVMSegments {f : Segment → Pages α} :
    Keeps (gen64IOVMSegments.bind f) R w ↔ w.host.Accounted ∧ ∀ a, Keeps (f a) R w := keeps_query

theorem keeps_notifyAllocationFailure {f : IOReturn → Pages α} (functionId : ℕ) (embedded : Bool) :
    Keeps ((notifyAllocationFailure functionId embedded).bind f) R w ↔ w.host.Accounted ∧ ∀ a, Keeps (f a) R w :=
  keeps_query

theorem keeps_execQueryPages {f : QueryReply → Pages α} (phase : Phase) (embedded : Bool) :
    Keeps ((execQueryPages phase embedded).bind f) R w ↔ w.host.Accounted ∧ ∀ a, Keeps (f a) R w := keeps_query

theorem keeps_execGive {f : IOReturn → Pages α} (functionId : ℕ) (embedded : Bool) (pages : List FwPage) :
    Keeps ((execGive functionId embedded pages).bind f) R w ↔ w.host.Accounted ∧ ∀ kr : IOReturn,
      Keeps (f kr) R { w with fw := fwEffect w.fw (.give functionId embedded pages) kr } := keeps_query

theorem keeps_execTake {f : TakeReply → Pages α} (functionId : ℕ) (embedded : Bool) (requested : ℕ) :
    Keeps ((execTake functionId embedded requested).bind f) R w ↔ w.host.Accounted ∧ ∀ reply : TakeReply,
      Keeps (f reply) R { w with fw := fwEffect w.fw (.take functionId embedded requested) reply } := keeps_query

theorem keeps_update {g : State → State} {f : Unit → Pages α} :
    Keeps ((update g).bind f) R w ↔ w.host.Accounted ∧ Keeps (f ()) R { w with host := g w.host } := Iff.rfl

theorem keeps_host {f : State → Pages α} : Keeps (host.bind f) R w ↔ Keeps (f w.host) R w := Iff.rfl

end

theorem allocatePage_keeps {w : World} (h : w.host.Accounted) (hmax : w.host.fTrackedPages < maxTrackedPages)
    (functionId : ℕ) (embedded : Bool) (phase : Phase) :
    Keeps (allocatePage functionId embedded phase) (fun r t =>
      if r.1 = .success then t.host.fTrackedPages = w.host.fTrackedPages + 1 ∧ t.records = r.2 :: w.records
      else t.host = w.host) w := by
  simp only [allocatePage, Prog.bind_eq, Prog.pure_eq, keeps_allocate, keeps_setMemoryDescriptor,
    keeps_gen64IOVMSegments, keeps_host, keeps_update, Prog.always_ite, Prog.always_done]
  simp only [h, reduceCtorEq, ↓reduceIte, and_self, implies_true, true_and]
  intro _ _ _ _ _ _ _ _ _ _ segment _
  exact ⟨h.insertPage rfl hmax,rfl,rfl⟩

/-- The counter and the records after the pages allocated so far. -/
theorem allocatePages_keeps (functionId : ℕ) (embedded : Bool) (phase : Phase) (more : ℕ) (pages : List ℕ) {w : World}
    (h : w.host.Accounted) (hmax : w.host.fTrackedPages + more ≤ maxTrackedPages) (hn : pages.Nodup)
    (hp : ∀ r ∈ pages, r ∈ w.records) :
    Keeps (allocatePages functionId embedded phase more pages) (fun r t => r.2.Nodup ∧ ∀ record ∈ r.2,
    record ∈ t.records) w := by
  induction more generalizing pages w with
  | zero => exact ⟨h,hn,hp⟩
  | succ more ih =>
    refine Prog.Always.bind (allocatePage_keeps h (by omega) functionId embedded phase) ?_
    rintro ⟨kr,record⟩ t ht hpost
    by_cases hk : kr = .success
    · simp only [hk, ↓reduceIte] at hpost
      simp only [hk, ne_eq, not_true_eq_false, ↓reduceIte]
      have hfresh : record ∉ w.records := by
        have hnodup := ht.nodup
        rw [show t.host.fPages.map (·.record) = record :: w.records from hpost.2] at hnodup
        exact (List.nodup_cons.mp hnodup).1
      refine ih (pages ++ [record]) ht (by omega) ?_ ?_
      · refine List.nodup_append.mpr ⟨hn,List.nodup_singleton _,fun a ha b hb he => hfresh ?_⟩
        rw [← List.mem_singleton.mp hb, ← he]
        exact hp a ha
      · intro r hr
        rw [hpost.2]
        rcases List.mem_append.mp hr with hr | hr
        · exact List.mem_cons_of_mem _ (hp r hr)
        · exact List.mem_cons.mpr (Or.inl (List.mem_singleton.mp hr))
    · simp only [hk, ↓reduceIte] at hpost
      simp only [ne_eq, hk, not_false_eq_true, ↓reduceIte]
      refine ⟨ht,hn,fun r hr => ?_⟩
      rw [World.records, hpost]
      exact hp r hr

theorem forEach_setOwnership_keeps (records : List ℕ) (o : Ownership) {w : World} (h : w.host.Accounted) :
    Keeps (Prog.forEach records (fun record => update (State.setOwnership record o))) (fun _ t => t.records = w.records) w := by
  refine Prog.Always.forEach (J := fun t : World => t.records = w.records) records ?_ h rfl
  intro record _ t ht hJ
  exact ⟨ht,ht.setOwnership record o,(setOwnership_records record o t.host).trans hJ⟩

theorem giveBatch_keeps (batch : List ℕ) (functionId : ℕ) (embedded : Bool) {w : World} (h : w.host.Accounted) :
    Keeps (giveBatch batch functionId embedded) (fun _ t => t.records = w.records) w := by
  simp only [giveBatch, Prog.bind_eq, Prog.pure_eq, keeps_allocate, keeps_host, Prog.always_ite, Prog.always_done]
  refine ⟨fun _ => ⟨h,trivial⟩,fun _ => ⟨h,fun _ => ⟨h,fun _ => ⟨fun _ => ⟨h,trivial⟩,fun _ => ?_⟩⟩⟩⟩
  refine Prog.Always.bind (forEach_setOwnership_keeps batch .givePending h) (fun _ t ht hrec => ?_)
  refine keeps_execGive _ _ _ |>.mpr ⟨ht,fun kr => ?_⟩
  refine Prog.Always.bind (forEach_setOwnership_keeps batch (givenOwnership kr) (w := { t with fw := _ }) ht)
    (fun _ u hu hrec' => ?_)
  simp only [Prog.always_ite, keeps_update, Prog.always_done]
  exact ⟨fun _ => ⟨hu,hu.setFatal _,hrec'.trans hrec⟩,fun _ => ⟨hu,hrec'.trans hrec⟩⟩

/-- Tracked records are released one after the other, by a body that releases no other. -/
theorem forEach_release_keeps {body : ℕ → Pages Unit} (records : List ℕ)
    (hbody : ∀ record t, t.host.Accounted → record ∈ t.records →
      Keeps (body record) (fun _ u => ∀ r ∈ t.records, r ≠ record → r ∈ u.records) t)
    {w : World} (h : w.host.Accounted) (hn : records.Nodup) (hp : ∀ r ∈ records, r ∈ w.records) :
    Keeps (Prog.forEach records body) (fun _ _ => True) w := by
  induction records generalizing w with
  | nil => exact ⟨h,trivial⟩
  | cons record records ih =>
    obtain ⟨hne,hn⟩ := List.nodup_cons.mp hn
    refine Prog.Always.bind (hbody record w h (hp record List.mem_cons_self)) (fun _ t ht hkept => ?_)
    refine ih ht hn (fun r hr => hkept r (hp r (List.mem_cons_of_mem _ hr)) ?_)
    rintro rfl
    exact hne hr

theorem mem_records_releasePage {w : World} {record r : ℕ} (hr : r ∈ w.records) (hne : r ≠ record) :
    r ∈ ({ w with host := w.host.releasePage record } : World).records := by
  obtain ⟨p,hp,rfl⟩ := List.mem_map.mp hr
  exact List.mem_map_of_mem ((List.mem_eraseP_of_neg (by simpa using hne)).mpr hp)

theorem releasePage_keeps (record : ℕ) {w : World} (h : w.host.Accounted) (hr : record ∈ w.records) :
    Keeps (update (State.releasePage record)) (fun _ u => ∀ r ∈ w.records, r ≠ record → r ∈ u.records) w :=
  ⟨h,h.releasePage hr,fun _ hm hne => mem_records_releasePage hm hne⟩

theorem releasePrepared_keeps (record : ℕ) {w : World} (h : w.host.Accounted) (hr : record ∈ w.records) :
    Keeps (releasePrepared record) (fun _ u => ∀ r ∈ w.records, r ≠ record → r ∈ u.records) w := by
  simp only [releasePrepared, Prog.bind_eq, Prog.pure_eq, keeps_host, Prog.always_ite, Prog.always_done]
  exact ⟨fun _ => releasePage_keeps record h hr,fun _ => ⟨h,fun _ hm _ => hm⟩⟩

theorem releaseReturned_keeps (record : ℕ) {w : World} (h : w.host.Accounted) (hr : record ∈ w.records) :
    Keeps ((update (State.setOwnership record .returned)).bind (fun _ => update (State.releasePage record)))
      (fun _ u => ∀ r ∈ w.records, r ≠ record → r ∈ u.records) w := by
  have hrecords : ({ w with host := w.host.setOwnership record .returned } : World).records = w.records :=
    setOwnership_records record .returned w.host
  refine keeps_update.mpr ⟨h,?_⟩
  have hrel := releasePage_keeps record (w := { w with host := w.host.setOwnership record .returned })
    (h.setOwnership record .returned) (hrecords.symm ▸ hr)
  rwa [hrecords] at hrel

theorem giveBatches_keeps (functionId : ℕ) (embedded : Bool) (fuel start : ℕ) (pages : List ℕ) {w : World}
    (h : w.host.Accounted) (hn : pages.Nodup) (hp : ∀ r ∈ pages, r ∈ w.records) :
    Keeps (giveBatches functionId embedded fuel start pages) (fun _ _ => True) w := by
  induction fuel generalizing start pages w with
  | zero => exact ⟨h,trivial⟩
  | succ fuel ih =>
    cases pages with
    | nil => exact ⟨h,trivial⟩
    | cons page rest =>
      refine Prog.Always.bind (giveBatch_keeps _ functionId embedded h) (fun kr t ht hrec => ?_)
      have hp' : ∀ r ∈ page :: rest, r ∈ t.records := fun r hr => hrec.symm ▸ hp r hr
      simp only [Prog.bind_eq, Prog.pure_eq, Prog.always_ite]
      refine ⟨fun _ => ?_,fun _ => ?_⟩
      · refine Prog.Always.bind (forEach_release_keeps (page :: rest) (fun r t => releasePrepared_keeps r) ht hn hp') ?_
        intro _ u hu _
        split
        · exact ⟨hu,hu.setFatal _,trivial⟩
        · exact ⟨hu,trivial⟩
      · exact ih _ _ ht (hn.sublist (List.drop_sublist _ _)) (fun r hr => hp' r (List.mem_of_mem_drop hr))

theorem givePages_keeps (functionId : ℕ) (embedded : Bool) (pageCount : ℕ) (phase : Phase) (notifyFailure : Bool)
    {w : World} (h : w.host.Accounted) :
    Keeps (givePages functionId embedded pageCount phase notifyFailure) (fun _ _ => True) w := by
  have hnotify : ∀ {t : World} {kr : IOReturn}, t.host.Accounted → Keeps
      (if notifyFailure = true then (notifyAllocationFailure functionId embedded).bind (fun _ => .done kr)
        else .done kr) (fun _ _ => True) t := by
    intro t kr ht
    split
    · exact (keeps_notifyAllocationFailure _ _).mpr ⟨ht,fun _ => ⟨ht,trivial⟩⟩
    · exact ⟨ht,trivial⟩
  simp only [givePages, Prog.bind_eq, Prog.pure_eq, Prog.always_ite, keeps_host, keeps_allocate]
  refine ⟨fun _ => ⟨h,trivial⟩,fun _ =>
    ⟨fun _ => ?_,fun hmax => ⟨h,fun _ => ⟨h,fun _ => ⟨fun _ => ?_,fun _ => ?_⟩⟩⟩⟩⟩
  · simpa only [Prog.always_ite] using hnotify h
  · simpa only [Prog.always_ite] using hnotify h
  · simp only [not_or, not_lt] at hmax
    refine Prog.Always.bind (allocatePages_keeps functionId embedded phase pageCount [] h (by omega) List.nodup_nil
      (by simp)) ?_
    rintro ⟨kr,allocated⟩ t ht ⟨hn,hp⟩
    simp only [Prog.always_ite]
    refine ⟨fun _ => ?_,fun _ => giveBatches_keeps functionId embedded pageCount 0 allocated ht hn hp⟩
    refine Prog.Always.bind (forEach_release_keeps allocated (fun r t => releasePage_keeps r) ht hn hp) ?_
    intro _ u hu _
    simpa only [Prog.always_ite] using hnotify hu

theorem takePages_keeps (functionId : ℕ) (embedded : Bool) (requested : ℕ) {w : World} (h : w.host.Accounted) :
    Keeps (takePages functionId embedded requested) (fun _ _ => True) w := by
  simp only [takePages, Prog.bind_eq, Prog.pure_eq, Prog.always_ite, Prog.always_done, keeps_allocate, keeps_execTake,
    keeps_update, keeps_host]
  refine ⟨fun _ => ⟨h,trivial⟩,fun _ =>
    ⟨h,fun _ => ⟨h,fun _ => ⟨fun _ => ⟨h,trivial⟩,fun _ => ⟨h,fun reply => ?_⟩⟩⟩⟩⟩
  refine ⟨fun _ => ⟨h,h.markFunctionAmbiguous _ _,(h.markFunctionAmbiguous _ _).setFatal _,trivial⟩,
    fun _ => ⟨fun _ => ⟨h,trivial⟩,fun _ => ?_⟩⟩
  split
  · exact ⟨h,h.markFunctionAmbiguous _ _,(h.markFunctionAmbiguous _ _).setFatal _,trivial⟩
  · rename_i records hrecords
    split at hrecords
    · cases hrecords
    · obtain ⟨pages,hpages,rfl,hnodup⟩ := validate_some hrecords
      refine Prog.Always.bind (forEach_release_keeps _ (fun r t => releaseReturned_keeps r) h (hnodup List.nodup_nil) ?_)
        (fun _ t ht _ => ⟨ht,trivial⟩)
      intro r hr
      obtain ⟨p,hp,rfl⟩ := List.mem_map.mp hr
      obtain ⟨_,ht⟩ := Takes.mem hpages hp
      exact List.mem_map_of_mem ht.page.1

theorem takeLoop_keeps (functionId : ℕ) (embedded : Bool) (fuel remaining : ℕ) {w : World} (h : w.host.Accounted) :
    Keeps (takeLoop functionId embedded fuel remaining) (fun _ _ => True) w := by
  induction fuel generalizing remaining w with
  | zero => exact ⟨h,trivial⟩
  | succ fuel ih =>
    simp only [takeLoop, Prog.bind_eq, Prog.pure_eq, Prog.always_ite, Prog.always_done]
    refine ⟨fun _ => ⟨h,trivial⟩,fun _ => Prog.Always.bind (takePages_keeps functionId embedded _ h) ?_⟩
    rintro ⟨kr,returned⟩ t ht _
    simp only [Prog.always_ite, Prog.always_done, keeps_update]
    exact ⟨fun _ => ⟨ht,trivial⟩,fun _ => ⟨fun _ => ⟨ht,ht.markFunctionAmbiguous _ _,
      (ht.markFunctionAmbiguous _ _).setFatal _,trivial⟩,fun _ => ih _ ht⟩⟩

theorem reclaimLoop_keeps (timeoutMs fuel waited : ℕ) {w : World} (h : w.host.Accounted) :
    Keeps (reclaimLoop timeoutMs fuel waited) (fun _ _ => True) w := by
  induction fuel generalizing waited w with
  | zero => exact ⟨h,trivial⟩
  | succ fuel ih =>
    simp only [reclaimLoop, Prog.bind_eq, Prog.pure_eq, keeps_host]
    split
    · exact ⟨h,trivial⟩
    · refine Prog.Always.bind (takePages_keeps _ _ _ h) ?_
      rintro ⟨kr,returned⟩ t ht _
      simp only [Prog.always_ite, Prog.always_done, keeps_update]
      exact ⟨fun _ => ⟨ht,trivial⟩,fun _ => ⟨fun _ => ⟨fun _ => ⟨ht,ht.markFunctionAmbiguous _ _,
        (ht.markFunctionAmbiguous _ _).setFatal _,trivial⟩,fun _ => ih _ ht⟩,fun _ => ih _ ht⟩⟩

theorem releaseAllForFunction_keeps (functionId : ℕ) (embedded : Bool) {w : World} (h : w.host.Accounted) :
    Keeps (releaseAllForFunction functionId embedded) (fun _ _ => True) w := by
  refine keeps_host.mpr (forEach_release_keeps _ (fun record t ht hr => ?_) h h.nodup (fun _ hr => hr))
  simp only [releaseOwned, Prog.bind_eq, Prog.pure_eq, keeps_host]
  split
  · exact ⟨ht,fun _ hm _ => hm⟩
  · split
    · exact releaseReturned_keeps record ht hr
    · exact ⟨ht,fun _ hm _ => hm⟩

theorem Operation.keeps (o : Operation) {w : World} (h : w.host.Accounted) : Keeps o.run (fun _ _ => True) w := by
  cases o with
  | satisfyStartupPages phase =>
    have hquery : Keeps (queryPages phase) (fun _ _ => True) w := by
      simp only [queryPages, Prog.bind_eq, Prog.pure_eq, keeps_host, keeps_execQueryPages, Prog.always_ite, Prog.always_done]
      exact ⟨h,fun _ => ⟨fun _ => ⟨h,trivial⟩,fun _ => ⟨fun _ => ⟨h,trivial⟩,fun _ => ⟨h,trivial⟩⟩⟩⟩
    refine Prog.Always.bind (Prog.Always.bind hquery (M := fun _ _ => True) (R := fun _ _ => True) ?_)
      (fun _ _ ht _ => ⟨ht,trivial⟩)
    intro reply t ht _
    simp only [Prog.pure_eq, Prog.always_ite, Prog.always_done]
    exact ⟨fun _ => givePages_keeps _ _ _ _ _ ht,fun _ => ⟨ht,trivial⟩⟩
  | processRequest request =>
    refine Prog.Always.bind (M := fun _ _ => True) ?_ (fun _ _ ht _ => ⟨ht,trivial⟩)
    simp only [FwPages.processRequest, Prog.bind_eq, Prog.pure_eq, Prog.always_ite, Prog.always_done, keeps_update]
    refine ⟨fun _ => ?_,fun _ => ⟨fun _ => givePages_keeps _ _ _ _ _ h,fun _ =>
      ⟨fun _ => takeLoop_keeps _ _ _ _ h,fun _ => ⟨h,h.setFatal _,trivial⟩⟩⟩⟩
    exact Prog.Always.bind (releaseAllForFunction_keeps _ _ h) (fun _ t ht _ => ⟨ht,trivial⟩)
  | reclaimAll fuel timeoutMs =>
    refine Prog.Always.bind (Prog.Always.bind (reclaimLoop_keeps timeoutMs fuel 0 h) (R := fun _ _ => True) ?_)
      (fun _ _ ht _ => ⟨ht,trivial⟩)
    intro result t ht _
    simp only [Prog.bind_eq, Prog.pure_eq, keeps_host, Prog.always_ite, Prog.always_done]
    exact ⟨fun _ => ⟨ht,trivial⟩,fun _ => ⟨ht,trivial⟩⟩
  | firmware takesUp keeps => exact ⟨h,h,trivial⟩

/-- In every state that any run of the operations passes through. -/
theorem passes_accounted (fEmbedded : Bool) {w : World}
    (h : Passes anyEnv Operation.run (fun _ _ => True) (initial fEmbedded) w) : w.host.Accounted :=
  h.invariant (I := fun w => w.host.Accounted) (J := fun w => w.host.Accounted) (accounted_initial fEmbedded) (fun _ hw => hw)
    (fun o _ hs _ => (o.keeps hs).mono (fun _ _ ht _ => ht))

end AppleMCX.FwPages
