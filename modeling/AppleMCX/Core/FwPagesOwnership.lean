import AppleMCX.Core.FwPagesInvariant

/-! # Ownership of the lent pages

Whatever the outcome of each MANAGE_PAGES command, every page the firmware holds is
still tracked by the host, under an ownership that keeps it mapped. The pages of a
timed-out GIVE count as possibly held from that moment on.
-/
namespace AppleMCX.FwPages
open Interaction

/-! ## Weakest preconditions of the primitives -/

section Operations
variable {α β : Type} {I : World → Prop} {R : α → World → Prop} {w : World}

theorem always_allocate {f : Bool → Pages α} :
    Prog.Always env I (allocate.bind f) R w ↔ I w ∧ ∀ a, Prog.Always env I (f a) R w :=
  and_congr_right (fun _ => forall_congr' (fun _ => forall_prop_of_true trivial))

theorem always_setMemoryDescriptor {f : IOReturn → Pages α} :
    Prog.Always env I (setMemoryDescriptor.bind f) R w ↔ I w ∧ ∀ a, Prog.Always env I (f a) R w :=
  and_congr_right (fun _ => forall_congr' (fun _ => forall_prop_of_true trivial))

theorem always_gen64IOVMSegments {f : Segment → Pages α} :
    Prog.Always env I (gen64IOVMSegments.bind f) R w ↔ I w ∧ ∀ a, Prog.Always env I (f a) R w :=
  and_congr_right (fun _ => forall_congr' (fun _ => forall_prop_of_true trivial))

theorem always_notifyAllocationFailure {f : IOReturn → Pages α} (functionId : ℕ) (embedded : Bool) :
    Prog.Always env I ((notifyAllocationFailure functionId embedded).bind f) R w ↔
      I w ∧ ∀ a, Prog.Always env I (f a) R w :=
  and_congr_right (fun _ => forall_congr' (fun _ => forall_prop_of_true trivial))

theorem always_execQueryPages {f : QueryReply → Pages α} (phase : Phase) (embedded : Bool) :
    Prog.Always env I ((execQueryPages phase embedded).bind f) R w ↔
      I w ∧ ∀ a, Prog.Always env I (f a) R w :=
  and_congr_right (fun _ => forall_congr' (fun _ => forall_prop_of_true trivial))

theorem always_execGive {f : IOReturn → Pages α} (functionId : ℕ) (embedded : Bool) (pages : List FwPage) :
    Prog.Always env I ((execGive functionId embedded pages).bind f) R w ↔ I w ∧ ∀ kr : IOReturn,
      Prog.Always env I (f kr) R { w with fw := fwEffect w.fw (.give functionId embedded pages) kr } :=
  and_congr_right (fun _ => forall_congr' (fun _ => forall_prop_of_true trivial))

theorem always_execTake {f : TakeReply → Pages α} (functionId : ℕ) (embedded : Bool) (requested : ℕ) :
    Prog.Always env I ((execTake functionId embedded requested).bind f) R w ↔ I w ∧ ∀ reply : TakeReply,
      allowed w (.take functionId embedded requested) reply →
      Prog.Always env I (f reply) R
        { w with fw := fwEffect w.fw (.take functionId embedded requested) reply } := Iff.rfl

theorem always_update {g : State → State} {f : Unit → Pages α} :
    Prog.Always env I ((update g).bind f) R w ↔
      I w ∧ Prog.Always env I (f ()) R { w with host := g w.host } := Iff.rfl

theorem always_host {f : State → Pages α} : Prog.Always env I (host.bind f) R w ↔
    Prog.Always env I (f w.host) R w := Iff.rfl

end Operations

/-- A page that was prepared for this function and is still unknown to the firmware. -/
def Ready (w : World) (functionId : ℕ) (embedded : Bool) (record : ℕ) : Prop :=
  (∃ p, w.host.page record = some p ∧ p.functionId = functionId ∧ p.embedded = embedded) ∧
    record ∉ w.fw.records

theorem Ready.setOwnership {w : World} {functionId : ℕ} {embedded : Bool} {r record : ℕ} {o : Ownership}
    (h : Ready w functionId embedded r) :
    Ready { w with host := w.host.setOwnership record o } functionId embedded r := by
  obtain ⟨⟨p,hp,hf,he⟩,hr⟩ := h
  refine ⟨⟨_,by rw [page_setOwnership, hp]; rfl,?_,?_⟩,hr⟩
  · dsimp only; split <;> exact hf
  · dsimp only; split <;> exact he

theorem Ready.insertPage {w : World} {functionId : ℕ} {embedded : Bool} {record : ℕ} {p : FwPage}
    (h : Sound w) (hp : p.record = w.host.nextRecord) (hr : Ready w functionId embedded record) :
    Ready { w with host := w.host.insertPage p } functionId embedded record := by
  obtain ⟨⟨q,hq,hf⟩,hr⟩ := hr
  obtain ⟨hm,rfl⟩ := mem_of_page hq
  have hb := h.below q hm
  have hne : (p.record == q.record) = false := by simp only [beq_eq_false_iff_ne]; omega
  exact ⟨⟨q,by simpa [State.page, State.insertPage, List.find?_cons, hne] using hq,hf⟩,hr⟩

theorem allocatePage_sound {w : World} (h : Sound w) (functionId : ℕ) (embedded : Bool) (phase : Phase) :
    Prog.Always env Sound (allocatePage functionId embedded phase) (fun r t =>
      if r.1 = .success then ∃ p, t = { w with host := w.host.insertPage p } ∧ p.record = w.host.nextRecord ∧
        p.record = r.2 ∧ p.functionId = functionId ∧ p.embedded = embedded
      else t = w) w := by
  simp only [allocatePage, Prog.bind_eq, Prog.pure_eq, always_allocate, always_setMemoryDescriptor,
    always_gen64IOVMSegments, always_host, always_update, Prog.always_ite, Prog.always_done]
  simp only [h, reduceCtorEq, ↓reduceIte, and_self, implies_true, true_and]
  intro _ _ _ _ _ _ _ _ _ _ segment _
  exact ⟨h.insertPage rfl,_,rfl,rfl,rfl,rfl,rfl⟩

/-- The pages allocated so far are distinct and ready to be given. -/
theorem allocatePages_sound (functionId : ℕ) (embedded : Bool) (phase : Phase) (more : ℕ) (pages : List ℕ)
    {w : World} (h : Sound w) (hn : pages.Nodup) (hr : ∀ r ∈ pages, Ready w functionId embedded r) :
    Prog.Always env Sound (allocatePages functionId embedded phase more pages) (fun r t =>
      r.2.Nodup ∧ ∀ record ∈ r.2, Ready t functionId embedded record) w := by
  induction more generalizing pages w with
  | zero => exact ⟨h,hn,hr⟩
  | succ more ih =>
    refine Prog.Always.bind (allocatePage_sound h functionId embedded phase) ?_
    rintro ⟨kr,record⟩ t ht hpost
    by_cases hk : kr = .success
    · simp only [hk, ↓reduceIte] at hpost
      obtain ⟨p,rfl,hp,rfl,hf,he⟩ := hpost
      simp only [hk, ne_eq, not_true_eq_false, ↓reduceIte]
      have hold : ∀ r ∈ pages, r < p.record := by
        intro r hrm
        obtain ⟨⟨q,hq,_⟩,_⟩ := hr r hrm
        obtain ⟨hm,rfl⟩ := mem_of_page hq
        have hb := h.below q hm
        omega
      refine ih (pages ++ [p.record]) ht ?_ ?_
      · refine List.nodup_append.mpr ⟨hn,List.nodup_singleton _,?_⟩
        intro a ha b hb
        have hlt := hold a ha
        have hbp := List.mem_singleton.mp hb
        omega
      · intro r hrm
        rcases List.mem_append.mp hrm with hrm | hrm
        · exact (hr r hrm).insertPage h hp
        · rw [List.mem_singleton.mp hrm]
          refine ⟨⟨p,by simp [State.page, State.insertPage],hf,he⟩,?_⟩
          rw [hp]
          exact h.nextRecord_fresh
    · simp only [hk, ↓reduceIte] at hpost
      subst hpost
      simp only [ne_eq, hk, not_false_eq_true, ↓reduceIte]
      exact ⟨h,hn,hr⟩

/-! ## Giving -/

/-- The loops of `giveBatch`: one ownership for all pages of the batch. -/
def State.setOwnerships (records : List ℕ) (o : Ownership) (s : State) : State :=
  records.foldl (fun s record => s.setOwnership record o) s

theorem page_setOwnerships (records : List ℕ) (o : Ownership) (s : State) (record : ℕ) :
    (s.setOwnerships records o).page record =
      (s.page record).map (fun p => if p.record ∈ records then { p with ownership := o } else p) := by
  induction records generalizing s with
  | nil => simp [State.setOwnerships]
  | cons r rest ih =>
    have hs : s.setOwnerships (r :: rest) o = (s.setOwnership r o).setOwnerships rest o := rfl
    rw [hs, ih, page_setOwnership, Option.map_map]
    congr 1
    funext p
    by_cases h₁ : p.record = r <;> by_cases h₂ : p.record ∈ rest <;> simp [h₁, h₂]

theorem forEach_setOwnership_sound {R : Unit → World → Prop} (records : List ℕ) (o : Ownership) {w : World}
    (h : Sound w) (ho : ∀ r ∈ records, Permits w.fw r o)
    (hR : Sound { w with host := w.host.setOwnerships records o } →
      R () { w with host := w.host.setOwnerships records o }) :
    Prog.Always env Sound (Prog.forEach records (fun record => update (State.setOwnership record o))) R w := by
  induction records generalizing w with
  | nil => exact ⟨h,hR h⟩
  | cons r rest ih =>
    refine always_update.mpr ⟨h,?_⟩
    exact ih (h.setOwnership (ho r List.mem_cons_self)) (fun q hq => ho q (List.mem_cons_of_mem _ hq)) hR

theorem Ready.setOwnerships {w : World} {functionId : ℕ} {embedded : Bool} {r : ℕ} {o : Ownership}
    (records : List ℕ) (h : Ready w functionId embedded r) :
    Ready { w with host := w.host.setOwnerships records o } functionId embedded r := by
  induction records generalizing w with
  | nil => exact h
  | cons _ _ ih => exact ih h.setOwnership

/-- The pages a GIVE names, as the firmware knows them, are the ready pages of the batch. -/
theorem Ready.backed {w : World} {functionId : ℕ} {embedded : Bool} {batch : List ℕ}
    (hr : ∀ r ∈ batch, Ready w functionId embedded r) :
    ∀ k ∈ (batch.filterMap w.host.page).map (FwPage.held functionId embedded), k.record ∈ batch ∧
      Backed (w.host.setOwnerships batch .givePending) (fun o => o = .givePending) k := by
  intro k hk
  obtain ⟨p,hp,rfl⟩ := List.mem_map.mp hk
  obtain ⟨r,hrb,hpr⟩ := List.mem_filterMap.mp hp
  obtain ⟨⟨q,hq,rfl,rfl⟩,_⟩ := hr r hrb
  obtain rfl : q = p := by rw [hq] at hpr; exact Option.some.inj hpr
  have hrec := (mem_of_page hq).2
  have hpage := page_setOwnerships batch .givePending w.host r
  rw [hq, Option.map_some, if_pos (hrec ▸ hrb)] at hpage
  exact ⟨by rw [held_record, hrec]; exact hrb,_,(mem_of_page hpage).1,rfl,rfl⟩

theorem Sound.give {w : World} (h : Sound w) {functionId : ℕ} {embedded : Bool} {pages : List FwPage}
    (hp : ∀ k ∈ pages.map (FwPage.held functionId embedded), Backed w.host (fun o => o = .givePending) k)
    (kr : IOReturn) : Sound { w with fw := fwEffect w.fw (.give functionId embedded pages) kr } := by
  cases kr with
  | success =>
    refine ⟨h.nodup,h.below,fun k hk => ?_,h.late⟩
    rcases List.mem_append.mp hk with hk | hk
    · exact h.held k hk
    · exact (hp k hk).mono (by rintro _ rfl; exact Or.inl rfl)
  | timeout =>
    refine ⟨h.nodup,h.below,h.held,fun k hk => ?_⟩
    rcases List.mem_append.mp hk with hk | hk
    · exact h.late k hk
    · exact (hp k hk).mono (by rintro _ rfl; exact Or.inl rfl)
  | _ => exact h

/-- A GIVE brings no other page to the firmware's knowledge. -/
theorem mem_records_give {fw : Firmware} {functionId : ℕ} {embedded : Bool} {pages : List FwPage}
    {kr : IOReturn} {r : ℕ} (h : r ∈ (fwEffect fw (.give functionId embedded pages) kr).records) :
    r ∈ fw.records ∨ (kr = .success ∨ kr = .timeout) ∧ r ∈ pages.map (·.record) := by
  cases kr with
  | success =>
    simp only [fwEffect, Firmware.records, List.map_append, List.map_map, List.mem_append] at h ⊢
    rcases h with (h | h) | h
    · exact Or.inl (Or.inl h)
    · exact Or.inr ⟨Or.inl trivial,h⟩
    · exact Or.inl (Or.inr h)
  | timeout =>
    simp only [fwEffect, Firmware.records, List.map_append, List.map_map, List.mem_append] at h ⊢
    rcases h with h | h | h
    · exact Or.inl (Or.inl h)
    · exact Or.inl (Or.inr h)
    · exact Or.inr ⟨Or.inr trivial,h⟩
  | _ => exact Or.inl h

theorem permits_given {w : World} {functionId : ℕ} {embedded : Bool} {pages : List FwPage} {record : ℕ}
    (h : record ∉ w.fw.records) (kr : IOReturn) :
    Permits (fwEffect w.fw (.give functionId embedded pages) kr) record (givenOwnership kr) := by
  cases kr with
  | success =>
    refine ⟨fun _ => by simp [Outstanding, givenOwnership],?_⟩
    rintro ⟨k,hk,rfl⟩
    exact absurd (List.mem_map.mpr ⟨k,List.mem_append_right _ hk,rfl⟩) h
  | timeout => exact permits_of_unconfirmed (by simp [Unconfirmed, givenOwnership])
  | _ => exact permits_of_fresh h

/-- Whatever the outcome of the GIVE, the pages of later batches stay ready. -/
theorem giveBatch_sound {w : World} (h : Sound w) {functionId : ℕ} {embedded : Bool} (batch rest : List ℕ)
    (hn : (batch ++ rest).Nodup) (hr : ∀ r ∈ batch ++ rest, Ready w functionId embedded r) :
    Prog.Always env Sound (giveBatch batch functionId embedded)
      (fun _ t => ∀ r ∈ rest, Ready t functionId embedded r) w := by
  have hrest : ∀ r ∈ rest, Ready w functionId embedded r := fun r hm => hr r (List.mem_append_right _ hm)
  have hbatch : ∀ r ∈ batch, Ready w functionId embedded r := fun r hm => hr r (List.mem_append_left _ hm)
  simp only [giveBatch, Prog.bind_eq, Prog.pure_eq, always_allocate, always_host, Prog.always_ite, Prog.always_done]
  refine ⟨fun _ => ⟨h,hrest⟩,fun _ => ⟨h,fun _ => ⟨h,fun _ => ⟨fun _ => ⟨h,hrest⟩,fun _ => ?_⟩⟩⟩⟩
  have hpend : ∀ r ∈ batch, Permits w.fw r .givePending := fun r _ => permits_of_unconfirmed (Or.inl rfl)
  refine Prog.always_bind.mpr (forEach_setOwnership_sound batch .givePending h hpend fun h₁ => ?_)
  refine (always_execGive _ _ _).mpr ⟨h₁,fun kr => ?_⟩
  have hnew := Ready.backed hbatch
  have h₂ := h₁.give (fun k hk => (hnew k hk).2) kr
  refine Prog.always_bind.mpr (forEach_setOwnership_sound batch (givenOwnership kr) h₂
    (fun r hm => permits_given (w := w) (hbatch r hm).2 kr) fun h₃ => ?_)
  have hpost : ∀ r ∈ rest, Ready
      { host := (w.host.setOwnerships batch .givePending).setOwnerships batch (givenOwnership kr)
        fw := fwEffect w.fw (.give functionId embedded (batch.filterMap w.host.page)) kr }
      functionId embedded r := by
    intro r hm
    have hs := ((hrest r hm).setOwnerships (o := .givePending) batch).setOwnerships (o := givenOwnership kr) batch
    refine ⟨hs.1,fun hmem => ?_⟩
    rcases mem_records_give hmem with hmem | ⟨_,hmem⟩
    · exact hs.2 hmem
    · obtain ⟨p,hp,rfl⟩ := List.mem_map.mp hmem
      have hb := (hnew _ (List.mem_map_of_mem hp)).1
      exact (List.nodup_append.mp hn).2.2 _ hb _ hm rfl
  simp only [Prog.always_ite, always_update]
  exact ⟨fun _ => ⟨h₃,h₃.setFatal _,hpost⟩,fun _ => ⟨h₃,hpost⟩⟩

theorem releasePrepared_sound (record : ℕ) {w : World} (h : Sound w) :
    Prog.Always env Sound (releasePrepared record) (fun _ _ => True) w := by
  simp only [releasePrepared, Prog.bind_eq, Prog.pure_eq, always_host, Prog.always_ite, Prog.always_done]
  refine ⟨fun hp => ?_,fun _ => ⟨h,trivial⟩⟩
  obtain ⟨p,hp,ho⟩ := Option.map_eq_some_iff.mp hp
  obtain ⟨hm,rfl⟩ := mem_of_page hp
  exact ⟨h,h.releasePage (h.not_mem_records hm (by simp [ho, Outstanding])),trivial⟩

theorem giveBatches_sound (functionId : ℕ) (embedded : Bool) (fuel start : ℕ) (pages : List ℕ) {w : World}
    (h : Sound w) (hn : pages.Nodup) (hr : ∀ r ∈ pages, Ready w functionId embedded r) :
    Prog.Always env Sound (giveBatches functionId embedded fuel start pages) (fun _ _ => True) w := by
  induction fuel generalizing start pages w with
  | zero => exact ⟨h,trivial⟩
  | succ fuel ih =>
    cases pages with
    | nil => exact ⟨h,trivial⟩
    | cons page rest =>
      have hsplit := List.take_append_drop maxManagePages (page :: rest)
      refine Prog.Always.bind (giveBatch_sound h _ ((page :: rest).drop maxManagePages)
        (by rw [hsplit]; exact hn) (by rw [hsplit]; exact hr)) ?_
      intro kr t ht hpost
      simp only [Prog.bind_eq, Prog.pure_eq, Prog.always_ite]
      refine ⟨fun _ => ?_,fun _ => ?_⟩
      · refine Prog.Always.bind (Prog.Always.forEach (J := fun _ => True) (page :: rest)
          (fun r _ s hs _ => releasePrepared_sound r hs) ht trivial) ?_
        intro _ t ht _
        split
        · exact ⟨ht,ht.setFatal _,trivial⟩
        · exact ⟨ht,trivial⟩
      · exact ih _ _ ht (hn.sublist (List.drop_sublist _ _)) hpost

theorem releaseAllocated_sound {records : List ℕ} {w : World} (h : Sound w)
    (hr : ∀ r ∈ records, r ∉ w.fw.records) :
    Prog.Always env Sound (Prog.forEach records (fun record => update (State.releasePage record)))
      (fun _ _ => True) w := by
  refine (Prog.Always.forEach (J := fun t => ∀ r ∈ records, r ∉ t.fw.records) records ?_ h hr).mono
    (fun _ _ _ _ => trivial)
  exact fun r hm s hs hf => ⟨hs,hs.releasePage (hf r hm),hf⟩

theorem givePages_sound (functionId : ℕ) (embedded : Bool) (pageCount : ℕ) (phase : Phase)
    (notifyFailure : Bool) {w : World} (h : Sound w) :
    Prog.Always env Sound (givePages functionId embedded pageCount phase notifyFailure)
      (fun _ _ => True) w := by
  have hnotify : ∀ {t : World} {kr : IOReturn}, Sound t → Prog.Always env Sound
      (if notifyFailure = true then (notifyAllocationFailure functionId embedded).bind (fun _ => .done kr)
        else .done kr) (fun _ _ => True) t := by
    intro t kr ht
    split
    · exact (always_notifyAllocationFailure _ _).mpr ⟨ht,fun _ => ⟨ht,trivial⟩⟩
    · exact ⟨ht,trivial⟩
  simp only [givePages, Prog.bind_eq, Prog.pure_eq, Prog.always_ite, always_host, always_allocate]
  refine ⟨fun _ => ⟨h,trivial⟩,fun _ =>
    ⟨fun _ => ?_,fun _ => ⟨h,fun _ => ⟨h,fun _ => ⟨fun _ => ?_,fun _ => ?_⟩⟩⟩⟩⟩
  · simpa only [Prog.always_ite] using hnotify h
  · simpa only [Prog.always_ite] using hnotify h
  · refine Prog.Always.bind (allocatePages_sound functionId embedded phase pageCount [] h List.nodup_nil
      (by simp)) ?_
    rintro ⟨kr,allocated⟩ t ht ⟨hn,hr⟩
    simp only [Prog.always_ite]
    refine ⟨fun _ => ?_,fun _ => giveBatches_sound functionId embedded pageCount 0 allocated ht hn hr⟩
    refine Prog.Always.bind (releaseAllocated_sound ht (fun r hm => (hr r hm).2)) ?_
    intro _ t ht _
    simpa only [Prog.always_ite] using hnotify ht

/-! ## Taking back -/

/-- A validated reply names distinct pages, each firmware-owned and found at a listed address. -/
theorem validate_spec {functionId : ℕ} {embedded : Bool} {s : State} (addresses : List ℕ)
    {validated pages : List ℕ} (h : s.validate functionId embedded addresses validated = some pages) :
    ∀ r ∈ pages, r ∈ validated ∨ ∃ a ∈ addresses, ∃ p,
      s.findPage a functionId embedded = some p ∧ p.record = r ∧ p.ownership = .firmwareOwned := by
  induction addresses generalizing validated with
  | nil =>
    cases h
    exact fun r hr => Or.inl hr
  | cons address rest ih =>
    simp only [State.validate] at h
    cases hf : s.findPage address functionId embedded with
    | none => simp [hf] at h
    | some p =>
      simp only [hf] at h
      split at h
      · cases h
      · rename_i hc
        split at h
        · cases h
        · intro r hr
          rcases ih h r hr with hm | ⟨a,ha,q,hq⟩
          · rcases List.mem_append.mp hm with hm | hm
            · exact Or.inl hm
            · refine Or.inr ⟨address,List.mem_cons_self,p,hf,(List.mem_singleton.mp hm).symm,?_⟩
              by_contra ho
              exact hc (Or.inr (Or.inr ho))
          · exact Or.inr ⟨a,List.mem_cons_of_mem _ ha,q,hq⟩

theorem mem_of_findPage {a functionId : ℕ} {embedded : Bool} {s : State} {p : FwPage}
    (h : s.findPage a functionId embedded = some p) :
    p ∈ s.fPages ∧ p.dmaAddress = a ∧ p.functionId = functionId ∧ p.embedded = embedded := by
  have hp := List.find?_some h
  simp only [Bool.and_eq_true, beq_iff_eq] at hp
  exact ⟨List.mem_of_find?_eq_some h,hp.1.1,hp.1.2,hp.2⟩

/-- A firmware-owned page of the host is unknown to the firmware once no page it holds is that page. -/
theorem Sound.not_mem_records_of_owned {w : World} (h : Sound w) {p : FwPage} (hp : p ∈ w.host.fPages)
    (ho : p.ownership = .firmwareOwned) (hk : p.held p.functionId p.embedded ∉ w.fw.held) :
    p.record ∉ w.fw.records := by
  intro hr
  obtain ⟨k,hkm,hkr⟩ := List.mem_map.mp hr
  rcases List.mem_append.mp hkm with hkm | hkm
  · obtain ⟨q,hq,rfl,_⟩ := h.held k hkm
    rw [List.inj_on_of_nodup_map h.nodup hq hp hkr] at hkm
    exact hk hkm
  · obtain ⟨q,hq,rfl,hu⟩ := h.late k hkm
    rw [List.inj_on_of_nodup_map h.nodup hq hp hkr, ho] at hu
    rcases hu with hu | hu <;> cases hu

theorem Sound.take {w : World} (h : Sound w) (functionId : ℕ) (embedded : Bool) (requested : ℕ)
    (reply : TakeReply) :
    Sound { w with fw := fwEffect w.fw (.take functionId embedded requested) reply } := by
  have hsub : ∀ k ∈ (fwEffect w.fw (.take functionId embedded requested) reply).held, k ∈ w.fw.held := by
    intro k hk
    simp only [fwEffect] at hk
    split at hk
    · exact List.mem_of_mem_filter hk
    · exact List.mem_of_mem_filter hk
    · exact hk
  have hlate : (fwEffect w.fw (.take functionId embedded requested) reply).late = w.fw.late := by
    simp only [fwEffect]
    split <;> rfl
  exact ⟨h.nodup,h.below,fun k hk => h.held k (hsub k hk),fun k hk => h.late k (hlate ▸ hk)⟩

/-- Releasing pages unknown to the firmware, one by one. -/
theorem releaseReturned_sound {records : List ℕ} {w : World} (h : Sound w)
    (hr : ∀ r ∈ records, r ∉ w.fw.records) :
    Prog.Always env Sound (Prog.forEach records (fun record =>
      (update (State.setOwnership record .returned)).bind (fun _ => update (State.releasePage record))))
      (fun _ _ => True) w := by
  refine (Prog.Always.forEach (J := fun t => ∀ r ∈ records, r ∉ t.fw.records) records ?_ h hr).mono
    (fun _ _ _ _ => trivial)
  intro r hm s hs hf
  have hs₁ := hs.setOwnership (o := .returned) (permits_of_fresh (hf r hm))
  exact always_update.mpr ⟨hs,hs₁,hs₁.releasePage (hf r hm),hf⟩

theorem takePages_sound (functionId : ℕ) (embedded : Bool) (requested : ℕ) {w : World} (h : Sound w) :
    Prog.Always env Sound (takePages functionId embedded requested) (fun _ _ => True) w := by
  simp only [takePages, Prog.bind_eq, Prog.pure_eq, Prog.always_ite, Prog.always_done, always_allocate,
    always_execTake, always_update, always_host]
  refine ⟨fun _ => ⟨h,trivial⟩,fun _ =>
    ⟨h,fun _ => ⟨h,fun _ => ⟨fun _ => ⟨h,trivial⟩,fun _ => ⟨h,?_⟩⟩⟩⟩⟩
  intro reply hallowed
  have h₁ := h.take functionId embedded requested reply
  refine ⟨fun _ => ⟨h₁,h₁.markFunctionAmbiguous _ _,(h₁.markFunctionAmbiguous _ _).setFatal _,trivial⟩,
    fun _ => ⟨fun _ => ⟨h₁,trivial⟩,fun hk => ?_⟩⟩
  have hk : reply.kr = .success := not_not.mp hk
  split
  · exact ⟨h₁,h₁.markFunctionAmbiguous _ _,(h₁.markFunctionAmbiguous _ _).setFatal _,trivial⟩
  · rename_i pages hpages
    split at hpages
    · cases hpages
    · rename_i hcount
      refine Prog.Always.bind (releaseReturned_sound h₁ ?_) (fun _ t ht _ => ⟨ht,trivial⟩)
      intro r hr
      rcases validate_spec _ hpages r hr with hm | ⟨a,ha,p,hp,rfl,ho⟩
      · simp at hm
      obtain ⟨i,hi,rfl⟩ := List.mem_map.mp ha
      obtain ⟨hpm,hpa,hpf,hpe⟩ := mem_of_findPage hp
      refine h₁.not_mem_records_of_owned hpm ho (fun hheld => ?_)
      simp only [fwEffect, hk] at hheld
      obtain ⟨hheld,hkeep⟩ := List.mem_filter.mp hheld
      exact hallowed hk (by omega) i (List.mem_range.mp hi) _ hheld hkeep ⟨hpa,hpf,hpe⟩

theorem takeLoop_sound (functionId : ℕ) (embedded : Bool) (fuel remaining : ℕ) {w : World} (h : Sound w) :
    Prog.Always env Sound (takeLoop functionId embedded fuel remaining) (fun _ _ => True) w := by
  induction fuel generalizing remaining w with
  | zero => exact ⟨h,trivial⟩
  | succ fuel ih =>
    simp only [takeLoop, Prog.bind_eq, Prog.pure_eq, Prog.always_ite, Prog.always_done]
    refine ⟨fun _ => ⟨h,trivial⟩,fun _ => Prog.Always.bind (takePages_sound functionId embedded _ h) ?_⟩
    rintro ⟨kr,returned⟩ t ht _
    simp only [Prog.always_ite, Prog.always_done, always_update]
    exact ⟨fun _ => ⟨ht,trivial⟩,fun _ => ⟨fun _ => ⟨ht,ht.markFunctionAmbiguous _ _,
      (ht.markFunctionAmbiguous _ _).setFatal _,trivial⟩,fun _ => ih _ ht⟩⟩

theorem reclaimLoop_sound (timeoutMs fuel waited : ℕ) {w : World} (h : Sound w) :
    Prog.Always env Sound (reclaimLoop timeoutMs fuel waited) (fun _ _ => True) w := by
  induction fuel generalizing waited w with
  | zero => exact ⟨h,trivial⟩
  | succ fuel ih =>
    simp only [reclaimLoop, Prog.bind_eq, Prog.pure_eq, always_host]
    split
    · exact ⟨h,trivial⟩
    · refine Prog.Always.bind (takePages_sound _ _ _ h) ?_
      rintro ⟨kr,returned⟩ t ht _
      simp only [Prog.always_ite, Prog.always_done, always_update]
      exact ⟨fun _ => ⟨ht,trivial⟩,fun _ => ⟨fun _ => ⟨fun _ => ⟨ht,ht.markFunctionAmbiguous _ _,
        (ht.markFunctionAmbiguous _ _).setFatal _,trivial⟩,fun _ => ih _ ht⟩,fun _ => ih _ ht⟩⟩

theorem reclaimAll_sound (fuel timeoutMs : ℕ) {w : World} (h : Sound w) :
    Prog.Always env Sound (reclaimAll fuel timeoutMs) (fun _ _ => True) w := by
  refine Prog.Always.bind (reclaimLoop_sound timeoutMs fuel 0 h) ?_
  intro result t ht _
  simp only [Prog.bind_eq, Prog.pure_eq, always_host, Prog.always_ite, Prog.always_done]
  exact ⟨fun _ => ⟨ht,trivial⟩,fun _ => ⟨ht,trivial⟩⟩

theorem releaseAllForFunction_sound (functionId : ℕ) (embedded : Bool) {w : World} (h : Sound w)
    (hf : ∀ k ∈ w.fw.held, ¬ (k.functionId = functionId ∧ k.embedded = embedded)) :
    Prog.Always env Sound (releaseAllForFunction functionId embedded) (fun _ _ => True) w := by
  refine always_host.mpr ((Prog.Always.forEach (J := fun t => t.fw = w.fw) _ ?_ h rfl).mono
    (fun _ _ _ _ => trivial))
  intro record _ t ht hfw
  simp only [releaseOwned, Prog.bind_eq, Prog.pure_eq, always_host]
  split
  · exact ⟨ht,hfw⟩
  · rename_i p hp
    obtain ⟨hm,rfl⟩ := mem_of_page hp
    split
    · rename_i hc
      obtain ⟨rfl,rfl,ho⟩ := hc
      have hfresh := ht.not_mem_records_of_owned hm ho
        (fun hk => hf _ (hfw ▸ hk) ⟨rfl,rfl⟩)
      have ht₁ := ht.setOwnership (o := .returned) (permits_of_fresh hfresh)
      exact always_update.mpr ⟨ht,ht₁,ht₁.releasePage hfresh,hfw⟩
    · exact ⟨ht,hfw⟩

/-! ## Runs -/

/-- The operations of the manager, and what the firmware does by itself between them:
it takes up pages of a timed-out GIVE, and stops using pages. -/
inductive Operation
  | satisfyStartupPages (phase : Phase)
  | processRequest (request : Request)
  | reclaimAll (fuel timeoutMs : ℕ)
  | firmware (takesUp keeps : Held → Bool)

def Operation.run : Operation → Pages Unit
  | .satisfyStartupPages phase => do let _ ← FwPages.satisfyStartupPages phase
  | .processRequest request => do let _ ← FwPages.processRequest request
  | .reclaimAll fuel timeoutMs => do let _ ← FwPages.reclaimAll fuel timeoutMs
  | .firmware takesUp keeps => Prog.modify (fun w => { w with fw :=
      { held := (w.fw.held ++ w.fw.late.filter takesUp).filter keeps
        late := w.fw.late.filter (fun k => !takesUp k) } })

/-- A release-all request is processed only when the firmware holds no page of the function. -/
def Operation.Enabled : Operation → World → Prop
  | .processRequest request, w => request.releaseAll = true →
      ∀ k ∈ w.fw.held, ¬ (k.functionId = request.functionId ∧ k.embedded = request.embedded)
  | _, _ => True

theorem processRequest_sound (request : Request) {w : World} (h : Sound w)
    (he : (Operation.processRequest request).Enabled w) :
    Prog.Always env Sound (processRequest request) (fun _ _ => True) w := by
  simp only [processRequest, Prog.bind_eq, Prog.pure_eq, Prog.always_ite, Prog.always_done, always_update]
  refine ⟨fun hr => ?_,fun _ => ⟨fun _ => givePages_sound _ _ _ _ _ h,fun _ =>
    ⟨fun _ => takeLoop_sound _ _ _ _ h,fun _ => ⟨h,h.setFatal _,trivial⟩⟩⟩⟩
  exact Prog.Always.bind (releaseAllForFunction_sound _ _ h (he hr)) (fun _ t ht _ => ⟨ht,trivial⟩)

theorem satisfyStartupPages_sound (phase : Phase) {w : World} (h : Sound w) :
    Prog.Always env Sound (satisfyStartupPages phase) (fun _ _ => True) w := by
  have hquery : Prog.Always env Sound (queryPages phase) (fun _ _ => True) w := by
    simp only [queryPages, Prog.bind_eq, Prog.pure_eq, always_host, always_execQueryPages, Prog.always_ite,
      Prog.always_done]
    exact ⟨h,fun _ => ⟨fun _ => ⟨h,trivial⟩,fun _ => ⟨fun _ => ⟨h,trivial⟩,fun _ => ⟨h,trivial⟩⟩⟩⟩
  refine Prog.Always.bind hquery ?_
  intro reply t ht _
  simp only [Prog.pure_eq, Prog.always_ite, Prog.always_done]
  exact ⟨fun _ => givePages_sound _ _ _ _ _ ht,fun _ => ⟨ht,trivial⟩⟩

theorem firmware_sound (takesUp keeps : Held → Bool) {w : World} (h : Sound w) :
    Prog.Always env Sound (Operation.run (.firmware takesUp keeps)) (fun _ _ => True) w := by
  refine ⟨h,⟨h.nodup,h.below,fun k hk => ?_,fun k hk => h.late k (List.mem_of_mem_filter hk)⟩,trivial⟩
  rcases List.mem_append.mp (List.mem_of_mem_filter hk) with hk | hk
  · exact h.held k hk
  · exact (h.late k (List.mem_of_mem_filter hk)).mono (fun _ => Unconfirmed.outstanding)

theorem Operation.sound (o : Operation) {w : World} (h : Sound w) (he : o.Enabled w) :
    Prog.Always env Sound o.run (fun _ _ => True) w := by
  cases o with
  | satisfyStartupPages phase => exact Prog.Always.bind (satisfyStartupPages_sound phase h) (fun _ _ ht _ => ⟨ht,trivial⟩)
  | processRequest request => exact Prog.Always.bind (processRequest_sound request h he) (fun _ _ ht _ => ⟨ht,trivial⟩)
  | reclaimAll fuel timeoutMs => exact Prog.Always.bind (reclaimAll_sound fuel timeoutMs h) (fun _ _ ht _ => ⟨ht,trivial⟩)
  | firmware takesUp keeps => exact firmware_sound takesUp keeps h

/-- In every state that any run of the operations passes through, every page that the firmware
holds, or may still take up, is tracked on `fPages` and owned as pending, firmware-owned or ambiguous. -/
theorem firmwarePages_tracked (fEmbedded : Bool) {w : World}
    (h : Passes env Operation.run Operation.Enabled (initial fEmbedded) w) :
    ∀ k ∈ w.fw.held ++ w.fw.late, Backed w.host Outstanding k := by
  have hs : Sound w := h.invariant (J := Sound) (sound_initial fEmbedded) (fun _ hs => hs)
    (fun o s hs he => (o.sound hs he).mono (fun _ _ ht _ => ht))
  exact hs.outstanding

/-- Every allocation and every command but TAKE succeeds; the firmware asks for one boot page. -/
def onePageAnswers : (q : Question) → Answer q
  | .allocate => true
  | .setMemoryDescriptor => IOReturn.success
  | .gen64IOVMSegments => (⟨.success,1,4096,4096⟩ : Segment)
  | .queryPages _ _ => (⟨.success,0,false,1⟩ : QueryReply)
  | .give _ _ _ => IOReturn.success
  | .take _ _ _ => (⟨.ioError,0,fun _ => 0,fun _ => true⟩ : TakeReply)
  | .allocationFail _ _ => IOReturn.success

theorem onePageAnswers_allowed (w : World) (q : Question) : env.Allowed w q (onePageAnswers q) := by
  cases q <;> simp [env, allowed, onePageAnswers]

def afterOneBootPage : World :=
  ((Operation.satisfyStartupPages .boot).run.run env (fun _ => onePageAnswers) 0 (initial false)).2

theorem firmwarePages_tracked_afterOneBootPage : afterOneBootPage.fw.held = [⟨0,4096,0,false⟩] ∧
    ∀ k ∈ afterOneBootPage.fw.held ++ afterOneBootPage.fw.late, Backed afterOneBootPage.host Outstanding k :=
  ⟨rfl,firmwarePages_tracked false (.inl (.next (o := .satisfyStartupPages .boot) .start trivial
    (Prog.run_returns _ (fun _ q s => onePageAnswers_allowed s q) (Operation.satisfyStartupPages .boot).run 0 _)))⟩

end AppleMCX.FwPages
