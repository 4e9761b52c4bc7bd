import AppleMCX.Core.FwPagesAccounting
import AppleMCX.Interaction.Trace

/-! # Batches of pages

What `giveBatches` does with pages that are prepared: which of them each GIVE names, which are
released, and which stay tracked.
-/
namespace AppleMCX.FwPages
open Interaction

abbrev PageEvent := Event World Question Answer

structure GiveCommand where
  functionId : ℕ
  embedded : Bool
  pages : List FwPage
  kr : IOReturn
  deriving DecidableEq

def gives (es : List PageEvent) : List GiveCommand := es.filterMap (fun e =>
  match e with
  | .asked (.give functionId embedded pages) kr => some ⟨functionId,embedded,pages,kr⟩
  | _ => none)

/-- The page that leaves the list in a step. -/
def leaves (s t : State) : Option FwPage := s.fPages.find? (fun p => !(t.fPages.map (·.record)).contains p.record)

/-- The releases of a trace, each with the page that it takes off the list. A release lowers
`fTrackedPages`, or finds it zero and changes nothing. -/
def releases (es : List PageEvent) : List (Option FwPage) := es.filterMap (fun e =>
  match e with
  | .wrote s t =>
    if t.host.fTrackedPages + 1 = s.host.fTrackedPages ∨ s.host.fTrackedPages = 0 ∧ t = s then some (leaves s.host t.host)
    else none
  | .asked _ _ => none)

@[simp] theorem gives_append (es es' : List PageEvent) : gives (es ++ es') = gives es ++ gives es' :=
  List.filterMap_append

@[simp] theorem releases_append (es es' : List PageEvent) : releases (es ++ es') = releases es ++ releases es' :=
  List.filterMap_append

/-- Neither a GIVE nor a release. -/
def Quiet (es : List PageEvent) : Prop := gives es = [] ∧ releases es = []

theorem quiet_nil : Quiet [] := ⟨rfl,rfl⟩

theorem Quiet.append {es es' : List PageEvent} (h : Quiet es) (h' : Quiet es') : Quiet (es ++ es') := by
  refine ⟨?_,?_⟩
  · rw [gives_append, h.1, h'.1]
    rfl
  · rw [releases_append, h.2, h'.2]
    rfl

theorem quiet_of_no_release {s t : World}
    (h : ¬ (t.host.fTrackedPages + 1 = s.host.fTrackedPages ∨ s.host.fTrackedPages = 0 ∧ t = s)) :
    Quiet [.wrote s t] := by
  refine ⟨rfl,?_⟩
  simp only [releases, List.filterMap_cons, if_neg h, List.filterMap_nil]

theorem quiet_wrote {s t : World} (hne : s.host.fTrackedPages ≠ 0) (h : t.host.fTrackedPages = s.host.fTrackedPages) :
    Quiet [.wrote s t] := by
  refine quiet_of_no_release ?_
  rintro (hc | hc)
  · omega
  · exact hne hc.1

theorem quiet_inserted (w : World) (p : FwPage) : Quiet [.wrote w { w with host := w.host.insertPage p }] := by
  have hcount : (w.host.insertPage p).fTrackedPages = w.host.fTrackedPages + 1 := rfl
  refine quiet_of_no_release ?_
  rintro (hc | ⟨_,hc⟩)
  · dsimp only at hc
    omega
  · have hsame : (w.host.insertPage p).fTrackedPages = w.host.fTrackedPages :=
      congrArg (fun w => w.host.fTrackedPages) hc
    omega

/-! ## Pages on the list -/

variable {s : State}

theorem page_of_mem (hn : (s.fPages.map (·.record)).Nodup) {p : FwPage} (hp : p ∈ s.fPages) :
    s.page p.record = some p := by
  obtain ⟨q,hq⟩ := Option.isSome_iff_exists.mp (List.find?_isSome.mpr ⟨p,hp,beq_self_eq_true p.record⟩ :
    (s.fPages.find? (fun q => q.record == p.record)).isSome)
  have hpage : s.page p.record = some q := hq
  obtain ⟨hm,hr⟩ := mem_of_page hpage
  rw [hpage, List.inj_on_of_nodup_map hn hm hp hr]

theorem filterMap_page (hn : (s.fPages.map (·.record)).Nodup) {pages : List FwPage} (hp : ∀ p ∈ pages, p ∈ s.fPages) :
    (pages.map (·.record)).filterMap s.page = pages := by
  rw [List.filterMap_map]
  refine (List.filterMap_congr (fun p h => page_of_mem hn (hp p h))).trans ?_
  exact List.filterMap_some

def FwPage.owned (o : Ownership) (p : FwPage) : FwPage := { p with ownership := o }

theorem setOwnerships_eq (records : List ℕ) (o : Ownership) (s : State) : s.setOwnerships records o =
    { s with fPages := s.fPages.map (fun p => if p.record ∈ records then p.owned o else p) } := by
  induction records generalizing s with
  | nil =>
    have hmap : s.fPages.map (fun p => if p.record ∈ ([] : List ℕ) then p.owned o else p) = s.fPages := by simp
    rw [hmap]
    rfl
  | cons r rest ih =>
    have hstep : s.setOwnerships (r :: rest) o = (s.setOwnership r o).setOwnerships rest o := rfl
    rw [hstep, ih, State.setOwnership, List.map_map]
    congr 2
    funext p
    by_cases h₁ : p.record = r <;> by_cases h₂ : p.record ∈ rest <;> simp [h₁, h₂, FwPage.owned]

theorem setOwnerships_twice (records : List ℕ) (o o' : Ownership) (s : State) :
    (s.setOwnerships records o).setOwnerships records o' = s.setOwnerships records o' := by
  rw [setOwnerships_eq, setOwnerships_eq, setOwnerships_eq, List.map_map]
  refine congrArg (fun l => { s with fPages := l }) (List.map_congr_left (fun p _ => ?_))
  dsimp only [Function.comp_apply]
  by_cases hp : p.record ∈ records
  · have howned : (p.owned o).record ∈ records := hp
    rw [if_pos hp, if_pos hp, if_pos howned]
    rfl
  · rw [if_neg hp, if_neg hp]

/-- The pages of `given`, then those of `rest`, on top of the pages of before. -/
def Stacked (s : State) (given rest old : List FwPage) : Prop := s.fPages = (given ++ rest).reverse ++ old

theorem Stacked.mem {given rest old : List FwPage} (h : Stacked s given rest old) {p : FwPage} (hp : p ∈ rest) :
    p ∈ s.fPages := by
  rw [h]
  exact List.mem_append_left _ (List.mem_reverse.mpr (List.mem_append_right _ hp))

/-- One ownership for a batch reaches the pages of the batch only. -/
theorem Stacked.setOwnerships {given batch rest old : List FwPage} (h : Stacked s given (batch ++ rest) old)
    (hn : (s.fPages.map (·.record)).Nodup) (o : Ownership) : s.setOwnerships (batch.map (·.record)) o =
      { s with fPages := (given ++ (batch.map (FwPage.owned o) ++ rest)).reverse ++ old } := by
  have hkeep : ∀ l : List FwPage, (∀ p ∈ l, p.record ∉ batch.map (·.record)) →
      l.map (fun p => if p.record ∈ batch.map (·.record) then p.owned o else p) = l :=
    fun l hl => (List.map_congr_left (fun p hp => if_neg (hl p hp))).trans (List.map_id' l)
  have hbatch : batch.map (fun p => if p.record ∈ batch.map (·.record) then p.owned o else p) = batch.map (FwPage.owned o) :=
    List.map_congr_left (fun p hp => if_pos (List.mem_map_of_mem hp))
  have hperm : ((batch ++ (given ++ rest ++ old)).map (·.record)).Nodup := by
    have hp : (s.fPages).Perm (batch ++ (given ++ rest ++ old)) := by
      rw [h]
      refine (List.Perm.append_right old (List.reverse_perm _)).trans ?_
      simp only [List.append_assoc]
      exact List.perm_append_comm_assoc _ _ _
    exact ((hp.map _).nodup_iff).mp hn
  rw [List.map_append, List.nodup_append] at hperm
  have hother : ∀ p ∈ given ++ rest ++ old, p.record ∉ batch.map (·.record) := by
    intro p hp hb
    exact hperm.2.2 _ hb _ (List.mem_map_of_mem hp) rfl
  rw [setOwnerships_eq, h]
  simp only [List.map_append, List.map_reverse]
  rw [hbatch, hkeep given (fun p hp => hother p (by simp [hp])), hkeep rest (fun p hp => hother p (by simp [hp])),
    hkeep old (fun p hp => hother p (by simp [hp]))]

/-! ## One batch -/

section
variable {α : Type} {R : List PageEvent → α → World → Prop} {w : World}

theorem post_allocate {f : Bool → Pages α} :
    Prog.Post anyEnv (allocate.bind f) R w ↔ ∀ a, Prog.Post anyEnv (f a) (fun es => R (.asked .allocate a :: es)) w :=
  forall_congr' (fun _ => forall_prop_of_true trivial)

theorem post_setMemoryDescriptor {f : IOReturn → Pages α} : Prog.Post anyEnv (setMemoryDescriptor.bind f) R w ↔
    ∀ a : IOReturn, Prog.Post anyEnv (f a) (fun es => R (.asked .setMemoryDescriptor a :: es)) w :=
  forall_congr' (fun _ => forall_prop_of_true trivial)

theorem post_gen64IOVMSegments {f : Segment → Pages α} : Prog.Post anyEnv (gen64IOVMSegments.bind f) R w ↔
    ∀ a : Segment, Prog.Post anyEnv (f a) (fun es => R (.asked .gen64IOVMSegments a :: es)) w :=
  forall_congr' (fun _ => forall_prop_of_true trivial)

theorem post_notifyAllocationFailure {f : IOReturn → Pages α} (functionId : ℕ) (embedded : Bool) :
    Prog.Post anyEnv ((notifyAllocationFailure functionId embedded).bind f) R w ↔
      ∀ a : IOReturn, Prog.Post anyEnv (f a) (fun es => R (.asked (.allocationFail functionId embedded) a :: es)) w :=
  forall_congr' (fun _ => forall_prop_of_true trivial)

theorem post_execGive {f : IOReturn → Pages α} (functionId : ℕ) (embedded : Bool) (pages : List FwPage) :
    Prog.Post anyEnv ((execGive functionId embedded pages).bind f) R w ↔ ∀ kr : IOReturn,
      Prog.Post anyEnv (f kr) (fun es => R (.asked (.give functionId embedded pages) kr :: es))
        { w with fw := fwEffect w.fw (.give functionId embedded pages) kr } :=
  forall_congr' (fun _ => forall_prop_of_true trivial)

theorem post_update {g : State → State} {f : Unit → Pages α} : Prog.Post anyEnv ((update g).bind f) R w ↔
    Prog.Post anyEnv (f ()) (fun es => R (.wrote w { w with host := g w.host } :: es)) { w with host := g w.host } := Iff.rfl

theorem post_host {f : State → Pages α} :
    Prog.Post anyEnv (host.bind f) R w ↔ Prog.Post anyEnv (f w.host) R w := Iff.rfl

end

theorem forEach_setOwnership_post (records : List ℕ) (o : Ownership)
    {w : World} (hne : records ≠ [] → w.host.fTrackedPages ≠ 0) :
    Prog.Post anyEnv (Prog.forEach records (fun record => update (State.setOwnership record o)))
      (fun es _ t => Quiet es ∧ t = { w with host := w.host.setOwnerships records o }) w := by
  induction records generalizing w with
  | nil => exact ⟨quiet_nil,rfl⟩
  | cons record records ih =>
    have hw := hne (List.cons_ne_nil _ _)
    refine post_update.mpr ((ih (w := { w with host := w.host.setOwnership record o }) (fun _ => hw)).mono ?_)
    rintro es _ t ⟨hq,rfl⟩
    exact ⟨(quiet_wrote (t := { w with host := w.host.setOwnership record o }) hw rfl).append hq,rfl⟩

def State.afterGive (kr : IOReturn) (s : State) : State := if kr = .timeout then s.setFatal .giveTimeout else s

/-- A batch either fails before its command, or its pages get the ownership of the outcome. -/
theorem giveBatch_post {w : World} {batch : List FwPage} (hb : ∀ p ∈ batch, p ∈ w.host.fPages) (hacc : w.host.Accounted)
    (functionId : ℕ) (embedded : Bool) :
    Prog.Post anyEnv (giveBatch (batch.map (·.record)) functionId embedded) (fun es kr t => releases es = [] ∧
      (gives es = [] ∧ kr ≠ .success ∧ kr ≠ .timeout ∧ t.host = w.host ∨
        batch ≠ [] ∧ batch.length ≤ maxManagePages ∧ gives es = [⟨functionId,embedded,batch,kr⟩] ∧
        t.host = State.afterGive kr (w.host.setOwnerships (batch.map (·.record)) (givenOwnership kr)))) w := by
  simp only [giveBatch, Prog.bind_eq, Prog.pure_eq, Prog.post_ite, Prog.post_done, post_allocate, post_host]
  refine ⟨fun _ => by simp [gives, releases],fun hlen a b => ⟨fun _ => by simp [gives, releases],fun _ => ?_⟩⟩
  rw [List.length_map, not_or, not_lt] at hlen
  have hbatch : batch ≠ [] := fun he => hlen.1 (by rw [he]; rfl)
  have hne : w.host.fTrackedPages ≠ 0 := by
    obtain ⟨p,hp⟩ := List.exists_mem_of_ne_nil batch hbatch
    rw [hacc.tracked]
    exact Nat.ne_of_gt (List.length_pos_of_mem (hb p hp))
  have hkept : ∀ o, (w.host.setOwnerships (batch.map (·.record)) o).fTrackedPages = w.host.fTrackedPages := by
    intro o
    rw [setOwnerships_eq]
  rw [filterMap_page hacc.nodup hb]
  refine Prog.Post.bind (forEach_setOwnership_post (batch.map (·.record)) .givePending (fun _ => hne)) ?_
  rintro es₁ _ t ⟨hq₁,rfl⟩
  refine (post_execGive _ _ _).mpr (fun kr => ?_)
  refine Prog.Post.bind (forEach_setOwnership_post (batch.map (·.record)) (givenOwnership kr) (w := { host := _, fw := _ })
    (fun _ => by rw [hkept]; exact hne)) ?_
  rintro es₂ _ t ⟨hq₂,ht⟩
  have hhost : t.host = w.host.setOwnerships (batch.map (·.record)) (givenOwnership kr) := by
    rw [ht]
    exact setOwnerships_twice _ .givePending (givenOwnership kr) w.host
  have hevents : ∀ es', Quiet es' → releases (es₁ ++ .asked (.give functionId embedded batch) kr :: (es₂ ++ es')) = [] ∧
      gives (es₁ ++ .asked (.give functionId embedded batch) kr :: (es₂ ++ es')) = [⟨functionId,embedded,batch,kr⟩] := by
    intro es' hq'
    have hq := hq₂.append hq'
    refine ⟨(releases_append _ _).trans ?_,(gives_append _ _).trans ?_⟩
    · rw [hq₁.2]
      exact hq.2
    · rw [hq₁.1]
      exact congrArg (⟨functionId,embedded,batch,kr⟩ :: ·) hq.1
  simp only [Prog.post_ite, Prog.post_done, post_update]
  refine ⟨fun hk => ?_,fun hk => ?_⟩
  · obtain ⟨hreleases,hgives⟩ := hevents [.wrote t { t with host := t.host.setFatal .giveTimeout }]
      (quiet_wrote (by rw [hhost, hkept]; exact hne) rfl)
    refine ⟨hreleases,Or.inr ⟨hbatch,hlen.2,hgives,?_⟩⟩
    rw [hhost, State.afterGive, if_pos hk]
  · obtain ⟨hreleases,hgives⟩ := hevents [] quiet_nil
    refine ⟨hreleases,Or.inr ⟨hbatch,hlen.2,hgives,?_⟩⟩
    rw [hhost, State.afterGive, if_neg hk]

/-! ## Releasing -/

section
variable {given rest old : List FwPage} {p : FwPage}

theorem Stacked.split (h : Stacked s given (p :: rest) old) :
    s.fPages = rest.reverse ++ (p :: (given.reverse ++ old)) ∧
      (given ++ rest).reverse ++ old = rest.reverse ++ (given.reverse ++ old) := by
  rw [h]
  simp

theorem Stacked.releasePage (h : Stacked s given (p :: rest) old) (hn : (s.fPages.map (·.record)).Nodup) :
    s.releasePage p.record =
      { s with fPages := (given ++ rest).reverse ++ old, fTrackedPages := s.fTrackedPages - 1 } := by
  obtain ⟨hsplit,hrest⟩ := h.split
  have hlater : ∀ q ∈ rest.reverse, ¬ (q.record == p.record) = true := by
    intro q hq he
    rw [hsplit, List.map_append, List.nodup_append] at hn
    exact hn.2.2 _ (List.mem_map_of_mem hq) _ (List.mem_map_of_mem List.mem_cons_self) (beq_iff_eq.mp he)
  have herase : s.fPages.eraseP (fun q => q.record == p.record) = (given ++ rest).reverse ++ old := by
    rw [hsplit, hrest, List.eraseP_append_right _ hlater]
    exact congrArg (rest.reverse ++ ·) (List.eraseP_cons_of_pos (beq_self_eq_true p.record))
  rw [State.releasePage, herase]

/-- The page released is the one that leaves the list. -/
theorem Stacked.leaves (h : Stacked s given (p :: rest) old) (hn : (s.fPages.map (·.record)).Nodup) :
    leaves s (s.releasePage p.record) = some p := by
  obtain ⟨hsplit,hrest⟩ := h.split
  have hperm : s.fPages.Perm (p :: ((given ++ rest).reverse ++ old)) := by
    rw [hsplit, hrest]
    exact List.perm_middle
  have hgone : p.record ∉ (((given ++ rest).reverse ++ old).map (·.record)) :=
    (List.nodup_cons.mp (((hperm.map _).nodup_iff).mp hn)).1
  rw [h.releasePage hn]
  have hsome : (FwPages.leaves s
      { s with fPages := (given ++ rest).reverse ++ old, fTrackedPages := s.fTrackedPages - 1 }).isSome :=
    List.find?_isSome.mpr ⟨p,hperm.mem_iff.mpr List.mem_cons_self,by simpa [List.contains_eq_mem] using hgone⟩
  obtain ⟨q,hq⟩ := Option.isSome_iff_exists.mp hsome
  rw [hq]
  rcases List.mem_cons.mp (hperm.mem_iff.mp (List.mem_of_find?_eq_some hq)) with rfl | hkept
  · rfl
  · have hout := List.find?_some hq
    rw [List.contains_iff_mem.mpr (List.mem_map_of_mem hkept)] at hout
    cases hout

end

/-- One round of a clean-up loop: pages that `keep` selects stay, the others are released. -/
def CleansUp (keep : FwPage → Bool) (body : ℕ → Pages Unit) : Prop :=
  ∀ w p, w.host.Accounted → p ∈ w.host.fPages → Prog.Post anyEnv (body p.record) (fun es _ t =>
    if keep p then Quiet es ∧ t = w
    else es = [.wrote w t] ∧ t = { w with host := w.host.releasePage p.record }) w

theorem cleansUp_releasePage : CleansUp (fun _ => false) (fun record => update (State.releasePage record)) :=
  fun _ _ _ _ => ⟨rfl,rfl⟩

theorem cleansUp_releasePrepared : CleansUp (fun p => p.ownership ≠ .hostPrepared) releasePrepared := by
  intro w p hacc hp
  have hpage := page_of_mem hacc.nodup hp
  simp only [releasePrepared, Prog.bind_eq, Prog.pure_eq, post_host, hpage, Option.map_some, Prog.post_ite]
  refine ⟨fun ho => ?_,fun ho => ?_⟩
  · have ho' : p.ownership = .hostPrepared := Option.some.inj ho
    simp only [ho', ne_eq, not_true_eq_false, decide_false, Bool.false_eq_true, if_false]
    exact ⟨rfl,rfl⟩
  · have ho' : p.ownership ≠ .hostPrepared := fun he => ho (congrArg some he)
    simp only [ho', ne_eq, not_false_eq_true, decide_true, if_true]
    exact ⟨quiet_nil,rfl⟩

theorem forEach_cleanUp_post {keep : FwPage → Bool} {body : ℕ → Pages Unit} (hbody : CleansUp keep body) {w : World}
    {given rest old : List FwPage} (h : Stacked w.host given rest old) (hacc : w.host.Accounted) :
    Prog.Post anyEnv (Prog.forEach (rest.map (·.record)) body) (fun es _ t => t.host.Accounted ∧ gives es = [] ∧
      releases es = (rest.filter (fun p => !keep p)).map some ∧
      t = { w with host := { w.host with
        fPages := (given ++ rest.filter keep).reverse ++ old
        fTrackedPages := w.host.fTrackedPages - (rest.filter (fun p => !keep p)).length } }) w := by
  induction rest generalizing given w with
  | nil =>
    refine ⟨hacc,rfl,rfl,?_⟩
    have hpages : w.host.fPages = (given ++ []).reverse ++ old := h
    rw [List.filter_nil, ← hpages]
    rfl
  | cons p rest ih =>
    have hp : p ∈ w.host.fPages := h.mem List.mem_cons_self
    refine Prog.Post.bind (hbody w p hacc hp) (fun es _ t hpost => ?_)
    by_cases hk : keep p = true
    · rw [if_pos hk] at hpost
      obtain ⟨hq,rfl⟩ := hpost
      have hstacked : Stacked t.host (given ++ [p]) rest old := by
        rw [Stacked, h, List.append_assoc]
        rfl
      refine (ih hstacked hacc).mono ?_
      rintro es' _ u ⟨hu,hg,hr,rfl⟩
      refine ⟨hu,?_,?_,?_⟩
      · rw [gives_append, hq.1, hg]
        rfl
      · rw [releases_append, hq.2, hr, List.filter_cons_of_neg (by simp [hk])]
        rfl
      · rw [List.filter_cons_of_pos hk, List.filter_cons_of_neg (by simp [hk]), List.append_assoc]
        rfl
    · rw [if_neg hk] at hpost
      obtain ⟨rfl,rfl⟩ := hpost
      have hrelease := h.releasePage hacc.nodup
      have hleaves := h.leaves hacc.nodup
      have htracked : w.host.fTrackedPages ≠ 0 := by
        rw [hacc.tracked]
        exact Nat.ne_of_gt (List.length_pos_of_mem hp)
      have hstacked : Stacked (w.host.releasePage p.record) given rest old := by rw [hrelease]; rfl
      refine (ih (w := { w with host := w.host.releasePage p.record }) hstacked
        (hacc.releasePage (List.mem_map_of_mem hp))).mono ?_
      rintro es' _ u ⟨hu,hg,hr,rfl⟩
      refine ⟨hu,hg,?_,?_⟩
      · have hone : releases [.wrote w { w with host := w.host.releasePage p.record }] = [some p] := by
          have hdrop : (w.host.releasePage p.record).fTrackedPages + 1 = w.host.fTrackedPages := Nat.succ_pred htracked
          simp only [releases, List.filterMap_cons, hdrop, true_or, if_true, hleaves, List.filterMap_nil]
        rw [releases_append, hone, hr, List.filter_cons_of_pos (by simp [hk])]
        rfl
      · rw [List.filter_cons_of_neg hk, List.filter_cons_of_pos (by simp [hk]), hrelease, List.length_cons]
        dsimp only
        rw [Nat.sub_sub, Nat.add_comm 1]

/-! ## All batches -/

/-- The new pages that stay tracked: those of the batches that succeeded, and of a batch that timed out. -/
def keptPages (done : List (List FwPage)) (failed : List FwPage) (kr : IOReturn) : List FwPage :=
  done.flatten.map (FwPage.owned .firmwareOwned) ++ (if kr = .timeout then failed.map (FwPage.owned .ambiguous) else [])

/-- What happened to the pages of `rest`: batches that succeeded, a batch that failed, and the pages
after it. `start` is how many pages were given before. -/
structure Gave (functionId : ℕ) (embedded : Bool) (start : ℕ) (given rest old : List FwPage)
    (es : List PageEvent) (kr : IOReturn)
    (t : State) (done : List (List FwPage)) (failed later : List FwPage) : Prop where
  split : rest = done.flatten ++ (failed ++ later)
  sizes : ∀ batch ∈ done, batch ≠ [] ∧ batch.length ≤ maxManagePages
  commands : ∃ last, gives es = done.map (fun batch => ⟨functionId,embedded,batch,.success⟩) ++ last ∧
    (last = [⟨functionId,embedded,failed,kr⟩] ∧ failed ≠ [] ∧ failed.length ≤ maxManagePages ∨
      last = [] ∧ kr ≠ .timeout)
  success : kr = .success → failed = [] ∧ later = []
  tracked : t.fPages = (given ++ keptPages done failed kr).reverse ++ old
  released : releases es = ((if kr = .timeout then [] else failed) ++ later).map some
  fatal : kr ≠ .success → start ≠ 0 ∨ done ≠ [] ∨ kr = .timeout → t.fFatal = true

theorem Gave.ungiven {functionId : ℕ} {embedded : Bool} {start : ℕ} {given rest old : List FwPage} {es : List PageEvent}
    {kr : IOReturn} {t : State} (hg : gives es = []) (hr : releases es = rest.map some) (ht : kr ≠ .timeout)
    (h : Stacked t given [] old) (hs : kr = .success → rest = []) (hstart : kr ≠ .success → start = 0) :
    Gave functionId embedded start given rest old es kr t [] [] rest where
  split := rfl
  sizes := fun _ h => absurd h List.not_mem_nil
  commands := ⟨[],hg,Or.inr ⟨rfl,ht⟩⟩
  success := fun hk => ⟨rfl,hs hk⟩
  tracked := by
    rw [keptPages, if_neg ht]
    exact h
  released := by
    rw [hr, if_neg ht]
    rfl
  fatal := by
    rintro hk (h | h | h)
    · exact absurd (hstart hk) h
    · exact absurd rfl h
    · exact absurd h ht

/-- A batch that succeeded stands before what follows it. -/
theorem Gave.cons {functionId : ℕ} {embedded : Bool} {start : ℕ} {given batch rest old : List FwPage}
    {es es' : List PageEvent}
    {kr : IOReturn} {t : State} {done : List (List FwPage)} {failed later : List FwPage}
    (g : Gave functionId embedded (start + batch.length) (given ++ batch.map (FwPage.owned .firmwareOwned)) rest old es' kr t done
      failed later)
    (hg : gives es = [⟨functionId,embedded,batch,.success⟩]) (hr : releases es = []) (hne : batch ≠ [])
    (hlen : batch.length ≤ maxManagePages) :
    Gave functionId embedded start given (batch ++ rest) old (es ++ es') kr t (batch :: done) failed later where
  split := by rw [g.split, List.flatten_cons, List.append_assoc]
  sizes := by
    rintro b (_ | ⟨_,hb⟩)
    · exact ⟨hne,hlen⟩
    · exact g.sizes b hb
  commands := by
    obtain ⟨last,hlast⟩ := g.commands
    refine ⟨last,?_,hlast.2⟩
    rw [gives_append, hg, hlast.1]
    rfl
  success := g.success
  tracked := by
    rw [g.tracked, keptPages, keptPages, List.flatten_cons, List.map_append]
    simp only [List.append_assoc]
  released := by
    rw [releases_append, hr, g.released]
    rfl
  fatal := by
    have hpos := List.length_pos_of_ne_nil hne
    exact fun hk _ => g.fatal hk (Or.inl (by omega))

theorem owned_hostPrepared {pages : List FwPage} (h : ∀ p ∈ pages, p.ownership = .hostPrepared) :
    pages.map (FwPage.owned .hostPrepared) = pages := by
  refine (List.map_congr_left (fun p hp => ?_)).trans (List.map_id' pages)
  rw [FwPage.owned, ← h p hp]

/-- The clean-up after a failed batch whose pages have come back prepared, or stay ambiguous. -/
theorem cleanUp_filter {batch later : List FwPage} (hp : ∀ p ∈ batch ++ later, p.ownership = .hostPrepared) {kr : IOReturn}
    (hk : kr ≠ .success) :
    (batch.map (FwPage.owned (givenOwnership kr)) ++ later).filter (fun p => p.ownership ≠ .hostPrepared) =
        (if kr = .timeout then batch.map (FwPage.owned .ambiguous) else []) ∧
      (batch.map (FwPage.owned (givenOwnership kr)) ++ later).filter (fun p => !decide (p.ownership ≠ .hostPrepared)) =
        (if kr = .timeout then [] else batch) ++ later := by
  have hlater : ∀ p ∈ later, p.ownership = .hostPrepared := fun p h => hp p (List.mem_append_right _ h)
  have hbatch : ∀ p ∈ batch, p.ownership = .hostPrepared := fun p h => hp p (List.mem_append_left _ h)
  have hnone : ∀ l : List FwPage, (∀ p ∈ l, p.ownership = .hostPrepared) →
      l.filter (fun p => p.ownership ≠ .hostPrepared) = [] ∧
        l.filter (fun p => !decide (p.ownership ≠ .hostPrepared)) = l :=
    fun l hl => ⟨List.filter_eq_nil_iff.mpr (fun p h => by simp [hl p h]),
      List.filter_eq_self.mpr (fun p h => by simp [hl p h])⟩
  by_cases ht : kr = .timeout
  · have howned : givenOwnership kr = .ambiguous := by rw [ht]; rfl
    rw [if_pos ht, if_pos ht, howned, List.filter_append, List.filter_append, (hnone later hlater).1, (hnone later hlater).2]
    refine ⟨?_,?_⟩
    · rw [List.append_nil]
      exact List.filter_eq_self.mpr (fun p h => by obtain ⟨q,_,rfl⟩ := List.mem_map.mp h; rfl)
    · refine congrArg (· ++ later) (List.filter_eq_nil_iff.mpr (fun p h => ?_))
      obtain ⟨q,_,rfl⟩ := List.mem_map.mp h
      exact Bool.false_ne_true
  · have howned : givenOwnership kr = .hostPrepared := by cases kr <;> first | rfl | exact absurd rfl hk | exact absurd rfl ht
    rw [if_neg ht, if_neg ht, howned, owned_hostPrepared hbatch]
    exact hnone _ hp

/-- The rest of `giveBatches` after a batch that failed. -/
theorem cleanUp_post {kr : IOReturn} {start : ℕ} {given batch later old : List FwPage} {t : World}
    (h : Stacked t.host given (batch.map (FwPage.owned (givenOwnership kr)) ++ later) old) (hacc : t.host.Accounted)
    (hp : ∀ p ∈ batch ++ later, p.ownership = .hostPrepared) (hk : kr ≠ .success)
    (hfatal : kr = .timeout → t.host.fFatal = true) (hstart : start ≠ 0 → given ≠ []) :
    Prog.Post anyEnv ((Prog.forEach ((batch ++ later).map (·.record)) releasePrepared).bind (fun _ =>
        if start ≠ 0 then (update (State.setFatal .protocol)).bind (fun _ => .done kr) else .done kr))
      (fun es kr' u => kr' = kr ∧ gives es = [] ∧
        releases es = ((if kr = .timeout then [] else batch) ++ later).map some ∧
        u.host.fPages = (given ++ (if kr = .timeout then batch.map (FwPage.owned .ambiguous) else [])).reverse ++ old ∧
        (start ≠ 0 ∨ kr = .timeout → u.host.fFatal = true)) t := by
  have hrecords : (batch ++ later).map (·.record) =
      (batch.map (FwPage.owned (givenOwnership kr)) ++ later).map (·.record) := by
    rw [List.map_append, List.map_append, List.map_map]
    rfl
  obtain ⟨hkept,hreleased⟩ := cleanUp_filter hp hk
  rw [hrecords]
  refine Prog.Post.bind (forEach_cleanUp_post cleansUp_releasePrepared h hacc) ?_
  rintro es _ u ⟨hacc',hg,hr,hu⟩
  rw [hreleased] at hr hu
  rw [hkept] at hu
  have hpages : u.host.fPages =
      (given ++ (if kr = .timeout then batch.map (FwPage.owned .ambiguous) else [])).reverse ++ old := by
    rw [hu]
  have hsame : u.host.fFatal = t.host.fFatal := by rw [hu]
  simp only [Prog.post_ite, Prog.post_done, post_update]
  refine ⟨fun hs => ⟨trivial,?_,?_,hpages,fun _ => rfl⟩,fun hs => ⟨trivial,?_,?_,hpages,fun hf => ?_⟩⟩
  · rw [gives_append, hg]
    rfl
  · have hquiet : Quiet [.wrote u { u with host := u.host.setFatal .protocol }] := by
      refine quiet_wrote ?_ rfl
      obtain ⟨p,given',rfl⟩ := List.exists_cons_of_ne_nil (hstart hs)
      rw [hacc'.tracked, hpages]
      simp
    rw [releases_append, hr, hquiet.2, List.append_nil]
  · rw [gives_append, hg]
    rfl
  · rw [releases_append, hr]
    exact List.append_nil _
  · rw [hsame]
    exact hfatal (hf.resolve_left (not_not.mpr (not_not.mp hs)))

/-- A block of pages with another ownership is accounted as before. -/
theorem Stacked.accounted {given batch rest old : List FwPage} (h : Stacked s given (batch ++ rest) old) (hacc : s.Accounted)
    (o : Ownership) : { s with fPages := (given ++ (batch.map (FwPage.owned o) ++ rest)).reverse ++ old }.Accounted := by
  rw [← h.setOwnerships hacc.nodup o, setOwnerships_eq]
  exact hacc.map (fun p => by split <;> rfl)

/-- A batch that failed, before its command or by it, left its pages as the clean-up expects them. -/
theorem giveBatch_failed {functionId : ℕ} {embedded : Bool} {es : List PageEvent}
    {kr : IOReturn} {given batch later old : List FwPage}
    {w t : World} (h : Stacked w.host given (batch ++ later) old) (hacc : w.host.Accounted)
    (hp : ∀ p ∈ batch, p.ownership = .hostPrepared) (hk : kr ≠ .success)
    (hpost : gives es = [] ∧ kr ≠ .success ∧ kr ≠ .timeout ∧ t.host = w.host ∨
      batch ≠ [] ∧ batch.length ≤ maxManagePages ∧ gives es = [⟨functionId,embedded,batch,kr⟩] ∧
      t.host = State.afterGive kr (w.host.setOwnerships (batch.map (·.record)) (givenOwnership kr))) :
    ∃ last, (gives es = last ∧ (last = [⟨functionId,embedded,batch,kr⟩] ∧
    batch ≠ [] ∧ batch.length ≤ maxManagePages ∨
        last = [] ∧ kr ≠ .timeout)) ∧
      Stacked t.host given (batch.map (FwPage.owned (givenOwnership kr)) ++ later) old ∧ t.host.Accounted ∧
      (kr = .timeout → t.host.fFatal = true) := by
  rcases hpost with ⟨hg,_,ht,hhost⟩ | ⟨hne,hlen,hg,hhost⟩
  · have howned : givenOwnership kr = .hostPrepared := by cases kr <;> first | rfl | exact absurd rfl hk | exact absurd rfl ht
    refine ⟨[],⟨hg,Or.inr ⟨rfl,ht⟩⟩,?_,hhost ▸ hacc,fun h => absurd h ht⟩
    rw [howned, owned_hostPrepared hp, hhost]
    exact h
  · have hblock := h.accounted hacc (givenOwnership kr)
    rw [h.setOwnerships hacc.nodup] at hhost
    refine ⟨_,⟨hg,Or.inl ⟨rfl,hne,hlen⟩⟩,?_,?_,fun ht => ?_⟩
    · rw [hhost, State.afterGive]
      split <;> rfl
    · rw [hhost, State.afterGive]
      split
      · exact hblock.setFatal _
      · exact hblock
    · rw [hhost, State.afterGive, if_pos ht]
      rfl

theorem giveBatches_post (functionId : ℕ) (embedded : Bool) (fuel start : ℕ) {given rest old : List FwPage} {w : World}
    (h : Stacked w.host given rest old) (hacc : w.host.Accounted) (hp : ∀ p ∈ rest, p.ownership = .hostPrepared)
    (hfuel : rest.length ≤ fuel) (hstart : start ≠ 0 → given ≠ []) :
    Prog.Post anyEnv (giveBatches functionId embedded fuel start (rest.map (·.record))) (fun es kr t =>
      ∃ done failed later, Gave functionId embedded start given rest old es kr t.host done failed later) w := by
  induction fuel generalizing start given rest w with
  | zero =>
    obtain rfl := List.length_eq_zero_iff.mp (Nat.le_zero.mp hfuel)
    exact ⟨[],[],[],.ungiven rfl rfl (by decide) h (fun _ => rfl) (fun hk => absurd rfl hk)⟩
  | succ fuel ih =>
    cases rest with
    | nil => exact ⟨[],[],[],.ungiven rfl rfl (by decide) h (fun _ => rfl) (fun hk => absurd rfl hk)⟩
    | cons page rest =>
      have hsplit := List.take_append_drop maxManagePages (page :: rest)
      generalize hbatch : (page :: rest).take maxManagePages = batch at hsplit
      generalize hlater : (page :: rest).drop maxManagePages = later at hsplit
      have htake : ((page :: rest).map (·.record)).take maxManagePages = batch.map (·.record) := by
        rw [← List.map_take, hbatch]
      have hdrop : ((page :: rest).map (·.record)).drop maxManagePages = later.map (·.record) := by
        rw [← List.map_drop, hlater]
      rw [← hsplit] at h hp
      have hprepared : ∀ p ∈ batch, p.ownership = .hostPrepared := fun p hm => hp p (List.mem_append_left _ hm)
      rw [List.map_cons] at htake hdrop
      rw [List.map_cons, giveBatches, htake, hdrop]
      simp only [Prog.bind_eq, Prog.pure_eq]
      refine Prog.Post.bind (giveBatch_post (fun p hm => h.mem (List.mem_append_left _ hm)) hacc functionId embedded)
        (fun es kr t hpost => ?_)
      obtain ⟨hquiet,hpost⟩ := hpost
      rw [Prog.post_ite]
      refine ⟨fun hk => ?_,fun hk => ?_⟩
      · obtain ⟨last,hlast,hstacked,hacc',hfatal⟩ := giveBatch_failed h hacc hprepared hk hpost
        have hrecords : page.record :: rest.map (·.record) = (batch ++ later).map (·.record) := by
          rw [hsplit, List.map_cons]
        rw [hrecords]
        refine (cleanUp_post hstacked hacc' hp hk hfatal hstart).mono ?_
        rintro es' kr' u ⟨rfl,hg,hr,hpages,hf⟩
        refine ⟨[],batch,later,hsplit.symm,by simp,⟨last,?_,hlast.2⟩,fun hs => absurd hs hk,?_,?_,fun _ hs => hf ?_⟩
        · rw [gives_append, hg, List.append_nil]
          exact hlast.1
        · exact hpages
        · rw [releases_append, hquiet, hr]
          rfl
        · rcases hs with hs | hs | hs
          · exact Or.inl hs
          · exact absurd rfl hs
          · exact Or.inr hs
      · have hk : kr = .success := not_not.mp hk
        subst hk
        rcases hpost with ⟨_,hno,_⟩ | ⟨hne,hlen,hg,hhost⟩
        · exact absurd rfl hno
        have hhost' : t.host = { w.host with
            fPages := (given ++ (batch.map (FwPage.owned .firmwareOwned) ++ later)).reverse ++ old } :=
          hhost.trans (h.setOwnerships hacc.nodup .firmwareOwned)
        have hstacked : Stacked t.host (given ++ batch.map (FwPage.owned .firmwareOwned)) later old := by
          rw [Stacked, hhost', List.append_assoc]
        have hlonger : later.length ≤ fuel := by
          rw [← hlater, List.length_drop]
          simp only [List.length_cons, maxManagePages] at hfuel ⊢
          omega
        have hgiven : start + (batch.map (·.record)).length ≠ 0 →
          given ++ batch.map (FwPage.owned .firmwareOwned) ≠ [] :=
          fun _ he => hne (List.map_eq_nil_iff.mp (List.append_eq_nil_iff.mp he).2)
        refine (ih _ hstacked ?_ (fun p hm => hp p (List.mem_append_right _ hm)) hlonger hgiven).mono ?_
        · rw [hhost']
          exact h.accounted hacc .firmwareOwned
        · rintro es' kr u ⟨done,failed,later',g⟩
          rw [List.length_map] at g
          rw [← hsplit]
          exact ⟨batch :: done,failed,later',g.cons hg hquiet hne hlen⟩

end AppleMCX.FwPages
