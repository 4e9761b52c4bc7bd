import AppleMCX.Netif.ObjectCommands

/-! # The order in which the Ethernet interface creates and destroys

In every run of `enable`, `disable` and `stop`, whatever the device answers, each command names
objects that exist, and nothing is destroyed that something else refers to.
-/
namespace AppleMCX.FirmwareObjects
open Interaction Ethernet Commands

variable {β : Type} {hw : Hardware} {v w : View} {x : Slot}

/-! ## The groups of resources -/

abbrev flowSlots : List Slot := [.fFlowRootActive,.fFlowEntryValid,.fFlowGroupId,.fFlowTableId]
abbrev rxSlots : List Slot := [.fTirn,.fRqn,.fRxCqn]
abbrev txSlots : List Slot := [.fSqn,.fTxCqn,.fTisn]
abbrev globalSlots : List Slot := [.fMkeyIndex,.fTd,.fPd]

theorem runs_drop (f : Ethernet.Field) : Runs hw v (drop f) (fun _ w => w = v) :=
  runs_updateDma (fun _ => Custody.drop_number)

theorem runs_dropBuffer (desc map : Ethernet.Field) : Runs hw v (dropBuffer desc map) (fun _ w => w = v) := by
  unfold dropBuffer
  refine runs_get (fun s _ => runs_ite (fun _ => ?_) (fun _ => runs_done rfl))
  exact Runs.quiet (runs_drop map) (fun _ => runs_drop desc)

theorem runs_destroyRxFlowSteering : Runs hw v destroyRxFlowSteering (Torn v flowSlots) := by
  unfold destroyRxFlowSteering
  refine Runs.andThen (X := [.fFlowRootActive]) runs_disconnectFlowTableRoot (fun w₁ h₁ => ?_)
  refine Runs.andThen (X := [.fFlowEntryValid]) runs_deleteFlowTableEntry (fun w₂ h₂ => ?_)
  have hentry := h₂.1 rfl .fFlowEntryValid (by decide)
  refine Runs.andThen (X := [.fFlowGroupId]) (runs_destroyFlowGroup hentry) (fun w₃ h₃ => ?_)
  have hroot := h₃.none (h₂.none (h₁.1 rfl .fFlowRootActive (by decide)))
  refine runs_destroyFlowTable ?_
  intro y hy
  rcases List.mem_cons.mp hy with rfl | hy
  · exact h₃.1 rfl .fFlowGroupId (by decide)
  rcases List.mem_cons.mp hy with rfl | hy
  · exact h₃.none hentry
  · rw [List.mem_singleton.mp hy]
    exact hroot

theorem runs_destroyRxResources (h : v .fFlowEntryValid = none) : Runs hw v destroyRxResources (Torn v rxSlots) := by
  unfold destroyRxResources
  refine Runs.andThen (X := [.fTirn]) (runs_destroyTir h) (fun w₁ h₁ => ?_)
  refine Runs.andThen (X := [.fRqn]) (runs_destroyRq (h₁.1 rfl .fTirn (by decide))) (fun w₂ h₂ => ?_)
  refine Runs.quiet (runs_dropBuffer _ _) (fun _ => Runs.quiet (runs_drop _) (fun _ => ?_))
  have hcq : Runs hw w₂ (destroyQueue .destroyCq .fRxCqn) (Torn w₂ [.fRxCqn]) :=
    runs_destroyRxCq (h₂.1 rfl .fRqn (by decide))
  refine hcq.bind (fun kr w₃ h₃ => runs_ite (fun hkr => ?_) (fun _ => runs_done h₃))
  rw [hkr] at h₃
  exact Runs.quiet (runs_dropBuffer _ _) (fun _ => Runs.quiet (runs_drop _) (fun _ => runs_done h₃))

theorem runs_destroyTxResources : Runs hw v destroyTxResources (Torn v txSlots) := by
  unfold destroyTxResources
  refine Runs.andThen (X := [.fSqn]) runs_destroySq (fun w₁ h₁ => ?_)
  have hsq := h₁.1 rfl .fSqn (by decide)
  refine Runs.quiet (runs_update (fun _ => ⟨rfl,rfl⟩)) (fun _ => ?_)
  refine Runs.quiet (runs_dropBuffer _ _) (fun _ => Runs.quiet (runs_drop _) (fun _ => ?_))
  refine Runs.quiet (runs_update (fun _ => ⟨rfl,rfl⟩)) (fun _ => ?_)
  refine Runs.andThen (X := [.fTxCqn]) (runs_destroyTxCq hsq) (fun w₂ h₂ => ?_)
  refine Runs.quiet (runs_dropBuffer _ _) (fun _ => Runs.quiet (runs_drop _) (fun _ => ?_))
  exact runs_destroyTis (h₂.none hsq)

theorem runs_deallocGlobalResources (h : ∀ x, x ∉ globalSlots → v x = none) :
    Runs hw v deallocGlobalResources (Torn v globalSlots) := by
  unfold deallocGlobalResources
  refine Runs.andThen (X := [.fMkeyIndex]) runs_destroyMkey (fun w₁ h₁ => ?_)
  have hrest : ∀ x, x ∉ [Slot.fTd,.fPd] → w₁ x = none := by
    intro x hx
    by_cases hmkey : x = .fMkeyIndex
    · rw [hmkey]
      exact h₁.1 rfl .fMkeyIndex (by decide)
    · refine h₁.none (h x ?_)
      rw [List.mem_cons]
      rintro (he | he)
      · exact hmkey he
      · exact hx he
  refine Runs.andThen (X := [.fTd]) (runs_deallocTd ?_) (fun w₂ h₂ => ?_)
  · rw [List.forall_mem_cons, List.forall_mem_singleton]
    exact ⟨hrest .fTisn (by decide),hrest .fTirn (by decide)⟩
  refine runs_deallocPd (fun x hx => ?_)
  by_cases htd : x = .fTd
  · rw [htd]
    exact h₂.1 rfl .fTd (by decide)
  · refine h₂.none (hrest x ?_)
    rw [List.mem_cons, List.mem_singleton]
    rintro (he | he)
    · exact htd he
    · exact hx he

/-! ## Creating the groups -/

/-- The program changes some slots only, and fills some of them where it succeeds. -/
def Built (v : View) (X F : List Slot) (kr : IOReturn) (w : View) : Prop :=
  (∀ y, y ∉ X → w y = v y) ∧ (kr = .success → ∀ y ∈ F, w y ≠ none)

theorem Filled.built {kr : IOReturn} {m : ℕ → ℕ} (h : Filled v x m kr w) : Built v [x] [x] kr w := by
  refine ⟨fun y hy => ?_,fun hkr y hy => ?_⟩
  · by_cases hkr : kr = .success
    · obtain ⟨n,rfl⟩ := h.1 hkr
      exact Function.update_of_ne (fun he => hy (List.mem_singleton.mpr he)) _ _
    · rw [h.2 hkr]
  · obtain ⟨n,rfl⟩ := h.1 hkr
    rw [List.mem_singleton.mp hy, Function.update_self]
    exact Option.some_ne_none _

variable {u : View} {X F : List Slot}

/-- The slots outside a list hold what they held. -/
def Outside (X : List Slot) (u w : View) : Prop := ∀ y, y ∉ X → w y = u y

/-- A step of a creation; where it fails, what is there is destroyed. -/
theorem Runs.orElse {p cleanup rest : Eth IOReturn} {M : IOReturn → View → Prop} (hp : Runs hw v p M)
    (hM : ∀ kr w, M kr w → Outside X u w) (hcleanup : ∀ w, Outside X u w → Runs hw w cleanup (Torn w X))
    (hrest : ∀ w, M .success w → Outside X u w → Runs hw w rest (Built u X F)) :
    Runs hw v (p.bind (fun kr => Ethernet.orElse kr cleanup rest)) (Built u X F) := by
  refine hp.bind (fun kr w hw => runs_ite (fun hkr => ?_) (fun hkr => ?_))
  · refine (hcleanup w (hM kr w hw)).bind (fun kr' w' htorn => runs_done ⟨fun y hy => ?_,fun h => absurd h hkr⟩)
    exact (htorn.same hy).trans (hM kr w hw y hy)
  · have hout := hM kr w hw
    rw [Decidable.not_not.mp hkr] at hw
    exact hrest w hw hout

theorem Runs.orElseFilled {p cleanup rest : Eth IOReturn} {m : ℕ → ℕ} (hp : Runs hw v p (Filled v x m)) (hx : x ∈ X)
    (hv : Outside X u v) (hcleanup : ∀ w, Outside X u w → Runs hw w cleanup (Torn w X))
    (hrest : ∀ w, Outside X u w → (∀ y, y ≠ x → w y = v y) → w x ≠ none → Runs hw w rest (Built u X F)) :
    Runs hw v (p.bind (fun kr => Ethernet.orElse kr cleanup rest)) (Built u X F) := by
  have hkept : ∀ {kr w}, Filled v x m kr w → ∀ y, y ≠ x → w y = v y :=
    fun hw y hy => hw.built.1 y (fun hmem => hy (List.mem_singleton.mp hmem))
  refine Runs.orElse hp (fun kr w hw y hy => ?_) hcleanup (fun w hw hout => ?_)
  · refine (hkept hw y ?_).trans (hv y hy)
    rintro rfl
    exact hy hx
  · exact hrest w hout (hkept hw) (hw.built.2 rfl x (List.mem_singleton.mpr rfl))

theorem Runs.orElseQuiet {p cleanup rest : Eth IOReturn} (hp : Runs hw v p (fun _ w => w = v)) (hv : Outside X u v)
    (hcleanup : ∀ w, Outside X u w → Runs hw w cleanup (Torn w X)) (hrest : Runs hw v rest (Built u X F)) :
    Runs hw v (p.bind (fun kr => Ethernet.orElse kr cleanup rest)) (Built u X F) := by
  refine Runs.orElse hp ?_ hcleanup ?_
  · rintro kr w rfl
    exact hv
  · rintro w rfl _
    exact hrest

theorem runs_allocateInto (f : Ethernet.Field) : Runs hw v (allocateInto f) (fun _ w => w = v) := by
  unfold allocateInto
  refine Runs.quiet runs_allocate (fun ok => runs_ite (fun _ => ?_) (fun _ => ?_))
  · refine Runs.quiet (runs_acquire f) (fun k => ?_)
    exact Runs.quiet (runs_updateDma (fun _ => rfl)) (fun _ => runs_done rfl)
  · exact Runs.quiet (runs_updateDma (fun _ => rfl)) (fun _ => runs_done rfl)

theorem runs_mapInto (f : Ethernet.Field) : Runs hw v (mapInto f) (fun _ w => w = v) := by
  unfold mapInto
  refine Runs.quiet runs_mapDMAContiguous (fun kr => runs_ite (fun _ => ?_) (fun _ => runs_done rfl))
  refine Runs.quiet (runs_acquire f) (fun k => ?_)
  exact Runs.quiet (runs_updateDma (fun _ => rfl)) (fun _ => runs_done rfl)

theorem runs_allocGlobalResources (h : ∀ x, v x = none) :
    Runs hw v allocGlobalResources (Built v globalSlots [.fPd,.fTd]) := by
  have hcleanup : ∀ w, Outside globalSlots v w → Runs hw w deallocGlobalResources (Torn w globalSlots) :=
    fun w hw => runs_deallocGlobalResources (fun x hx => (hw x hx).trans (h x))
  unfold allocGlobalResources
  have hready : Ready v .fPd := ⟨h _,fun y hy => absurd hy List.not_mem_nil,Or.inl rfl⟩
  refine (runs_cmdAllocPd hready).bind (fun kr w₁ h₁ => runs_ite (fun hkr => ?_) (fun hkr => ?_))
  · have hpd : w₁ .fPd ≠ none := h₁.built.2 hkr _ (by decide)
    have hkept : ∀ y, y ≠ .fPd → w₁ y = v y := fun y hy => h₁.built.1 y (fun hmem => hy (List.mem_singleton.mp hmem))
    have htd : Ready w₁ .fTd :=
      ⟨(hkept _ (by decide)).trans (h _),fun y hy => absurd hy List.not_mem_nil,Or.inr hpd⟩
    have hout : Outside globalSlots v w₁ := fun y hy => hkept y (fun he => hy (he ▸ by decide))
    refine Runs.orElseFilled (runs_cmdAllocTd htd) (by decide) hout hcleanup (fun w₂ hout₂ hkept₂ hfilled => ?_)
    have hpd₂ : w₂ .fPd ≠ none := by
      rw [hkept₂ _ (by decide)]
      exact hpd
    have hmkey : Ready w₂ .fMkeyIndex :=
      ⟨((hkept₂ _ (by decide)).trans (hkept _ (by decide))).trans (h _),List.forall_mem_singleton.mpr hpd₂,Or.inr hpd₂⟩
    refine Runs.orElseFilled (runs_cmdCreateMkey hmkey) (by decide) hout₂ hcleanup (fun w₃ hout₃ hkept₃ _ => ?_)
    refine runs_done ⟨hout₃,fun _ => ?_⟩
    rw [List.forall_mem_cons, List.forall_mem_singleton, hkept₃ _ (by decide), hkept₃ _ (by decide)]
    exact ⟨hpd₂,hfilled⟩
  · rw [h₁.2 hkr]
    exact runs_done ⟨fun _ _ => rfl,fun hok => absurd hok hkr⟩

theorem runs_createTxResources (hpd : v .fPd ≠ none) (htd : v .fTd ≠ none) (h : ∀ x ∈ txSlots, v x = none) :
    Runs hw v createTxResources (Built v txSlots []) := by
  have hcleanup : ∀ w, Outside txSlots v w → Runs hw w destroyTxResources (Torn w txSlots) :=
    fun w _ => runs_destroyTxResources
  have hself : Outside txSlots v v := fun _ _ => rfl
  have hunbuilt : ∀ kr : IOReturn, kr ≠ .success → Runs hw v (.done kr) (Built v txSlots []) :=
    fun kr hkr => runs_done ⟨hself,fun hok => absurd hok hkr⟩
  unfold createTxResources
  refine Runs.quiet (runs_update (fun _ => ⟨rfl,rfl⟩)) (fun _ => ?_)
  refine Runs.quiet (runs_allocateInto _) (fun ok => runs_ite (fun _ => hunbuilt _ (by decide)) (fun _ => ?_))
  refine Runs.orElseQuiet (runs_mapInto _) hself hcleanup ?_
  have htis : Ready v .fTisn := by
    refine ⟨h _ (by decide),?_,Or.inr hpd⟩
    exact List.forall_mem_cons.mpr ⟨htd,List.forall_mem_singleton.mpr hpd⟩
  refine Runs.orElseFilled (runs_cmdCreateTis htis) (by decide) hself hcleanup (fun w₁ hout₁ hkept₁ hfilled₁ => ?_)
  have hpd₁ : w₁ .fPd ≠ none := by
    rw [hkept₁ _ (by decide)]
    exact hpd
  have hcq : Ready w₁ .fTxCqn :=
    ⟨(hkept₁ _ (by decide)).trans (h _ (by decide)),fun y hy => absurd hy List.not_mem_nil,Or.inr hpd₁⟩
  refine Runs.orElseFilled (runs_cmdCreateCq txCq hcq rfl rfl) (by decide) hout₁ hcleanup
    (fun w₂ hout₂ hkept₂ hfilled₂ => ?_)
  have hpd₂ : w₂ .fPd ≠ none := by
    rw [hkept₂ _ (by decide)]
    exact hpd₁
  have htis₂ : w₂ .fTisn ≠ none := by
    rw [hkept₂ _ (by decide)]
    exact hfilled₁
  have hsq : Ready w₂ .fSqn := by
    refine ⟨((hkept₂ _ (by decide)).trans (hkept₁ _ (by decide))).trans (h _ (by decide)),?_,Or.inr hpd₂⟩
    exact List.forall_mem_cons.mpr ⟨hfilled₂,List.forall_mem_cons.mpr ⟨htis₂,List.forall_mem_singleton.mpr hpd₂⟩⟩
  refine Runs.orElseFilled (runs_cmdCreateSq hsq) (by decide) hout₂ hcleanup (fun w₃ hout₃ _ hfilled₃ => ?_)
  refine Runs.orElseQuiet runs_allocBfreg hout₃ hcleanup ?_
  refine Runs.quiet (runs_update (fun _ => ⟨rfl,rfl⟩)) (fun _ => ?_)
  refine Runs.orElseQuiet (runs_cmdModifySqReady hfilled₃) hout₃ hcleanup ?_
  exact runs_done ⟨hout₃,fun _ y hy => absurd hy List.not_mem_nil⟩

theorem runs_createRxResources (hpd : v .fPd ≠ none) (htd : v .fTd ≠ none) (hentry : v .fFlowEntryValid = none)
    (h : ∀ x ∈ rxSlots, v x = none) : Runs hw v createRxResources (Built v rxSlots [.fTirn]) := by
  have hcleanup : ∀ w, Outside rxSlots v w → Runs hw w destroyRxResources (Torn w rxSlots) :=
    fun w hw => runs_destroyRxResources ((hw _ (by decide)).trans hentry)
  have hself : Outside rxSlots v v := fun _ _ => rfl
  have hunbuilt : ∀ kr : IOReturn, kr ≠ .success → Runs hw v (.done kr) (Built v rxSlots [.fTirn]) :=
    fun kr hkr => runs_done ⟨hself,fun hok => absurd hok hkr⟩
  unfold createRxResources
  refine Runs.quiet (runs_allocateInto _) (fun ok => runs_ite (fun _ => hunbuilt _ (by decide)) (fun _ => ?_))
  refine Runs.orElseQuiet (runs_mapInto _) hself hcleanup ?_
  have hcq : Ready v .fRxCqn := ⟨h _ (by decide),fun y hy => absurd hy List.not_mem_nil,Or.inr hpd⟩
  refine Runs.orElseFilled (runs_cmdCreateCq rxCq hcq rfl rfl) (by decide) hself hcleanup
    (fun w₁ hout₁ hkept₁ hfilled₁ => ?_)
  have hpd₁ : w₁ .fPd ≠ none := by
    rw [hout₁ _ (by decide)]
    exact hpd
  have hrq : Ready w₁ .fRqn := by
    refine ⟨(hkept₁ _ (by decide)).trans (h _ (by decide)),?_,Or.inr hpd₁⟩
    exact List.forall_mem_cons.mpr ⟨hfilled₁,List.forall_mem_singleton.mpr hpd₁⟩
  refine Runs.orElseFilled (runs_cmdCreateRq hrq) (by decide) hout₁ hcleanup (fun w₂ hout₂ hkept₂ hfilled₂ => ?_)
  have hpd₂ : w₂ .fPd ≠ none := by
    rw [hout₂ _ (by decide)]
    exact hpd
  have htd₂ : w₂ .fTd ≠ none := by
    rw [hout₂ _ (by decide)]
    exact htd
  have htir : Ready w₂ .fTirn := by
    refine ⟨((hkept₂ _ (by decide)).trans (hkept₁ _ (by decide))).trans (h _ (by decide)),?_,Or.inr hpd₂⟩
    exact List.forall_mem_cons.mpr ⟨hfilled₂,List.forall_mem_singleton.mpr htd₂⟩
  refine Runs.orElseFilled (runs_cmdCreateTir htir) (by decide) hout₂ hcleanup (fun w₃ hout₃ hkept₃ hfilled₃ => ?_)
  have hrq₃ : w₃ .fRqn ≠ none := by
    rw [hkept₃ _ (by decide)]
    exact hfilled₂
  refine Runs.orElseQuiet (runs_cmdModifyRqReady hrq₃) hout₃ hcleanup ?_
  exact runs_done ⟨hout₃,fun _ => List.forall_mem_singleton.mpr hfilled₃⟩

theorem runs_createRxFlowSteering (hpd : v .fPd ≠ none) (htir : v .fTirn ≠ none) (h : ∀ x ∈ flowSlots, v x = none) :
    Runs hw v createRxFlowSteering (Built v flowSlots []) := by
  have hcleanup : ∀ w, Outside flowSlots v w → Runs hw w destroyRxFlowSteering (Torn w flowSlots) :=
    fun w _ => runs_destroyRxFlowSteering
  unfold createRxFlowSteering
  have htable : Ready v .fFlowTableId := ⟨h _ (by decide),fun y hy => absurd hy List.not_mem_nil,Or.inr hpd⟩
  refine (runs_createFlowTable htable (h _ (by decide))).bind (fun kr w₁ h₁ => runs_ite (fun hkr => ?_) (fun hkr => ?_))
  · have htable₁ : w₁ .fFlowTableId ≠ none := h₁.built.2 hkr _ (by decide)
    have hkept₁ : ∀ y, y ≠ .fFlowTableId → w₁ y = v y :=
      fun y hy => h₁.built.1 y (fun hmem => hy (List.mem_singleton.mp hmem))
    have hout₁ : Outside flowSlots v w₁ := fun y hy => hkept₁ y (fun he => hy (he ▸ by decide))
    have hpd₁ : w₁ .fPd ≠ none := by
      rw [hout₁ _ (by decide)]
      exact hpd
    have hgroup : Ready w₁ .fFlowGroupId :=
      ⟨(hkept₁ _ (by decide)).trans (h _ (by decide)),List.forall_mem_singleton.mpr htable₁,Or.inr hpd₁⟩
    refine Runs.orElseFilled (runs_createFlowGroup hgroup) (by decide)
      hout₁ hcleanup (fun w₂ hout₂ hkept₂ hfilled₂ => ?_)
    have hpd₂ : w₂ .fPd ≠ none := by
      rw [hout₂ _ (by decide)]
      exact hpd
    have htable₂ : w₂ .fFlowTableId ≠ none := by
      rw [hkept₂ _ (by decide)]
      exact htable₁
    have htir₂ : w₂ .fTirn ≠ none := by
      rw [hout₂ _ (by decide)]
      exact htir
    have hentry : Ready w₂ .fFlowEntryValid := by
      refine ⟨((hkept₂ _ (by decide)).trans (hkept₁ _ (by decide))).trans (h _ (by decide)),?_,Or.inr hpd₂⟩
      exact List.forall_mem_cons.mpr ⟨htable₂,List.forall_mem_cons.mpr
        ⟨hfilled₂,List.forall_mem_singleton.mpr htir₂⟩⟩
    refine Runs.orElseFilled (runs_setFlowTableEntry hentry) (by decide) hout₂ hcleanup (fun w₃ hout₃ hkept₃ _ => ?_)
    have hroot : Ready w₃ .fFlowRootActive := by
      refine ⟨?_,List.forall_mem_singleton.mpr ?_,Or.inr ?_⟩
      · exact (((hkept₃ _ (by decide)).trans (hkept₂ _ (by decide))).trans (hkept₁ _ (by decide))).trans (h _ (by decide))
      · rw [hkept₃ _ (by decide)]
        exact htable₂
      · rw [hkept₃ _ (by decide)]
        exact hpd₂
    refine Runs.orElseFilled (runs_setFlowTableRoot hroot) (by decide) hout₃ hcleanup (fun w₄ hout₄ _ _ => ?_)
    exact runs_done ⟨hout₄,fun _ y hy => absurd hy List.not_mem_nil⟩
  · rw [h₁.2 hkr]
    exact runs_done ⟨fun _ _ => rfl,fun hok => absurd hok hkr⟩

/-! ## The entry points -/

theorem slot_groups (x : Slot) : x ∈ flowSlots ∨ x ∈ rxSlots ∨ x ∈ txSlots ∨ x ∈ globalSlots := by
  cases x <;> decide

theorem runs_unregisterNotifier : Runs hw v unregisterNotifier (fun _ w => w = v) := by
  unfold unregisterNotifier
  refine runs_get (fun s _ => runs_ite (fun _ => ?_) (fun _ => runs_done rfl))
  refine Runs.quiet runs_getEQ (fun eq => runs_ite (fun _ => ?_) (fun _ => runs_done rfl))
  exact runs_update (fun _ => ⟨rfl,rfl⟩)

/-- Both teardowns begin alike; where all three parts succeed, only the global resources are left. -/
theorem runs_teardown {k : IOReturn → IOReturn → IOReturn → Eth β} {R : β → View → Prop}
    (hk : ∀ flowKr rxKr txKr w, (flowKr = .success → rxKr = .success →
    txKr = .success → ∀ x, x ∉ globalSlots → w x = none) →
      Runs hw w (k flowKr rxKr txKr) R) :
    Runs hw v (destroyRxFlowSteering.bind (fun flowKr => (andThen flowKr destroyRxResources).bind (fun rxKr =>
      destroyTxResources.bind (fun txKr => k flowKr rxKr txKr)))) R := by
  refine runs_destroyRxFlowSteering.bind (fun flowKr w₁ h₁ => ?_)
  have hrx : Runs hw w₁ (andThen flowKr destroyRxResources) (fun rxKr w => flowKr = .success → Torn w₁ rxSlots rxKr w) := by
    refine runs_ite (fun hkr => ?_) (fun hkr => runs_done (fun h => absurd h hkr))
    exact (runs_destroyRxResources (h₁.1 hkr _ (by decide))).mono (fun _ _ h _ => h)
  refine hrx.bind (fun rxKr w₂ h₂ => runs_destroyTxResources.bind
    (fun txKr w₃ h₃ => hk _ _ _ _ (fun hflow hrx htx x hx => ?_)))
  rcases slot_groups x with hmem | hmem | hmem | hmem
  · exact h₃.none ((h₂ hflow).none (h₁.1 hflow x hmem))
  · exact h₃.none ((h₂ hflow).1 hrx x hmem)
  · exact h₃.1 htx x hmem
  · exact absurd hmem hx

theorem runs_failed (kr : IOReturn) : Runs hw v (failed kr) (fun _ _ => True) := by
  unfold failed
  exact Runs.quiet (runs_update (fun _ => ⟨rfl,rfl⟩)) (fun _ => runs_done trivial)

theorem runs_failAll (kr : IOReturn) : Runs hw v (failAll kr) (fun _ _ => True) := by
  unfold failAll
  refine Runs.quiet runs_unregisterNotifier (fun _ => runs_teardown (fun flowKr rxKr txKr w hw => ?_))
  refine runs_ite (fun hkr => ?_) (fun _ => runs_failed kr)
  exact (runs_deallocGlobalResources (hw hkr.1 hkr.2.1 hkr.2.2)).bind (fun _ _ _ => runs_failed kr)

/-- Without a protection domain there is nothing. -/
theorem runs_first {p : Eth α} {R : α → View → Prop} (h : (v .fPd = none → ∀ x, v x = none) → Runs hw v p R) :
    Runs hw v p R := by
  rintro s d hs rfl
  exact h hs.first s d hs rfl

/-- The slots of a group that comes later are still empty. -/
theorem Outside.empty {X Y : List Slot} {u : View} (h : Outside X u w)
    (hY : ∀ y ∈ Y, y ∉ X) (hu : ∀ y ∈ Y, u y = none) :
    ∀ y ∈ Y, w y = none := fun y hy => (h y (hY y hy)).trans (hu y hy)

theorem runs_enable : Runs hw v Ethernet.enable (fun _ _ => True) := by
  unfold Ethernet.enable
  refine runs_first (fun hfirst => runs_get (fun s hs => ?_))
  refine runs_ite (fun _ => runs_done trivial) (fun _ => ?_)
  refine runs_ite (fun _ => runs_done trivial) (fun _ => ?_)
  refine runs_ite (fun _ => runs_done trivial) (fun hguard => ?_)
  have hnone : ∀ x, v x = none := by
    refine hfirst ?_
    rw [← hs, ← Option.not_isSome_iff_eq_none]
    exact fun hpd => hguard (Or.inl hpd)
  refine Runs.quiet (runs_update (fun _ => ⟨rfl,rfl⟩)) (fun _ => ?_)
  refine (runs_allocGlobalResources hnone).bind (fun kr w₁ h₁ => runs_ite (fun _ => runs_failed kr) (fun hkr => ?_))
  have hglobal := h₁.2 (Decidable.not_not.mp hkr)
  have hpd : w₁ .fPd ≠ none := hglobal .fPd (by decide)
  have htd : w₁ .fTd ≠ none := hglobal .fTd (by decide)
  have hrest₁ : ∀ y ∈ txSlots ++ (rxSlots ++ flowSlots), w₁ y = none :=
    Outside.empty h₁.1 (by decide) (fun y _ => hnone y)
  have htx : Runs hw w₁ createTxResources (Built w₁ txSlots []) :=
    runs_createTxResources hpd htd (fun y hy => hrest₁ y (List.mem_append_left _ hy))
  refine htx.bind (fun kr w₂ h₂ => runs_ite (fun _ => runs_failAll kr) (fun _ => ?_))
  have hpd₂ : w₂ .fPd ≠ none := by
    rw [h₂.1 _ (by decide)]
    exact hpd
  have htd₂ : w₂ .fTd ≠ none := by
    rw [h₂.1 _ (by decide)]
    exact htd
  have hrest₂ : ∀ y ∈ rxSlots ++ flowSlots, w₂ y = none :=
    Outside.empty h₂.1 (by decide) (fun y hy => hrest₁ y (List.mem_append_right _ hy))
  have hrx : Runs hw w₂ createRxResources (Built w₂ rxSlots [.fTirn]) :=
    runs_createRxResources hpd₂ htd₂ (hrest₂ _ (by decide)) (fun y hy => hrest₂ y (List.mem_append_left _ hy))
  refine hrx.bind (fun kr w₃ h₃ => runs_ite (fun _ => runs_failAll kr) (fun hkr₃ => ?_))
  have htir : w₃ .fTirn ≠ none := h₃.2 (Decidable.not_not.mp hkr₃) _ (by decide)
  have hpd₃ : w₃ .fPd ≠ none := by
    rw [h₃.1 _ (by decide)]
    exact hpd₂
  have hrest₃ : ∀ y ∈ flowSlots, w₃ y = none :=
    Outside.empty h₃.1 (by decide) (fun y hy => hrest₂ y (List.mem_append_right _ hy))
  refine Runs.quiet runs_getEQ (fun eq => runs_ite (fun _ => runs_failAll _) (fun _ => ?_))
  refine Runs.quiet (runs_update (fun _ => ⟨rfl,rfl⟩)) (fun _ => ?_)
  have hflow : Runs hw w₃ createRxFlowSteering (Built w₃ flowSlots []) := runs_createRxFlowSteering hpd₃ htir hrest₃
  refine hflow.bind (fun kr w₄ h₄ => runs_ite (fun _ => runs_failAll kr) (fun _ => ?_))
  refine Runs.quiet (runs_update (fun _ => ⟨rfl,rfl⟩)) (fun _ => ?_)
  exact Runs.quiet runs_queryLinkState (fun _ => runs_done trivial)

/-- A success leaves nothing. -/
theorem runs_disable : Runs hw v Ethernet.disable (fun kr w => kr = .success → ∀ x, w x = none) := by
  unfold Ethernet.disable
  refine runs_get (fun s _ => runs_ite (fun _ => runs_done (fun h => by cases h)) (fun _ => ?_))
  refine Runs.quiet (runs_update (fun _ => ⟨rfl,rfl⟩)) (fun _ => ?_)
  refine Runs.quiet runs_unregisterNotifier (fun _ => runs_teardown (fun flowKr rxKr txKr w hw' => ?_))
  have hresult : Runs hw w (andThen flowKr (andThen rxKr (andThen txKr deallocGlobalResources)))
      (fun kr u => kr = .success → ∀ x, u x = none) := by
    refine runs_ite (fun hflow => ?_) (fun hflow => runs_done (fun h => absurd h hflow))
    refine runs_ite (fun hrx => ?_) (fun hrx => runs_done (fun h => absurd h hrx))
    refine runs_ite (fun htx => ?_) (fun htx => runs_done (fun h => absurd h htx))
    have hglobal := hw' hflow hrx htx
    refine (runs_deallocGlobalResources hglobal).mono (fun kr u hu hkr x => ?_)
    by_cases hx : x ∈ globalSlots
    · exact hu.1 hkr x hx
    · exact hu.none (hglobal x hx)
  refine hresult.bind (fun kr u hu => ?_)
  exact Runs.quiet (runs_update (fun _ => ⟨rfl,rfl⟩)) (fun _ => runs_done hu)

theorem runs_releaseResources : Runs hw v releaseResources (fun _ w => w = v) := by
  unfold releaseResources
  refine Runs.quiet runs_unregisterNotifier (fun _ => runs_get (fun s _ => ?_))
  refine runs_ite (fun _ => runs_done rfl) (fun _ => ?_)
  refine Runs.quiet (runs_dropBuffer _ _) (fun _ => Runs.quiet (runs_dropBuffer _ _) (fun _ => ?_))
  exact runs_update (fun _ => ⟨rfl,rfl⟩)

theorem runs_operation (o : Operation) : Runs hw v o.run (fun _ _ => True) := by
  cases o with
  | enable => exact runs_enable.bind (fun _ _ _ => runs_done trivial)
  | disable => exact runs_disable.bind (fun _ _ _ => runs_done trivial)
  | stop => exact runs_disable.bind (fun _ _ _ => runs_releaseResources.mono (fun _ _ _ => trivial))

/-! ## Every run -/

/-- The device after `start`: the objects of the core are not among those of the interface. -/
def Device.initial : Device := ⟨[],[]⟩

theorem inv_initial : Inv Ethernet.initial Device.initial := by
  have hview : view Ethernet.initial = fun _ => none := by
    funext x
    cases x <;> rfl
  refine ⟨?_,?_,?_,rfl,fun o ho => absurd ho List.not_mem_nil,fun _ o => ⟨fun ho => absurd ho List.not_mem_nil,?_⟩⟩
  · rw [hview]
    exact ⟨fun x hx => absurd rfl hx,fun x y k hx => by cases hx⟩
  · rw [hview]
    exact fun x n hx => by cases hx
  · rw [hview]
    exact fun _ _ => rfl
  · rw [hview]
    rintro ⟨x,hx⟩
    cases hx

/-- The runs of the interface against the device, from `start` on. -/
abbrev Reached (hw : Hardware) : State × Device → Prop :=
  Passes (world hw) (fun o => o.run.watched Device) (fun o p => Operation.Enabled o p.1) (Ethernet.initial,Device.initial)

/-! ## A run

Here the protection domain cannot be given back at once. -/

def idle : Hardware where
  bootUarIndex := 0
  compEqNumber := 0
  fTxMinInlineMode := 0
  dbRecordDMA := fun _ => 0
  ringDMA := fun _ => 0
  rest := fun _ => 0

/-- `ALLOC_PD` succeeds, `ALLOC_TD` fails, and `DEALLOC_PD` fails as well. -/
def leftOver : State × Device := ({ Ethernet.initial with fPd := some 5 },⟨[((.pd,5),[])],[]⟩)

theorem enable_leftOver : Prog.Returns (world idle) (Operation.enable.run.watched Device)
    (Ethernet.initial,Device.initial) () leftOver := by
  refine .read ?_
  refine .write ?_
  refine .read ?_
  refine .ask (a := (⟨.success,5⟩ : Reply)) ⟨trivial,fun _ c hc k hk => ?_⟩ ?_
  · cases hc
    cases hk
    decide
  refine .write ?_
  refine .read ?_
  refine .ask (a := (⟨.noResources,0⟩ : Reply)) ⟨trivial,fun h => by cases h⟩ ?_
  refine .read ?_
  refine .read ?_
  refine .read ?_
  refine .read ?_
  refine .ask (a := (⟨.noResources,0⟩ : Reply)) ⟨trivial,fun h => by cases h⟩ ?_
  refine .write ?_
  exact .done _ _

theorem disable_leftOver : Prog.Returns (world idle) (Ethernet.disable.watched Device) leftOver .success
    (Ethernet.initial,Device.initial) := by
  refine .read (.write (.read ?_))
  -- the flow steering, then RX, then TX: there is nothing to destroy
  refine .read (.read (.read (.read ?_)))
  refine .read (.read (.read (.write ?_)))
  refine .read (.read (.write ?_))
  refine .read (.write (.read (.write (.write ?_))))
  refine .read (.read (.write (.read ?_)))
  refine .read (.read (.read (.read ?_)))
  refine .ask (a := (⟨.success,0⟩ : Reply)) ⟨trivial,fun _ c hc k hk => ?_⟩ ?_
  · cases hc
    cases hk
  refine .write (.write ?_)
  exact .done _ _
/-! ## What holds in every run -/

/-- Whatever the device answers, nothing that the interface submits is rejected: every input can be read,
what it names exists, and what it destroys is not referred to. -/
theorem object_order {p : State × Device} (h : Reached hw p) : p.2.rejected = [] ∧ Linked p.2.objects := by
  refine Passes.invariant (I := Sound) (J := fun p => Inv p.1 p.2) inv_initial (fun _ hp => hp.sound) (fun o p hp _ => ?_) h
  exact (runs_operation o p.1 p.2 hp rfl).mono (fun _ _ _ ht => ht.1)

theorem object_order_leftOver : leftOver.2.rejected = [] ∧ Linked leftOver.2.objects :=
  object_order (.inl (.next .start rfl enable_leftOver))

/-- Between two calls, and as long as no command has timed out, the device has the objects whose numbers are
in the fields and no others; a successful `disable` leaves none. -/
theorem objects_kept {p : State × Device} (h : Settled (world hw) (fun o : Operation => o.run.watched Device)
    (fun o p => o.Enabled p.1) (Ethernet.initial,Device.initial) p) :
    (p.1.fQuarantined = false → schema.Mirror (view p.1) p.2.objects) ∧
    ∀ q, Prog.Returns (world hw) (Ethernet.disable.watched Device) p .success q →
    q.1.fQuarantined = false → q.2.objects = [] := by
  have hinv : Inv p.1 p.2 := by
    refine h.invariant (J := fun p => Inv p.1 p.2) inv_initial (fun o s hs _ _ t hr => ?_)
    exact ((runs_operation o s.1 s.2 hs rfl).returns hr).1
  refine ⟨hinv.mirror,fun q hq hquarantined => ?_⟩
  obtain ⟨hinv',hnone⟩ := (runs_disable p.1 p.2 hinv rfl).returns hq
  refine List.eq_nil_iff_forall_not_mem.mpr (fun o ho => ?_)
  obtain ⟨x,hx⟩ := (hinv'.mirror hquarantined o).mp ho
  rw [Schema.object, Schema.key, hnone rfl x] at hx
  cases hx

theorem objects_kept_leftOver : schema.Mirror (view leftOver.1) leftOver.2.objects ∧ Device.initial.objects = [] := by
  have hkept := objects_kept (.next .start rfl enable_leftOver)
  exact ⟨hkept.1 rfl,hkept.2 _ disable_leftOver rfl⟩

end AppleMCX.FirmwareObjects
