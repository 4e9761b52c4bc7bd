import AppleMCX.Netif.FirmwareObjects

/-! # The commands of the Ethernet interface, slot by slot

Each command that creates or destroys, with what must be in the slots before it, and what it leaves
in them after a success and after a failure.
-/
namespace AppleMCX.FirmwareObjects
open Interaction Ethernet Commands

variable {α β : Type} {hw : Hardware} {s t : State} {d : Device} {v w : View} {x y : Slot} {n : ℕ}

/-! ## The commands of the slots -/

theorem Inv.field_eq (h : Inv s d) (hx : view s x = some n) : (field (view s x)).toNat = n :=
  field_toNat hx (h.bounded x n hx)

theorem Inv.ofNat_toNat (h : Inv s d) (hx : view s x = some n) : (BitVec.ofNat 24 n).toNat = n := by
  rw [BitVec.toNat_ofNat]
  exact Nat.mod_eq_of_lt (h.bounded x n hx)

/-- A command that names what the slot refers to, creates an object under the number in the reply and does nothing else. -/
theorem Inv.creates (h : Inv s d) {c : Command} (hdeps : ∀ y ∈ slotDeps x, view s y ≠ none)
    (hnames : names c = (slotDeps x).map (fun y => (slotKind y,(field (view s y)).toNat)))
    (hmakes : ∀ n, makes n c = some (slotKind x,n)) (hsets : sets c = none) (hdestroys : destroys c = none) :
    Creates (view s) x id c :=
  ⟨hnames.trans (h.refs_eq hdeps).symm,hdestroys,Or.inl ⟨hmakes,hsets⟩⟩

theorem key_slot (hx : v x = some n) : schema.key v x = some (slotKind x,n) := by
  rw [Schema.key, hx]
  rfl

/-- A command for the number in a slot. -/
theorem destroys_slot (hx : view s x = some n) {c : Command}
    (hnames : ∀ k ∈ names c, ∃ y, schema.key (view s) y = some k) (hmakes : ∀ n, makes n c = none) (hsets : sets c = none)
    (hdestroys : destroys c = some (slotKind x,n)) : Destroys (view s) x c :=
  ⟨hnames,hmakes,hsets,_,hdestroys,key_slot hx⟩

theorem view_entry : view s .fFlowEntryValid = none ↔ s.fFlowEntryValid = false := by
  show (if s.fFlowEntryValid = true then some (s.fFlowTableId.getD 0) else none) = none ↔ _
  cases s.fFlowEntryValid with
  | true => simp
  | false => simp

theorem view_root : view s .fFlowRootActive = none ↔ s.fFlowRootActive = false := by
  show (if s.fFlowRootActive = true then some 0 else none) = none ↔ _
  cases s.fFlowRootActive with
  | true => simp
  | false => simp

/-! ## Writes to the slots -/

theorem view_fPd (s : State) (m : Option ℕ) : view { s with fPd := m } = Function.update (view s) .fPd m := by
  funext y
  cases y <;> rfl

theorem view_fTd (s : State) (m : Option ℕ) : view { s with fTd := m } = Function.update (view s) .fTd m := by
  funext y
  cases y <;> rfl

theorem view_fMkeyIndex (s : State) (m : Option ℕ) :
    view { s with fMkeyIndex := m } = Function.update (view s) .fMkeyIndex m := by
  funext y
  cases y <;> rfl

theorem view_fTisn (s : State) (m : Option ℕ) : view { s with fTisn := m } = Function.update (view s) .fTisn m := by
  funext y
  cases y <;> rfl

theorem view_fTirn (s : State) (m : Option ℕ) : view { s with fTirn := m } = Function.update (view s) .fTirn m := by
  funext y
  cases y <;> rfl

theorem view_fFlowGroupId (s : State) (m : Option ℕ) :
    view { s with fFlowGroupId := m } = Function.update (view s) .fFlowGroupId m := by
  funext y
  cases y <;> rfl

/-- The entry is known by its table. -/
theorem view_fFlowTableId (m : Option ℕ) (h : view s .fFlowEntryValid = none) :
    view { s with fFlowTableId := m } = Function.update (view s) .fFlowTableId m := by
  have hvalid := view_entry.mp h
  funext y
  cases y <;> first | rfl | skip
  show (if s.fFlowEntryValid = true then some (m.getD 0) else none) = if s.fFlowEntryValid = true then _ else none
  rw [hvalid]
  rfl

theorem view_fFlowEntryValid (s : State) (b : Bool) : view { s with fFlowEntryValid := b } =
    Function.update (view s) .fFlowEntryValid (if b then some ((view s .fFlowTableId).getD 0) else none) := by
  funext y
  cases y <;> rfl

theorem view_fFlowRootActive (s : State) (b : Bool) :
    view { s with fFlowRootActive := b } = Function.update (view s) .fFlowRootActive (if b then some 0 else none) := by
  funext y
  cases y <;> rfl

def queueSlot : Queue → Slot
  | .fSqn => .fSqn
  | .fRqn => .fRqn
  | .fTxCqn => .fTxCqn
  | .fRxCqn => .fRxCqn

/-- The number of a queue is stored with the memory of the queue. -/
theorem view_number {dma : Dma} (q : Queue) (m : Option ℕ) (h : dma.number = Function.update s.dma.number q m) :
    view { s with dma := dma } = Function.update (view s) (queueSlot q) m := by
  funext y
  cases y <;> first | (cases q <;> rfl) | skip
  all_goals
    show dma.number _ = _
    rw [h]
    cases q <;> rfl

/-! ## Creating -/

theorem runs_creation {op : Opcode} {store : Option ℕ → State → State} {c : State → Command} (hop : op.exempt = false)
    (hready : Ready v x) (hcommand : ∀ s, commandOf hw s op 0 [] = some (c s))
    (hnames : ∀ s, names (c s) = (slotDeps x).map (fun y => (slotKind y,(field (view s y)).toNat)))
    (hmakes : ∀ s n, makes n (c s) = some (slotKind x,n)) (hsets : ∀ s, sets (c s) = none)
    (hdestroys : ∀ s, destroys (c s) = none)
    (hstore : ∀ s n, view s = v → view (store (some n) s) = Function.update (view s) x (some n)) :
    Runs hw v (createObject op store) (Filled v x id) := by
  refine runs_createObject hop hready ?_ (fun s n hs => hs ▸ hstore s n hs)
  rintro s d hs rfl
  exact ⟨_,hcommand s,hs.creates hready.deps (hnames s) (hmakes s) (hsets s) (hdestroys s)⟩

theorem runs_cmdAllocPd (hready : Ready v .fPd) : Runs hw v cmdAllocPd (Filled v .fPd id) :=
  runs_creation rfl hready (fun _ => rfl) (fun _ => rfl) (fun _ _ => rfl)
    (fun _ => rfl) (fun _ => rfl) (fun s _ _ => view_fPd s _)

theorem runs_cmdAllocTd (hready : Ready v .fTd) : Runs hw v cmdAllocTd (Filled v .fTd id) :=
  runs_creation rfl hready (fun _ => rfl) (fun _ => rfl) (fun _ _ => rfl)
    (fun _ => rfl) (fun _ => rfl) (fun s _ _ => view_fTd s _)

theorem runs_cmdCreateMkey (hready : Ready v .fMkeyIndex) : Runs hw v cmdCreateMkey (Filled v .fMkeyIndex id) :=
  runs_creation rfl hready (fun _ => rfl) (fun _ => rfl) (fun _ _ => rfl) (fun _ => rfl) (fun _ => rfl)
    (fun s _ _ => view_fMkeyIndex s _)

theorem runs_cmdCreateTis (hready : Ready v .fTisn) : Runs hw v cmdCreateTis (Filled v .fTisn id) :=
  runs_creation rfl hready (fun _ => rfl) (fun _ => rfl) (fun _ _ => rfl) (fun _ => rfl) (fun _ => rfl)
    (fun s _ _ => view_fTisn s _)

theorem runs_cmdCreateTir (hready : Ready v .fTirn) : Runs hw v cmdCreateTir (Filled v .fTirn id) :=
  runs_creation rfl hready (fun _ => rfl) (fun _ => rfl) (fun _ _ => rfl) (fun _ => rfl) (fun _ => rfl)
    (fun s _ _ => view_fTirn s _)

theorem runs_createFlowTable (hready : Ready v .fFlowTableId) (hentry : v .fFlowEntryValid = none) :
    Runs hw v (createObject .createFlowTable (fun n s => { s with fFlowTableId := n })) (Filled v .fFlowTableId id) :=
  runs_creation rfl hready (fun _ => rfl) (fun _ => rfl) (fun _ _ => rfl) (fun _ => rfl) (fun _ => rfl)
    (fun _ _ hs => view_fFlowTableId _ (hs ▸ hentry))

theorem runs_createFlowGroup (hready : Ready v .fFlowGroupId) :
    Runs hw v (createObject .createFlowGroup (fun n s => { s with fFlowGroupId := n })) (Filled v .fFlowGroupId id) :=
  runs_creation rfl hready (fun _ => rfl) (fun _ => rfl) (fun _ _ => rfl) (fun _ => rfl) (fun _ => rfl)
    (fun s _ _ => view_fFlowGroupId s _)

theorem runs_setFlowTableEntry (hready : Ready v .fFlowEntryValid) :
    Runs hw v (createObject .setFlowTableEntry (fun _ s => { s with fFlowEntryValid := true }))
      (Filled v .fFlowEntryValid (fun _ => (v .fFlowTableId).getD 0)) := by
  refine runs_createObject rfl hready ?_ ?_
  · rintro s d hs rfl
    obtain ⟨table,htable⟩ := Option.ne_none_iff_exists'.mp (hready.deps .fFlowTableId (by decide))
    obtain ⟨group,hgroup⟩ := Option.ne_none_iff_exists'.mp (hready.deps .fFlowGroupId (by decide))
    have hgroup32 : (BitVec.ofNat 32 (s.fFlowGroupId.getD MLX5E_INVALID_RESOURCE)).toNat =
      (field (view s .fFlowGroupId)).toNat := by
      have hsome : s.fFlowGroupId = some group := hgroup
      have hlt := hs.bounded _ _ hgroup
      rw [hs.field_eq hgroup, hsome, BitVec.toNat_ofNat]
      exact Nat.mod_eq_of_lt (hlt.trans (by decide))
    refine ⟨_,rfl,?_,rfl,Or.inr ⟨fun _ => ⟨rfl,?_,?_⟩,?_⟩⟩
    · rw [hs.refs_eq hready.deps]
      show [(Kind.flowTable,_),(Kind.flowGroup,_),(Kind.tir,_)] = _
      rw [hgroup32]
      rfl
    · show some (Kind.flowEntry,(field (view s .fFlowTableId)).toNat) = some (Kind.flowEntry,(view s .fFlowTableId).getD 0)
      rw [hs.field_eq htable, htable]
      rfl
    · rw [htable]
      exact hs.bounded _ _ htable
    · intro y hy
      cases y <;> first | rfl | cases hy
  · rintro s n rfl
    exact view_fFlowEntryValid s true

theorem runs_setFlowTableRoot (hready : Ready v .fFlowRootActive) :
    Runs hw v (createObject .setFlowTableRoot (fun _ s => { s with fFlowRootActive := true }))
      (Filled v .fFlowRootActive (fun _ => 0)) := by
  refine runs_createObject rfl hready ?_ ?_
  · rintro s d hs rfl
    have hinactive := view_root.mp hready.empty
    refine ⟨.setFlowTableRoot (field s.fFlowTableId),?_,?_,rfl,Or.inr ⟨fun _ => ⟨rfl,rfl,by decide⟩,?_⟩⟩
    · show some (if s.fFlowRootActive = true then _ else _) = _
      rw [hinactive]
      rfl
    · exact (hs.refs_eq hready.deps).symm
    · intro y hy
      cases y <;> first | rfl | cases hy
  · rintro s n rfl
    exact view_fFlowRootActive s true

/-! ## Creating queues -/

theorem Runs.quiet {p : Eth α} {f : α → Eth β} {R : β → View → Prop} (hp : Runs hw v p (fun _ w => w = v))
    (hf : ∀ a, Runs hw v (f a) R) : Runs hw v (p.bind f) R := by
  refine hp.bind ?_
  rintro a _ rfl
  exact hf a

theorem runs_acquire (f : Ethernet.Field) : Runs hw v (acquire f) (fun _ w => w = v) := by
  unfold acquire
  refine runs_get (fun s _ => ?_)
  exact Runs.quiet (runs_updateDma (fun _ => rfl)) (fun _ => runs_done rfl)

theorem runs_release (r : Ethernet.Field × ℕ) : Runs hw v (updateDma (Custody.release r)) (fun _ w => w = v) :=
  runs_updateDma (fun _ => rfl)

theorem runs_allocate : Runs hw v allocate (fun _ w => w = v) := runs_query (fun _ _ => rfl) (fun _ _ _ => rfl)
theorem runs_mapDMAContiguous : Runs hw v mapDMAContiguous (fun _ w => w = v) :=
  runs_query (fun _ _ => rfl) (fun _ _ _ => rfl)
theorem runs_allocDbSlots : Runs hw v allocDbSlots (fun _ w => w = v) := runs_query (fun _ _ => rfl) (fun _ _ _ => rfl)
theorem runs_allocBfreg : Runs hw v allocBfreg (fun _ w => w = v) := runs_query (fun _ _ => rfl) (fun _ _ _ => rfl)
theorem runs_getEQ : Runs hw v getEQ (fun _ w => w = v) := runs_query (fun _ _ => rfl) (fun _ _ _ => rfl)

/-- A creation that ends in an error before its command. -/
theorem runs_unfilled {kr : IOReturn} (hkr : kr ≠ .success) {m : ℕ → ℕ} : Runs hw v (.done kr) (Filled v x m) :=
  runs_done ⟨fun h => absurd h hkr,fun _ => rfl⟩

theorem runs_cmdCreateCq (cq : CqFields) (hready : Ready v (queueSlot cq.queue)) (hkind : slotKind (queueSlot cq.queue) = .cq)
    (hdeps : slotDeps (queueSlot cq.queue) = []) :
    Runs hw v (Ethernet.cmdCreateCq cq) (Filled v (queueSlot cq.queue) id) := by
  unfold Ethernet.cmdCreateCq
  refine Runs.quiet runs_allocate (fun ok => ?_)
  refine runs_ite (fun _ => runs_unfilled (by decide)) (fun _ => ?_)
  refine Runs.quiet (runs_acquire _) (fun desc => ?_)
  refine Runs.quiet runs_mapDMAContiguous (fun kr => ?_)
  refine runs_ite (fun _ => ?_) (fun _ => ?_)
  · exact Runs.quiet (runs_release _) (fun _ => runs_unfilled (by decide))
  refine Runs.quiet (runs_acquire _) (fun map => ?_)
  refine Runs.quiet runs_allocDbSlots (fun kr => ?_)
  refine runs_ite (fun _ => ?_) (fun _ => ?_)
  · exact Runs.quiet (runs_release _) (fun _ => Runs.quiet (runs_release _) (fun _ => runs_unfilled (by decide)))
  refine Runs.quiet (runs_acquire _) (fun dbOff => ?_)
  refine runs_creates (x := queueSlot cq.queue) (m := id) rfl hready ?_ (fun reply hkr => ?_) (fun reply hkr => ?_)
  · rintro s d hs rfl
    refine ⟨_,rfl,hs.creates hready.deps ?_ (fun n => ?_) rfl rfl⟩
    · rw [hdeps]
      rfl
    · rw [hkind]
      rfl
  · rw [if_pos hkr]
    refine Runs.quiet (runs_release _) (fun _ => Runs.quiet (runs_release _) (fun _ => Runs.quiet (runs_release _) (fun _ => ?_)))
    exact runs_unfilled hkr
  · refine ⟨fun s => { s with dma := cq.store reply.number desc map dbOff s.dma },.success,?_,fun s hs => ?_,
      fun _ => ⟨_,rfl⟩,fun h => absurd rfl h⟩
    · rw [if_neg (fun h => h hkr)]
      rfl
    · rw [← hs]
      exact view_number cq.queue _ rfl

theorem runs_cmdCreateWq {op : Opcode} (wq : WqFields) {c : State → Memory → Command} (hop : op.exempt = false)
    (hready : Ready v (queueSlot wq.queue)) (hcommand : ∀ s refs, commandOf hw s op 0 refs = some (c s refs))
    (hnames : ∀ s refs, names (c s refs) =
      (slotDeps (queueSlot wq.queue)).map (fun y => (slotKind y,(field (view s y)).toNat)))
    (hmakes : ∀ s refs n, makes n (c s refs) = some (slotKind (queueSlot wq.queue),n))
    (hsets : ∀ s refs, sets (c s refs) = none)
    (hdestroys : ∀ s refs, destroys (c s refs) = none) :
    Runs hw v (cmdCreateWq op wq) (Filled v (queueSlot wq.queue) id) := by
  unfold cmdCreateWq
  refine runs_get (fun s _ => ?_)
  refine runs_ite (fun _ => runs_unfilled (by decide)) (fun _ => ?_)
  refine Runs.quiet runs_allocDbSlots (fun kr => ?_)
  refine runs_ite (fun _ => runs_unfilled (by decide)) (fun _ => ?_)
  refine Runs.quiet (runs_acquire _) (fun dbOff => ?_)
  refine runs_creates (x := queueSlot wq.queue) (m := id) hop hready ?_ (fun reply hkr => ?_) (fun reply hkr => ?_)
  · rintro s d hs rfl
    exact ⟨_,hcommand s _,hs.creates hready.deps (hnames s _) (hmakes s _) (hsets s _) (hdestroys s _)⟩
  · rw [if_pos hkr]
    exact Runs.quiet (runs_release _) (fun _ => runs_unfilled hkr)
  · refine ⟨fun s => { s with dma := (s.dma.setNumber wq.queue (some reply.number)).hold wq.dbOffset dbOff },.success,?_,
      fun s hs => ?_,fun _ => ⟨_,rfl⟩,fun h => absurd rfl h⟩
    · rw [if_neg (fun h => h hkr)]
      rfl
    · rw [← hs]
      exact view_number wq.queue _ rfl

theorem runs_cmdCreateSq (hready : Ready v .fSqn) : Runs hw v Ethernet.cmdCreateSq (Filled v .fSqn id) :=
  runs_cmdCreateWq txWq rfl hready (fun _ _ => rfl) (fun _ _ => rfl) (fun _ _ _ => rfl) (fun _ _ => rfl) (fun _ _ => rfl)

theorem runs_cmdCreateRq (hready : Ready v .fRqn) : Runs hw v Ethernet.cmdCreateRq (Filled v .fRqn id) :=
  runs_cmdCreateWq rxWq rfl hready (fun _ _ => rfl) (fun _ _ => rfl) (fun _ _ _ => rfl) (fun _ _ => rfl) (fun _ _ => rfl)

theorem runs_modify {op : Opcode} {c : Command} {k : Reply → Eth β} {R : β → View → Prop} (hop : op.exempt = false)
    (hx : v x = some n) (hcommand : ∀ s, commandOf hw s op n [] = some c)
    (hnames : names c = [(slotKind x,(BitVec.ofNat 24 n).toNat)]) (hmakes : ∀ n, makes n c = none) (hsets : sets c = none)
    (hdestroys : destroys c = none) (hk : ∀ reply, Runs hw v (k reply) R) : Runs hw v ((exec op n []).bind k) R := by
  refine runs_uses hop ?_ hk
  rintro s d hs rfl
  refine ⟨c,hcommand s,fun e he => ⟨x,?_⟩,hmakes,hsets,hdestroys⟩
  rw [hnames, hs.ofNat_toNat hx] at he
  rw [List.mem_singleton.mp he, key_slot hx]

theorem runs_cmdModifySqReady (hx : v .fSqn ≠ none) : Runs hw v Ethernet.cmdModifySqReady (fun _ w => w = v) := by
  unfold Ethernet.cmdModifySqReady
  obtain ⟨n,hn⟩ := Option.ne_none_iff_exists'.mp hx
  refine runs_get (fun s hs => ?_)
  have hnumber : s.dma.number .fSqn = some n := (congrFun hs .fSqn).trans hn
  rw [hnumber]
  exact runs_modify rfl hn (fun _ => rfl) rfl (fun _ => rfl) rfl rfl (fun _ => runs_done rfl)

theorem runs_cmdModifyRqReady (hx : v .fRqn ≠ none) : Runs hw v Ethernet.cmdModifyRqReady (fun _ w => w = v) := by
  unfold Ethernet.cmdModifyRqReady
  obtain ⟨n,hn⟩ := Option.ne_none_iff_exists'.mp hx
  refine runs_get (fun s hs => ?_)
  have hnumber : s.dma.number .fRqn = some n := (congrFun hs .fRqn).trans hn
  rw [hnumber]
  exact runs_modify rfl hn (fun _ => rfl) rfl (fun _ => rfl) rfl rfl (fun _ => runs_done rfl)

theorem runs_queryLinkState : Runs hw v queryLinkState (fun _ w => w = v) := by
  refine runs_uses rfl ?_ (fun reply => runs_done rfl)
  rintro s d hs rfl
  exact ⟨_,rfl,fun k hk => absurd hk List.not_mem_nil,fun _ => rfl,rfl,rfl⟩

/-! ## Destroying -/

/-- The program empties slots of a list, and all of them where it succeeds. -/
def Torn (v : View) (X : List Slot) (kr : IOReturn) (w : View) : Prop :=
  (kr = .success → ∀ x ∈ X, w x = none) ∧ ∀ x, w x = v x ∨ x ∈ X ∧ w x = none

theorem Emptied.torn {kr : IOReturn} (h : Emptied v x kr w) : Torn v [x] kr w := by
  refine ⟨fun hkr y hy => ?_,fun y => ?_⟩
  · rw [List.mem_singleton.mp hy]
    exact h.1 hkr
  · rcases h.2 with rfl | rfl
    · exact Or.inl rfl
    · by_cases hy : y = x
      · rw [hy, Function.update_self]
        exact Or.inr ⟨List.mem_singleton.mpr rfl,rfl⟩
      · exact Or.inl (Function.update_of_ne hy _ _)

theorem Torn.none {X : List Slot} {kr : IOReturn} (h : Torn v X kr w) (hx : v x = none) : w x = none := by
  rcases h.2 x with hsame | hempty
  · exact hsame.trans hx
  · exact hempty.2

theorem Torn.same {X : List Slot} {kr : IOReturn} (h : Torn v X kr w) (hx : x ∉ X) : w x = v x := by
  rcases h.2 x with hsame | hempty
  · exact hsame
  · exact absurd hempty.1 hx

theorem Torn.append {X Y : List Slot} {kr kr' : IOReturn} {u : View} (h : Torn v X kr w) (h' : Torn w Y kr' u)
    (hkr : kr' = .success → kr = .success) : Torn v (X ++ Y) kr' u := by
  refine ⟨fun hok x hx => ?_,fun x => ?_⟩
  · rcases List.mem_append.mp hx with hx | hx
    · exact h'.none (h.1 (hkr hok) x hx)
    · exact h'.1 hok x hx
  · rcases h'.2 x with hsame | ⟨hx,hempty⟩
    · rw [hsame]
      exact (h.2 x).imp_right (fun hw => ⟨List.mem_append_left _ hw.1,hw.2⟩)
    · exact Or.inr ⟨List.mem_append_right _ hx,hempty⟩

theorem torn_failed {X : List Slot} {kr : IOReturn} (hkr : kr ≠ .success) : Torn v X kr v :=
  ⟨fun h => absurd h hkr,fun _ => Or.inl rfl⟩

/-- The rest runs where the first part has emptied its slots. -/
theorem Runs.andThen {p rest : Eth IOReturn} {X Y : List Slot} (hp : Runs hw v p (Torn v X))
    (hrest : ∀ w, Torn v X .success w → Runs hw w rest (Torn w Y)) :
    Runs hw v (p.bind (fun kr => Ethernet.andThen kr rest)) (Torn v (X ++ Y)) := by
  refine hp.bind (fun kr w hw => runs_ite (fun hkr => ?_) (fun hkr => ?_))
  · rw [hkr] at hw
    exact (hrest w hw).mono (fun kr' u hu => hw.append hu (fun _ => rfl))
  · exact runs_done (hw.append (torn_failed hkr) (fun h => h))

theorem runs_destruction {op : Opcode} {num : State → Option ℕ} {store : Option ℕ → State → State} {c : ℕ → Command}
    (hop : op.exempt = false) (hfree : Free v x) (hnum : ∀ s, num s = view s x)
    (hcommand : ∀ s n, commandOf hw s op n [] = some (c n)) (hnames : ∀ n, names (c n) = [])
    (hmakes : ∀ n k, makes k (c n) = none) (hsets : ∀ n, sets (c n) = none)
    (hdestroys : ∀ n, destroys (c n) = some (slotKind x,(BitVec.ofNat 24 n).toNat))
    (hstore : ∀ s, view s = v → view (store none s) = Function.update (view s) x none) :
    Runs hw v (destroyObject op num store) (Torn v [x]) := by
  refine (runs_destroyObject (g := id) hop hfree (fun s hs => ?_) ?_ (fun s hs => hs ▸ hstore s hs)).mono (fun _ _ h => h.torn)
  · rw [hnum, hs, Option.map_id]
    rfl
  · rintro s d n hs rfl hx
    refine ⟨c n,hcommand s n,destroys_slot hx (fun k hk => ?_) (hmakes n) (hsets n) ?_⟩
    · rw [hnames] at hk
      cases hk
    · rw [hdestroys, hs.ofNat_toNat hx]

/-- The slots whose objects refer to this one are known, and they are empty. -/
theorem free_of_referrers (X : List Slot) (hx : x ≠ .fPd) (hX : ∀ y, x ∈ slotDeps y → y ∈ X)
    (h : ∀ y ∈ X, v y = none) :
    Free v x := ⟨fun y hy => h y (hX y hy),fun he => absurd he hx⟩

/-- The slot of an object to which nothing refers. -/
theorem free_leaf (hx : x ≠ .fPd) (hX : ∀ y, x ∉ slotDeps y) : Free v x :=
  free_of_referrers [] hx (fun y hy => absurd hy (hX y)) (fun _ hy => absurd hy List.not_mem_nil)

theorem runs_destroyMkey : Runs hw v (destroyObject .destroyMkey State.fMkeyIndex (fun n s => { s with fMkeyIndex := n }))
    (Torn v [.fMkeyIndex]) :=
  runs_destruction rfl (free_leaf (by decide) (fun y => by cases y <;> decide)) (fun _ => rfl) (fun _ _ => rfl) (fun _ => rfl)
    (fun _ _ => rfl) (fun _ => rfl) (fun _ => rfl) (fun s _ => view_fMkeyIndex s _)

theorem runs_deallocTd (h : ∀ y ∈ [Slot.fTisn,.fTirn], v y = none) :
    Runs hw v (destroyObject .deallocTransportDomain State.fTd (fun n s => { s with fTd := n })) (Torn v [.fTd]) :=
  runs_destruction rfl (free_of_referrers _ (by decide) (fun y => by cases y <;> decide) h) (fun _ => rfl) (fun _ _ => rfl)
    (fun _ => rfl) (fun _ _ => rfl) (fun _ => rfl) (fun _ => rfl) (fun s _ => view_fTd s _)

theorem runs_deallocPd (h : ∀ y, y ≠ Slot.fPd → v y = none) :
    Runs hw v (destroyObject .deallocPd State.fPd (fun n s => { s with fPd := n })) (Torn v [.fPd]) := by
  have hfree : Free v .fPd := ⟨fun y hy => h y (fun he => schema.irrefl y (he.symm ▸ hy)),fun _ => h⟩
  exact runs_destruction rfl hfree (fun _ => rfl) (fun _ _ => rfl) (fun _ => rfl) (fun _ _ => rfl) (fun _ => rfl) (fun _ => rfl)
    (fun s _ => view_fPd s _)

theorem runs_destroyTis (h : v .fSqn = none) :
    Runs hw v (destroyObject .destroyTis State.fTisn (fun n s => { s with fTisn := n })) (Torn v [.fTisn]) :=
  runs_destruction rfl (free_of_referrers [.fSqn] (by decide) (fun y => by cases y <;> decide) (List.forall_mem_singleton.mpr h))
    (fun _ => rfl) (fun _ _ => rfl) (fun _ => rfl) (fun _ _ => rfl) (fun _ => rfl) (fun _ => rfl) (fun s _ => view_fTisn s _)

theorem runs_destroyTir (h : v .fFlowEntryValid = none) :
    Runs hw v (destroyObject .destroyTir State.fTirn (fun n s => { s with fTirn := n })) (Torn v [.fTirn]) :=
  runs_destruction rfl
    (free_of_referrers [.fFlowEntryValid] (by decide) (fun y => by cases y <;> decide) (List.forall_mem_singleton.mpr h))
    (fun _ => rfl) (fun _ _ => rfl) (fun _ => rfl) (fun _ _ => rfl) (fun _ => rfl) (fun _ => rfl) (fun s _ => view_fTirn s _)

theorem runs_destroySq : Runs hw v (destroyQueue .destroySq .fSqn) (Torn v [.fSqn]) :=
  runs_destruction rfl (free_leaf (by decide) (fun y => by cases y <;> decide)) (fun _ => rfl) (fun _ _ => rfl) (fun _ => rfl)
    (fun _ _ => rfl) (fun _ => rfl) (fun _ => rfl) (fun _ _ => view_number .fSqn _ rfl)

theorem runs_destroyRq (h : v .fTirn = none) : Runs hw v (destroyQueue .destroyRq .fRqn) (Torn v [.fRqn]) :=
  runs_destruction rfl (free_of_referrers [.fTirn] (by decide) (fun y => by cases y <;> decide) (List.forall_mem_singleton.mpr h))
    (fun _ => rfl) (fun _ _ => rfl) (fun _ => rfl) (fun _ _ => rfl) (fun _ => rfl) (fun _ => rfl)
    (fun _ _ => view_number .fRqn _ rfl)

theorem runs_destroyTxCq (h : v .fSqn = none) : Runs hw v (destroyQueue .destroyCq .fTxCqn) (Torn v [.fTxCqn]) :=
  runs_destruction rfl (free_of_referrers [.fSqn] (by decide) (fun y => by cases y <;> decide) (List.forall_mem_singleton.mpr h))
    (fun _ => rfl) (fun _ _ => rfl) (fun _ => rfl) (fun _ _ => rfl) (fun _ => rfl) (fun _ => rfl)
    (fun _ _ => view_number .fTxCqn _ rfl)

theorem runs_destroyRxCq (h : v .fRqn = none) : Runs hw v (destroyQueue .destroyCq .fRxCqn) (Torn v [.fRxCqn]) :=
  runs_destruction rfl (free_of_referrers [.fRqn] (by decide) (fun y => by cases y <;> decide) (List.forall_mem_singleton.mpr h))
    (fun _ => rfl) (fun _ _ => rfl) (fun _ => rfl) (fun _ _ => rfl) (fun _ => rfl) (fun _ => rfl)
    (fun _ _ => view_number .fRxCqn _ rfl)

theorem runs_destroyFlowTable (h : ∀ y ∈ [Slot.fFlowGroupId,.fFlowEntryValid,.fFlowRootActive], v y = none) :
    Runs hw v (destroyObject .destroyFlowTable State.fFlowTableId (fun n s => { s with fFlowTableId := n }))
      (Torn v [.fFlowTableId]) :=
  runs_destruction rfl (free_of_referrers _ (by decide) (fun y => by cases y <;> decide) h) (fun _ => rfl) (fun _ _ => rfl)
    (fun _ => rfl) (fun _ _ => rfl) (fun _ => rfl) (fun _ => rfl)
    (fun _ hs => view_fFlowTableId _ (hs ▸ h .fFlowEntryValid (by decide)))

/-- What an object of the flow steering refers to is there. -/
theorem Inv.table (h : Inv s d) (hx : view s x ≠ none) (hdep : .fFlowTableId ∈ slotDeps x) :
    ∃ y, schema.key (view s) y = some (.flowTable,(field s.fFlowTableId).toNat) := by
  obtain ⟨k,hk⟩ := Option.ne_none_iff_exists'.mp (h.wf.closed x hx .fFlowTableId hdep)
  refine ⟨.fFlowTableId,?_⟩
  rw [key_slot hk, ← h.field_eq hk]
  rfl

theorem runs_destroyFlowGroup (h : v .fFlowEntryValid = none) :
    Runs hw v (destroyObject .destroyFlowGroup State.fFlowGroupId (fun n s => { s with fFlowGroupId := n }))
      (Torn v [.fFlowGroupId]) := by
  have hfree : Free v .fFlowGroupId :=
    free_of_referrers [.fFlowEntryValid] (by decide) (fun y => by cases y <;> decide) (List.forall_mem_singleton.mpr h)
  refine (runs_destroyObject (g := id) rfl hfree (fun s hs => ?_) ?_ (fun s hs => hs ▸ view_fFlowGroupId s _)).mono
    (fun _ _ h => h.torn)
  · rw [← hs, Option.map_id]
    rfl
  · rintro s d n hs rfl hx
    have hlt := hs.bounded _ _ hx
    refine ⟨_,rfl,destroys_slot hx (fun k hk => ?_) (fun _ => rfl) rfl ?_⟩
    · rw [List.mem_singleton.mp hk]
      exact hs.table (x := .fFlowGroupId) (fun hnone => Option.some_ne_none n (hx.symm.trans hnone)) (by decide)
    · show some (Kind.flowGroup,(BitVec.ofNat 32 n).toNat) = some (Kind.flowGroup,n)
      rw [BitVec.toNat_ofNat, Nat.mod_eq_of_lt (hlt.trans (by decide))]

theorem runs_deleteFlowTableEntry :
    Runs hw v (destroyObject .deleteFlowTableEntry (fun s => if s.fFlowEntryValid then some 0 else none)
      (fun _ s => { s with fFlowEntryValid := false })) (Torn v [.fFlowEntryValid]) := by
  have hfree : Free v .fFlowEntryValid := free_leaf (by decide) (fun y => by cases y <;> decide)
  refine (runs_destroyObject (g := fun _ => 0) rfl hfree (fun s hs => ?_)
    ?_ (fun s hs => hs ▸ view_fFlowEntryValid s false)).mono
    (fun _ _ h => h.torn)
  · rw [← hs]
    show _ = (if s.fFlowEntryValid = true then some (s.fFlowTableId.getD 0) else none).map _
    cases s.fFlowEntryValid <;> rfl
  · rintro s d n hs rfl hx
    have hfilled : view s .fFlowEntryValid ≠ none := fun hnone => Option.some_ne_none n (hx.symm.trans hnone)
    obtain ⟨k,hk⟩ := Option.ne_none_iff_exists'.mp (hs.wf.closed _ hfilled .fFlowTableId (by decide))
    have hn : n = k := by
      have hvalid : s.fFlowEntryValid = true := by
        rw [Ne, view_entry, Bool.not_eq_false] at hfilled
        exact hfilled
      have hentry : view s .fFlowEntryValid = some (s.fFlowTableId.getD 0) := if_pos hvalid
      have htable : s.fFlowTableId = some k := hk
      rw [hentry, htable] at hx
      exact (Option.some.inj hx).symm
    refine ⟨_,rfl,destroys_slot hx (fun e he => ?_) (fun _ => rfl) rfl ?_⟩
    · rw [List.mem_singleton.mp he]
      exact hs.table hfilled (by decide)
    · show some (Kind.flowEntry,(field (view s .fFlowTableId)).toNat) = some (Kind.flowEntry,n)
      rw [hs.field_eq hk, hn]

theorem runs_disconnectFlowTableRoot :
    Runs hw v (destroyObject .setFlowTableRoot (fun s => if s.fFlowRootActive then some 0 else none)
      (fun _ s => { s with fFlowRootActive := false })) (Torn v [.fFlowRootActive]) := by
  have hfree : Free v .fFlowRootActive := free_leaf (by decide) (fun y => by cases y <;> decide)
  refine (runs_destroyObject (g := id) rfl hfree (fun s hs => ?_) ?_ (fun s hs => hs ▸ view_fFlowRootActive s false)).mono
    (fun _ _ h => h.torn)
  · rw [← hs, Option.map_id]
    rfl
  · rintro s d n hs rfl hx
    have hactive : s.fFlowRootActive = true := by
      rw [← Bool.not_eq_false, ← view_root]
      exact fun hnone => Option.some_ne_none n (hx.symm.trans hnone)
    have hn : n = 0 := by
      have hroot : view s .fFlowRootActive = some 0 := if_pos hactive
      exact Option.some.inj (hx.symm.trans hroot)
    refine ⟨.disconnectFlowTableRoot,?_,destroys_slot hx (fun e he => absurd he List.not_mem_nil) (fun _ => rfl) rfl ?_⟩
    · show some (if s.fFlowRootActive = true then _ else _) = _
      rw [hactive]
      rfl
    · rw [hn]
      rfl

end AppleMCX.FirmwareObjects
