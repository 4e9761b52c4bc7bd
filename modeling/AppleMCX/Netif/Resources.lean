import AppleMCX.Netif.Buffers

/-! # What the interface creates and destroys

The flow steering, the receive side and the transmit side: each creates into its own part of the
fields and destroys it again.
-/
namespace AppleMCX.Ethernet
open Interaction Prog

variable {α : Type} {s : State} {X : Set Item}

/-! ## What is destroyed together -/

theorem clears_empty {ok : α → Prop} (a : α) : Clears ok ∅ (.done a) :=
  fun s hs ht => ⟨hs.guarded,ht,Agree.refl ∅ s,fun _ hx => hx,fun _ x hx => absurd hx (Set.notMem_empty x)⟩

theorem stores_queue (q : Queue) (n : Option ℕ) : Stores (.number q) (storeQueue q n) where
  same _ := ⟨rfl,rfl,rfl,rfl,rfl,rfl⟩
  has := by
    intro s y hy
    cases y with
    | number p =>
      show Function.update s.dma.number q n p ≠ none ↔ s.dma.number p ≠ none
      rw [Function.update_of_ne (fun he => hy (congrArg Item.number he))]
    | _ => exact Iff.rfl

theorem clears_destroyQueue (op : Opcode) (q : Queue) : Clears Success {.number q} (destroyQueue op q) := by
  refine clears_destroyObject (stores_queue q none) (fun s hhas => hhas ?_) (fun s hnone hhas => hhas hnone)
  exact Function.update_self _ _ _

theorem clears_destroyRxFlowSteering : Clears Success (part .flow) destroyRxFlowSteering := by
  have hroot : Clears Success {.fFlowRootActive} (destroyObject .setFlowTableRoot
      (fun s => if s.fFlowRootActive then some 0 else none) (fun _ s => { s with fFlowRootActive := false })) := by
    refine clears_destroyObject (stores_fFlowRootActive false) (fun s hhas => by cases hhas) (fun s hnone hhas => ?_)
    rw [if_pos (show s.fFlowRootActive = true from hhas)] at hnone
    cases hnone
  have hentry : Clears Success {.fFlowEntryValid} (destroyObject .deleteFlowTableEntry
      (fun s => if s.fFlowEntryValid then some 0 else none) (fun _ s => { s with fFlowEntryValid := false })) := by
    refine clears_destroyObject (stores_fFlowEntryValid false) (fun s hhas => by cases hhas) (fun s hnone hhas => ?_)
    rw [if_pos (show s.fFlowEntryValid = true from hhas)] at hnone
    cases hnone
  have hgroup : Clears Success {.fFlowGroupId} (destroyObject .destroyFlowGroup State.fFlowGroupId
      (fun n s => { s with fFlowGroupId := n })) :=
    clears_destroyObject (stores_fFlowGroupId none) (fun s hhas => hhas rfl) (fun s hnone hhas => hhas hnone)
  have htable : Clears Success {.fFlowTableId} (destroyObject .destroyFlowTable State.fFlowTableId
      (fun n s => { s with fFlowTableId := n })) :=
    clears_destroyObject (stores_fFlowTableId none) (fun s hhas => hhas rfl) (fun s hnone hhas => hhas hnone)
  apply Clears.congr (hroot.andThen (hentry.andThen (hgroup.andThen htable)))
  intro x
  simp only [Set.mem_union, Set.mem_singleton_iff, Set.mem_ofPred_eq, part]
  cases x <;> simp [Item.part]
  case number q => cases q <;> simp [Queue.part]
  case held f => cases f <;> simp [Field.part]

theorem clears_destroyRxResources : Clears Success (part .rx) destroyRxResources := by
  have htir : Clears Success {.fTirn} (destroyObject .destroyTir State.fTirn (fun n s => { s with fTirn := n })) :=
    clears_destroyObject (stores_fTirn none) (fun s hhas => hhas rfl) (fun s hnone hhas => hhas hnone)
  have hbuf : Clears Any ({.held .fRxBufMap} ∪ {.held .fRxBufDesc}) (dropBuffer .fRxBufDesc .fRxBufMap) :=
    clears_dropBuffer (fun g => by cases g <;> decide) rfl (fun g => by cases g <;> decide)
  have hcq : Clears Any ({.held .fRxCqMap} ∪ {.held .fRxCqDesc}) (dropBuffer .fRxCqDesc .fRxCqMap) :=
    clears_dropBuffer (fun g => by cases g <;> decide) rfl (fun g => by cases g <;> decide)
  have hdb : Clears Any {.held .fRxDbOffset} (drop .fRxDbOffset) := clears_drop (fun g => by cases g <;> decide)
  have hcqDb : Clears Any {.held .fRxCqDbOffset} (drop .fRxCqDbOffset) := clears_drop (fun g => by cases g <;> decide)
  have hlast := hcq.seq (fun _ => hcqDb.seq (fun _ => (clears_empty IOReturn.success : Clears Success ∅ _)))
  have hrest := hbuf.seq (fun _ => hdb.seq (fun _ => (clears_destroyQueue .destroyCq .fRxCqn).andThen hlast))
  apply Clears.congr (htir.andThen ((clears_destroyQueue .destroyRq .fRqn).andThen hrest))
  intro x
  simp only [Set.mem_union, Set.mem_singleton_iff, Set.mem_ofPred_eq, part]
  cases x <;> simp [Item.part]
  case number q => cases q <;> simp [Queue.part]
  case held f => cases f <;> simp [Field.part]

theorem clears_clearWqeMbufs : Clears Any {x | ∃ i, x = .fWqeMbuf i} (update clearWqeMbufs) := by
  apply clears_update
  · intro s
    refine ⟨rfl,rfl,fun x hx => ?_⟩
    cases x with
    | fWqeMbuf i => exact absurd ⟨i,rfl⟩ hx
    | _ => exact Iff.rfl
  · rintro s x ⟨i,rfl⟩ hhas
    cases hhas
  · exact fun s ht => ht.of_eq rfl rfl rfl rfl

theorem clears_freeBfreg : Clears Any {.fTxBf} (update freeBfreg) := by
  apply clears_update
  · intro s
    refine ⟨rfl,rfl,fun x hx => ?_⟩
    cases x with
    | fTxBf => exact absurd rfl hx
    | _ => exact Iff.rfl
  · intro s x hx hhas
    rw [Set.mem_singleton_iff.mp hx] at hhas
    cases hhas
  · intro s ht
    refine ⟨ht.live,ht.mapped,?_⟩
    have hbf := ht.bfregs
    unfold freeBfreg
    dsimp only
    cases hv : s.fTxBfValid <;> simp [hv] at hbf ⊢ <;> omega

theorem clears_destroyTxResources : Clears Success (part .tx) destroyTxResources := by
  have htis : Clears Success {.fTisn} (destroyObject .destroyTis State.fTisn (fun n s => { s with fTisn := n })) :=
    clears_destroyObject (stores_fTisn none) (fun s hhas => hhas rfl) (fun s hnone hhas => hhas hnone)
  have hbuf : Clears Any ({.held .fTxBufMap} ∪ {.held .fTxBufDesc}) (dropBuffer .fTxBufDesc .fTxBufMap) :=
    clears_dropBuffer (fun g => by cases g <;> decide) rfl (fun g => by cases g <;> decide)
  have hcq : Clears Any ({.held .fTxCqMap} ∪ {.held .fTxCqDesc}) (dropBuffer .fTxCqDesc .fTxCqMap) :=
    clears_dropBuffer (fun g => by cases g <;> decide) rfl (fun g => by cases g <;> decide)
  have hdb : Clears Any {.held .fTxDbOffset} (drop .fTxDbOffset) := clears_drop (fun g => by cases g <;> decide)
  have hcqDb : Clears Any {.held .fTxCqDbOffset} (drop .fTxCqDbOffset) := clears_drop (fun g => by cases g <;> decide)
  have hlast := hcq.seq (fun _ => hcqDb.seq (fun _ => htis))
  have hmid := hdb.seq (fun _ => clears_freeBfreg.seq (fun _ => (clears_destroyQueue .destroyCq .fTxCqn).andThen hlast))
  have hrest := clears_clearWqeMbufs.seq (fun _ => hbuf.seq (fun _ => hmid))
  apply Clears.congr ((clears_destroyQueue .destroySq .fSqn).andThen hrest)
  intro x
  simp only [Set.mem_union, Set.mem_singleton_iff, Set.mem_ofPred_eq, part]
  cases x <;> simp [Item.part]
  case number q => cases q <;> simp [Queue.part]
  case held f => cases f <;> simp [Field.part]

/-! ## What is created together -/

section Create
variable {N : Set Item}

theorem adds_modify (q : Queue) : Adds ∅ ∅ (do
    let s ← Prog.get
    let reply ← exec op ((s.dma.number q).getD 0) []
    pure reply.kr) := by
  intro s hs ht hn
  exact (adds_exec.then (fun reply => adds_done reply.kr) le_rfl) s hs ht hn

/-- A register is allocated and `fTxBfValid` is set. -/
theorem adds_bfreg {cleanup rest : Eth IOReturn} (hX : Item.fTxBf ∈ X) (hclean : Adds ∅ X cleanup) (hrest : Adds ∅ X rest) :
    Adds {.fTxBf} X (allocBfreg.bind (fun kr => orElse kr cleanup
      ((update (fun s => { s with fTxBfValid := true })).bind (fun _ => rest)))) := by
  intro s hs ht hnone
  have hinvalid : s.fTxBfValid = false := by
    by_contra hhas
    have hvalid : s.fTxBfValid = true := by simpa using hhas
    exact hnone _ rfl hvalid
  have hbf := ht.bfregs
  rw [hinvalid] at hbf
  have hsub : {Item.fTxBf} ⊆ X := by
    intro x hx
    rw [Set.mem_singleton_iff.mp hx]
    exact hX
  refine always_query_bind.mpr ⟨hs.guarded,fun (kr : IOReturn) _ => ?_⟩
  show Always env Guarded (if kr ≠ .success then _ else _) _ { s with bfregs := bfregsAfter kr s.bfregs }
  have hbusy : Busy { s with bfregs := bfregsAfter kr s.bfregs } := hs
  split
  · rename_i hkr
    have hsame : ({ s with bfregs := bfregsAfter kr s.bfregs } : State) = s := by
      unfold bfregsAfter
      rw [if_neg hkr]
    rw [hsame]
    refine Always.bind (hclean s hs ht (fun x hx => absurd hx (Set.notMem_empty x))) ?_
    rintro _ t hg ⟨htidy,hagree⟩
    exact ⟨hg,htidy,hagree⟩
  · rename_i hkr
    have hone : bfregsAfter kr s.bfregs = 1 := by
      unfold bfregsAfter
      rw [if_pos (not_not.mp hkr), hbf]
      rfl
    have hagree : Agree {.fTxBf} s { s with bfregs := bfregsAfter kr s.bfregs, fTxBfValid := true } := by
      refine ⟨rfl,rfl,fun x hx => ?_⟩
      cases x with
      | fTxBf => exact absurd rfl hx
      | _ => exact Iff.rfl
    refine ⟨hbusy.guarded,?_⟩
    refine (hrest _ (hagree.busy hs) ⟨ht.live,ht.mapped,hone⟩ (fun x hx => absurd hx (Set.notMem_empty x))).mono ?_
    rintro _ t _ ⟨htidy,hagree'⟩
    have htrans := hagree.trans hagree'
    rw [Set.union_eq_right.mpr hsub] at htrans
    exact ⟨htidy,htrans⟩

theorem adds_createRxFlowSteering : Adds ∅ (part .flow) createRxFlowSteering := by
  have hclean := clears_destroyRxFlowSteering.adds
  have htable : Adds ∅ {.fFlowTableId} (createObject .createFlowTable (fun n s => { s with fFlowTableId := n })) :=
    adds_createObject stores_fFlowTableId (fun n s hhas => by cases hhas)
  have hgroup : Adds ∅ {.fFlowGroupId} (createObject .createFlowGroup (fun n s => { s with fFlowGroupId := n })) :=
    adds_createObject stores_fFlowGroupId (fun n s hhas => by cases hhas)
  have hentry : Adds ∅ {.fFlowEntryValid} (createObject .setFlowTableEntry (fun _ s => { s with fFlowEntryValid := true })) :=
    adds_createObject (fun _ => stores_fFlowEntryValid true) (fun n s => rfl)
  have hroot : Adds ∅ {.fFlowRootActive} (createObject .setFlowTableRoot (fun _ s => { s with fFlowRootActive := true })) :=
    adds_createObject (fun _ => stores_fFlowRootActive true) (fun n s => rfl)
  have hflow : ∀ {x : Item}, x.part = .flow → {x} ⊆ part .flow := by
    intro x hx y hy
    rw [Set.mem_singleton_iff.mp hy]
    exact hx
  unfold createRxFlowSteering
  apply htable.then _ (hflow rfl)
  intro kr
  apply adds_ite _ (adds_done _)
  apply hgroup.then _ (hflow rfl)
  intro kr
  apply adds_orElse kr hclean
  apply hentry.then _ (hflow rfl)
  intro kr
  apply adds_orElse kr hclean
  apply hroot.then _ (hflow rfl)
  intro kr
  exact adds_orElse kr hclean (adds_done _)

theorem Adds.needs {p : Eth α} {k : Set Item} (hp : Adds k X p) (hk : k ⊆ N) : Adds N X p :=
  fun s hs ht hn => hp s hs ht (fun x hx => hn x (hk hx))

theorem adds_createTxResources : Adds {x | x.part = .tx ∧ ∀ i, x ≠ .fWqeMbuf i} (part .tx) createTxResources := by
  have hclean := clears_destroyTxResources.adds
  have hmbufs : Adds ∅ {x | ∃ i, x = .fWqeMbuf i} (update clearWqeMbufs) := clears_clearWqeMbufs.adds
  have htis : Adds ∅ {.fTisn} cmdCreateTis := adds_createObject stores_fTisn (fun n s hhas => by cases hhas)
  have hcq := adds_cmdCreateCq txCq_separate
  have hsq : Adds {.held .fTxDbOffset} {.number .fSqn,.held .fTxDbOffset} cmdCreateSq :=
    (adds_cmdCreateWq rfl : Adds {.held txWq.dbOffset} {.number txWq.queue,.held txWq.dbOffset} (cmdCreateWq .createSq txWq))
  have hready : Adds ∅ (part .tx) (cmdModifySqReady.bind (fun kr => orElse kr destroyTxResources (.done .success))) :=
    (adds_modify .fSqn).then (fun kr => adds_orElse kr hclean (adds_done _)) (Set.empty_subset _)
  have hbf := adds_bfreg (X := part .tx) rfl hclean hready
  have hafterSq := hsq.seq (Z := part .tx) (N := {.held .fTxDbOffset,.fTxBf}) (fun kr => adds_orElse kr hclean hbf)
    (by rintro x (rfl | rfl) <;> rfl) (by simp) (by simp)
  have hafterCq := hcq.seq (Z := part .tx) (N := txCq.fields ∪ {.held .fTxDbOffset,.fTxBf})
    (fun kr => adds_orElse kr hclean hafterSq) (by rintro x (rfl | rfl | rfl | rfl) <;> rfl) (Set.subset_union_left)
    (by rintro x (rfl | rfl) <;> simp [CqFields.fields, txCq])
  have hafterTis := htis.bind (Z := part .tx) (fun kr => adds_orElse kr hclean hafterCq) (by rintro x rfl; rfl)
    (by rintro x ((rfl | rfl | rfl) | rfl | rfl) <;> simp)
  have hbuffer := adds_buffer .fTxBufDesc .fTxBufMap (by decide) rfl rfl
    (by rintro x (rfl | rfl) <;> rfl) hclean hafterTis
    (by rintro x ((rfl | rfl | rfl) | rfl | rfl) <;> simp [txCq])
  unfold createTxResources
  apply hmbufs.bind
  · intro _
    apply hbuffer.needs
    rintro x ((rfl | rfl) | (rfl | rfl | rfl) | rfl | rfl) <;> exact ⟨rfl,fun i he => by cases he⟩
  · rintro x ⟨i,rfl⟩
    rfl
  · rintro x hx ⟨i,rfl⟩
    exact hx.2 i rfl

theorem adds_createRxResources : Adds (part .rx) (part .rx) createRxResources := by
  have hclean := clears_destroyRxResources.adds
  have hcq := adds_cmdCreateCq rxCq_separate
  have hrq : Adds {.held .fRxDbOffset} {.number .fRqn,.held .fRxDbOffset} cmdCreateRq :=
    (adds_cmdCreateWq rfl : Adds {.held rxWq.dbOffset} {.number rxWq.queue,.held rxWq.dbOffset} (cmdCreateWq .createRq rxWq))
  have htir : Adds ∅ {.fTirn} cmdCreateTir := adds_createObject stores_fTirn (fun n s hhas => by cases hhas)
  have hready : Adds ∅ (part .rx) (cmdModifyRqReady.bind (fun kr => orElse kr destroyRxResources (.done .success))) :=
    (adds_modify .fRqn).then (fun kr => adds_orElse kr hclean (adds_done _)) (Set.empty_subset _)
  have hafterTir := htir.then (Z := part .rx) (fun kr => adds_orElse kr hclean hready) (by rintro x rfl; rfl)
  have hafterRq := hrq.then (Z := part .rx) (fun kr => adds_orElse kr hclean hafterTir) (by rintro x (rfl | rfl) <;> rfl)
  have hafterCq := hcq.seq (Z := part .rx) (N := rxCq.fields ∪ {.held .fRxDbOffset}) (fun kr => adds_orElse kr hclean hafterRq)
    (by rintro x (rfl | rfl | rfl | rfl) <;> rfl) (Set.subset_union_left) (by rintro x rfl; simp [CqFields.fields, rxCq])
  have hbuffer := adds_buffer .fRxBufDesc .fRxBufMap (by decide) rfl rfl
    (by rintro x (rfl | rfl) <;> rfl) hclean hafterCq (by rintro x ((rfl | rfl | rfl) | rfl) <;> simp [rxCq])
  apply hbuffer.needs
  rintro x ((rfl | rfl) | (rfl | rfl | rfl) | rfl) <;> rfl

end Create

end AppleMCX.Ethernet
