import AppleMCX.Netif.Ethernet
import Mathlib.Data.Set.Insert

/-! # What the programs leave in the fields

The fields of the interface that keep something as a set: a program that creates adds to some of
them and leaves the others alone, and one that destroys leaves its own empty.
-/
namespace AppleMCX.Ethernet
open Interaction Prog

/-! ## What is in the fields -/

/-- The fields that keep something from one call to another. -/
inductive Item
  | fPd | fTd | fTisn | fTirn | fMkeyIndex | fFlowTableId | fFlowGroupId | fFlowEntryValid | fFlowRootActive
  | number (q : Queue)
  | held (f : Field)
  | fTxBf
  | fWqeMbuf (i : ℕ)

def State.Has (s : State) : Item → Prop
  | .fPd => s.fPd ≠ none
  | .fTd => s.fTd ≠ none
  | .fTisn => s.fTisn ≠ none
  | .fTirn => s.fTirn ≠ none
  | .fMkeyIndex => s.fMkeyIndex ≠ none
  | .fFlowTableId => s.fFlowTableId ≠ none
  | .fFlowGroupId => s.fFlowGroupId ≠ none
  | .fFlowEntryValid => s.fFlowEntryValid = true
  | .fFlowRootActive => s.fFlowRootActive = true
  | .number q => s.dma.number q ≠ none
  | .held f => s.dma.held f ≠ none
  | .fTxBf => s.fTxBfValid = true
  | .fWqeMbuf i => s.fWqeMbuf i = true

/-- The functions that create and destroy. -/
inductive Part
  | global | flow | rx | tx | ring
  deriving DecidableEq

def Field.part : Field → Part
  | .txWqDesc | .txWqDmaMap | .rxWqDesc | .rxWqDmaMap => .ring
  | .fTxBufDesc | .fTxBufMap | .fTxDbOffset | .fTxCqDesc | .fTxCqMap | .fTxCqDbOffset => .tx
  | .fRxBufDesc | .fRxBufMap | .fRxDbOffset | .fRxCqDesc | .fRxCqMap | .fRxCqDbOffset => .rx

def Queue.part : Queue → Part
  | .fSqn | .fTxCqn => .tx
  | .fRqn | .fRxCqn => .rx

def Item.part : Item → Part
  | .fPd | .fTd | .fMkeyIndex => .global
  | .fFlowTableId | .fFlowGroupId | .fFlowEntryValid | .fFlowRootActive => .flow
  | .fTirn => .rx
  | .fTisn | .fTxBf | .fWqeMbuf _ => .tx
  | .number q => q.part
  | .held f => f.part

def part (p : Part) : Set Item := {x | x.part = p}

/-- The buffer that is mapped. -/
def Field.buffer : Field → Field
  | .fTxBufMap => .fTxBufDesc
  | .fRxBufMap => .fRxBufDesc
  | .txWqDmaMap => .txWqDesc
  | .rxWqDmaMap => .rxWqDesc
  | .fTxCqMap => .fTxCqDesc
  | .fRxCqMap => .fRxCqDesc
  | f => f

/-- Nothing is allocated that is not in its field, and no mapping stays without its buffer. -/
structure Tidy (s : State) : Prop where
  live : ∀ r ∈ s.dma.live, s.dma.held r.1 = some r.2
  mapped : ∀ f, s.dma.held f ≠ none → s.dma.held f.buffer ≠ none
  bfregs : s.bfregs = if s.fTxBfValid then 1 else 0

/-- Nothing but the rings is left. -/
def Clear (s : State) : Prop := ∀ x, x ∉ part .ring → ¬ s.Has x

/-- Where there is no protection domain, nothing is left. -/
def Closed (s : State) : Prop := s.Has .fPd ∨ Clear s

/-- A call is under way. -/
def Busy (s : State) : Prop := s.fEnabling = true ∨ s.fDisabling = true

structure Rest (s : State) : Prop where
  tidy : Tidy s
  closed : Closed s
  enabling : s.fEnabling = false
  disabling : s.fDisabling = false

def Guarded (s : State) : Prop := Busy s ∨ Rest s

/-- From the first state to the second, only these fields change. -/
structure Agree (X : Set Item) (s t : State) : Prop where
  enabling : t.fEnabling = s.fEnabling
  disabling : t.fDisabling = s.fDisabling
  has : ∀ x, x ∉ X → (t.Has x ↔ s.Has x)

def Fewer (s t : State) : Prop := ∀ x, t.Has x → s.Has x

variable {α β : Type} {s t u : State} {X Y Z : Set Item} {x : Item} {op : Opcode} {n : ℕ} {refs : List (Field × ℕ)}

theorem Agree.refl (X : Set Item) (s : State) : Agree X s s := ⟨rfl,rfl,fun _ _ => Iff.rfl⟩

theorem Agree.trans (h₁ : Agree X s t) (h₂ : Agree Y t u) : Agree (X ∪ Y) s u := by
  refine ⟨h₂.enabling.trans h₁.enabling,h₂.disabling.trans h₁.disabling,fun x hx => ?_⟩
  rw [h₂.has x (fun hy => hx (.inr hy)), h₁.has x (fun hy => hx (.inl hy))]

theorem Agree.mono (h : Agree X s t) (hX : X ⊆ Y) : Agree Y s t :=
  ⟨h.enabling,h.disabling,fun x hx => h.has x (fun hm => hx (hX hm))⟩

theorem Agree.busy (h : Agree X s t) (hs : Busy s) : Busy t := by
  unfold Busy
  rw [h.enabling, h.disabling]
  exact hs

theorem Busy.guarded (h : Busy s) : Guarded s := .inl h

theorem Busy.updateDma {d : Dma} (h : Busy s) : Guarded { s with dma := d } := .inl h

theorem Clear.fewer (h : Clear s) (hf : Fewer s t) : Clear t := fun x hx ht => h x hx (hf x ht)

/-- What is destroyed or not found leaves the state closed, unless it is the protection domain. -/
theorem Closed.fewer (h : Closed s) (hX : Item.fPd ∉ X) (ha : Agree X s t) (hf : Fewer s t) : Closed t := by
  rcases h with h | h
  · exact .inl ((ha.has _ hX).mpr h)
  · exact .inr (h.fewer hf)

theorem Tidy.of_eq (h : Tidy s) (hlive : t.dma.live = s.dma.live) (hheld : t.dma.held = s.dma.held)
    (hbf : t.bfregs = s.bfregs) (hvalid : t.fTxBfValid = s.fTxBfValid) : Tidy t := by
  constructor
  · rw [hlive, hheld]
    exact h.live
  · rw [hheld]
    exact h.mapped
  · rw [hbf, hvalid]
    exact h.bfregs

/-! ## Programs that create -/

/-- The program changes these fields only, and needs some of them empty. -/
def Adds (N X : Set Item) (p : Eth α) : Prop := ∀ s, Busy s → Tidy s → (∀ x ∈ N, ¬ s.Has x) →
  Always env Guarded p (fun _ t => Tidy t ∧ Agree X s t) s

section Adds
variable {N k l : Set Item}

theorem adds_done (a : α) : Adds N X (.done a) := fun s hs ht _ => ⟨hs.guarded,ht,Agree.refl X s⟩

theorem Adds.mono {p : Eth α} (hp : Adds N X p) (hX : X ⊆ Y) : Adds N Y p :=
  fun s hs ht hn => (hp s hs ht hn).mono (fun _ _ _ h => ⟨h.1,h.2.mono hX⟩)

theorem Adds.seq {p : Eth α} {f : α → Eth β} (hp : Adds k X p) (hf : ∀ a, Adds l Z (f a)) (hX : X ⊆ Z)
    (hk : k ⊆ N) (hl : ∀ x ∈ l, x ∈ N ∧ x ∉ X) : Adds N Z (p.bind f) := by
  intro s hs ht hn
  refine Always.bind (hp s hs ht (fun x hx => hn x (hk hx))) ?_
  rintro a t _ ⟨htidy,hagree⟩
  have hnone : ∀ x ∈ l, ¬ t.Has x := fun x hx hhas => hn x (hl x hx).1 ((hagree.has x (hl x hx).2).mp hhas)
  refine (hf a t (hagree.busy hs) htidy hnone).mono (fun _ u _ h => ⟨h.1,?_⟩)
  have htrans := hagree.trans h.2
  rw [Set.union_eq_right.mpr hX] at htrans
  exact htrans

theorem Adds.bind {p : Eth α} {f : α → Eth β} (hp : Adds ∅ X p) (hf : ∀ a, Adds N Z (f a)) (hX : X ⊆ Z)
    (hneed : ∀ x ∈ N, x ∉ X) : Adds N Z (p.bind f) :=
  hp.seq hf hX (Set.empty_subset _) (fun x hx => ⟨hx,hneed x hx⟩)

theorem Adds.then {p : Eth α} {f : α → Eth β} (hp : Adds N X p) (hf : ∀ a, Adds ∅ Z (f a)) (hX : X ⊆ Z) :
    Adds N Z (p.bind f) := hp.seq hf hX le_rfl (fun _ hx => absurd hx (Set.notMem_empty _))

theorem adds_ite {c : Prop} [Decidable c] {p q : Eth α} (hp : Adds N X p) (hq : Adds N X q) :
    Adds N X (if c then p else q) := by
  split <;> assumption

theorem adds_orElse (kr : IOReturn) {cleanup rest : Eth IOReturn} (hc : Adds ∅ X cleanup) (hr : Adds N X rest) :
    Adds N X (orElse kr cleanup rest) := by
  refine adds_ite ?_ hr
  intro s hs ht hn
  exact hc.then (fun _ => adds_done _) (X := X) le_rfl s hs ht (fun x hx => absurd hx (Set.notMem_empty _))

end Adds

/-! ## Programs that destroy -/

/-- The program empties these fields where it returns a certain value, and at most empties them where it does not. -/
def Clears (ok : α → Prop) (X : Set Item) (p : Eth α) : Prop := ∀ s, Busy s → Tidy s →
  Always env Guarded p (fun a t => Tidy t ∧ Agree X s t ∧ Fewer s t ∧ (ok a → ∀ x ∈ X, ¬ t.Has x)) s

def Success (kr : IOReturn) : Prop := kr = .success

/-- Whatever the program returns. -/
def Any (_ : α) : Prop := True

section Clears
variable {ok : α → Prop} {ok' : β → Prop}

theorem Clears.adds {p : Eth α} (hp : Clears ok X p) : Adds ∅ X p :=
  fun s hs ht _ => (hp s hs ht).mono (fun _ _ _ h => ⟨h.1,h.2.1⟩)

theorem Clears.congr {p : Eth α} (hp : Clears ok X p) (hX : ∀ x, x ∈ X ↔ x ∈ Y) : Clears ok Y p := by
  rw [← Set.ext hX]
  exact hp

theorem clears_done {a : α} (ha : ¬ ok a) : Clears ok X (.done a) :=
  fun s hs ht => ⟨hs.guarded,ht,Agree.refl X s,fun _ hx => hx,fun hok => absurd hok ha⟩

/-- The second part runs in any case after a success of the first, and else there is no success. -/
theorem Clears.bind {p : Eth α} {f : α → Eth β} (hp : Clears ok X p) (hf : ∀ a, ok a → Clears ok' Y (f a))
    (hfail : ∀ a, ¬ ok a → Clears ok' (X ∪ Y) (f a)) : Clears ok' (X ∪ Y) (p.bind f) := by
  intro s hs ht
  refine Always.bind (hp s hs ht) ?_
  rintro a t _ ⟨htidy,hagree,hfewer,hcleared⟩
  by_cases ha : ok a
  · refine (hf a ha t (hagree.busy hs) htidy).mono ?_
    rintro b u _ ⟨hu,hagree',hfewer',hcleared'⟩
    refine ⟨hu,hagree.trans hagree',fun x hx => hfewer x (hfewer' x hx),fun hb x hx => ?_⟩
    rcases hx with hx | hx
    · exact fun hhas => hcleared ha x hx (hfewer' x hhas)
    · exact hcleared' hb x hx
  · refine (hfail a ha t (hagree.busy hs) htidy).mono ?_
    rintro b u _ ⟨hu,hagree',hfewer',hcleared'⟩
    have htrans := hagree.trans hagree'
    rw [← Set.union_assoc, Set.union_self] at htrans
    exact ⟨hu,htrans,fun x hx => hfewer x (hfewer' x hx),hcleared'⟩

theorem Clears.seq {p : Eth α} {f : α → Eth β} (hp : Clears Any X p) (hf : ∀ a, Clears ok' Y (f a)) :
    Clears ok' (X ∪ Y) (p.bind f) :=
  hp.bind (fun a _ => hf a) (fun _ ha => absurd trivial ha)

theorem Clears.andThen {p rest : Eth IOReturn} (hp : Clears Success X p) (hr : Clears Success Y rest) :
    Clears Success (X ∪ Y) (p.bind (fun kr => andThen kr rest)) := by
  apply hp.bind
  · intro kr hkr
    unfold Ethernet.andThen
    rw [if_pos (show kr = .success from hkr)]
    exact hr
  · intro kr hkr
    unfold Ethernet.andThen
    rw [if_neg (show ¬ kr = .success from hkr)]
    exact clears_done hkr

theorem clears_update {f : State → State} (hf : ∀ s, Agree X s (f s)) (hclear : ∀ s, ∀ x ∈ X, ¬ (f s).Has x)
    (ht : ∀ s, Tidy s → Tidy (f s)) : Clears Any X (update f) := by
  intro s hs htidy
  refine ⟨hs.guarded,((hf s).busy hs).guarded,ht s htidy,hf s,fun x hx => ?_,fun _ => hclear s⟩
  by_cases hm : x ∈ X
  · exact absurd hx (hclear s x hm)
  · exact ((hf s).has x hm).mp hx

end Clears

/-! ## Commands -/

/-- A command changes nothing that the driver keeps. -/
def Same (s t : State) : Prop := ∃ q o, t = { s with
  fQuarantined := q
  dma := { s.dma with objects := o } }

theorem Same.agree (h : Same s t) : Agree ∅ s t := by
  obtain ⟨q,o,rfl⟩ := h
  refine ⟨rfl,rfl,fun x _ => ?_⟩
  cases x <;> exact Iff.rfl

theorem Same.tidy (h : Same s t) (ht : Tidy s) : Tidy t := by
  obtain ⟨q,o,rfl⟩ := h
  exact ht.of_eq rfl rfl rfl rfl

theorem fwEffect_objects (op : Opcode) (n : ℕ) (refs : List (Field × ℕ)) (reply : Reply) (dma : Dma) :
    ∃ o, fwEffect op n refs reply dma = { dma with objects := o } := by
  unfold fwEffect
  split
  · split
    · exact ⟨_,rfl⟩
    · split <;> exact ⟨_,rfl⟩
  · split <;> exact ⟨_,rfl⟩
  · exact ⟨_,rfl⟩

theorem exec_guarded (hs : ∀ t, Same s t → Guarded t) :
    Always env Guarded (exec op n refs) (fun _ t => Same s t) s := by
  have hself : Same s s := ⟨_,_,rfl⟩
  have hnow := hs s hself
  unfold exec
  refine always_bind.mpr ⟨hnow,always_ite.mpr ⟨fun _ => ⟨hnow,hself⟩,fun _ => ⟨hnow,?_⟩⟩⟩
  intro reply _
  obtain ⟨o,ho⟩ := fwEffect_objects op n refs reply s.dma
  have hsame : Same s (env.effect s (.exec op n refs) reply) := by
    refine ⟨s.fQuarantined || (reply : Reply).kr = .timeout,o,?_⟩
    show { s with fQuarantined := _, dma := fwEffect op n refs reply s.dma } = _
    rw [ho]
  exact ⟨hs _ hsame,hsame⟩

theorem exec_same (hs : Busy s) : Always env Guarded (exec op n refs) (fun _ t => Same s t) s :=
  exec_guarded (fun _ ht => (ht.agree.busy hs).guarded)

theorem adds_exec : Adds ∅ ∅ (exec op n refs) :=
  fun _ hs ht _ => (exec_same hs).mono (fun _ _ _ h => ⟨h.tidy ht,h.agree⟩)

/-- A field for a number or a flag is written, and nothing else. -/
structure Stores (x : Item) (f : State → State) : Prop where
  same : ∀ s, (f s).fEnabling = s.fEnabling ∧ (f s).fDisabling = s.fDisabling ∧ (f s).dma.live = s.dma.live ∧
    (f s).dma.held = s.dma.held ∧ (f s).bfregs = s.bfregs ∧ (f s).fTxBfValid = s.fTxBfValid
  has : ∀ s y, y ≠ x → ((f s).Has y ↔ s.Has y)

theorem Stores.agree {f : State → State} (h : Stores x f) (s : State) : Agree {x} s (f s) :=
  ⟨(h.same s).1,(h.same s).2.1,h.has s⟩

theorem Stores.tidy {f : State → State} (h : Stores x f) (ht : Tidy s) : Tidy (f s) := by
  obtain ⟨-,-,hlive,hheld,hbfregs,hvalid⟩ := h.same s
  exact ht.of_eq hlive hheld hbfregs hvalid

section Stored
variable (n : Option ℕ) (b : Bool)

theorem stores_fPd : Stores .fPd (fun s => { s with fPd := n }) where
  same _ := ⟨rfl,rfl,rfl,rfl,rfl,rfl⟩
  has _ y hy := by cases y <;> first | exact Iff.rfl | exact absurd rfl hy

theorem stores_fTd : Stores .fTd (fun s => { s with fTd := n }) where
  same _ := ⟨rfl,rfl,rfl,rfl,rfl,rfl⟩
  has _ y hy := by cases y <;> first | exact Iff.rfl | exact absurd rfl hy

theorem stores_fTisn : Stores .fTisn (fun s => { s with fTisn := n }) where
  same _ := ⟨rfl,rfl,rfl,rfl,rfl,rfl⟩
  has _ y hy := by cases y <;> first | exact Iff.rfl | exact absurd rfl hy

theorem stores_fTirn : Stores .fTirn (fun s => { s with fTirn := n }) where
  same _ := ⟨rfl,rfl,rfl,rfl,rfl,rfl⟩
  has _ y hy := by cases y <;> first | exact Iff.rfl | exact absurd rfl hy

theorem stores_fMkeyIndex : Stores .fMkeyIndex (fun s => { s with fMkeyIndex := n }) where
  same _ := ⟨rfl,rfl,rfl,rfl,rfl,rfl⟩
  has _ y hy := by cases y <;> first | exact Iff.rfl | exact absurd rfl hy

theorem stores_fFlowTableId : Stores .fFlowTableId (fun s => { s with fFlowTableId := n }) where
  same _ := ⟨rfl,rfl,rfl,rfl,rfl,rfl⟩
  has _ y hy := by cases y <;> first | exact Iff.rfl | exact absurd rfl hy

theorem stores_fFlowGroupId : Stores .fFlowGroupId (fun s => { s with fFlowGroupId := n }) where
  same _ := ⟨rfl,rfl,rfl,rfl,rfl,rfl⟩
  has _ y hy := by cases y <;> first | exact Iff.rfl | exact absurd rfl hy

theorem stores_fFlowEntryValid : Stores .fFlowEntryValid (fun s => { s with fFlowEntryValid := b }) where
  same _ := ⟨rfl,rfl,rfl,rfl,rfl,rfl⟩
  has _ y hy := by cases y <;> first | exact Iff.rfl | exact absurd rfl hy

theorem stores_fFlowRootActive : Stores .fFlowRootActive (fun s => { s with fFlowRootActive := b }) where
  same _ := ⟨rfl,rfl,rfl,rfl,rfl,rfl⟩
  has _ y hy := by cases y <;> first | exact Iff.rfl | exact absurd rfl hy

end Stored

/-- A command without memory fills its field on success. -/
theorem createObject_spec {store : Option ℕ → State → State} (hstore : ∀ n, Stores x (store n))
    (hset : ∀ n s, (store (some n) s).Has x) (hs : Busy s) (ht : Tidy s) :
    Always env Guarded (createObject op store) (fun kr t => Tidy t ∧ Agree {x} s t ∧
      (kr = .success → t.Has x) ∧ (kr ≠ .success → (t.Has x ↔ s.Has x))) s := by
  refine Always.bind (exec_same hs) ?_
  intro reply t _ hsame
  have hagree := hsame.agree.mono (Set.empty_subset {x})
  have hbusy := hsame.agree.busy hs
  have htidy := hsame.tidy ht
  unfold onSuccess
  split
  · rename_i hkr
    have hstored := hstore (some reply.number)
    have hagree' := hsame.agree.trans (hstored.agree t)
    rw [Set.empty_union] at hagree'
    exact ⟨hbusy.guarded,(hagree'.busy hs).guarded,hstored.tidy htidy,hagree',fun _ => hset _ t,fun hne => absurd hkr hne⟩
  · rename_i hkr
    exact ⟨hbusy.guarded,htidy,hagree,fun he => absurd he hkr,fun _ => hsame.agree.has x (Set.notMem_empty x)⟩

theorem adds_createObject {store : Option ℕ → State → State} (hstore : ∀ n, Stores x (store n))
    (hset : ∀ n s, (store (some n) s).Has x) : Adds ∅ {x} (createObject op store) :=
  fun _ hs ht _ => (createObject_spec hstore hset hs ht).mono (fun _ _ _ h => ⟨h.1,h.2.1⟩)

/-- An object is destroyed and its field emptied, or the field was empty, or there is an error. -/
theorem clears_destroyObject {number : State → Option ℕ} {store : Option ℕ → State → State}
    (hstore : Stores x (store none))
    (hclear : ∀ s, ¬ (store none s).Has x) (hnone : ∀ s, number s = none → ¬ s.Has x) :
    Clears Success {x} (destroyObject op number store) := by
  intro s hs ht
  unfold destroyObject
  simp only [bind_eq, pure_eq]
  refine always_bind.mpr (always_get.mpr ⟨hs.guarded,?_⟩)
  split
  · rename_i hn
    exact ⟨hs.guarded,ht,Agree.refl _ s,fun _ hx => hx,fun _ y hy => by
      rw [Set.mem_singleton_iff.mp hy]
      exact hnone s hn⟩
  · refine Always.bind (exec_same hs) ?_
    intro reply t _ hsame
    have hagree := hsame.agree
    have hbusy := hagree.busy hs
    have htidy := hsame.tidy ht
    unfold onSuccess
    split
    · have hagree' := hagree.trans (hstore.agree t)
      rw [Set.empty_union] at hagree'
      refine ⟨hbusy.guarded,(hagree'.busy hs).guarded,hstore.tidy htidy,hagree',fun y hy => ?_,fun _ y hy => ?_⟩
      · by_cases he : y = x
        · rw [he] at hy
          exact absurd hy (hclear t)
        · exact (hagree'.has y he).mp hy
      · rw [Set.mem_singleton_iff.mp hy]
        exact hclear t
    · rename_i hkr
      exact ⟨hbusy.guarded,htidy,hagree.mono (Set.empty_subset _),fun y hy => (hagree.has y (Set.notMem_empty y)).mp hy,
        fun hok => absurd hok hkr⟩

end AppleMCX.Ethernet
