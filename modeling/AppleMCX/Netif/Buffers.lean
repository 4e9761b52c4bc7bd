import AppleMCX.Netif.Fields

/-! # Buffers and the commands that name them

Buffers, their mappings and the doorbell slots are allocated and released in between, so that a
program is followed through states that hold more than the fields do.
-/
namespace AppleMCX.Ethernet
open Interaction Prog

variable {α β : Type} {s t u : State} {X : Set Item} {x : Item} {op : Opcode} {n : ℕ} {refs : List (Field × ℕ)}

/-! ## Buffers, mappings and doorbell slots -/

theorem agree_dma {d : Dma} (hnumber : ∀ q, .number q ∉ X → d.number q = s.dma.number q)
    (hheld : ∀ f, .held f ∉ X → d.held f = s.dma.held f) : Agree X s { s with dma := d } := by
  refine ⟨rfl,rfl,fun x hx => ?_⟩
  cases x with
  | number q =>
    show d.number q ≠ none ↔ s.dma.number q ≠ none
    rw [hnumber q hx]
  | held f =>
    show d.held f ≠ none ↔ s.dma.held f ≠ none
    rw [hheld f hx]
  | _ => exact Iff.rfl

theorem not_live {f : Field} (ht : Tidy s) (hnone : s.dma.held f = none) {r : Field × ℕ} (hr : r ∈ s.dma.live) :
    r.1 ≠ f := by
  intro he
  have hheld := ht.live r hr
  rw [he, hnone] at hheld
  cases hheld

theorem dropped {f : Field} (ht : Tidy s) (hfree : ∀ g, g ≠ f → g.buffer = f → s.dma.held g = none) :
    Tidy { s with dma := s.dma.drop f } ∧ Agree {.held f} s { s with dma := s.dma.drop f } ∧
      ¬ ({ s with dma := s.dma.drop f } : State).Has (.held f) := by
  refine ⟨⟨fun r hr => ?_,fun g hg => ?_,ht.bfregs⟩,agree_dma (fun q _ => ?_) (fun g hg => ?_),?_⟩
  · obtain ⟨hmem,hne⟩ := Custody.drop_live hr
    have hheld := ht.live r hmem
    dsimp only
    rw [Custody.drop_held, Function.update_of_ne (fun he => hne ⟨he,he ▸ hheld⟩)]
    exact hheld
  · dsimp only at hg ⊢
    rw [Custody.drop_held] at hg ⊢
    by_cases hgf : g = f
    · rw [hgf, Function.update_self] at hg
      exact absurd rfl hg
    · rw [Function.update_of_ne hgf] at hg
      rw [Function.update_of_ne (fun he => hg (hfree g hgf he))]
      exact ht.mapped g hg
  · rw [Custody.drop_number]
  · rw [Custody.drop_held, Function.update_of_ne]
    rintro rfl
    exact hg rfl
  · intro hhas
    apply hhas
    show (s.dma.drop f).held f = none
    rw [Custody.drop_held, Function.update_self]

theorem Agree.fewer (h : Agree {x} s t) (hx : ¬ t.Has x) : Fewer s t := by
  intro y hy
  by_cases he : y = x
  · rw [he] at hy
    exact absurd hy hx
  · exact (h.has y he).mp hy

theorem clears_drop {f : Field} (hf : ∀ g, g ≠ f → g.buffer ≠ f) : Clears Any {.held f} (drop f) := by
  intro s hs ht
  obtain ⟨htidy,hagree,hcleared⟩ := dropped ht (fun g hg he => absurd he (hf g hg))
  refine ⟨hs.guarded,(hagree.busy hs).guarded,htidy,hagree,hagree.fewer hcleared,fun _ x hx => ?_⟩
  rw [Set.mem_singleton_iff.mp hx]
  exact hcleared

theorem clears_dropBuffer {desc map : Field} (hdesc : ∀ g, g ≠ desc → g.buffer = desc → g = map)
    (hbuf : map.buffer = desc)
    (hmap : ∀ g, g ≠ map → g.buffer ≠ map) : Clears Any ({.held map} ∪ {.held desc}) (dropBuffer desc map) := by
  intro s hs ht
  unfold dropBuffer
  refine always_bind.mpr ⟨hs.guarded,always_ite.mpr ⟨fun _ => ?_,fun hnone => ?_⟩⟩
  · refine Always.bind (clears_drop hmap s hs ht) ?_
    rintro _ t _ ⟨htidy,hagree,hfewer,hcleared⟩
    have hgone : t.dma.held map = none := by
      by_contra hhas
      exact hcleared trivial _ rfl hhas
    obtain ⟨htidy',hagree',hcleared'⟩ := dropped (f := desc) htidy (fun g hg he => by rw [hdesc g hg he]; exact hgone)
    have hfewer' := hagree'.fewer hcleared'
    have htrans := hagree.trans hagree'
    refine ⟨(hagree.busy hs).guarded,(htrans.busy hs).guarded,htidy',
      htrans,fun x hx => hfewer x (hfewer' x hx),fun _ x hx => ?_⟩
    rcases hx with hx | hx
    · exact fun hhas => hcleared trivial x hx (hfewer' x hhas)
    · rw [Set.mem_singleton_iff.mp hx]
      exact hcleared'
  · have hdnone : s.dma.held desc = none := by simpa using hnone
    refine ⟨hs.guarded,ht,Agree.refl _ s,fun _ hx => hx,fun _ x hx => ?_⟩
    rcases hx with hx | hx
    · rw [Set.mem_singleton_iff.mp hx]
      intro hhas
      have hbuffer := ht.mapped map hhas
      rw [hbuf, hdnone] at hbuffer
      exact hbuffer rfl
    · rw [Set.mem_singleton_iff.mp hx]
      exact fun hhas => hhas hdnone

theorem filled {f : Field} (ht : Tidy s) (hnone : s.dma.held f = none) (hbuf : f.buffer = f ∨ s.dma.held f.buffer ≠ none) :
    Tidy { s with dma := (s.dma.acquire f).hold f s.dma.next } ∧
    Agree {.held f} s { s with dma := (s.dma.acquire f).hold f s.dma.next } := by
  refine ⟨⟨fun r hr => ?_,fun g hg => ?_,ht.bfregs⟩,agree_dma (fun q _ => rfl) (fun g hg => ?_)⟩
  · rcases List.mem_cons.mp hr with rfl | hr
    · exact Function.update_self _ _ _
    · show Function.update s.dma.held f (some s.dma.next) r.1 = _
      rw [Function.update_of_ne (not_live ht hnone hr)]
      exact ht.live r hr
  · have hset : ∀ h, s.dma.held h ≠ none → Function.update s.dma.held f (some s.dma.next) h ≠ none := by
      intro h hh
      rw [Function.update_apply]
      split
      · exact Option.some_ne_none _
      · exact hh
    by_cases hgf : g = f
    · rw [hgf]
      rcases hbuf with hbuf | hbuf
      · rw [hbuf]
        show Function.update s.dma.held f (some s.dma.next) f ≠ none
        rw [Function.update_self]
        exact Option.some_ne_none _
      · exact hset _ hbuf
    · apply hset
      apply ht.mapped
      have hold : Function.update s.dma.held f (some s.dma.next) g ≠ none := hg
      rw [Function.update_of_ne hgf] at hold
      exact hold
  · show Function.update s.dma.held f _ g = _
    rw [Function.update_of_ne]
    rintro rfl
    exact hg rfl

theorem acquireInto_spec {f : Field} (a : α) (hs : Busy s) (ht : Tidy s) (hnone : s.dma.held f = none)
    (hbuf : f.buffer = f ∨ s.dma.held f.buffer ≠ none) :
    Always env Guarded ((acquire f).bind (fun k => (updateDma (Custody.hold f k)).bind (fun _ => .done a)))
      (fun b t => b = a ∧ Tidy t ∧ Agree {.held f} s t ∧ t.Has (.held f)) s := by
  obtain ⟨htidy,hagree⟩ := filled ht hnone hbuf
  refine ⟨hs.guarded,hs.updateDma,hs.updateDma,rfl,htidy,hagree,?_⟩
  show Function.update s.dma.held f (some s.dma.next) f ≠ none
  rw [Function.update_self]
  exact Option.some_ne_none _

/-- A buffer is allocated and mapped into empty fields. -/
theorem adds_buffer {N : Set Item} (desc map : Field) {cleanup rest : Eth IOReturn} (hne : map ≠ desc)
    (hdesc : desc.buffer = desc) (hmap : map.buffer = desc) (hX : {.held desc,.held map} ⊆ X) (hclean : Adds ∅ X cleanup)
    (hrest : Adds N X rest) (hneed : ∀ x ∈ N, x ≠ .held desc ∧ x ≠ .held map) :
    Adds ({.held desc,.held map} ∪ N) X ((allocateInto desc).bind (fun ok =>
      if !ok then .done .noMemory else (mapInto map).bind (fun kr => orElse kr cleanup rest))) := by
  intro s hs ht hnone
  have hdnone : s.dma.held desc = none := by
    by_contra hhas
    exact hnone _ (.inl (.inl rfl)) hhas
  have hmnone : s.dma.held map = none := by
    by_contra hhas
    exact hnone _ (.inl (.inr rfl)) hhas
  have hrestX : ∀ {t : State}, Busy t → Tidy t → Agree {.held desc,.held map} s t →
      Always env Guarded rest (fun _ u => Tidy u ∧ Agree X s u) t := by
    intro t hbusy htidy hagree
    refine (hrest t hbusy htidy (fun x hx hhas => ?_)).mono (fun _ u _ hu => ⟨hu.1,?_⟩)
    · refine hnone x (.inr hx) ((hagree.has x ?_).mp hhas)
      rintro (rfl | rfl)
      · exact (hneed _ hx).1 rfl
      · exact (hneed _ hx).2 rfl
    · have htrans := hagree.trans hu.2
      rw [Set.union_eq_right.mpr hX] at htrans
      exact htrans
  have hcleanX : ∀ {t : State} {kr : IOReturn}, Busy t → Tidy t → Agree {.held desc,.held map} s t →
      Always env Guarded (cleanup.bind (fun _ => .done kr)) (fun _ u => Tidy u ∧ Agree X s u) t := by
    intro t kr hbusy htidy hagree
    refine Always.bind (hclean t hbusy htidy (fun x hx => absurd hx (Set.notMem_empty x))) ?_
    rintro _ u hu ⟨hutidy,hagree'⟩
    have htrans := hagree.trans hagree'
    rw [Set.union_eq_right.mpr hX] at htrans
    exact ⟨hu,hutidy,htrans⟩
  unfold allocateInto
  refine always_bind.mpr (always_query_bind.mpr ⟨hs.guarded,fun (ok : Bool) _ => ?_⟩)
  show Always env Guarded (if ok = true then _ else _) _ s
  split
  · refine (acquireInto_spec true hs ht hdnone (.inl hdesc)).mono ?_
    rintro b t _ ⟨rfl,htidy,hagree,hhas⟩
    have hbusy := hagree.busy hs
    have hagree₂ : Agree {.held desc,.held map} s t := hagree.mono (fun x hx => .inl hx)
    have htmap : t.dma.held map = none := by
      by_contra hheld
      exact (hagree.has (.held map) (fun he => hne (Item.held.inj he))).mp hheld hmnone
    simp only [Bool.not_true, Bool.false_eq_true, if_false]
    unfold mapInto
    refine always_bind.mpr (always_query_bind.mpr ⟨hbusy.guarded,fun (kr : IOReturn) _ => ?_⟩)
    show Always env Guarded (if kr = IOReturn.success then _ else _) _ t
    split
    · refine (acquireInto_spec IOReturn.success hbusy htidy htmap (.inr (hmap.symm ▸ hhas))).mono ?_
      rintro kr u _ ⟨rfl,hutidy,hagree',-⟩
      have htrans := hagree₂.trans hagree'
      rw [Set.union_eq_left.mpr (fun x hx => .inr hx)] at htrans
      unfold orElse
      rw [if_neg (fun hk => hk rfl)]
      exact hrestX (htrans.busy hs) hutidy htrans
    · rename_i hkr
      refine ⟨hbusy.guarded,?_⟩
      show Always env Guarded (if kr ≠ .success then _ else _) _ t
      rw [if_pos hkr]
      exact hcleanX hbusy htidy hagree₂
  · have hclear : s.dma.clear desc = s.dma := by
      unfold Custody.clear
      rw [← hdnone, Function.update_eq_self]
    have hsame : ({ s with dma := s.dma.clear desc } : State) = s := by rw [hclear]
    refine ⟨hs.guarded,?_⟩
    show Always env Guarded (.done false) _ { s with dma := s.dma.clear desc }
    rw [hsame]
    exact ⟨hs.guarded,hs.guarded,ht,Agree.refl _ s⟩

/-! ## Commands with memory -/

/-- Resources have been allocated that are not in a field yet. -/
def Extra (l : List (Field × ℕ)) (s t : State) : Prop := ∃ q o k, t = { s with
  fQuarantined := q
  dma := { s.dma with
    objects := o
    live := l ++ s.dma.live
    next := k } }

section Extra
variable {l : List (Field × ℕ)} {r : Field × ℕ} {R : β → State → Prop}

theorem Extra.refl (s : State) : Extra [] s s := ⟨_,_,_,rfl⟩

theorem Extra.agree (h : Extra l s t) : Agree ∅ s t := by
  obtain ⟨q,o,k,rfl⟩ := h
  refine ⟨rfl,rfl,fun x _ => ?_⟩
  cases x <;> exact Iff.rfl

theorem Extra.busy (h : Extra l s t) (hs : Busy s) : Busy t := h.agree.busy hs

theorem Extra.tidy (h : Extra [] s t) (ht : Tidy s) : Tidy t := by
  obtain ⟨q,o,k,rfl⟩ := h
  exact ht.of_eq rfl rfl rfl rfl

theorem Extra.same (h : Extra l s t) (hu : Same t u) : Extra l s u := by
  obtain ⟨q,o,k,rfl⟩ := h
  obtain ⟨q',o',rfl⟩ := hu
  exact ⟨q',o',k,rfl⟩

theorem Extra.acquire (h : Extra l s t) {f : Field} {g : ℕ → Eth β} (hs : Busy s)
    (hg : ∀ k u, Extra ((f,k) :: l) s u → Always env Guarded (g k) R u) :
    Always env Guarded ((Ethernet.acquire f).bind g) R t := by
  refine ⟨(h.busy hs).guarded,hg t.dma.next _ ?_⟩
  obtain ⟨q,o,k,rfl⟩ := h
  exact ⟨q,o,k + 1,rfl⟩

theorem Extra.release (h : Extra (r :: l) s t) {g : Unit → Eth β} (hs : Busy s) (hl : r ∉ l) (hr : r ∉ s.dma.live)
    (hg : ∀ u, Extra l s u → Always env Guarded (g ()) R u) :
    Always env Guarded ((updateDma (Custody.release r)).bind g) R t := by
  refine ⟨(h.busy hs).guarded,hg _ ?_⟩
  obtain ⟨q,o,k,rfl⟩ := h
  refine ⟨q,o,k,?_⟩
  have hkeep : (r :: l ++ s.dma.live).filter (fun x => x ≠ r) = l ++ s.dma.live := by
    rw [List.cons_append, List.filter_cons_of_neg (by simp)]
    apply List.filter_eq_self.mpr
    intro x hx
    rw [decide_eq_true_eq]
    rintro rfl
    rcases List.mem_append.mp hx with hx | hx
    · exact hl hx
    · exact hr hx
  show { s with fQuarantined := q, dma := { s.dma with objects := o, live := _, next := k } } = _
  rw [hkeep]

theorem Extra.exec (h : Extra l s t) {g : Reply → Eth β} (hs : Busy s)
    (hg : ∀ reply u, Extra l s u → Always env Guarded (g reply) R u) :
    Always env Guarded ((Ethernet.exec op n refs).bind g) R t :=
  Always.bind (exec_same (h.busy hs)) (fun reply u _ hu => hg reply u (h.same hu))

theorem Extra.done (h : Extra [] s t) (hs : Busy s) (ht : Tidy s) (a : α) :
    Always env Guarded (.done a) (fun _ u => Tidy u ∧ Agree X s u) t :=
  ⟨(h.busy hs).guarded,h.tidy ht,h.agree.mono (Set.empty_subset X)⟩

end Extra

theorem not_mem_live {f : Field} (ht : Tidy s) (hnone : s.dma.held f = none) (k : ℕ) : (f,k) ∉ s.dma.live :=
  fun hr => not_live ht hnone hr rfl

/-- All resources that were allocated get into their empty fields, and a queue gets its number. -/
theorem stored {l : List (Field × ℕ)} {q : Queue} {d : Dma} (h : Extra l s t) (ht : Tidy s)
    (hlive : d.live = t.dma.live) (hnumber : ∀ p, p ≠ q → d.number p = t.dma.number p)
    (hin : ∀ r ∈ l, d.held r.1 = some r.2 ∧ s.dma.held r.1 = none ∧ ∃ k, (r.1.buffer,k) ∈ l)
    (hout : ∀ f, (∀ k, (f,k) ∉ l) → d.held f = s.dma.held f) :
    Tidy { t with dma := d } ∧ Agree ({.number q} ∪ {x | ∃ r ∈ l, x = .held r.1}) s { t with dma := d } := by
  obtain ⟨quarantined,o,next,rfl⟩ := h
  have hstay : ∀ f, s.dma.held f ≠ none → d.held f = s.dma.held f := by
    intro f hf
    apply hout
    intro k hk
    exact hf (hin _ hk).2.1
  refine ⟨⟨fun r hr => ?_,fun f hf => ?_,ht.bfregs⟩,rfl,rfl,fun x hx => ?_⟩
  · replace hr : r ∈ l ++ s.dma.live := by
      rw [← show d.live = l ++ s.dma.live from hlive]
      exact hr
    rcases List.mem_append.mp hr with hr | hr
    · exact (hin r hr).1
    · have hheld := ht.live r hr
      show d.held r.1 = some r.2
      rw [hstay _ (by rw [hheld]; exact Option.some_ne_none _)]
      exact hheld
  · show d.held f.buffer ≠ none
    by_cases hl : ∃ k, (f,k) ∈ l
    · obtain ⟨k,hk⟩ := hl
      obtain ⟨m,hm⟩ := (hin _ hk).2.2
      rw [(hin _ hm).1]
      exact Option.some_ne_none _
    · have hold : s.dma.held f ≠ none := by
        rw [← hout f (fun k hk => hl ⟨k,hk⟩)]
        exact hf
      have hbuf := ht.mapped f hold
      rw [hstay _ hbuf]
      exact hbuf
  · cases x with
    | number p =>
      show d.number p ≠ none ↔ s.dma.number p ≠ none
      rw [hnumber p (fun he => hx (.inl (he ▸ rfl)))]
    | held f =>
      show d.held f ≠ none ↔ s.dma.held f ≠ none
      rw [hout f (fun k hk => hx (.inr ⟨_,hk,rfl⟩))]
    | _ => exact Iff.rfl

/-- Three different fields: a buffer, its mapping and a doorbell slot. -/
structure CqFields.Separate (cq : CqFields) : Prop where
  distinct : cq.desc ≠ cq.map ∧ cq.desc ≠ cq.dbOffset ∧ cq.map ≠ cq.dbOffset
  desc : cq.desc.buffer = cq.desc
  map : cq.map.buffer = cq.desc
  dbOffset : cq.dbOffset.buffer = cq.dbOffset

theorem txCq_separate : txCq.Separate := ⟨by decide,rfl,rfl,rfl⟩
theorem rxCq_separate : rxCq.Separate := ⟨by decide,rfl,rfl,rfl⟩

def CqFields.fields (cq : CqFields) : Set Item := {.held cq.desc,.held cq.map,.held cq.dbOffset}

theorem store_held {cq : CqFields} (hcq : cq.Separate) (n desc map dbOff : ℕ) (dma : Dma) :
    (cq.store n desc map dbOff dma).held cq.desc = some desc ∧ (cq.store n desc map dbOff dma).held cq.map = some map ∧
    (cq.store n desc map dbOff dma).held cq.dbOffset = some dbOff := by
  obtain ⟨hdm,hdd,hmd⟩ := hcq.distinct
  simp [CqFields.store, Custody.hold, Custody.setNumber, hdm, hdd, hmd]

theorem store_other {cq : CqFields} {f : Field} (n desc map dbOff : ℕ) (dma : Dma) (hdesc : f ≠ cq.desc) (hmap : f ≠ cq.map)
    (hdb : f ≠ cq.dbOffset) : (cq.store n desc map dbOff dma).held f = dma.held f := by
  simp [CqFields.store, Custody.hold, Custody.setNumber, hdesc, hmap, hdb]

theorem adds_cmdCreateCq {cq : CqFields} (hcq : cq.Separate) :
    Adds cq.fields ({.number cq.queue} ∪ cq.fields) (cmdCreateCq cq) := by
  intro s hs ht hnone
  have hempty : ∀ f, .held f ∈ cq.fields → s.dma.held f = none := by
    intro f hf
    by_contra hhas
    exact hnone _ hf hhas
  have hdesc := hempty cq.desc (.inl rfl)
  have hmap := hempty cq.map (.inr (.inl rfl))
  have hdb := hempty cq.dbOffset (.inr (.inr rfl))
  obtain ⟨hdm,hdd,hmd⟩ := hcq.distinct
  unfold cmdCreateCq
  refine always_query_bind.mpr ⟨hs.guarded,fun (ok : Bool) _ => always_ite.mpr ⟨fun _ => ?_,fun _ => ?_⟩⟩
  · exact (Extra.refl s).done hs ht _
  apply (Extra.refl s).acquire hs
  intro kd s₁ h₁
  refine always_query_bind.mpr ⟨(h₁.busy hs).guarded,fun (kr : IOReturn) _ => always_ite.mpr ⟨fun _ => ?_,fun _ => ?_⟩⟩
  · apply h₁.release hs List.not_mem_nil (not_mem_live ht hdesc _)
    intro u hu
    exact hu.done hs ht _
  apply h₁.acquire hs
  intro km s₂ h₂
  have hkm : (cq.map,km) ∉ [(cq.desc,kd)] := by simp [Ne.symm hdm]
  refine always_query_bind.mpr ⟨(h₂.busy hs).guarded,fun (kr : IOReturn) _ => always_ite.mpr ⟨fun _ => ?_,fun _ => ?_⟩⟩
  · apply h₂.release hs hkm (not_mem_live ht hmap _)
    intro u hu
    apply hu.release hs List.not_mem_nil (not_mem_live ht hdesc _)
    intro v hv
    exact hv.done hs ht _
  apply h₂.acquire hs
  intro kb s₃ h₃
  have hkb : (cq.dbOffset,kb) ∉ [(cq.map,km),(cq.desc,kd)] := by simp [Ne.symm hdd, Ne.symm hmd]
  apply h₃.exec hs
  intro reply s₄ h₄
  refine always_ite.mpr ⟨fun _ => ?_,fun _ => ?_⟩
  · apply h₄.release hs hkb (not_mem_live ht hdb _)
    intro u hu
    apply hu.release hs hkm (not_mem_live ht hmap _)
    intro v hv
    apply hv.release hs List.not_mem_nil (not_mem_live ht hdesc _)
    intro w hw
    exact hw.done hs ht _
  · obtain ⟨hsd,hsm,hsb⟩ := store_held hcq reply.number kd km kb s₄.dma
    have hheld : s₄.dma.held = s.dma.held := by
      obtain ⟨q,o,k,rfl⟩ := h₄
      rfl
    have hstored : Tidy { s₄ with dma := cq.store reply.number kd km kb s₄.dma } ∧
        Agree ({.number cq.queue} ∪ {x | ∃ r ∈ [(cq.dbOffset,kb),(cq.map,km),(cq.desc,kd)], x = .held r.1}) s
          { s₄ with dma := cq.store reply.number kd km kb s₄.dma } := by
      apply stored h₄ ht
      · rfl
      · intro p hp
        simp [CqFields.store, Custody.hold, Custody.setNumber, hp]
      · intro r hr
        simp only [List.mem_cons, List.not_mem_nil, or_false] at hr
        rcases hr with rfl | rfl | rfl
        · exact ⟨hsb,hdb,kb,by simp [hcq.dbOffset]⟩
        · exact ⟨hsm,hmap,kd,by simp [hcq.map]⟩
        · exact ⟨hsd,hdesc,kd,by simp [hcq.desc]⟩
      · intro f hf
        rw [store_other, hheld]
        · rintro rfl
          exact hf kd (by simp)
        · rintro rfl
          exact hf km (by simp)
        · rintro rfl
          exact hf kb (by simp)
    refine ⟨(h₄.busy hs).guarded,(h₄.busy hs).updateDma,hstored.1,hstored.2.mono ?_⟩
    apply Set.union_subset_union_right
    rintro x ⟨r,hr,rfl⟩
    simp only [List.mem_cons, List.not_mem_nil, or_false] at hr
    rcases hr with rfl | rfl | rfl
    · exact .inr (.inr rfl)
    · exact .inr (.inl rfl)
    · exact .inl rfl

theorem adds_cmdCreateWq {wq : WqFields} (hbuf : wq.dbOffset.buffer = wq.dbOffset) :
    Adds {.held wq.dbOffset} {.number wq.queue,.held wq.dbOffset} (cmdCreateWq op wq) := by
  intro s hs ht hnone
  have hdb : s.dma.held wq.dbOffset = none := by
    by_contra hhas
    exact hnone _ rfl hhas
  unfold cmdCreateWq
  refine always_bind.mpr ⟨hs.guarded,always_ite.mpr ⟨fun _ => ?_,fun _ => ?_⟩⟩
  · exact (Extra.refl s).done hs ht _
  refine always_query_bind.mpr ⟨hs.guarded,fun (kr : IOReturn) _ => always_ite.mpr ⟨fun _ => ?_,fun _ => ?_⟩⟩
  · exact (Extra.refl s).done hs ht _
  apply (Extra.refl s).acquire hs
  intro kb s₁ h₁
  apply h₁.exec hs
  intro reply s₂ h₂
  refine always_ite.mpr ⟨fun _ => ?_,fun _ => ?_⟩
  · apply h₂.release hs List.not_mem_nil (not_mem_live ht hdb _)
    intro u hu
    exact hu.done hs ht _
  · have hheld : s₂.dma.held = s.dma.held := by
      obtain ⟨q,o,k,rfl⟩ := h₂
      rfl
    have hstored : Tidy { s₂ with dma := (s₂.dma.setNumber wq.queue (some reply.number)).hold wq.dbOffset kb } ∧
        Agree ({.number wq.queue} ∪ {x | ∃ r ∈ [(wq.dbOffset,kb)], x = .held r.1}) s
          { s₂ with dma := (s₂.dma.setNumber wq.queue (some reply.number)).hold wq.dbOffset kb } := by
      apply stored h₂ ht
      · rfl
      · exact fun p hp => Function.update_of_ne hp _ _
      · intro r hr
        rw [List.mem_singleton.mp hr]
        exact ⟨Function.update_self _ _ _,hdb,kb,by simp [hbuf]⟩
      · intro f hf
        show Function.update s₂.dma.held wq.dbOffset _ f = s.dma.held f
        rw [Function.update_of_ne, hheld]
        rintro rfl
        exact hf kb (by simp)
    refine ⟨(h₂.busy hs).guarded,(h₂.busy hs).updateDma,hstored.1,hstored.2.mono ?_⟩
    rintro x (rfl | ⟨r,hr,rfl⟩)
    · exact .inl rfl
    · rw [List.mem_singleton.mp hr]
      exact .inr rfl

end AppleMCX.Ethernet
