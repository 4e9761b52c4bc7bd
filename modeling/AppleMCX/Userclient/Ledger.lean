import AppleMCX.Userclient.Steps
import AppleMCX.Interaction.Tally

/-! # The ledger of handles

Every object that exists stands once in its client's table, in the hand of one of the client's
calls or among the handles that have been forgotten.
-/
namespace AppleMCX.UserClient
open Interaction

variable {τ ι : Type} [DecidableEq τ] [DecidableEq ι]

def Call.held (x : (ι × Kind) × ℕ) (call : Call ι) : ℕ :=
  match call.pc.hand with
  | some y => if ((call.client,y.1),y.2) = x then 1 else 0
  | none => 0

omit [DecidableEq τ] in
theorem Call.held_some {c : ι} {pc : Pc} {k : Kind} {h : ℕ} (x : (ι × Kind) × ℕ) (hhand : pc.hand = some (k,h)) :
    Call.held x ⟨c,pc⟩ = if ((c,k),h) = x then 1 else 0 := by
  simp only [Call.held, hhand]

omit [DecidableEq τ] in
theorem Call.held_none {c : ι} {pc : Pc} (x : (ι × Kind) × ℕ) (hhand : pc.hand = none) : Call.held x ⟨c,pc⟩ = 0 := by
  simp only [Call.held, hhand]

omit [DecidableEq τ] in
theorem Call.held_congr {c : ι} {pc pc' : Pc} (x : (ι × Kind) × ℕ) (hhand : pc'.hand = pc.hand) :
    Call.held x ⟨c,pc'⟩ = Call.held x ⟨c,pc⟩ := by
  simp only [Call.held, hhand]

/-! ## Counting -/

section Counting
variable {α β : Type} [DecidableEq α] [DecidableEq β] [BEq β] [LawfulBEq β]

theorem count_update_append (f : α → List β) (a a' : α) (b b' : β) :
    (Function.update f a (f a ++ [b]) a').count b' = (f a').count b' + if (a,b) = (a',b') then 1 else 0 := by
  by_cases ha : a' = a
  · subst ha
    simp [List.count_append, List.count_singleton]
  · simp [Function.update_of_ne ha, Ne.symm ha]

theorem count_update_erase (f : α → List β) {a : α} {b : β} (h : b ∈ f a) (a' : α) (b' : β) :
    (Function.update f a ((f a).erase b) a').count b' + (if (a,b) = (a',b') then 1 else 0) = (f a').count b' := by
  by_cases ha : a' = a
  · subst ha
    have hpos := List.count_pos_iff.mpr h
    by_cases hb : b = b'
    · subst hb
      simp only [Function.update_self, List.count_erase_self, if_true]
      omega
    · simp [hb, List.count_erase_of_ne (Ne.symm hb)]
  · simp [Function.update_of_ne ha, Ne.symm ha]

omit [DecidableEq α] in
theorem count_map_eraseP {p : α → Bool} {f : α → β} {l : List α} {a : α} (h : l.find? p = some a) (b : β) :
    ((l.eraseP p).map f).count b + (if f a = b then 1 else 0) = (l.map f).count b := by
  induction l with
  | nil => cases h
  | cons x l ih =>
    rw [List.find?_cons] at h
    cases hp : p x with
    | true =>
      rw [hp] at h
      cases h
      simp [hp, List.count_cons]
    | false =>
      rw [hp] at h
      have hrest := ih h
      simp only [List.eraseP_cons, hp, List.map_cons, List.count_cons, cond_false]
      omega

omit [DecidableEq α] [DecidableEq β] [BEq β] [LawfulBEq β] in
theorem map_modifyFirst {p : α → Bool} {f : α → α} {g : α → β} (hf : ∀ a, g (f a) = g a) (l : List α) :
    (modifyFirst p f l).map g = l.map g := by
  induction l with
  | nil => rfl
  | cons a l ih =>
    rw [modifyFirst]
    split
    · rw [List.map_cons, List.map_cons, hf]
    · rw [List.map_cons, List.map_cons, ih]

end Counting

theorem Kind.index_handle (k : Kind) (n : BitVec 24) (variant : BitVec 8) : k.index (k.handle n variant) = n.toNat := by
  cases k with
  | mr => exact Verbs.mlxMkeyIndex_compose n variant
  | qp | cq | ah => exact Nat.mod_eq_of_lt n.isLt

namespace State

def objects (s : State τ ι) : Kind → List (ι × ℕ)
  | .ah => (s.fTable .ah).map (fun ctx => (ctx.owner,ctx.handle))
  | k => (s.fw k).map (fun o => (o.owner,o.handle))

/-- No two objects of the firmware have one number. -/
def Distinct (s : State τ ι) : Prop := ∀ k, (s.fw k).Pairwise (fun a b => k.index a.handle ≠ k.index b.handle)

/-- Each object that exists is accounted for once. -/
def Balanced [Fintype τ] (s : State τ ι) (k : Kind) : Prop :=
  ∀ c h, (s.objects k).count (c,h) =
    (s.fOwned (c,k)).count h + tally (Call.held ((c,k),h)) s.calls + (s.lost (c,k)).count h

/-- Where the call goes for an address handle, it finds the context of its own client first. -/
def OwnFirst (s : State τ ι) (i : τ) : Prop :=
  ∀ h ctx, (s.calls i).pc.target = some (.ah,h) → (s.fTable .ah).find? (fun ctx => ctx.handle = h) = some ctx →
    ctx.owner = (s.calls i).client

section Objects
variable {s t : State τ ι} {k : Kind} {c : ι} {h : ℕ}

omit [DecidableEq τ] [DecidableEq ι] in
theorem objects_of_ne (hk : k ≠ .ah) : s.objects k = (s.fw k).map (fun o => (o.owner,o.handle)) := by
  cases k with
  | ah => contradiction
  | qp | cq | mr => rfl

omit [DecidableEq τ] [DecidableEq ι] in
theorem objects_congr (htable : t.fTable .ah = s.fTable .ah) (hfw : ∀ k, k ≠ .ah → t.fw k = s.fw k) (k : Kind) :
    t.objects k = s.objects k := by
  by_cases hk : k = .ah
  · subst hk
    simp only [objects, htable]
  · rw [objects_of_ne hk, objects_of_ne hk, hfw k hk]

omit [DecidableEq τ] [DecidableEq ι] in
theorem objects_setFw {k' : Kind} (hk' : k' ≠ .ah) (l : List (Object ι)) :
    (s.setFw k' l).objects = Function.update s.objects k' (l.map (fun o => (o.owner,o.handle))) := by
  funext k
  by_cases hk : k = k'
  · subst hk
    simp only [objects_of_ne hk', setFw, Function.update_self]
  · rw [Function.update_of_ne hk]
    cases k <;> simp [objects, setFw, Function.update_of_ne hk]

omit [DecidableEq τ] [DecidableEq ι] in
theorem objects_setTable_ah (l : List (Context ι)) :
    (s.setTable .ah l).objects = Function.update s.objects .ah (l.map (fun ctx => (ctx.owner,ctx.handle))) := by
  funext k
  cases k <;> simp [objects, setTable]

omit [DecidableEq τ] [DecidableEq ι] in
theorem objects_setTable_of_ne {k' : Kind} (hk' : k' ≠ .ah) (l : List (Context ι)) :
    (s.setTable k' l).objects = s.objects := by
  funext k
  cases k <;> simp [objects, setTable, Function.update_of_ne (Ne.symm hk')]

omit [DecidableEq τ] [DecidableEq ι] in
@[simp] theorem objects_go [DecidableEq τ] (i : τ) (pc : Pc) : (s.go i pc).objects = s.objects := by
  funext k
  cases k <;> rfl

omit [DecidableEq τ] [DecidableEq ι] in
@[simp] theorem objects_setOwned [DecidableEq ι] (c : ι) (k : Kind) (l : List ℕ) :
    (s.setOwned c k l).objects = s.objects := by
  funext k
  cases k <;> rfl

omit [DecidableEq τ] [DecidableEq ι] in
@[simp] theorem objects_lose [DecidableEq ι] (c : ι) (k : Kind) (h : ℕ) : (s.lose c k h).objects = s.objects := by
  funext k
  cases k <;> rfl

omit [DecidableEq τ] in
theorem le_of_held [Fintype τ] {i : τ} (hhand : (s.calls i).pc.hand = some (k,h)) :
    1 ≤ tally (Call.held (((s.calls i).client,k),h)) s.calls := by
  have hone : (s.calls i).held (((s.calls i).client,k),h) = 1 := (Call.held_some _ hhand).trans (if_pos rfl)
  rw [← hone]
  exact le_tally s.calls i

omit [DecidableEq τ] in
theorem mem_of_held [Fintype τ] {i : τ} (hb : s.Balanced k) (hclient : (s.calls i).client = c)
    (hhand : (s.calls i).pc.hand = some (k,h)) : (c,h) ∈ s.objects k := by
  subst hclient
  have hheld := le_of_held hhand
  have hcount := hb (s.calls i).client h
  exact List.count_pos_iff.mp (by omega)

omit [DecidableEq τ] in
/-- A handle of the client's table is that of an object of the client that exists. -/
theorem mem_of_owned [Fintype τ] (hb : s.Balanced k) (hmem : h ∈ s.fOwned (c,k)) : (c,h) ∈ s.objects k := by
  have hcount := hb c h
  have hpos := List.count_pos_iff.mpr hmem
  exact List.count_pos_iff.mp (by omega)

omit [DecidableEq τ] in
theorem Distinct.count_le (hd : s.Distinct) (hk : k ≠ .ah) : (s.objects k).count (c,h) ≤ 1 := by
  have hnodup : (s.objects k).Nodup := by
    rw [objects_of_ne hk, List.Nodup, List.pairwise_map]
    apply (hd k).imp
    intro a b hab heq
    apply hab
    rw [(Prod.mk.inj heq).2]
  exact List.nodup_iff_count_le_one.mp hnodup (c,h)

omit [DecidableEq τ] [DecidableEq ι] in
theorem Distinct.find (hd : s.Distinct) (hk : k ≠ .ah) (hmem : (c,h) ∈ s.objects k) :
    ∃ o, (s.fw k).find? (fun o => k.index o.handle = k.index h) = some o ∧ o.owner = c ∧ o.handle = h := by
  rw [objects_of_ne hk] at hmem
  obtain ⟨a,ha,hpair⟩ := List.mem_map.mp hmem
  obtain ⟨rfl,rfl⟩ := Prod.mk.inj hpair
  refine ⟨a,?_,rfl,rfl⟩
  have hpair := hd k
  generalize s.fw k = l at ha hpair
  induction l with
  | nil => cases ha
  | cons b l ih =>
    obtain ⟨hb,hl⟩ := List.pairwise_cons.mp hpair
    rcases List.mem_cons.mp ha with rfl | ha
    · simp
    · rw [List.find?_cons_of_neg (by simpa using hb a ha)]
      exact ih ha hl

omit [DecidableEq τ] in
/-- The context that is found is that of the address handle in the hand of the call. -/
theorem find_context [Fintype τ] {i : τ} (hb : s.Balanced .ah) (hown : s.OwnFirst i)
    (hhand : (s.calls i).pc.hand = some (.ah,h)) :
    ∃ ctx, (s.fTable .ah).find? (fun ctx => ctx.handle = h) = some ctx ∧
    ctx.owner = (s.calls i).client ∧ ctx.handle = h := by
  obtain ⟨ctx,hctx,hpair⟩ := List.mem_map.mp (mem_of_held hb rfl hhand)
  have hsome : ((s.fTable .ah).find? (fun ctx => ctx.handle = h)).isSome := by
    rw [List.find?_isSome]
    exact ⟨ctx,hctx,by simpa using (Prod.mk.inj hpair).2⟩
  obtain ⟨first,hfirst⟩ := Option.isSome_iff_exists.mp hsome
  have hhandle : first.handle = h := by simpa using List.find?_some hfirst
  exact ⟨first,hfirst,hown h first (Pc.target_of_hand hhand) hfirst,hhandle⟩

end Objects

/-! ## The steps -/

section Steps
variable {s t : State τ ι} {i : τ} {o : Outcome} {k : Kind}

/-- A call goes on: what it had in its hand is put down, and it takes up something else. -/
theorem Balanced.go [Fintype τ] {pc : Pc}
    (h : ∀ c n, (s.objects k).count (c,n) + Call.held ((c,k),n) ⟨(s.calls i).client,(s.calls i).pc⟩ =
      (s.fOwned (c,k)).count n + tally (Call.held ((c,k),n)) s.calls + (s.lost (c,k)).count n +
        Call.held ((c,k),n) ⟨(s.calls i).client,pc⟩) : (s.go i pc).Balanced k := by
  intro c n
  have hmoved := tally_update (Call.held ((c,k),n)) s.calls i ⟨(s.calls i).client,pc⟩
  have hcount := h c n
  simp only [objects_go, fOwned_go, lost_go, calls_go]
  change _ + (s.calls i).held ((c,k),n) = _ at hcount
  omega

theorem reassoc (c c' : ι) (k k' : Kind) (h h' : ℕ) :
    (if (k,(c,h)) = (k',(c',h')) then 1 else 0 : ℕ) = if ((c,k),h) = ((c',k'),h') then 1 else 0 := by
  simp only [Prod.mk.injEq]
  congr 1
  exact propext ⟨fun h => ⟨⟨h.2.1,h.1⟩,h.2.2⟩,fun h => ⟨h.1.2,h.1.1,h.2⟩⟩

section Moves
variable [Fintype τ] {pc' : Pc} {k' : Kind} {n : ℕ}

theorem Balanced.create {ob : Object ι} (hb : s.Balanced k) (hk : k' ≠ .ah) (howner : ob.owner = (s.calls i).client)
    (hhand : (s.calls i).pc.hand = none) (hhand' : pc'.hand = some (k',ob.handle)) :
    ((s.setFw k' (s.fw k' ++ [ob])).go i pc').Balanced k := by
  apply Balanced.go
  intro c h
  have hcount := hb c h
  have hobjects := count_update_append s.objects k' k (ob.owner,ob.handle) (c,h)
  rw [reassoc, howner] at hobjects
  simp only [calls_setFw, objects_setFw hk, List.map_append, List.map_singleton,
    ← objects_of_ne hk, fOwned_setFw, lost_setFw, howner]
  rw [Call.held_none _ hhand, Call.held_some _ hhand']
  omega

/-- A context is recorded: an address handle exists from now on, any other object has existed before. -/
theorem Balanced.record {ctx : Context ι} (hb : s.Balanced k) (hh : ctx.handle = n) (howner : ctx.owner = (s.calls i).client)
    (hhand : (s.calls i).pc.hand = if k' = .ah then none else some (k',n)) (hhand' : pc'.hand = some (k',n)) :
    ((s.setTable k' (s.fTable k' ++ [ctx])).go i pc').Balanced k := by
  apply Balanced.go
  intro c h
  have hcount := hb c h
  by_cases hk : k' = .ah
  · subst hk
    rw [if_pos rfl] at hhand
    have hobjects := count_update_append s.objects .ah k (ctx.owner,ctx.handle) (c,h)
    rw [reassoc, howner, hh] at hobjects
    simp only [calls_setTable, objects_setTable_ah, List.map_append,
      List.map_singleton, fOwned_setTable, lost_setTable, howner, hh]
    rw [Call.held_none _ hhand, Call.held_some _ hhand']
    change List.count (c,h) (Function.update s.objects .ah (s.objects .ah ++ [_]) k) + 0 = _
    omega
  · rw [if_neg hk] at hhand
    simp only [calls_setTable, objects_setTable_of_ne hk, fOwned_setTable, lost_setTable]
    rw [Call.held_some _ hhand, Call.held_some _ hhand']
    omega

theorem Balanced.destroy (hb : s.Balanced k) (hd : s.Distinct) (hk : k' ≠ .ah) (hhand : (s.calls i).pc.hand = some (k',n))
    (hhand' : pc'.hand = none) :
    ((s.setFw k' ((s.fw k').eraseP (fun o => k'.index o.handle = k'.index n))).go i pc').Balanced k := by
  apply Balanced.go
  intro c h
  have hcount := hb c h
  simp only [calls_setFw, objects_setFw hk, fOwned_setFw, lost_setFw]
  rw [Call.held_some _ hhand, Call.held_none _ hhand']
  by_cases hkk : k = k'
  · subst hkk
    obtain ⟨ob,hfind,hclient,hhandle⟩ := hd.find hk (mem_of_held hb rfl hhand)
    have hobjects := count_map_eraseP (f := fun o : Object ι => (o.owner,o.handle)) hfind (c,h)
    rw [hclient, hhandle, ← objects_of_ne hk] at hobjects
    simp only [Function.update_self, Prod.mk.injEq, and_true] at hobjects ⊢
    omega
  · rw [Function.update_of_ne hkk, if_neg (by simp [Ne.symm hkk])]
    omega

/-- A context is removed: an address handle is gone with it, any other object has been destroyed before. -/
theorem Balanced.remove (hb : s.Balanced k) (hown : k = .ah → s.OwnFirst i)
    (hhand : (s.calls i).pc.hand = if k' = .ah then some (k',n) else none) (hhand' : pc'.hand = none) :
    ((s.setTable k' ((s.fTable k').eraseP (fun ctx => ctx.handle = n))).go i pc').Balanced k := by
  apply Balanced.go
  intro c h
  have hcount := hb c h
  by_cases hk : k' = .ah
  · subst hk
    rw [if_pos rfl] at hhand
    simp only [calls_setTable, objects_setTable_ah, fOwned_setTable, lost_setTable]
    rw [Call.held_some _ hhand, Call.held_none _ hhand']
    by_cases hkk : k = .ah
    · subst hkk
      obtain ⟨ctx,hfind,hclient,hhandle⟩ := find_context hb (hown rfl) hhand
      have hobjects := count_map_eraseP (f := fun ctx : Context ι => (ctx.owner,ctx.handle)) hfind (c,h)
      rw [hclient, hhandle] at hobjects
      simp only [Function.update_self, Prod.mk.injEq, and_true] at hobjects ⊢
      change _ = (s.objects .ah).count (c,h) at hobjects
      omega
    · rw [Function.update_of_ne hkk, if_neg (by simp [Ne.symm hkk])]
      omega
  · rw [if_neg hk] at hhand
    simp only [calls_setTable, objects_setTable_of_ne hk, fOwned_setTable, lost_setTable]
    rw [Call.held_none _ hhand, Call.held_none _ hhand']
    omega

theorem Balanced.change {f : Context ι → Context ι} (hb : s.Balanced k) (hhand : pc'.hand = (s.calls i).pc.hand)
    (hf : ∀ ctx, (f ctx).handle = ctx.handle ∧ (f ctx).owner = ctx.owner) :
    ((s.setTable k' (modifyFirst (fun ctx => ctx.handle = n) f (s.fTable k'))).go i pc').Balanced k := by
  have hobjects : (s.setTable k' (modifyFirst (fun ctx => ctx.handle = n) f (s.fTable k'))).objects = s.objects := by
    by_cases hk : k' = .ah
    · subst hk
      rw [objects_setTable_ah, map_modifyFirst (fun ctx => by rw [(hf ctx).1, (hf ctx).2])]
      exact Function.update_eq_self _ _
    · exact objects_setTable_of_ne hk _
  apply Balanced.go
  intro c h
  have hcount := hb c h
  simp only [calls_setTable, hobjects, fOwned_setTable, lost_setTable]
  rw [Call.held_congr _ hhand]
  omega

theorem Balanced.drop (hb : s.Balanced k) (up : ι → Bool) (active : ι → ℕ)
    (client : ι) (hhand : (s.calls i).pc.hand = none)
    (hhand' : pc'.hand = none) :
    ({ s with
      fRoce := up
      fActiveCq := active
      fOwned := fun p => if p.1 = client then [] else s.fOwned p
      lost := fun p => if p.1 = client then s.lost p ++ s.fOwned p else s.lost p }.go i pc').Balanced k := by
  apply Balanced.go
  intro c h
  have hcount := hb c h
  have hobjects : ∀ owned lost : ι × Kind → List ℕ,
      { s with fRoce := up, fActiveCq := active, fOwned := owned, lost := lost }.objects k = s.objects k :=
    fun _ _ => objects_congr rfl (fun _ _ => rfl) k
  rw [hobjects]
  simp only
  rw [Call.held_none _ hhand, Call.held_none _ hhand']
  split
  · rw [List.count_append, List.count_nil]
    omega
  · omega

end Moves

theorem Balanced.ran [Fintype τ] (hb : s.Balanced k) (hd : s.Distinct) (hown : k = .ah → s.OwnFirst i)
    (h : s.Ran i (s.calls i).client (s.calls i).pc o t) : t.Balanced k := by
  cases h with
  | @pass next active pc' hhand =>
    have hobjects : ∀ k, { s with fNextHandle := next, fActiveCq := active }.objects k = s.objects k :=
      objects_congr rfl (fun _ _ => rfl)
    apply Balanced.go
    intro c n
    have hcount := hb c n
    rw [Call.held_congr _ hhand, hobjects]
    change _ + Call.held _ ⟨(s.calls i).client,(s.calls i).pc⟩ = (s.fOwned (c,k)).count n +
      tally _ s.calls + (s.lost (c,k)).count n +
      Call.held _ ⟨(s.calls i).client,(s.calls i).pc⟩
    omega
  | create hpc hk ho hfree => exact hb.create hk rfl (by rw [hpc]; rfl) (if_neg hk)
  | record ctx hpc hh hc => exact hb.record hh hc (by rw [hpc]; rfl) rfl
  | @add put k' h' hpc ho hup =>
    apply Balanced.go
    intro c n
    have hcount := hb c n
    have howned := count_update_append s.fOwned ((s.calls i).client,k') (c,k) h' n
    have hhand : (s.calls i).pc.hand = some (k',h') := by rw [hpc]; rfl
    simp only [calls_setOwned, objects_setOwned, fOwned_setOwned, lost_setOwned]
    rw [Call.held_some _ hhand, Call.held_none _ (Put.hand_kept put k' h')]
    omega
  | @lose k' h' pc' hhand hhand' hwhy =>
    apply Balanced.go
    intro c n
    have hcount := hb c n
    have hlost := count_update_append s.lost ((s.calls i).client,k') (c,k) h' n
    simp only [calls_lose, objects_lose, fOwned_lose, lost_lose]
    rw [Call.held_some _ hhand, Call.held_none _ hhand']
    omega
  | @take k' h' pc' hmem hhand hhand' =>
    apply Balanced.go
    intro c n
    have hcount := hb c n
    have howned := count_update_erase s.fOwned hmem (c,k) n
    simp only [calls_setOwned, objects_setOwned, fOwned_setOwned, lost_setOwned]
    rw [Call.held_none _ hhand, Call.held_some _ hhand']
    omega
  | destroy hpc hk hhand' => exact hb.destroy hd hk (by rw [hpc]; rfl) hhand'
  | remove htarget hhand hhand' => exact hb.remove hown hhand hhand'
  | change htarget hhand hf => exact hb.change hhand hf
  | drop hpc => exact hb.drop _ _ _ (by rw [hpc]; rfl) rfl

theorem Distinct.ran {c : ι} {pc : Pc} (hd : s.Distinct) (h : s.Ran i c pc o t) : t.Distinct := by
  cases h with
  | @create k' args m variant hpc hk ho hfree =>
    intro j
    rw [fw_go, fw_setFw]
    by_cases hj : j = k'
    · subst hj
      rw [Function.update_self, List.pairwise_append]
      refine ⟨hd j,List.pairwise_singleton _ _,fun a ha b hb => ?_⟩
      rw [List.mem_singleton.mp hb, Kind.index_handle]
      unfold exists? at hfree
      simpa using List.any_eq_false.mp hfree a ha
    · rw [Function.update_of_ne hj]
      exact hd j
  | @destroy why k' h' pc' hpc hk hhand' =>
    intro j
    rw [fw_go, fw_setFw]
    by_cases hj : j = k'
    · subst hj
      rw [Function.update_self]
      exact (hd j).sublist List.eraseP_sublist
    · rw [Function.update_of_ne hj]
      exact hd j
  | pass | record | add | lose | take | remove | change | drop => exact hd

theorem Balanced.begun [Fintype τ] {c : ι} {req : Request} {kr : IOReturn} (hb : s.Balanced k)
    (hpc : (s.calls i).pc = .returned kr) : (s.begun i c req).Balanced k := by
  intro c' n
  have hobjects : (s.begun i c req).objects k = s.objects k := objects_congr rfl (fun _ _ => rfl) k
  have hbefore : (s.calls i).held ((c',k),n) = 0 := Call.held_none _ (by rw [hpc]; rfl)
  have hafter : Call.held ((c',k),n) ⟨c,s.entry c req⟩ = 0 := Call.held_none _ (entry_idle s c req).1
  rw [hobjects, hb c' n]
  change _ = (s.fOwned (c',k)).count n + tally _ (Function.update s.calls i _) + (s.lost (c',k)).count n
  rw [tally_keep (hafter.trans hbefore.symm)]

end Steps

structure Accounted [Fintype τ] (s : State τ ι) : Prop where
  distinct : s.Distinct
  balanced : ∀ k, k ≠ .ah → s.Balanced k

section Runs
variable [Fintype τ] {s t : State τ ι} {a : Action τ ι} {Meets : State τ ι → Action τ ι → Prop} {client : ι}

omit [DecidableEq τ] in
theorem initial_balanced (client : ι) (k : Kind) : (initial client : State τ ι).Balanced k := by
  intro c h
  have hobjects : (initial client : State τ ι).objects k = [] := by cases k <;> rfl
  rw [hobjects]
  simp [initial, tally, Call.held, Pc.hand]

omit [DecidableEq τ] [DecidableEq ι] [Fintype τ] in
theorem initial_distinct (client : ι) : (initial client : State τ ι).Distinct := by
  intro k
  exact List.Pairwise.nil

omit [Fintype τ] in
theorem Distinct.step (hd : s.Distinct) (h : step s a = some t) : t.Distinct := by
  rcases step_cases h with ⟨i,c,req,kr,-,hpc,rfl⟩ | ⟨i,o,-,hrun⟩
  · exact hd
  · exact hd.ran (run_ran hrun)

theorem Balanced.step {k : Kind} (hb : s.Balanced k) (hd : s.Distinct) (hown : k = .ah → ∀ i, s.OwnFirst i)
    (h : step s a = some t) : t.Balanced k := by
  rcases step_cases h with ⟨i,c,req,kr,-,hpc,rfl⟩ | ⟨i,o,-,hrun⟩
  · exact hb.begun hpc
  · exact hb.ran hd (fun hk => hown hk i) (run_ran hrun)

theorem reach_accounted (h : Reach step Meets (initial client) s) : s.Accounted := by
  apply h.invariant ⟨initial_distinct client,fun k _ => initial_balanced client k⟩
  intro s a t hs _ hstep
  exact ⟨hs.distinct.step hstep,fun k hk => (hs.balanced k hk).step hs.distinct (fun hah => absurd hah hk) hstep⟩

omit [DecidableEq τ] in
/-- A handle that a call has in its hand is not in the client's table. -/
theorem Accounted.not_owned (hs : s.Accounted) {k : Kind} (hk : k ≠ .ah)
    {h : ℕ} {i : τ} (hhand : (s.calls i).pc.hand = some (k,h)) :
    h ∉ s.fOwned ((s.calls i).client,k) := by
  intro hmem
  have hcount := hs.balanced k hk (s.calls i).client h
  have hone := hs.distinct.count_le (c := (s.calls i).client) (h := h) hk
  have hheld := le_of_held hhand
  have hpos := List.count_pos_iff.mpr hmem
  omega

omit [DecidableEq τ] in
/-- An object that is not in its client's table is in the hand of a call of the client, or forgotten. -/
theorem Accounted.held_or_lost (hs : s.Accounted) {k : Kind} (hk : k ≠ .ah) {ob : Object ι} (hob : ob ∈ s.fw k)
    (hmem : ob.handle ∉ s.fOwned (ob.owner,k)) :
    (∃ j, (s.calls j).client = ob.owner ∧ (s.calls j).pc.hand = some (k,ob.handle)) ∨
    ob.handle ∈ s.lost (ob.owner,k) := by
  have hcount := hs.balanced k hk ob.owner ob.handle
  have hin : (ob.owner,ob.handle) ∈ s.objects k := by
    rw [objects_of_ne hk]
    exact List.mem_map_of_mem hob
  have hpos := List.count_pos_iff.mpr hin
  rw [List.count_eq_zero_of_not_mem hmem] at hcount
  by_cases hlost : ob.handle ∈ s.lost (ob.owner,k)
  · exact .inr hlost
  rw [List.count_eq_zero_of_not_mem hlost] at hcount
  left
  by_contra hnone
  have hzero : tally (Call.held ((ob.owner,k),ob.handle)) s.calls = 0 := by
    apply tally_eq_zero.mpr
    intro j
    cases hhand : (s.calls j).pc.hand with
    | none => exact Call.held_none _ hhand
    | some y =>
      refine (Call.held_some _ hhand).trans (if_neg (fun heq => hnone ⟨j,?_,?_⟩))
      · exact (Prod.mk.inj (Prod.mk.inj heq).1).1
      · rw [hhand, ← (Prod.mk.inj (Prod.mk.inj heq).1).2, ← (Prod.mk.inj heq).2]
  omega

end Runs

end State

end AppleMCX.UserClient
