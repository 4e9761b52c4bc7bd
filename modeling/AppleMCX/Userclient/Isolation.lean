import AppleMCX.Userclient.Ledger

/-! # Isolation of the clients

The tables of the device are searched by number, so clients are kept apart only as long as no
two of them have to do with one number. This fails where the firmware gives a number again
while an earlier client's context, or a call that is about to remove or to update it, is still
there, and where two calls load the same number for their address handles.
-/
namespace AppleMCX.UserClient
open Interaction

variable {τ ι : Type} [DecidableEq τ] [DecidableEq ι]

def Request.names : Request → Option (Kind × ℕ)
  | .createQP req => some (.cq,req.sendCq)
  | .modifyQP req => some (.qp,req.qpn)
  | .destroyQP qpn => some (.qp,qpn)
  | .destroyCQ cqHandle => some (.cq,cqHandle)
  | .updateCqConsumer cqHandle _ => some (.cq,cqHandle)
  | .deregMR mrHandle => some (.mr,mrHandle)
  | .destroyAH ahHandle => some (.ah,ahHandle)
  | _ => none

def Pc.names : Pc → Option (Kind × ℕ)
  | .checkSend sendCq _ => some (.cq,sendCq)
  | .checkRecv _ recvCq => some (.cq,recvCq)
  | .take k h => some (k,h)
  | .takeModify req => some (.qp,req.qpn)
  | .checkUpdate h _ => some (.cq,h)
  | _ => none

def Action.client (s : State τ ι) : Action τ ι → ι
  | .begin _ c _ => c
  | .run i _ => (s.calls i).client

namespace State

/-- The client has to do with the number: it has it in its table, one of its calls has it, or one of its contexts. -/
inductive Claims (s : State τ ι) (c : ι) (k : Kind) (h : ℕ) : Prop
  | owned (hmem : h ∈ s.fOwned (c,k))
  | call (i : τ) (hclient : (s.calls i).client = c) (htarget : (s.calls i).pc.target = some (k,h))
  | context (ctx : Context ι) (hmem : ctx ∈ s.fTable k) (howner : ctx.owner = c) (hhandle : ctx.handle = h)

def Separate (s : State τ ι) : Prop := ∀ k h c c', s.Claims c k h → s.Claims c' k h → c = c'

structure Isolated (s : State τ ι) : Prop where
  /-- A handle in a table is that of an object that the client has created and that has not been destroyed. -/
  owned : ∀ c k h, h ∈ s.fOwned (c,k) → (c,h) ∈ s.objects k
  disjoint : ∀ c c' k h, h ∈ s.fOwned (c,k) → h ∈ s.fOwned (c',k) → c = c'
  /-- A request that names a handle goes to look for it first. -/
  looks : ∀ c (req : Request) x, req.names = some x → (s.entry c req).names = some x ∨
    ∃ kr, kr ≠ .success ∧ s.entry c req = .returned kr
  /-- A handle that is not in the table of the caller is refused, and nothing happens. -/
  refused : ∀ i o k h, (s.calls i).pc.names = some (k,h) → h ∉ s.fOwned ((s.calls i).client,k) →
    s.run i o = some (s.go i (.returned .notPermitted))
  /-- The contexts of all other clients stay what they are. -/
  others : ∀ a t, step s a = some t → ∀ c, c ≠ a.client s → ∀ k,
    (t.fTable k).filter (fun ctx => ctx.owner = c) = (s.fTable k).filter (fun ctx => ctx.owner = c)

end State

/-- The number of a new object is not one that another client has to do with. -/
def Fresh (s : State τ ι) : Action τ ι → Prop
  | .begin _ _ _ => True
  | .run i o => ∀ k h, s.given o (s.calls i).pc = some (k,h) → ∀ c, s.Claims c k h → c = (s.calls i).client

section Decide
variable [Fintype τ] [Fintype ι] (s : State τ ι)

omit [DecidableEq τ] [DecidableEq ι] [Fintype τ] [Fintype ι] in
theorem State.claims_iff {c : ι} {k : Kind} {h : ℕ} : s.Claims c k h ↔ h ∈ s.fOwned (c,k) ∨
    (∃ i, (s.calls i).client = c ∧ (s.calls i).pc.target = some (k,h)) ∨
    ∃ ctx ∈ s.fTable k, ctx.owner = c ∧ ctx.handle = h := by
  constructor
  · rintro (hmem | ⟨i,hclient,htarget⟩ | ⟨ctx,hmem,howner,hhandle⟩)
    · exact .inl hmem
    · exact .inr (.inl ⟨i,hclient,htarget⟩)
    · exact .inr (.inr ⟨ctx,hmem,howner,hhandle⟩)
  · rintro (hmem | ⟨i,hclient,htarget⟩ | ⟨ctx,hmem,howner,hhandle⟩)
    · exact .owned hmem
    · exact .call i hclient htarget
    · exact .context ctx hmem howner hhandle

instance (c : ι) (k : Kind) (h : ℕ) : Decidable (s.Claims c k h) := decidable_of_iff _ s.claims_iff.symm

instance : (a : Action τ ι) → Decidable (Fresh s a)
  | .begin _ _ _ => isTrue trivial
  | .run i o => decidable_of_iff
      (∀ x ∈ s.given o (s.calls i).pc, ∀ c, s.Claims c x.1 x.2 → c = (s.calls i).client)
      ⟨fun hall k h hgiven => hall (k,h) hgiven,fun hall x hx => hall x.1 x.2 hx⟩

end Decide

/-! ## Tables searched by number -/

section Tables
variable {α : Type} {p q : α → Bool} {l : List α}

/-- Removing the first match leaves a part of the list that it is not in. -/
theorem filter_eraseP (h : ∀ a, l.find? p = some a → q a = false) : (l.eraseP p).filter q = l.filter q := by
  induction l with
  | nil => rfl
  | cons x l ih =>
    rw [List.find?_cons] at h
    cases hp : p x with
    | true =>
      rw [hp] at h
      rw [List.eraseP_cons_of_pos hp, List.filter_cons_of_neg (by simp [h x rfl])]
    | false =>
      rw [hp] at h
      rw [List.eraseP_cons_of_neg (by simp [hp]), List.filter_cons, List.filter_cons, ih h]

theorem filter_modifyFirst {f : α → α} (hf : ∀ a, q (f a) = q a) (h : ∀ a, l.find? p = some a → q a = false) :
    (modifyFirst p f l).filter q = l.filter q := by
  induction l with
  | nil => rfl
  | cons x l ih =>
    rw [List.find?_cons] at h
    rw [modifyFirst]
    cases hp : p x with
    | true =>
      rw [hp] at h
      rw [if_pos rfl, List.filter_cons_of_neg (by simp [hf, h x rfl]), List.filter_cons_of_neg (by simp [h x rfl])]
    | false =>
      rw [hp] at h
      rw [if_neg (by simp), List.filter_cons, List.filter_cons, ih h]

end Tables

namespace State
variable {s t : State τ ι} {i : τ} {o : Outcome} {c : ι} {k : Kind} {h : ℕ}

/-! ## Who has to do with a number -/

omit [DecidableEq τ] [DecidableEq ι] in
/-- A table in which a call looks for its number gives it a context of its own client. -/
theorem Separate.first (hsep : s.Separate) (htarget : (s.calls i).pc.target = some (k,h)) {ctx : Context ι}
    (hfind : (s.fTable k).find? (fun ctx => ctx.handle = h) = some ctx) : ctx.owner = (s.calls i).client := by
  have hhandle : ctx.handle = h := by simpa using List.find?_some hfind
  exact hsep k h _ _ (.context ctx (List.mem_of_find?_eq_some hfind) rfl hhandle) (.call i rfl htarget)

omit [DecidableEq τ] [DecidableEq ι] in
theorem Separate.ownFirst (hsep : s.Separate) (i : τ) : s.OwnFirst i :=
  fun _ _ htarget hfind => hsep.first htarget hfind

theorem owned_of_ran (hran : s.Ran i (s.calls i).client (s.calls i).pc o t) (hmem : h ∈ t.fOwned (c,k)) :
    s.Claims c k h := by
  cases hran with
  | @add put k' h' hpc ho hup =>
    rw [fOwned_go, fOwned_setOwned] at hmem
    by_cases hp : (c,k) = ((s.calls i).client,k')
    · rw [hp, Function.update_self] at hmem
      obtain ⟨rfl,rfl⟩ := Prod.mk.inj hp
      rcases List.mem_append.mp hmem with hold | hnew
      · exact .owned hold
      · cases List.mem_singleton.mp hnew
        exact .call i rfl (by rw [hpc]; rfl)
    · rw [Function.update_of_ne hp] at hmem
      exact .owned hmem
  | @take k' h' pc' hmem' hhand hhand' =>
    rw [fOwned_go, fOwned_setOwned] at hmem
    by_cases hp : (c,k) = ((s.calls i).client,k')
    · rw [hp, Function.update_self] at hmem
      obtain ⟨rfl,rfl⟩ := Prod.mk.inj hp
      exact .owned (List.mem_of_mem_erase hmem)
    · rw [Function.update_of_ne hp] at hmem
      exact .owned hmem
  | drop hpc =>
    rw [fOwned_go] at hmem
    simp only at hmem
    split at hmem
    · cases hmem
    · exact .owned hmem
  | pass | create | record | lose | destroy | remove | change => exact .owned hmem

theorem context_of_ran {ctx : Context ι} (hran : s.Ran i (s.calls i).client (s.calls i).pc o t) (hmem : ctx ∈ t.fTable k) :
    s.Claims ctx.owner k ctx.handle := by
  cases hran with
  | @record k' h' entries new hpc hh hc =>
    rw [fTable_go, fTable_setTable] at hmem
    by_cases hk : k = k'
    · subst hk
      rw [Function.update_self] at hmem
      rcases List.mem_append.mp hmem with hold | hnew
      · exact .context ctx hold rfl rfl
      · cases List.mem_singleton.mp hnew
        exact .call i hc.symm (by rw [hpc, hh]; rfl)
    · rw [Function.update_of_ne hk] at hmem
      exact .context ctx hmem rfl rfl
  | @remove k' h' pc' htarget' hhand hhand' =>
    rw [fTable_go, fTable_setTable] at hmem
    by_cases hk : k = k'
    · subst hk
      rw [Function.update_self] at hmem
      exact .context ctx (List.mem_of_mem_eraseP hmem) rfl rfl
    · rw [Function.update_of_ne hk] at hmem
      exact .context ctx hmem rfl rfl
  | @change k' h' f pc' htarget' hhand hf =>
    rw [fTable_go, fTable_setTable] at hmem
    by_cases hk : k = k'
    · subst hk
      rw [Function.update_self] at hmem
      -- the change leaves number and client of every context as they are
      have hpair : (ctx.owner,ctx.handle) ∈ (s.fTable k).map (fun ctx => (ctx.owner,ctx.handle)) := by
        rw [← map_modifyFirst (p := fun ctx => ctx.handle = h') (f := f) (fun ctx => by rw [(hf ctx).1, (hf ctx).2])]
        exact List.mem_map_of_mem hmem
      obtain ⟨old,hold,heq⟩ := List.mem_map.mp hpair
      exact .context old hold (Prod.mk.inj heq).1 (Prod.mk.inj heq).2
    · rw [Function.update_of_ne hk] at hmem
      exact .context ctx hmem rfl rfl
  | pass | create | add | lose | take | destroy | drop => exact .context ctx hmem rfl rfl

/-- A client comes to have to do with a number only when it is given to it. -/
theorem claims_run (hrun : s.run i o = some t) (hclaim : t.Claims c k h) :
    s.Claims c k h ∨ c = (s.calls i).client ∧ s.given o (s.calls i).pc = some (k,h) := by
  cases hclaim with
  | owned hmem => exact .inl (owned_of_ran (run_ran hrun) hmem)
  | call j hclient htarget =>
    rw [run_client hrun] at hclient
    by_cases hj : j = i
    · subst hj
      subst hclient
      rcases (run_edge hrun).target k h htarget with hold | hmem | hgiven
      · exact .inl (.call j rfl hold)
      · exact .inl (.owned hmem)
      · exact .inr ⟨rfl,hgiven⟩
    · rw [run_calls_of_ne hj hrun] at htarget
      exact .inl (.call j hclient htarget)
  | context ctx hmem howner hhandle =>
    subst howner
    subst hhandle
    exact .inl (context_of_ran (run_ran hrun) hmem)

omit [DecidableEq ι] in
theorem claims_begun {c' : ι} {req : Request} (hclaim : (s.begun i c' req).Claims c k h) : s.Claims c k h := by
  cases hclaim with
  | owned hmem => exact .owned hmem
  | call j hclient htarget =>
    simp only [begun] at hclient htarget
    by_cases hj : j = i
    · subst hj
      rw [Function.update_self] at htarget
      cases htarget.symm.trans (entry_idle s c' req).2.1
    · rw [Function.update_of_ne hj] at hclient htarget
      exact .call j hclient htarget
  | context ctx hmem howner hhandle => exact .context ctx hmem howner hhandle

/-- Numbers that are fresh keep the clients apart. -/
theorem Separate.step {a : Action τ ι} (hsep : s.Separate) (hfresh : Fresh s a) (hs : step s a = some t) :
    t.Separate := by
  rcases step_cases hs with ⟨i,c,req,kr,rfl,hpc,rfl⟩ | ⟨i,o,rfl,hrun⟩
  · exact fun k h c c' hc hc' => hsep k h c c' (claims_begun hc) (claims_begun hc')
  · intro k h c c' hc hc'
    rcases claims_run hrun hc with hc | ⟨rfl,hgiven⟩
    · rcases claims_run hrun hc' with hc' | ⟨rfl,hgiven⟩
      · exact hsep k h c c' hc hc'
      · exact hfresh k h hgiven c hc
    · rcases claims_run hrun hc' with hc' | ⟨rfl,-⟩
      · exact (hfresh k h hgiven c' hc').symm
      · rfl

/-! ## What a client does to the others -/

theorem others_ran (hsep : s.Separate) (hran : s.Ran i (s.calls i).client (s.calls i).pc o t)
    (hc : c ≠ (s.calls i).client) (k : Kind) :
    (t.fTable k).filter (fun ctx => ctx.owner = c) = (s.fTable k).filter (fun ctx => ctx.owner = c) := by
  cases hran with
  | @record k' h' entries new hpc hh hown =>
    rw [fTable_go, fTable_setTable]
    by_cases hk : k = k'
    · subst hk
      simp [List.filter_append, hown, Ne.symm hc]
    · rw [Function.update_of_ne hk]
  | @remove k' h' pc' htarget hhand hhand' =>
    rw [fTable_go, fTable_setTable]
    by_cases hk : k = k'
    · subst hk
      rw [Function.update_self]
      apply filter_eraseP
      intro ctx hfind
      simp [hsep.first htarget hfind, Ne.symm hc]
    · rw [Function.update_of_ne hk]
  | @change k' h' f pc' htarget hhand hf =>
    rw [fTable_go, fTable_setTable]
    by_cases hk : k = k'
    · subst hk
      rw [Function.update_self]
      apply filter_modifyFirst (fun ctx => by rw [(hf ctx).2])
      intro ctx hfind
      simp [hsep.first htarget hfind, Ne.symm hc]
    · rw [Function.update_of_ne hk]
  | pass | create | add | lose | take | destroy | drop => rfl

theorem refused_run (hnames : (s.calls i).pc.names = some (k,h)) (hmem : h ∉ s.fOwned ((s.calls i).client,k)) :
    s.run i o = some (s.go i (.returned .notPermitted)) := by
  have howns : s.owns (s.calls i).client k h = false := by simp [owns, hmem]
  unfold run
  cases hpc : (s.calls i).pc with
  | checkSend sendCq recvCq | checkRecv sendCq recvCq | checkUpdate n consumerIndex =>
    cases (congrArg Pc.names hpc).symm.trans hnames
    simp [howns]
  | take k n =>
    cases (congrArg Pc.names hpc).symm.trans hnames
    simp [State.take, howns]
  | takeModify req =>
    cases (congrArg Pc.names hpc).symm.trans hnames
    simp [takeModify, howns]
  | _ => cases (congrArg Pc.names hpc).symm.trans hnames

omit [DecidableEq τ] [DecidableEq ι] in
theorem entry_names (s : State τ ι) (c : ι) (req : Request) {x : Kind × ℕ} (hx : req.names = some x) :
    (s.entry c req).names = some x ∨ ∃ kr, kr ≠ .success ∧ s.entry c req = .returned kr := by
  cases req with
  | createQP req =>
    simp only [entry]
    split
    · exact .inr ⟨_,by simp,rfl⟩
    · exact .inl hx
  | updateCqConsumer cqHandle consumerIndex =>
    simp only [entry]
    split
    · exact .inr ⟨_,by simp,rfl⟩
    · exact .inl hx
  | modifyQP | destroyQP | destroyCQ | deregMR | destroyAH => exact .inl hx
  | createCQ | regMR | createAH | clientClose => cases hx

structure Ordered [Fintype τ] (s : State τ ι) : Prop where
  separate : s.Separate
  distinct : s.Distinct
  balanced : ∀ k, s.Balanced k

theorem reach_ordered [Fintype τ] {client : ι} (hr : Reach step Fresh (initial client) s) : s.Ordered := by
  induction hr with
  | start =>
    refine ⟨?_,initial_distinct client,initial_balanced client⟩
    intro k h c c' hc
    cases hc with
    | owned hmem | context _ hmem => cases hmem
    | call i _ htarget => cases htarget
  | next hr hm hs ih =>
    exact ⟨ih.separate.step hm hs,ih.distinct.step hs,
      fun k => (ih.balanced k).step ih.distinct (fun _ => ih.separate.ownFirst) hs⟩

theorem Ordered.isolated [Fintype τ] (hs : s.Ordered) : s.Isolated where
  owned c k h hmem := mem_of_owned (hs.balanced k) hmem
  disjoint c c' k h hmem hmem' := hs.separate k h c c' (.owned hmem) (.owned hmem')
  looks c req x hx := entry_names s c req hx
  refused i o k h hnames hmem := refused_run hnames hmem
  others a t hstep c hc k := by
    rcases step_cases hstep with ⟨i,c',req,kr,rfl,hpc,rfl⟩ | ⟨i,o,rfl,hrun⟩
    · rfl
    · exact others_ran hs.separate (run_ran hrun) hc k

omit [DecidableEq τ] [DecidableEq ι] in
theorem Distinct.owner_unique {c' : ι} (hd : s.Distinct) (hk : k ≠ .ah)
    (hmem : (c,h) ∈ s.objects k) (hmem' : (c',h) ∈ s.objects k) :
    c = c' := by
  obtain ⟨ob,hfind,rfl,-⟩ := hd.find hk hmem
  obtain ⟨ob',hfind',rfl,-⟩ := hd.find hk hmem'
  cases hfind.symm.trans hfind'
  rfl

/-- The clients are isolated from each other as long as no number is given to a client while another one still has
to do with it. That a table of QPs, CQs or regions holds what the client has created, and shares nothing with
that of another client, is so in every run. -/
theorem isolated_run (τ ι : Type) [DecidableEq τ] [DecidableEq ι] [Fintype τ] (client : ι) :
    (∀ s : State τ ι, Reach step Fresh (initial client) s → s.Isolated) ∧
    ∀ s : State τ ι, Reach step Free (initial client) s → ∀ k, k ≠ .ah →
      (∀ c h, h ∈ s.fOwned (c,k) → (c,h) ∈ s.objects k) ∧
        ∀ c c' h, h ∈ s.fOwned (c,k) → h ∈ s.fOwned (c',k) → c = c' := by
  constructor
  · exact fun s hr => (reach_ordered hr).isolated
  · intro s hr k hk
    have hs := reach_accounted hr
    have howned : ∀ c h, h ∈ s.fOwned (c,k) → (c,h) ∈ s.objects k :=
      fun c h hmem => mem_of_owned (hs.balanced k hk) hmem
    exact ⟨howned,fun c c' h hmem hmem' => hs.distinct.owner_unique hk (howned c h hmem) (howned c' h hmem')⟩

/-- The number of a CQ is given to the second client once the first has removed the context. -/
theorem isolated_run_reissued : ∃ s : State Bool Bool, Reach step Fresh (initial false) s ∧
    s.fOwned (false,.cq) = [6] ∧ s.fOwned (true,.cq) = [5] ∧ s.Isolated := by
  have hr : Reach step Fresh (initial false : State Bool Bool) _ := reach_of_allMeet
    [.begin false false (.createCQ 64),.run false (.number 5 0),.run false .done,.run false .done,.run false .done,
      .begin false false (.destroyCQ 5),.run false .done,.run false .done,.run false .done,
      .begin true true (.createCQ 64),.run false .done,.run true (.number 5 0),.run false .done,.run true .done,
      .begin false false (.createCQ 64),.run false (.number 6 0),.run true .done,.run true .done,
      .run false .done,.run false .done,.run false .done] .start (by decide) rfl
  exact ⟨_,hr,rfl,rfl,(isolated_run Bool Bool false).1 _ hr⟩

/-- The firmware gives the number of a CQ again before its first client has removed the context; the second client
destroys its own CQ, and removes the context of the first. -/
theorem context_of_other_removed : ¬ ∀ s : State Bool Bool, Reach step Free (initial false) s → s.Isolated := by
  intro h
  have hr : Reach step Free (initial false : State Bool Bool) _ := reach_of_after
    [.begin false false (.createCQ 64),.run false (.number 5 0),.run false .done,.run false .done,.run false .done,
      .begin false false (.destroyCQ 5),.run false .done,.run false .done,.run false .done,
      .begin true true (.createCQ 64),.run true (.number 5 0),.run true .done,.run true .done,.run true .done,
      .begin true true (.destroyCQ 5),.run true .done,.run true .done,.run true .done] .start rfl
  have hothers := (h _ hr).others (.run true .done) _ rfl false (by decide) .cq
  revert hothers
  decide

end State

end AppleMCX.UserClient
