import AppleMCX.Ib.Verbs

/-! # Lifetime of the memory of verbs objects

The tables register the memory of the objects that exist: it is released only after a
successful destroy, or together with a creation that failed. This fails where a creation
times out, and where `MlxCQ` releases the memory of a queue that it could not destroy.
-/
namespace AppleMCX.Verbs
open Interaction Prog Custody

abbrev Safe (s : State) : Prop := s.dma.Safe

/-- No creation times out, and `MlxCQ` destroys the queues whose memory it releases. -/
def Met (_ : State) : (q : Question) → Answer q → Prop
  | .exec caller op _ _, reply =>
    (creates op ≠ none → (reply : Reply).kr ≠ .timeout) ∧
    (op = .destroyCq → caller ≠ .destroy → (reply : Reply).kr = .success)
  | _, _ => True

def metEnv : Env State Question Answer := env.restrict Met

/-- `MlxCQ::free` has nothing to destroy, or its commands are submitted. -/
def MetEnabled (o : Operation) (s : State) : Prop :=
  o.Enabled s ∧ (o = .freeCQ → s.records .cq = [] ∨ s.fUp = true ∧ s.fQuarantined = false)

abbrev Held (s : State) : Prop := Registered ObjKind.index s.records s.dma

/-- Acquired, and of no object and no table. -/
def Loose (s : State) (refs : List (Field × ℕ)) : Prop := ∀ r ∈ refs, r ∈ s.dma.live ∧ Unclaimed s.records s.dma r

variable {α β : Type} {s t : State} {dma : Dma} {op : Opcode} {caller : Caller} {kind : ObjKind} {n handle : ℕ}
  {refs refs' : List (Field × ℕ)} {T : ObjKind → List Context}

theorem Loose.mono (h : Loose s refs) (hsub : ∀ r ∈ refs', r ∈ refs) : Loose s refs' := fun r hr => h r (hsub r hr)

theorem loose_nil (s : State) : Loose s [] := by
  intro r hr
  cases hr

theorem Loose.unclaimed (h : Loose s refs) : ∀ r ∈ refs, Unclaimed s.records s.dma r := fun r hr => (h r hr).2

/-! ## Single steps -/

section Steps
variable {R : β → State → Prop}

theorem always_ask {q : Question} {g : Answer q → Ib β} (h : Safe s) (hq : ∀ a, effect s q a = s)
    (hg : ∀ a, Always metEnv Safe (g a) R s) : Always metEnv Safe ((Prog.query q).bind g) R s := by
  refine ⟨h,fun a _ => ?_⟩
  have he : metEnv.effect s q a = s := hq a
  rw [he]
  exact hg a

theorem always_acquire {f : Field} {g : ℕ → Ib β} (h : Held s) (hl : Loose s refs)
    (hg : ∀ k t, Held t → Loose t ((f,k) :: refs) → Always metEnv Safe (g k) R t) :
    Always metEnv Safe ((acquire f).bind g) R s := by
  refine ⟨h.safe,hg _ _ (h.acquire f) (fun r hr => ?_)⟩
  rcases List.mem_cons.mp hr with rfl | hr
  · exact ⟨List.mem_cons_self,h.acquired f⟩
  · exact ⟨List.mem_cons_of_mem _ (hl r hr).1,(hl r hr).2.acquire f⟩

theorem always_exec {R : Reply → State → Prop} (h : Safe s)
    (hskip : (s.fUp = true → s.fQuarantined = false → False) → R ⟨.notReady,0⟩ s)
    (hask : ∀ reply, s.fUp = true → (s.fQuarantined = true → op.exempt = true) → Met s (.exec caller op n refs) reply →
      Safe (effect s (.exec caller op n refs) reply) ∧ R reply (effect s (.exec caller op n refs) reply)) :
    Always metEnv Safe (exec caller op n refs) R s := by
  unfold exec
  simp only [bind_eq, pure_eq]
  refine always_bind.mpr ⟨h,always_ite.mpr
    ⟨fun hc => ⟨h,hskip (fun hup hq => ?_)⟩,fun hc => ⟨h,fun reply hm => ?_⟩⟩⟩
  · simp [hup, hq] at hc
  · have hsubmitted : s.fUp = true ∧ (s.fQuarantined = true → op.exempt = true) := by simpa using hc
    exact hask reply hsubmitted.1 hsubmitted.2 hm.2

end Steps

/-! ## Releasing -/

theorem releaseAll_registered (h : Registered ObjKind.index T s.dma) (hr : ∀ r ∈ refs, Unclaimed T s.dma r) :
    Always metEnv Safe (releaseAll refs) (fun _ t => Registered ObjKind.index T t.dma ∧ t = { s with dma := t.dma } ∧
      ∀ x, Unclaimed T s.dma x → Unclaimed T t.dma x) s := by
  induction refs generalizing s with
  | nil => exact ⟨h.safe,h,rfl,fun _ hx => hx⟩
  | cons r refs ih =>
    have hkept : Registered ObjKind.index T (s.dma.release r) := h.release (hr r List.mem_cons_self)
    have hrest : ∀ x ∈ refs, Unclaimed T (s.dma.release r) x :=
      fun x hx => (hr x (List.mem_cons_of_mem r hx)).release r
    refine ⟨h.safe,(ih hkept hrest).mono ?_⟩
    rintro _ t - ⟨ht,hsame,hother⟩
    exact ⟨ht,hsame,fun x hx => hother x (hx.release r)⟩

theorem records_of_table (h : t.table = s.table) : t.records = s.records := by
  funext kind
  rw [State.records, h]
  rfl

/-- What is held stays held when the tables stay what they are. -/
theorem held_of_registered (h : Registered ObjKind.index s.records t.dma) (ht : t.table = s.table) : Held t := by
  rw [Held, records_of_table ht]
  exact h

theorem releaseAll_held (h : Held s) (hr : ∀ r ∈ refs, Unclaimed s.records s.dma r) :
    Always metEnv Safe (releaseAll refs) (fun _ t => Held t) s := by
  refine (releaseAll_registered h hr).mono ?_
  rintro _ t - ⟨ht,hsame,-⟩
  exact held_of_registered ht (by rw [hsame])

theorem unwind_held (kr : IOReturn) (h : Held s) (hr : ∀ r ∈ refs, Unclaimed s.records s.dma r) :
    Always metEnv Safe (unwind refs kr) (fun _ t => Held t) s :=
  Always.bind (releaseAll_held h hr) (fun _ _ hsafe ht => ⟨hsafe,ht⟩)

/-! ## Destroying -/

def without (T : ObjKind → List Context) (kind : ObjKind) (handle : ℕ) : ObjKind → List Context :=
  Function.update T kind (Record.removeHandle handle (T kind))

theorem without_sublist (kind : ObjKind) (handle : ℕ) (k : ObjKind) : List.Sublist (without T kind handle k) (T k) :=
  sublist_update List.eraseP_sublist k

theorem setTable_records (t : List Context) :
    (setTable kind (some t) s).records = Function.update s.records kind t := by
  funext k
  by_cases hk : k = kind
  · subst hk
    simp [setTable, State.records]
  · simp [setTable, State.records, Function.update_of_ne hk]

theorem releaseContext_held (handle : ℕ) (h : Registered ObjKind.index s.records s.dma)
    (hgone : ∀ T' r, Claimed T' s.dma kind (kind.index handle) r → Unclaimed T' s.dma r) :
    Always metEnv Safe (releaseContext kind handle) (fun _ t => Held t ∧ t.fUp = s.fUp ∧ t.fQuarantined = s.fQuarantined ∧
      ∀ x, Unclaimed s.records s.dma x → Unclaimed t.records t.dma x) s := by
  unfold releaseContext
  simp only [bind_eq]
  refine always_bind.mpr ⟨h.safe,?_⟩
  beta_reduce
  split
  · exact ⟨h.safe,h,rfl,rfl,fun _ hx => hx⟩
  · rename_i ctx hfind
    obtain ⟨hkept,hclaimed⟩ := h.removed hfind
    have hfree : ∀ r ∈ ctx.refs, Unclaimed (without s.records kind handle) s.dma r :=
      fun r hr => hgone _ r (hclaimed r hr)
    refine Always.bind (releaseAll_registered hkept hfree) ?_
    rintro _ t hsafe ⟨ht,hsame,hother⟩
    have hrecords : t.records = s.records := by
      rw [hsame]
      rfl
    refine ⟨hsafe,hsafe,?_,by rw [hsame]; rfl,by rw [hsame]; rfl,fun x hx => ?_⟩
    · rw [Held, setTable_records, hrecords]
      exact ht
    · rw [setTable_records, hrecords]
      exact hother x (hx.fewer (without_sublist kind handle))

/-- What a command that destroys objects does to the state. -/
structure Destroyed (kind : ObjKind) (handle : ℕ) (s : State) (kr : IOReturn) (t : State) : Prop where
  table : t.table = s.table
  fUp : t.fUp = s.fUp
  quarantined : kr = .success → t.fQuarantined = s.fQuarantined
  done : kr = .success → t.dma = s.dma.destroy kind (kind.index handle)
  refused : kr ≠ .success → t.dma = s.dma

theorem cmdDestroy_spec (hc : creates op = none) (hd : destroys op = some kind) (h : Held s) :
    Always metEnv Safe (cmdDestroy kind op caller handle) (fun kr t => Held t ∧ Destroyed kind handle s kr t ∧
      (op = .destroyCq → caller ≠ .destroy → s.fUp = true → s.fQuarantined = false → kr = .success)) s := by
  refine Always.bind (always_exec (R := fun reply t => Destroyed kind handle s reply.kr t ∧
      (op = .destroyCq → caller ≠ .destroy → s.fUp = true → s.fQuarantined = false → reply.kr = .success))
      h.safe ?_ ?_) ?_
  · intro hup
    refine ⟨⟨rfl,rfl,fun _ => rfl,fun hk => ?_,fun _ => rfl⟩,fun _ _ h₁ h₂ => (hup h₁ h₂).elim⟩
    cases hk
  · intro reply _ _ hmet
    have hdma : (effect s (.exec caller op (kind.index handle) []) reply).dma =
        if reply.kr = .success then s.dma.destroy kind (kind.index handle) else s.dma := by
      simp [effect, fwEffect, hc, hd]
    refine ⟨?_,⟨rfl,rfl,fun hk => ?_,fun hk => ?_,fun hk => ?_⟩,fun ho hcaller _ _ => hmet.2 ho hcaller⟩
    · rw [Safe, hdma]
      split
      · exact (h.destroy kind _).safe
      · exact h.safe
    · simp [effect, hk]
    · rw [hdma, if_pos hk]
    · rw [hdma, if_neg hk]
  · rintro reply t hsafe ⟨hdes,hmet⟩
    refine ⟨hsafe,held_of_registered ?_ hdes.table,hdes,hmet⟩
    by_cases hk : reply.kr = .success
    · rw [hdes.done hk]
      exact h.destroy kind _
    · rw [hdes.refused hk]
      exact h

/-- After a successful destroy, nothing refers to what the object could refer to. -/
def Destroys (kind : ObjKind) (destroy : Caller → ℕ → Ib IOReturn) : Prop := ∀ caller handle s, Held s →
  Always metEnv Safe (destroy caller handle) (fun kr t => Held t ∧
    (kr = .success → ∀ r, Claimed s.records s.dma kind (kind.index handle) r → Unclaimed t.records t.dma r)) s

theorem Destroyed.unclaimed {kr : IOReturn} (h : Destroyed kind handle s kr t) (hk : kr = .success)
    {r : Field × ℕ} (hr : Claimed T s.dma kind (kind.index handle) r) : Unclaimed T t.dma r := by
  rw [h.done hk]
  exact hr.destroyed

theorem cmdDestroy_destroys (hc : creates op = none) (hd : destroys op = some kind) :
    Destroys kind (cmdDestroy kind op) := by
  intro caller handle s h
  refine (cmdDestroy_spec hc hd h).mono ?_
  rintro kr t - ⟨ht,hdes,-⟩
  refine ⟨ht,fun hk r hr => ?_⟩
  rw [records_of_table hdes.table]
  exact hdes.unclaimed hk hr

theorem destroyObject_spec (hc : creates op = none) (hd : destroys op = some kind) (h : Held s) :
    Always metEnv Safe (destroyObject kind op caller handle) (fun kr t => Held t ∧ t.fUp = s.fUp ∧
      (kr = .success → t.fQuarantined = s.fQuarantined ∧
        ∀ r, Claimed s.records s.dma kind (kind.index handle) r → Unclaimed t.records t.dma r) ∧
      (op = .destroyCq → caller ≠ .destroy → s.fUp = true → s.fQuarantined = false → kr = .success)) s := by
  refine Always.bind (cmdDestroy_spec hc hd h) ?_
  rintro kr t hsafe ⟨ht,hdes,hmet⟩
  by_cases hk : kr = .success
  · rw [if_pos hk]
    have hgone : ∀ T' r, Claimed T' t.dma kind (kind.index handle) r → Unclaimed T' t.dma r := by
      intro T' r hr
      have hnone : t.dma.destroy kind (kind.index handle) = t.dma := by
        rw [hdes.done hk]
        simp [Custody.destroy]
      rw [← hnone]
      exact hr.destroyed
    refine Always.bind (releaseContext_held handle ht hgone) ?_
    rintro _ u hsafe ⟨hu,hup,hq,hother⟩
    refine ⟨hsafe,hu,hup.trans hdes.fUp,fun _ => ⟨hq.trans (hdes.quarantined hk),fun r hr => hother r ?_⟩,
      fun _ _ _ _ => rfl⟩
    rw [records_of_table hdes.table]
    exact hdes.unclaimed hk hr
  · rw [if_neg hk]
    exact ⟨hsafe,ht,hdes.fUp,fun h => absurd h hk,hmet⟩

theorem destroyObject_destroys (hc : creates op = none) (hd : destroys op = some kind) :
    Destroys kind (destroyObject kind op) := by
  intro caller handle s h
  refine (destroyObject_spec hc hd h).mono ?_
  rintro kr t - ⟨ht,-,hgone,-⟩
  exact ⟨ht,fun hk => (hgone hk).2⟩

/-! ## Creating -/

/-- The memory that a creation has named belongs to its object. -/
def Owned (s : State) (kind : ObjKind) (n : ℕ) (refs : List (Field × ℕ)) : Prop :=
  ∀ r ∈ refs, r ∈ s.dma.live ∧ Claimed s.records s.dma kind n r

/-- A creation that succeeds was submitted, and the next command will be. -/
theorem exec_create (hc : creates op = some kind) (h : Held s) (hl : Loose s refs) :
    Always metEnv Safe (exec caller op n refs) (fun reply t => Held t ∧ (reply.kr ≠ .success → Loose t refs) ∧
      (reply.kr = .success → Owned t kind reply.number.toNat refs ∧ t.fUp = true ∧ t.fQuarantined = false)) s := by
  refine always_exec h.safe (fun _ => ⟨h,fun _ => hl,fun hk => (by cases hk)⟩) (fun reply hup hexempt hmet => ?_)
  have hexec : op.exempt = false := by
    cases op <;> first | rfl | cases hc
  have hq : s.fQuarantined = false := by
    rw [hexec] at hexempt
    simpa using hexempt
  have hdma : (effect s (.exec caller op n refs) reply).dma =
      if reply.kr = .success then s.dma.create ⟨kind,some reply.number.toNat,refs⟩ else s.dma := by
    have hnot : reply.kr ≠ .timeout := hmet.1 (by rw [hc]; exact Option.some_ne_none kind)
    simp [effect, fwEffect, hc, hnot]
  have hrecords : (effect s (.exec caller op n refs) reply).records = s.records := rfl
  by_cases hk : reply.kr = .success
  · rw [if_pos hk] at hdma
    have hcreated : Registered ObjKind.index s.records (s.dma.create ⟨kind,some reply.number.toNat,refs⟩) :=
      h.create (fun r hr => (hl r hr).1) hl.unclaimed
    have hquiet : (effect s (.exec caller op n refs) reply).fQuarantined = false := by simp [effect, hq, hk]
    rw [Safe, Held, Owned, hrecords, hdma]
    exact ⟨hcreated.safe,hcreated,fun hne => absurd hk hne,
      fun _ => ⟨fun r hr => ⟨(hl r hr).1,(hl r hr).2.created⟩,hup,hquiet⟩⟩
  · rw [if_neg hk] at hdma
    rw [Safe, Held, Loose, hrecords, hdma]
    exact ⟨h.safe,h,fun _ => hl,fun heq => absurd heq hk⟩

theorem addContext_held (h : Held s) (hown : Owned s kind (kind.index handle) refs) :
    Held (setTable kind (some (s.records kind ++ [⟨handle,refs⟩])) s) := by
  rw [Held, setTable_records]
  exact h.insert (fun r hr => (hown r hr).1) (fun r hr => (hown r hr).2)

theorem abandon_held {destroy : Caller → ℕ → Ib IOReturn} (hd : Destroys kind destroy) (h : Held s)
    (hown : Owned s kind (kind.index handle) refs) :
    Always metEnv Safe ((destroy caller handle).bind (fun kr => abandon kr refs)) (fun _ t => Held t) s := by
  refine Always.bind (hd caller handle s h) ?_
  rintro kr t hsafe ⟨ht,hgone⟩
  unfold abandon
  by_cases hk : kr = .success
  · rw [if_pos hk]
    exact unwind_held .noMemory ht (fun r hr => hgone hk r (hown r hr).2)
  · rw [if_neg hk]
    exact ⟨hsafe,ht⟩

theorem recordObject_held {destroy : Caller → ℕ → Ib IOReturn} (hd : Destroys kind destroy) (h : Held s)
    (hown : Owned s kind (kind.index handle) refs) :
    Always metEnv Safe (recordObject kind destroy handle refs) (fun _ t => Held t) s := by
  have habandon : Always metEnv Safe ((destroy .create handle).bind (fun kr => abandon kr refs)) (fun _ t => Held t) s :=
    abandon_held hd h hown
  unfold recordObject
  refine always_ask h.safe (fun _ => rfl) (fun ctx => always_ite.mpr ⟨fun _ => habandon,fun _ => ?_⟩)
  refine always_ask h.safe (fun _ => rfl) (fun record => always_ite.mpr ⟨fun _ => habandon,fun _ => ?_⟩)
  refine always_ask h.safe (fun _ => rfl) (fun added => always_ite.mpr ⟨fun _ => habandon,fun _ => ?_⟩)
  have hadded := addContext_held h hown
  exact ⟨h.safe,hadded.safe,hadded⟩

theorem index_qp (number : BitVec 24) : ObjKind.index .qp number.toNat = number.toNat := Nat.mod_eq_of_lt number.isLt

theorem index_cq (number : BitVec 24) : ObjKind.index .cq number.toNat = number.toNat := Nat.mod_eq_of_lt number.isLt

theorem index_mkey (number : BitVec 24) (variant : BitVec 8) :
    ObjKind.index .mkey (mlxComposeMkey number variant) = number.toNat := mlxMkeyIndex_compose number variant

theorem pinRing_held {f : Field} {bufAddr : BitVec 64} {size : BitVec 32} (h : Held s) (hl : Loose s refs) :
    Always metEnv Safe (pinRing f bufAddr size) (fun req t => Held t ∧ Loose t refs ∧
      ∀ r, req = some r → Loose t (r.memDesc.toList.map (fun k => (f,k)) ++ refs)) s := by
  unfold pinRing
  refine always_ite.mpr ⟨fun _ => ?_,fun _ => ⟨h.safe,h,hl,fun r hr => ?_⟩⟩
  · unfold pinUserMemory
    refine always_ask h.safe (fun _ => rfl) (fun segs => ?_)
    cases segs with
    | none =>
      refine ⟨h.safe,h,hl,fun r hr => ?_⟩
      cases hr
    | some numSegs =>
      refine always_acquire h hl (fun k t ht hk =>
        ⟨ht.safe,ht,hk.mono (fun r hr => List.mem_cons_of_mem _ hr),fun r hr => ?_⟩)
      cases hr
      exact hk
  · cases hr
    exact hl

theorem createQP_held (req : CreateQpReq) (h : Held s) : Always metEnv Safe (createQP req) (fun _ t => Held t) s := by
  unfold createQP
  simp only [bind_eq]
  refine always_ite.mpr ⟨fun _ => ⟨h.safe,h⟩,fun _ => always_ite.mpr ⟨fun _ => ⟨h.safe,h⟩,fun _ => ?_⟩⟩
  refine always_ask h.safe (fun _ => rfl) (fun kr => always_ite.mpr ⟨fun _ => ⟨h.safe,h⟩,fun _ => ?_⟩)
  refine always_acquire h (loose_nil s) (fun db t₁ h₁ hl₁ => ?_)
  refine Always.bind (pinRing_held h₁ hl₁) ?_
  rintro sq t₂ - ⟨h₂,hl₂,hsq⟩
  cases sq with
  | none => exact unwind_held _ h₂ hl₂.unclaimed
  | some sqReq =>
    have hsqReq := hsq sqReq rfl
    refine Always.bind (pinRing_held h₂ hsqReq) ?_
    rintro rq t₃ - ⟨h₃,hl₃,hrq⟩
    cases rq with
    | none =>
      refine unwind_held _ h₃ (hl₃.mono (fun r hr => ?_)).unclaimed
      simpa [qpMemory] using hr
    | some rqReq =>
      have hmemory : Loose t₃ (qpMemory sqReq rqReq db) := by
        refine (hrq rqReq rfl).mono (fun r hr => ?_)
        simp only [qpMemory, List.mem_append] at hr ⊢
        tauto
      refine always_ite.mpr ⟨fun _ => unwind_held _ h₃ hmemory.unclaimed,fun _ => ?_⟩
      refine Always.bind (exec_create (show creates .createQp = some .qp from rfl) h₃ hmemory) ?_
      rintro reply t₄ - ⟨h₄,hfailed,hcreated⟩
      refine always_ite.mpr ⟨fun hk => unwind_held _ h₄ (hfailed hk).unclaimed,fun hk => ?_⟩
      refine recordObject_held (destroyObject_destroys rfl rfl) h₄ ?_
      rw [index_qp]
      exact (hcreated (not_not.mp hk)).1

/-- The queue is destroyed, since its creation has just been submitted. -/
theorem discardCQ_held {cqn : ℕ} (h : Held s) (hown : Owned s .cq (ObjKind.index .cq cqn) refs) (hup : s.fUp = true)
    (hq : s.fQuarantined = false) : Always metEnv Safe (discardCQ cqn refs) (fun _ t => Held t) s := by
  refine Always.bind (cmdDestroy_spec rfl (show destroys .destroyCq = some .cq from rfl) h) ?_
  rintro kr t - ⟨ht,hdes,hmet⟩
  have hk : kr = .success := hmet rfl (by decide) hup hq
  refine unwind_held _ ht (fun r hr => ?_)
  rw [records_of_table hdes.table]
  exact hdes.unclaimed hk (hown r hr).2

theorem createCQ_held (entries : BitVec 32) (h : Held s) :
    Always metEnv Safe (createCQ entries) (fun _ t => Held t) s := by
  unfold createCQ
  simp only [bind_eq]
  refine always_ite.mpr ⟨fun _ => ⟨h.safe,h⟩,fun _ => ?_⟩
  refine always_ask h.safe (fun _ => rfl) (fun cq => always_ite.mpr ⟨fun _ => ⟨h.safe,h⟩,fun _ => ?_⟩)
  refine always_ask h.safe (fun _ => rfl) (fun kr => always_ite.mpr ⟨fun _ => ⟨h.safe,h⟩,fun _ => ?_⟩)
  refine always_acquire h (loose_nil s) (fun db t₁ h₁ hl₁ => ?_)
  refine always_ask h₁.safe (fun _ => rfl)
    (fun buf => always_ite.mpr ⟨fun _ => unwind_held _ h₁ hl₁.unclaimed,fun _ => ?_⟩)
  refine always_acquire h₁ hl₁ (fun desc t₂ h₂ hl₂ => ?_)
  refine always_ask h₂.safe (fun _ => rfl)
    (fun mapped => always_ite.mpr ⟨fun _ => unwind_held _ h₂ hl₂.unclaimed,fun _ => ?_⟩)
  refine always_acquire h₂ hl₂ (fun map t₃ h₃ hl₃ => ?_)
  have hunwound : ∀ r ∈ cqUnwound desc map db, r ∈ cqMemory desc map db := by simp [cqUnwound, cqMemory]
  have hmemory : Loose t₃ (cqMemory desc map db) := hl₃.mono (by simp [cqMemory])
  refine always_ask h₃.safe (fun _ => rfl) (fun pages => always_ite.mpr ⟨fun _ => ?_,fun _ => ?_⟩)
  · exact unwind_held _ h₃ (hmemory.mono hunwound).unclaimed
  refine Always.bind (exec_create (show creates .createCq = some .cq from rfl) h₃ hmemory) ?_
  rintro reply t₄ - ⟨h₄,hfailed,hcreated⟩
  refine always_ite.mpr ⟨fun hk => unwind_held _ h₄ ((hfailed hk).mono hunwound).unclaimed,fun hk => ?_⟩
  obtain ⟨hown,hup,hq⟩ := hcreated (not_not.mp hk)
  rw [← index_cq] at hown
  have hdiscard := discardCQ_held h₄ (fun r hr => hown r (hunwound r hr)) hup hq
  refine always_ask h₄.safe (fun _ => rfl) (fun record => always_ite.mpr ⟨fun _ => hdiscard,fun _ => ?_⟩)
  refine always_ask h₄.safe (fun _ => rfl) (fun added => always_ite.mpr ⟨fun _ => hdiscard,fun _ => ?_⟩)
  have hadded := addContext_held h₄ hown
  exact ⟨h₄.safe,hadded.safe,hadded⟩

/-- The outcome of `cmdCreateMKey`. -/
def Keyed (refs : List (Field × ℕ)) (created : IOReturn × ℕ) (t : State) : Prop :=
  Held t ∧ (created.1 ≠ .success → Loose t refs) ∧
    (created.1 = .success → Owned t .mkey (ObjKind.index .mkey created.2) refs)

theorem keyed_failed {kr : IOReturn} (h : Held s) (hl : Loose s refs) (hk : kr ≠ .success) :
    Always metEnv Safe (.done (kr,0)) (Keyed refs) s := ⟨h.safe,h,fun _ => hl,fun hs => absurd hs hk⟩

theorem cmdCreateMKey_keyed (h : Held s) (hl : Loose s refs) :
    Always metEnv Safe (cmdCreateMKey refs) (Keyed refs) s := by
  unfold cmdCreateMKey
  simp only [bind_eq]
  refine always_ask h.safe (fun _ => rfl) (fun ok => always_ite.mpr ⟨fun _ => keyed_failed h hl (by decide),fun _ => ?_⟩)
  have hvariant : Always metEnv Safe nextVariant (fun _ t => Held t ∧ Loose t refs) s := ⟨h.safe,h.safe,h,hl⟩
  refine Always.bind hvariant ?_
  rintro variant t - ⟨ht,hlt⟩
  refine always_ask ht.safe (fun _ => rfl)
    (fun encoded => always_ite.mpr ⟨fun _ => keyed_failed ht hlt (by decide),fun _ => ?_⟩)
  refine Always.bind (exec_create (show creates .createMkey = some .mkey from rfl) ht hlt) ?_
  rintro reply u hsafe ⟨hu,hfailed,hcreated⟩
  refine always_ite.mpr ⟨fun hk => keyed_failed hu (hfailed hk) hk,fun hk => ?_⟩
  refine ⟨hsafe,hu,fun hne => absurd rfl hne,fun _ => ?_⟩
  rw [index_mkey]
  exact (hcreated (not_not.mp hk)).1

theorem regMR_held (req : RegMrReq) (h : Held s) : Always metEnv Safe (regMR req) (fun _ t => Held t) s := by
  unfold regMR
  simp only [bind_eq]
  refine always_ite.mpr ⟨fun _ => ⟨h.safe,h⟩,fun _ => ?_⟩
  refine always_ask h.safe (fun _ => rfl) (fun ok => always_ite.mpr ⟨fun _ => ⟨h.safe,h⟩,fun _ => ?_⟩)
  refine always_acquire h (loose_nil s) (fun mem t₁ h₁ hl₁ => ?_)
  refine always_ask h₁.safe (fun _ => rfl)
    (fun paList => always_ite.mpr ⟨fun _ => unwind_held _ h₁ hl₁.unclaimed,fun _ => ?_⟩)
  refine always_ask h₁.safe (fun _ => rfl)
    (fun kr => always_ite.mpr ⟨fun _ => unwind_held _ h₁ hl₁.unclaimed,fun _ => ?_⟩)
  refine always_acquire h₁ hl₁ (fun dmaCommand t₂ h₂ hl₂ => ?_)
  refine Always.bind (cmdCreateMKey_keyed h₂ hl₂) ?_
  rintro created t₃ - ⟨h₃,hfailed,hcreated⟩
  refine always_ite.mpr ⟨fun hk => unwind_held _ h₃ (hfailed hk).unclaimed,fun hk => ?_⟩
  exact recordObject_held (cmdDestroy_destroys rfl rfl) h₃ (hcreated (not_not.mp hk))

/-! ## Freeing a manager -/

theorem setTable_held (t : List Context) (h : Held s) (hsub : List.Sublist t (s.records kind)) :
    Held (setTable kind (some t) s) := by
  rw [Held, setTable_records]
  exact h.fewer (sublist_update hsub)

/-- The loop, from what is done with a context whose object has not been destroyed. -/
theorem freeLoop_held {P : State → Prop} {destroy : Caller → ℕ → Ib IOReturn} {unverified : Context → Ib Unit}
    (hbody : ∀ s ctx, Held s → P s → Always metEnv Safe (destroyed destroy ctx.handle) (fun ok t => Held t ∧ P t ∧
      (ok = false → Always metEnv Safe (unverified ctx) (fun _ u => Held u ∧ P u) t)) s)
    (hP : ∀ s t, P s → P (setTable kind t s)) (n : ℕ) (h : Held s) (hp : P s) :
    Always metEnv Safe (freeLoop kind destroy unverified n) (fun _ t => Held t) s := by
  induction n generalizing s with
  | zero => exact ⟨h.safe,h⟩
  | succ n ih =>
    unfold freeLoop
    simp only [bind_eq]
    refine always_bind.mpr ⟨h.safe,?_⟩
    beta_reduce
    split
    · exact ⟨h.safe,h⟩
    · rename_i ctx rest _
      refine Always.bind (hbody s ctx h hp) ?_
      rintro ok t - ⟨ht,hpt,hnot⟩
      refine always_ite.mpr ⟨fun _ => ih ht hpt,fun hok => ?_⟩
      refine Always.bind (hnot (Bool.eq_false_of_not_eq_true hok)) ?_
      rintro _ u hsafe ⟨hu,hpu⟩
      exact ⟨hsafe,ih (setTable_held _ hu (List.tail_sublist _)) (hP _ _ hpu)⟩

theorem setTable_none_held (h : Held s) : Held (setTable kind none s) := by
  have hrecords : (setTable kind none s).records = Function.update s.records kind [] := by
    funext k
    by_cases hk : k = kind
    · subst hk
      simp [setTable, State.records]
    · simp [setTable, State.records, Function.update_of_ne hk]
  rw [Held, hrecords]
  exact h.fewer (sublist_update (List.nil_sublist _))

/-- `MlxQP::free` and `MlxMR::free` -/
theorem freeTable_held {destroy : Caller → ℕ → Ib IOReturn} (hd : Destroys kind destroy) (h : Held s) :
    Always metEnv Safe (freeTable kind destroy (fun _ => pure ())) (fun _ t => Held t) s := by
  have hbody : ∀ (s : State) (ctx : Context), Held s → True → Always metEnv Safe (destroyed destroy ctx.handle)
      (fun ok t => Held t ∧ True ∧ (ok = false →
        Always metEnv Safe (.done () : Ib Unit) (fun _ u => Held u ∧ True) t)) s := by
    intro s ctx h _
    refine always_bind.mpr ⟨h.safe,always_ite.mpr
      ⟨fun _ => ?_,fun _ => ⟨h.safe,h,trivial,fun _ => ⟨h.safe,h,trivial⟩⟩⟩⟩
    refine Always.bind (hd .free ctx.handle s h) ?_
    rintro kr t hsafe ⟨ht,-⟩
    exact ⟨hsafe,ht,trivial,fun _ => ⟨hsafe,ht,trivial⟩⟩
  unfold freeTable
  refine always_bind.mpr ⟨h.safe,?_⟩
  refine Always.bind (freeLoop_held (P := fun _ => True) hbody (fun _ _ _ => trivial) _ h trivial) ?_
  exact fun _ t hsafe ht => ⟨hsafe,(setTable_none_held ht).safe,setTable_none_held ht⟩

/-- Every queue that is left is destroyed. -/
theorem freeCQ_held (h : Held s) (hmet : s.records .cq = [] ∨ s.fUp = true ∧ s.fQuarantined = false) :
    Always metEnv Safe freeCQ (fun _ t => Held t) s := by
  unfold freeCQ freeTable
  refine always_bind.mpr ⟨h.safe,?_⟩
  refine Always.bind (M := fun _ t => Held t) ?_
    (fun _ t hsafe ht => ⟨hsafe,(setTable_none_held ht).safe,setTable_none_held ht⟩)
  rcases hmet with hnil | hup
  · rw [hnil]
    exact ⟨h.safe,h⟩
  · refine freeLoop_held (P := fun s => s.fUp = true ∧ s.fQuarantined = false) ?_ (fun _ _ hp => hp) _ h hup
    intro s ctx h ⟨hup,hq⟩
    refine always_bind.mpr ⟨h.safe,always_ite.mpr ⟨fun _ => ?_,fun hdown => absurd hup hdown⟩⟩
    refine Always.bind (destroyObject_spec rfl (show destroys .destroyCq = some .cq from rfl) h) ?_
    rintro kr t hsafe ⟨ht,htup,hgone,hsucc⟩
    have hk : kr = .success := hsucc rfl (by decide) hup hq
    refine ⟨hsafe,ht,⟨htup.trans hup,(hgone hk).1.trans hq⟩,fun hok => ?_⟩
    rw [hk] at hok
    cases hok

/-! ## The loop ends with an empty table -/

theorem releaseAll_table (refs : List (Field × ℕ)) (s : State) :
    Always env (fun _ => True) (releaseAll refs) (fun _ t => t.table = s.table) s := by
  induction refs generalizing s with
  | nil => exact ⟨trivial,rfl⟩
  | cons r refs ih => exact ⟨trivial,(ih _).mono (fun _ _ _ ht => ht)⟩

theorem exec_table (caller : Caller) (op : Opcode) (n : ℕ) (s : State) :
    Always env (fun _ => True) (exec caller op n []) (fun _ t => t.table = s.table) s := by
  unfold exec
  simp only [bind_eq, pure_eq]
  exact always_bind.mpr ⟨trivial,always_ite.mpr
    ⟨fun _ => ⟨trivial,rfl⟩,fun _ => ⟨trivial,fun _ _ => ⟨trivial,rfl⟩⟩⟩⟩

theorem destroyObject_table (kind : ObjKind) (op : Opcode) (caller : Caller) (handle : ℕ) (s : State) :
    Always env (fun _ => True) (destroyObject kind op caller handle) (fun kr t =>
      (kr = .success → t.records kind = Record.removeHandle handle (s.records kind)) ∧
      (kr ≠ .success → t.table = s.table)) s := by
  have hcmd : Always env (fun _ => True) (cmdDestroy kind op caller handle) (fun _ t => t.table = s.table) s :=
    Always.bind (exec_table caller op _ s) (fun _ _ _ ht => ⟨trivial,ht⟩)
  refine Always.bind hcmd (fun kr t _ ht => always_ite.mpr
    ⟨fun _ => ?_,fun hk => ⟨trivial,fun h => absurd h hk,fun _ => ht⟩⟩)
  have hrelease : Always env (fun _ => True) (releaseContext kind handle)
      (fun _ u => u.records kind = Record.removeHandle handle (s.records kind)) t := by
    rw [← records_of_table ht]
    unfold releaseContext
    simp only [bind_eq]
    refine always_bind.mpr ⟨trivial,?_⟩
    beta_reduce
    split
    · rename_i hnone
      refine ⟨trivial,?_⟩
      rw [Record.removeHandle, List.eraseP_of_forall_not (fun a ha => ?_)]
      simpa using List.find?_eq_none.mp hnone a ha
    · rename_i ctx _
      refine Always.bind (releaseAll_table ctx.refs t) (fun _ u _ hu => ⟨trivial,trivial,?_⟩)
      beta_reduce
      rw [setTable_records, Function.update_self, records_of_table hu]
  exact Always.bind hrelease (fun _ u _ hu => ⟨trivial,fun _ => hu,fun h => absurd rfl h⟩)

/-- Every pass takes one context out of the table, so there are as many passes as contexts. -/
theorem freeLoop_empties {unverified : Context → Ib Unit}
    (hkeep : ∀ ctx s, Always env (fun _ => True) (unverified ctx) (fun _ t => t.table = s.table) s)
    (n : ℕ) (s : State) (hn : (s.records kind).length ≤ n) :
    Always env (fun _ => True) (freeLoop kind (destroyObject kind op) unverified n) (fun _ t => t.records kind = []) s := by
  induction n generalizing s with
  | zero => exact ⟨trivial,List.length_eq_zero_iff.mp (Nat.le_zero.mp hn)⟩
  | succ n ih =>
    unfold freeLoop
    simp only [bind_eq]
    refine always_bind.mpr ⟨trivial,?_⟩
    beta_reduce
    split
    · rename_i hnil
      exact ⟨trivial,hnil⟩
    · rename_i ctx rest hcons
      have hrest : rest.length ≤ n := by
        rw [hcons] at hn
        exact Nat.le_of_succ_le_succ hn
      have hdestroyed : Always env (fun _ => True) (destroyed (destroyObject kind op) ctx.handle) (fun ok t =>
          (ok = true → t.records kind = rest) ∧ (ok = false → t.table = s.table)) s := by
        refine always_bind.mpr ⟨trivial,always_ite.mpr
          ⟨fun _ => ?_,fun _ => ⟨trivial,fun h => (by cases h),fun _ => rfl⟩⟩⟩
        refine Always.bind (destroyObject_table kind op .free ctx.handle s)
          (fun kr t _ ht => ⟨trivial,fun hok => ?_,fun hok => ?_⟩)
        · rw [ht.1 (of_decide_eq_true hok), hcons, Record.removeHandle, List.eraseP_cons_of_pos (by simp)]
        · exact ht.2 (of_decide_eq_false hok)
      refine Always.bind hdestroyed (fun ok t _ ht => always_ite.mpr ⟨fun hok => ih t ?_,fun hok => ?_⟩)
      · rw [ht.1 hok]
        exact hrest
      · refine Always.bind (hkeep ctx t) (fun _ u _ hu => ⟨trivial,ih _ ?_⟩)
        have hrecords : u.records = s.records := records_of_table (hu.trans (ht.2 (Bool.eq_false_of_not_eq_true hok)))
        rw [setTable_records, Function.update_self, hrecords, hcons]
        exact hrest

/-! ## Runs -/

theorem Operation.held (o : Operation) (h : Held s) (he : MetEnabled o s) :
    Always metEnv Safe o.run (fun _ t => Held t) s := by
  have hqp : Destroys .qp Verbs.destroyQP := destroyObject_destroys rfl rfl
  have hmr : Destroys .mkey Verbs.deregMR := destroyObject_destroys rfl rfl
  have hcq : Destroys .cq Verbs.destroyCQ := destroyObject_destroys rfl rfl
  have hret : ∀ (_ : IOReturn) (t : State), Safe t → Held t →
    Always metEnv Safe (.done () : Ib Unit) (fun _ t => Held t) t :=
    fun _ _ hsafe ht => ⟨hsafe,ht⟩
  cases o with
  | createQP req => exact Always.bind (createQP_held req h) hret
  | destroyQP qpn => exact Always.bind (hqp .destroy qpn s h) (fun kr t hsafe ht => hret kr t hsafe ht.1)
  | freeQP => exact freeTable_held hqp h
  | createCQ entries => exact Always.bind (createCQ_held entries h) hret
  | destroyCQ cqHandle => exact Always.bind (hcq .destroy cqHandle s h) (fun kr t hsafe ht => hret kr t hsafe ht.1)
  | freeCQ => exact freeCQ_held h (he.2 rfl)
  | regMR req => exact Always.bind (regMR_held req h) hret
  | deregMR mrHandle => exact Always.bind (hmr .destroy mrHandle s h) (fun kr t hsafe ht => hret kr t hsafe ht.1)
  | freeMR => exact freeTable_held hmr h
  | commandTimedOut => exact ⟨h.safe,h.safe,h⟩
  | coreReleased => exact ⟨h.safe,h.safe,h⟩

theorem held_initial : Held initial := by
  have hnone : ∀ k, initial.records k = [] := fun _ => rfl
  constructor
  case below =>
    intro r hr
    cases hr
  case safe =>
    intro o ho
    cases ho
  case live =>
    intro k e he
    rw [hnone k] at he
    cases he
  case owned =>
    intro k e he
    rw [hnone k] at he
    cases he
  case apart => exact fun k => List.Pairwise.nil
  case across =>
    intro k k' _ e he
    rw [hnone k] at he
    cases he

/-- In every state of every run whose steps meet the condition, no object has lost any of the memory
that its creation named. -/
theorem verbsLifetime_run (s : State) (h : Passes metEnv Operation.run MetEnabled initial s) : Safe s :=
  h.invariant (J := Held) held_initial (fun _ h => h.safe) (fun o _ h he => o.held h he)

def answers (outcome : Opcode → IOReturn) : (q : Question) → Answer q
  | .allocate => true
  | .allocDbSlots => IOReturn.success
  | .pinUserMemory => some 2
  | .setMemoryDescriptor => true
  | .gen64IOVMSegments => true
  | .buildPBL => IOReturn.success
  | .mlxEncodeCreateMkey => true
  | .exec _ op _ _ => (⟨outcome op,7⟩ : Reply)

def after (outcome : Opcode → IOReturn) (o : Operation) (s : State) : State :=
  (o.run.run env (fun _ => answers outcome) 0 s).2

theorem after_returns (outcome : Opcode → IOReturn) (o : Operation) (s : State) :
    Returns env o.run s () (after outcome o s) := run_returns _ (fun _ _ _ => trivial) o.run 0 s

def allSucceed : Opcode → IOReturn := fun _ => .success

/-- A queue is created, and `free` destroys it. -/
theorem verbsLifetime_run_oneQueue : Safe (after allSucceed .freeCQ (after allSucceed (.createCQ 64) initial)) := by
  have hallowed : ∀ (i : ℕ) (q : Question) (s : State), metEnv.Allowed s q (answers allSucceed q) := by
    intro i q s
    cases q with
    | exec caller op number refs => exact ⟨trivial,fun _ h => (by cases h),fun _ _ => rfl⟩
    | _ => exact ⟨trivial,trivial⟩
  have hcreate := run_returns (E := metEnv) _ hallowed (Operation.createCQ 64).run 0 initial
  have hfree := run_returns (E := metEnv) _ hallowed Operation.freeCQ.run 0 (after allSucceed (.createCQ 64) initial)
  refine verbsLifetime_run _ (.inl (.next (o := .freeCQ) (.next (o := .createCQ 64) .start ?_ hcreate) ?_ hfree))
  · exact ⟨Option.some_ne_none _,fun ho => (by cases ho)⟩
  · exact ⟨Option.some_ne_none _,fun _ => .inr ⟨rfl,rfl⟩⟩

example : ¬ Safe (after (fun op => if op = .createQp then .timeout else .success)
    (.createQP ⟨64,64,4096,4096⟩) initial) := by
  decide

/-- Some other command has timed out, and `MlxCQ::free` releases the memory of its queue. -/
theorem freeCQ_loses_memory : ¬ ∀ s, Passes env Operation.run Operation.Enabled initial s → Safe s := by
  intro h
  have hcreate := after_returns allSucceed (.createCQ 64) initial
  have htimeout := after_returns allSucceed .commandTimedOut (after allSucceed (.createCQ 64) initial)
  have hfree := after_returns allSucceed .freeCQ (after allSucceed .commandTimedOut (after allSucceed (.createCQ 64) initial))
  have hopen : Operation.Enabled (.createCQ 64) initial := Option.some_ne_none _
  have hs := h _ (.inl (.next (o := .freeCQ) (.next (o := .commandTimedOut) (.next .start hopen hcreate) trivial htimeout)
    (Option.some_ne_none _) hfree))
  revert hs
  decide

end AppleMCX.Verbs
