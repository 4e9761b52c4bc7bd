import AppleMCX.Core.FwPagesOwnership

/-! # Taking pages back

`takePages` against firmware that may reply anything: what it does as a function of the
reply, and that it is all or nothing.
-/
namespace AppleMCX.FwPages
open Interaction

def anyEnv : Env World Question Answer := ⟨fun _ _ _ => True,env.effect⟩

/-! ## What one TAKE does -/

namespace State

/-- The pages that a reply lists, where all of them can be taken back. -/
def listed (functionId : ℕ) (embedded : Bool) (requested : ℕ) (reply : TakeReply) (s : State) : Option (List ℕ) :=
  if reply.count > requested then none
  else s.validate functionId embedded ((List.range reply.count).map reply.address) []

/-- The last loop of `takePages`. -/
def releasePages (records : List ℕ) (s : State) : State :=
  records.foldl (fun s record => (s.setOwnership record .returned).releasePage record) s

/-- `takePages` after its command. -/
def take (functionId : ℕ) (embedded : Bool) (requested : ℕ) (reply : TakeReply) (s : State) : (IOReturn × ℕ) × State :=
  if reply.kr = .timeout then
    ((.timeout,0),(s.markFunctionAmbiguous functionId embedded).setFatal .takeTimeout)
  else if reply.kr ≠ .success then ((reply.kr,0),s)
  else match s.listed functionId embedded requested reply with
    | none => ((.ioError,0),(s.markFunctionAmbiguous functionId embedded).setFatal .protocol)
    | some records => ((.success,reply.count),s.releasePages records)

end State

/-- Every record is on the linked list once. -/
def World.Linked (w : World) : Prop := (w.host.fPages.map (·.record)).Nodup

instance (w : World) : Decidable w.Linked := inferInstanceAs (Decidable (List.Nodup _))

theorem run_releasePages {α : Type} (records : List ℕ) (k : Unit → Pages α) (oracle : ℕ → (q : Question) → Answer q)
    (i : ℕ) (w : World) :
    ((Prog.forEach records (fun record =>
      (update (State.setOwnership record .returned)).bind (fun _ => update (State.releasePage record)))).bind k).run
        anyEnv oracle i w = (k ()).run anyEnv oracle i { w with host := w.host.releasePages records } := by
  induction records generalizing w with
  | nil => rfl
  | cons record records ih => exact ih _

/-- `takePages` from the reply on. -/
def takeReplied (functionId : ℕ) (embedded : Bool) (requested : ℕ) (reply : TakeReply) : Pages (IOReturn × ℕ) :=
  if reply.kr = .timeout then
    (update (State.markFunctionAmbiguous functionId embedded)).bind (fun _ =>
      (update (State.setFatal .takeTimeout)).bind (fun _ => .done (.timeout,0)))
  else if reply.kr ≠ .success then .done (reply.kr,0)
  else host.bind (fun s => match s.listed functionId embedded requested reply with
    | none => (update (State.markFunctionAmbiguous functionId embedded)).bind (fun _ =>
        (update (State.setFatal .protocol)).bind (fun _ => .done (.ioError,0)))
    | some records => (Prog.forEach records (fun record =>
        (update (State.setOwnership record .returned)).bind (fun _ => update (State.releasePage record)))).bind
          (fun _ => .done (.success,reply.count)))

theorem takePages_eq {requested : ℕ} (h₀ : 0 < requested) (hmax : requested ≤ maxManagePages) (functionId : ℕ)
    (embedded : Bool) : takePages functionId embedded requested = allocate.bind (fun out => allocate.bind (fun validated =>
      if !out || !validated then .done (.noMemory,0)
      else (execTake functionId embedded requested).bind (takeReplied functionId embedded requested))) := by
  have hbounds : ¬ (requested = 0 ∨ requested > maxManagePages) := by omega
  simp only [takePages, Prog.bind_eq, Prog.pure_eq, if_neg hbounds]
  rfl

/-- The answers to the questions of a run. -/
abbrev Oracle := ℕ → (q : Question) → Answer q

def Oracle.allocated (oracle : Oracle) (i : ℕ) : Bool := oracle i .allocate

/-- Both allocations of `takePages` succeed, so that its command is submitted. -/
def Oracle.submits (oracle : Oracle) : Prop := oracle.allocated 0 ∧ oracle.allocated 1

def Oracle.reply (functionId : ℕ) (embedded : Bool) (requested : ℕ) (oracle : Oracle) : TakeReply :=
  oracle 2 (.take functionId embedded requested)

instance (oracle : Oracle) : Decidable oracle.submits := inferInstanceAs (Decidable (_ ∧ _))

theorem takeReplied_run (functionId : ℕ) (embedded : Bool) (requested : ℕ) (reply : TakeReply) (oracle : Oracle)
    (i : ℕ) (w : World) : (takeReplied functionId embedded requested reply).run anyEnv oracle i w =
      ((w.host.take functionId embedded requested reply).1,
        { w with host := (w.host.take functionId embedded requested reply).2 }) := by
  simp only [takeReplied, State.take]
  by_cases ht : reply.kr = .timeout
  · rw [if_pos ht, if_pos ht]
    rfl
  · rw [if_neg ht, if_neg ht]
    by_cases hk : reply.kr ≠ .success
    · rw [if_pos hk, if_pos hk]
      rfl
    · rw [if_neg hk, if_neg hk]
      cases hl : w.host.listed functionId embedded requested reply with
      | none =>
        simp only [host, Prog.get, Prog.bind, Prog.run, hl]
        rfl
      | some records =>
        simp only [host, Prog.get, Prog.bind, Prog.run, hl]
        exact run_releasePages records _ oracle i w

theorem takePages_run {requested : ℕ} (h₀ : 0 < requested) (hmax : requested ≤ maxManagePages) (functionId : ℕ)
    (embedded : Bool) (oracle : Oracle) (w : World) :
    (takePages functionId embedded requested).run anyEnv oracle 0 w =
      if oracle.submits then
        ((w.host.take functionId embedded requested (oracle.reply functionId embedded requested)).1,
          { host := (w.host.take functionId embedded requested (oracle.reply functionId embedded requested)).2
            fw := fwEffect w.fw (.take functionId embedded requested) (oracle.reply functionId embedded requested) })
      else ((.noMemory,0),w) := by
  rw [takePages_eq h₀ hmax]
  have hanswers : ((allocate.bind (fun out => allocate.bind (fun validated =>
      if !out || !validated then .done (.noMemory,0)
      else (execTake functionId embedded requested).bind (takeReplied functionId embedded requested)))).run anyEnv
        oracle 0 w) = (if !oracle.allocated 0 || !oracle.allocated 1 then .done (.noMemory,0)
      else (execTake functionId embedded requested).bind (takeReplied functionId embedded requested) :
      Pages (IOReturn × ℕ)).run
        anyEnv oracle 2 w := rfl
  rw [hanswers]
  by_cases hs : oracle.submits
  · have hboth : (!oracle.allocated 0 || !oracle.allocated 1) = false := by rw [hs.1, hs.2]; rfl
    rw [if_pos hs, hboth, if_neg Bool.false_ne_true]
    exact takeReplied_run functionId embedded requested _ oracle 3 _
  · have hone : (!oracle.allocated 0 || !oracle.allocated 1) = true := by
      unfold Oracle.submits at hs
      cases h₁ : oracle.allocated 0 <;> cases h₂ : oracle.allocated 1 <;> simp_all
    rw [if_neg hs, hone, if_pos rfl]
    rfl

/-! ## What a reply may list -/

def TakeReply.addresses (reply : TakeReply) : List ℕ := (List.range reply.count).map reply.address

/-- The page at an address can be taken back from the function. -/
def Takes (functionId : ℕ) (embedded : Bool) (s : State) (address : ℕ) (p : FwPage) : Prop :=
  s.findPage address functionId embedded = some p ∧ address ≠ 0 ∧ address % pageSize = 0 ∧ p.ownership = .firmwareOwned

/-- No more pages than requested, no page twice, and all of them firmware-owned by the function. -/
structure WellFormed (functionId : ℕ) (embedded : Bool) (requested : ℕ) (s : State) (reply : TakeReply) : Prop where
  count : reply.count ≤ requested
  distinct : reply.addresses.Nodup
  owned : ∀ a ∈ reply.addresses, ∃ p, Takes functionId embedded s a p

variable {functionId : ℕ} {embedded : Bool} {requested : ℕ} {s : State}

theorem Takes.page {a : ℕ} {p : FwPage} (h : Takes functionId embedded s a p) :
    p ∈ s.fPages ∧ p.dmaAddress = a ∧ p.functionId = functionId ∧ p.embedded = embedded := mem_of_findPage h.1

theorem Takes.addresses {addresses : List ℕ} {pages : List FwPage}
    (h : List.Forall₂ (Takes functionId embedded s) addresses pages) : pages.map (·.dmaAddress) = addresses := by
  induction h with
  | nil => rfl
  | cons hp _ ih => rw [List.map_cons, hp.page.2.1, ih]

theorem Takes.mem {addresses : List ℕ} {pages : List FwPage}
    (h : List.Forall₂ (Takes functionId embedded s) addresses pages) {p : FwPage} (hp : p ∈ pages) :
    ∃ a, Takes functionId embedded s a p := by
  induction h with
  | nil => cases hp
  | cons ht _ ih =>
    rcases List.mem_cons.mp hp with rfl | hp
    · exact ⟨_,ht⟩
    · exact ih hp

theorem Takes.exists {addresses : List ℕ} {pages : List FwPage}
    (h : List.Forall₂ (Takes functionId embedded s) addresses pages) {a : ℕ} (ha : a ∈ addresses) :
    ∃ p, Takes functionId embedded s a p := by
  induction h with
  | nil => cases ha
  | cons ht _ ih =>
    rcases List.mem_cons.mp ha with rfl | ha
    · exact ⟨_,ht⟩
    · exact ih ha

theorem exists_takes {addresses : List ℕ} (h : ∀ a ∈ addresses, ∃ p, Takes functionId embedded s a p) :
    ∃ pages, List.Forall₂ (Takes functionId embedded s) addresses pages := by
  induction addresses with
  | nil => exact ⟨[],.nil⟩
  | cons a addresses ih =>
    obtain ⟨p,hp⟩ := h a List.mem_cons_self
    obtain ⟨pages,hpages⟩ := ih (fun b hb => h b (List.mem_cons_of_mem _ hb))
    exact ⟨p :: pages,.cons hp hpages⟩

theorem validate_some {addresses validated records : List ℕ}
    (h : s.validate functionId embedded addresses validated = some records) :
    ∃ pages, List.Forall₂ (Takes functionId embedded s) addresses pages ∧
      records = validated ++ pages.map (·.record) ∧ (validated.Nodup → records.Nodup) := by
  induction addresses generalizing validated with
  | nil =>
    cases h
    exact ⟨[],.nil,(List.append_nil _).symm,id⟩
  | cons a addresses ih =>
    simp only [State.validate] at h
    cases hf : s.findPage a functionId embedded with
    | none => rw [hf] at h; cases h
    | some p =>
      rw [hf] at h
      dsimp only at h
      by_cases hbad : a = 0 ∨ a % pageSize ≠ 0 ∨ p.ownership ≠ .firmwareOwned
      · rw [if_pos hbad] at h; cases h
      · rw [if_neg hbad] at h
        by_cases hdup : p.record ∈ validated
        · rw [if_pos hdup] at h; cases h
        · rw [if_neg hdup] at h
          obtain ⟨pages,hpages,hrecords,hnodup⟩ := ih h
          simp only [not_or, not_not] at hbad
          refine ⟨p :: pages,.cons ⟨hf,hbad⟩ hpages,?_,fun hv => hnodup ?_⟩
          · rw [hrecords, List.map_cons, List.append_assoc, List.singleton_append]
          · refine List.nodup_append.mpr ⟨hv,List.nodup_singleton _,fun r hr q hq he => hdup ?_⟩
            rwa [← List.mem_singleton.mp hq, ← he]

/-- Distinct pages that can be taken pass the loop. -/
theorem validate_takes {addresses : List ℕ} {pages : List FwPage}
    (h : List.Forall₂ (Takes functionId embedded s) addresses pages) (validated : List ℕ)
    (hn : (validated ++ pages.map (·.record)).Nodup) :
    s.validate functionId embedded addresses validated = some (validated ++ pages.map (·.record)) := by
  induction h generalizing validated with
  | nil => simp [State.validate]
  | @cons a p addresses pages ht _ ih =>
    have hgood : ¬ (a = 0 ∨ a % pageSize ≠ 0 ∨ p.ownership ≠ .firmwareOwned) := by
      simp only [not_or, not_not]
      exact ht.2
    have hsplit : validated ++ (p :: pages).map (·.record) = (validated ++ [p.record]) ++ pages.map (·.record) := by
      rw [List.map_cons, List.append_assoc, List.singleton_append]
    have hdup : p.record ∉ validated := by
      intro hm
      exact (List.nodup_append.mp hn).2.2 _ hm _ (List.mem_map.mpr ⟨p,List.mem_cons_self,rfl⟩) rfl
    simp only [State.validate, ht.1]
    rw [if_neg hgood, if_neg hdup, hsplit, ih _ (hsplit ▸ hn)]

theorem Takes.records_nodup (hs : (s.fPages.map (·.record)).Nodup) {addresses : List ℕ} {pages : List FwPage}
    (h : List.Forall₂ (Takes functionId embedded s) addresses pages) (hn : addresses.Nodup) :
    (pages.map (·.record)).Nodup := by
  have hpages : pages.Nodup := List.Nodup.of_map (·.dmaAddress) (by rw [Takes.addresses h]; exact hn)
  refine List.Nodup.map_on (fun p hp q hq he => ?_) hpages
  obtain ⟨_,htp⟩ := Takes.mem h hp
  obtain ⟨_,htq⟩ := Takes.mem h hq
  exact List.inj_on_of_nodup_map hs htp.page.1 htq.page.1 he

/-- `takePages` accepts exactly the well-formed replies. -/
theorem listed_some (hs : (s.fPages.map (·.record)).Nodup) {reply : TakeReply} :
    WellFormed functionId embedded requested s reply ↔
      ∃ records, s.listed functionId embedded requested reply = some records := by
  constructor
  · intro h
    obtain ⟨pages,hpages⟩ := exists_takes h.owned
    have hvalid := validate_takes hpages [] (Takes.records_nodup hs hpages h.distinct)
    exact ⟨_,by rw [State.listed, if_neg (Nat.not_lt.mpr h.count)]; exact hvalid⟩
  · rintro ⟨records,h⟩
    unfold State.listed at h
    by_cases hc : reply.count > requested
    · rw [if_pos hc] at h; cases h
    · rw [if_neg hc] at h
      obtain ⟨pages,hpages,hrecords,hnodup⟩ := validate_some h
      rw [← TakeReply.addresses] at hpages
      have hn : pages.Nodup := List.Nodup.of_map (·.record)
        (by rw [List.nil_append] at hrecords; exact hrecords ▸ hnodup List.nodup_nil)
      refine ⟨Nat.not_lt.mp hc,?_,fun a ha => ?_⟩
      · rw [← Takes.addresses hpages]
        refine List.Nodup.map_on (fun p hp q hq he => ?_) hn
        obtain ⟨_,htp⟩ := Takes.mem hpages hp
        obtain ⟨_,htq⟩ := Takes.mem hpages hq
        have hfound := htp.1
        rw [← htp.page.2.1, he, htq.page.2.1, htq.1] at hfound
        exact (Option.some.inj hfound).symm
      · exact Takes.exists hpages ha

/-! ## Removing pages -/

/-- What is released is the one page with this record. -/
theorem releaseReturned_eq (hs : (s.fPages.map (·.record)).Nodup) (record : ℕ) :
    (s.setOwnership record .returned).releasePage record =
      { s with fPages := s.fPages.filter (fun p => p.record ≠ record), fTrackedPages := s.fTrackedPages - 1 } := by
  have hlist : ∀ l : List FwPage, (l.map (·.record)).Nodup →
      (l.map (fun p => if p.record = record then { p with ownership := Ownership.returned } else p)).eraseP
        (fun p => p.record == record) = l.filter (fun p => p.record ≠ record) := by
    intro l hl
    induction l with
    | nil => rfl
    | cons p l ih =>
      rw [List.map_cons, List.nodup_cons] at hl
      by_cases hp : p.record = record
      · have hrest : ∀ q ∈ l, q.record ≠ record := fun q hq he => hl.1 (List.mem_map.mpr ⟨q,hq,he.trans hp.symm⟩)
        have hmap : l.map (fun q => if q.record = record then { q with ownership := Ownership.returned } else q) = l :=
          (List.map_congr_left (fun q hq => if_neg (hrest q hq))).trans (List.map_id' l)
        rw [List.map_cons, if_pos hp, List.eraseP_cons_of_pos (by simpa using hp), hmap,
          List.filter_cons_of_neg (by simpa using hp)]
        exact (List.filter_eq_self.mpr (fun q hq => by simpa using hrest q hq)).symm
      · rw [List.map_cons, if_neg hp, List.eraseP_cons_of_neg (by simpa using hp), ih hl.2,
          List.filter_cons_of_pos (by simpa using hp)]
  simp only [State.setOwnership, State.releasePage, hlist s.fPages hs]

theorem releasePages_eq (hs : (s.fPages.map (·.record)).Nodup) (records : List ℕ) :
    s.releasePages records = { s with
      fPages := s.fPages.filter (fun p => p.record ∉ records)
      fTrackedPages := s.fTrackedPages - records.length } := by
  induction records generalizing s with
  | nil => simp [State.releasePages]
  | cons record records ih =>
    have hstep := releaseReturned_eq hs record
    have hrest : (((s.fPages.filter (fun p => p.record ≠ record))).map (·.record)).Nodup :=
      hs.sublist (List.filter_sublist.map _)
    have hcons : s.releasePages (record :: records) =
        ((s.setOwnership record .returned).releasePage record).releasePages records := rfl
    rw [hcons, hstep, ih hrest]
    simp only [List.filter_filter, List.length_cons, List.mem_cons, not_or]
    congr 1
    · refine List.filter_congr (fun p _ => ?_)
      simp [Bool.and_comm]
    · omega

/-! ## All or nothing -/

/-- Exactly these pages were taken back from the function, and nothing else changed. -/
structure TakenBack (functionId : ℕ) (embedded : Bool) (addresses : List ℕ) (pages : List FwPage) (s t : State) :
    Prop where
  distinct : pages.Nodup
  addresses : pages.map (·.dmaAddress) = addresses
  owned : ∀ p ∈ pages, p ∈ s.fPages ∧ p.functionId = functionId ∧ p.embedded = embedded ∧ p.ownership = .firmwareOwned
  released : t = { s with
    fPages := s.fPages.filter (· ∉ pages)
    fTrackedPages := s.fTrackedPages - pages.length }

theorem TakenBack.length {addresses : List ℕ} {pages : List FwPage} {s t : State} (hs : (s.fPages.map (·.record)).Nodup)
    (h : TakenBack functionId embedded addresses pages s t) : t.fPages.length + pages.length = s.fPages.length := by
  have hgone : (s.fPages.filter (· ∈ pages)).length = pages.length := by
    refine List.Perm.length_eq ((List.perm_ext_iff_of_nodup ((hs.of_map _).filter _) h.distinct).mpr (fun p => ?_))
    simp only [List.mem_filter, decide_eq_true_eq]
    exact ⟨fun hp => hp.2,fun hp => ⟨(h.owned p hp).1,hp⟩⟩
  have hsum := List.length_eq_length_filter_add (l := s.fPages) (· ∈ pages)
  rw [h.released]
  simp only [decide_not]
  omega

theorem State.take_wellFormed (hs : (s.fPages.map (·.record)).Nodup) {reply : TakeReply} (hk : reply.kr = .success)
    (h : WellFormed functionId embedded requested s reply) : ∃ pages,
      (s.take functionId embedded requested reply).1 = (.success,pages.length) ∧
      TakenBack functionId embedded reply.addresses pages s (s.take functionId embedded requested reply).2 := by
  obtain ⟨pages,hpages⟩ := exists_takes h.owned
  have hn := Takes.records_nodup hs hpages h.distinct
  have hlisted : s.listed functionId embedded requested reply = some (pages.map (·.record)) := by
    rw [State.listed, if_neg (Nat.not_lt.mpr h.count)]
    exact validate_takes hpages [] hn
  have htake : s.take functionId embedded requested reply =
      ((.success,reply.count),s.releasePages (pages.map (·.record))) := by
    simp only [State.take, hk, hlisted, reduceCtorEq, ne_eq, not_true_eq_false, ↓reduceIte]
  have hlen : reply.count = pages.length := by
    rw [← @List.length_map _ _ pages (·.dmaAddress), Takes.addresses hpages, TakeReply.addresses, List.length_map,
      List.length_range]
  refine ⟨pages,by rw [htake, hlen],hn.of_map _,Takes.addresses hpages,fun p hp => ?_,?_⟩
  · obtain ⟨a,ht⟩ := Takes.mem hpages hp
    exact ⟨ht.page.1,ht.page.2.2.1,ht.page.2.2.2,ht.2.2.2⟩
  · rw [htake, releasePages_eq hs, List.length_map]
    simp only [State.mk.injEq, and_true]
    refine List.filter_congr (fun p hp => ?_)
    simp only [List.mem_map, decide_eq_decide, not_iff_not]
    refine ⟨?_,fun hm => ⟨p,hm,rfl⟩⟩
    rintro ⟨q,hq,he⟩
    obtain ⟨_,ht⟩ := Takes.mem hpages hq
    rwa [← List.inj_on_of_nodup_map hs ht.page.1 hp he]

/-- The command timed out, or its reply is malformed. -/
def Unsettled (functionId : ℕ) (embedded : Bool) (requested : ℕ) (s : State) (reply : TakeReply) : Prop :=
  reply.kr = .timeout ∨ reply.kr = .success ∧ ¬ WellFormed functionId embedded requested s reply

theorem State.take_unsettled (hs : (s.fPages.map (·.record)).Nodup) {reply : TakeReply}
    (h : Unsettled functionId embedded requested s reply) :
    (s.take functionId embedded requested reply).1.1 ≠ .success ∧ (s.take functionId embedded requested reply).1.2 = 0 ∧
      (s.take functionId embedded requested reply).2 = (s.markFunctionAmbiguous functionId embedded).setFatal
        (if reply.kr = .timeout then .takeTimeout else .protocol) := by
  rcases h with hk | ⟨hk,hw⟩
  · simp [State.take, hk]
  · have hlisted : s.listed functionId embedded requested reply = none := by
      cases hl : s.listed functionId embedded requested reply with
      | none => rfl
      | some records => exact absurd ((listed_some hs).mpr ⟨records,hl⟩) hw
    simp [State.take, hk, hlisted]

/-- For every page list, every answer to the allocations and every reply: on success exactly the listed
pages, distinct and firmware-owned by the function, are removed and released; with any other result none
is, and the function's pages become ambiguous exactly when the command timed out or its reply was malformed. -/
theorem takePages_allOrNothing (w : World) (hw : w.Linked) (functionId : ℕ) (embedded : Bool) (requested : ℕ)
    (h₀ : 0 < requested) (hmax : requested ≤ maxManagePages) (oracle : Oracle) :
    let reply := oracle.reply functionId embedded requested
    let ran := (takePages functionId embedded requested).run anyEnv oracle 0 w
    (ran.1.1 = .success → ∃ pages, ran.1.2 = pages.length ∧
      TakenBack functionId embedded reply.addresses pages w.host ran.2.host) ∧
    (ran.1.1 ≠ .success → ran.1.2 = 0 ∧
      (ran.2.host = w.host ∨ oracle.submits ∧ Unsettled functionId embedded requested w.host reply)) ∧
    (oracle.submits → Unsettled functionId embedded requested w.host reply → ran.1.1 ≠ .success ∧
      ran.2.host = (w.host.markFunctionAmbiguous functionId embedded).setFatal
        (if reply.kr = .timeout then .takeTimeout else .protocol)) := by
  intro reply ran
  have hrun : ran = _ := takePages_run h₀ hmax functionId embedded oracle w
  by_cases hsub : oracle.submits
  · rw [if_pos hsub] at hrun
    by_cases hbad : Unsettled functionId embedded requested w.host reply
    · have htake := State.take_unsettled hw hbad
      rw [hrun]
      exact ⟨fun h => absurd h htake.1,fun _ => ⟨htake.2.1,Or.inr ⟨hsub,hbad⟩⟩,fun _ _ => ⟨htake.1,htake.2.2⟩⟩
    · have hkr : reply.kr = .success ∨ reply.kr ≠ .success ∧ reply.kr ≠ .timeout := by
        by_cases hk : reply.kr = .success
        · exact Or.inl hk
        · exact Or.inr ⟨hk,fun ht => hbad (Or.inl ht)⟩
      rcases hkr with hk | ⟨hk,ht⟩
      · have hwell : WellFormed functionId embedded requested w.host reply := by
          by_contra hw'
          exact hbad (Or.inr ⟨hk,hw'⟩)
        obtain ⟨pages,hres,htaken⟩ := State.take_wellFormed hw hk hwell
        rw [hrun]
        refine ⟨fun _ => ⟨pages,congrArg Prod.snd hres,htaken⟩,fun h => absurd (congrArg Prod.fst hres) h,
          fun _ hb => absurd hb hbad⟩
      · have htake : w.host.take functionId embedded requested reply = ((reply.kr,0),w.host) := by
          simp only [State.take, if_neg ht, ne_eq, hk, not_false_eq_true, ↓reduceIte]
        rw [htake] at hrun
        rw [hrun]
        exact ⟨fun h => absurd h hk,fun _ => ⟨rfl,Or.inl rfl⟩,fun _ hb => absurd hb hbad⟩
  · rw [if_neg hsub] at hrun
    rw [hrun]
    exact ⟨(fun h => nomatch h),fun _ => ⟨rfl,Or.inl rfl⟩,fun h => absurd h hsub⟩

def twoPages : World where
  host :=
    { fPages := [⟨1,8192,0,false,.boot,.firmwareOwned⟩,⟨0,4096,0,false,.boot,.firmwareOwned⟩]
      fTrackedPages := 2, fEmbedded := false, fFatal := false, fFault := .none, nextRecord := 2 }
  fw := ⟨[],[]⟩

/-- The firmware gives the second page back. -/
def returnsOne : Oracle
  | _, .take _ _ _ => (⟨.success,1,fun _ => 4096,fun _ => true⟩ : TakeReply)
  | _, q => onePageAnswers q

theorem takePages_allOrNothing_onePage :
    ∃ pages, ((takePages 0 false 2).run anyEnv returnsOne 0 twoPages).1.2 = pages.length ∧
    TakenBack 0 false [4096] pages twoPages.host ((takePages 0 false 2).run anyEnv returnsOne 0 twoPages).2.host :=
  (takePages_allOrNothing twoPages (by decide) 0 false 2 (by decide) (by decide) returnsOne).1 rfl

end AppleMCX.FwPages
