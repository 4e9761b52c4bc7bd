import AppleMCX.Ib.AsyncEvents

/-! # Completion events

`MlxCQ::handleCompletion` counts the completion events of each queue, and `ibv_get_cq_event`
compares the count with the one of its last success. The kernel's table is shared with the
other processes, which make and destroy queues of their own.
-/
namespace AppleMCX.CompletionEvents
open Interaction RoCE
open EventQueue (Eqe)

/-! ## The kernel -/

/-- `MlxCQContext`, as far as completion events use it; `completionHandler` is never set. -/
structure MlxCQContext where
  cqNumber : BitVec 32
  armSn : BitVec 32
  completions : BitVec 64
  deriving DecidableEq, Repr

def MlxCQContext.completed (ctx : MlxCQContext) : MlxCQContext :=
  { ctx with
    armSn := ctx.armSn + 1
    completions := ctx.completions + 1 }

def lookup (table : List MlxCQContext) (cqHandle : BitVec 32) : Option MlxCQContext :=
  table.find? (fun ctx => ctx.cqNumber = cqHandle)

/-- `MlxCQ::handleCompletion`: the first context of that number. -/
def handleCompletion (cqn : BitVec 32) : List MlxCQContext → List MlxCQContext
  | [] => []
  | ctx :: table => if ctx.cqNumber = cqn then ctx.completed :: table else ctx :: handleCompletion cqn table

def getCompletions (table : List MlxCQContext) (cqHandle : BitVec 32) : BitVec 64 :=
  ((lookup table cqHandle).map MlxCQContext.completions).getD 0

/-- The table after `destroyCQ`. -/
def remove (cqHandle : BitVec 32) (table : List MlxCQContext) : List MlxCQContext :=
  table.eraseP (fun ctx => ctx.cqNumber = cqHandle)

variable {table : List MlxCQContext} {cqn n : BitVec 32}

theorem lookup_handleCompletion (table : List MlxCQContext) (cqn n : BitVec 32) :
    lookup (handleCompletion cqn table) n =
    (lookup table n).map (fun ctx => if n = cqn then ctx.completed else ctx) := by
  induction table with
  | nil => rfl
  | cons ctx table ih =>
    unfold lookup at ih ⊢
    rw [handleCompletion]
    by_cases hcqn : ctx.cqNumber = cqn
    · rw [if_pos hcqn, List.find?_cons, List.find?_cons]
      have hsame : ctx.completed.cqNumber = ctx.cqNumber := rfl
      rw [hsame]
      by_cases hn : ctx.cqNumber = n
      · rw [decide_eq_true hn]
        dsimp only [Option.map_some]
        rw [if_pos (hn.symm.trans hcqn)]
      · rw [decide_eq_false hn]
        have hne : n ≠ cqn := fun he => hn (hcqn.trans he.symm)
        simp only [if_neg hne, Option.map_id']
    · rw [if_neg hcqn, List.find?_cons, List.find?_cons]
      by_cases hn : ctx.cqNumber = n
      · rw [decide_eq_true hn]
        have hne : n ≠ cqn := fun he => hcqn (hn.trans he)
        simp only [if_neg hne, Option.map_some]
      · rw [decide_eq_false hn]
        exact ih

theorem lookup_remove (hne : n ≠ cqn) : lookup (remove cqn table) n = lookup table n := by
  induction table with
  | nil => rfl
  | cons ctx table ih =>
    unfold lookup remove at ih ⊢
    rw [List.eraseP_cons, List.find?_cons]
    by_cases hcqn : ctx.cqNumber = cqn
    · have hn : ¬ ctx.cqNumber = n := fun he => hne (he.symm.trans hcqn)
      rw [decide_eq_true hcqn, decide_eq_false hn]
      rfl
    · rw [decide_eq_false hcqn]
      dsimp only [cond_false]
      rw [List.find?_cons, ih]

theorem lookup_append (hfresh : lookup table cqn = none) (ctx : MlxCQContext) (hctx : ctx.cqNumber = cqn) :
    lookup (table ++ [ctx]) n = if n = cqn then some ctx else lookup table n := by
  unfold lookup at hfresh ⊢
  rw [List.find?_append, List.find?_singleton]
  by_cases hn : n = cqn
  · rw [if_pos hn, hn, hfresh, decide_eq_true hctx]
    rfl
  · rw [if_neg hn, hctx, decide_eq_false (Ne.symm hn)]
    exact Option.or_none

/-! ## A process -/

variable {κ : Type}

/-- `ibv_cq`, with the context that stands for its connection to the kernel. -/
structure IbvCq (κ : Type) where
  context : κ
  cqContext : ℕ
  handle : BitVec 32
  eventCount : BitVec 64
  deriving DecidableEq, Repr

/-- The process with its clients in the kernel. Its queues have the numbers below `next` in the order in which they are
made. By these, ledgers: the completion events that were dispatched to a queue since it was made, how many there were
at the last success for it, and the successes. -/
structure State (κ : Type) where
  fCqTable : List MlxCQContext
  fOwnedCq : List (κ × BitVec 32)
  cqs : ℕ → Option (IbvCq κ)
  next : ℕ
  gLastCq : Option ℕ
  fired : ℕ → ℕ
  seen : ℕ → ℕ
  woken : ℕ → ℕ

/-- A process that has just been started, next to others. -/
def initial (table : List MlxCQContext) : State κ := ⟨table,[],fun _ => none,0,none,fun _ => 0,fun _ => 0,fun _ => 0⟩

namespace State

variable [DecidableEq κ]

def sQueryCqCompletions (context : κ) (cqHandle : BitVec 32) (s : State κ) : IOReturn × BitVec 64 :=
  if ¬ s.fOwnedCq.contains (context,cqHandle) then (.notPermitted,0)
  else (.success,getCompletions s.fCqTable cqHandle)

/-- `mlx_query_cq_completions`; `none` stands for `EIO`. -/
def mlxQueryCqCompletions (context : κ) (cqHandle : BitVec 32) (s : State κ) : Option (BitVec 64) :=
  let (kr,count) := s.sQueryCqCompletions context cqHandle
  if kr = .success then some count else none

/-- `ibv_get_cq_event` on a channel of the context; `none` stands for -1, and the second value is `*cq_context`. -/
def ibvGetCqEvent (context : κ) (s : State κ) : Option (ℕ × ℕ) × State κ :=
  match s.gLastCq with
  | none => (none,s)
  | some p =>
    match s.cqs p with
    | none => (none,s)
    | some cq =>
      if cq.context = context then
        match s.mlxQueryCqCompletions context cq.handle with
        | none => (none,s)
        | some count =>
          if count = cq.eventCount then (none,s)
          else (some (p,cq.cqContext),{ s with
            cqs := Function.update s.cqs p (some { cq with eventCount := count })
            seen := Function.update s.seen p (s.fired p)
            woken := Function.update s.woken p (s.woken p + 1) })
      else (none,s)

/-- `ibv_create_cq`, where the kernel makes a queue of this number. -/
def ibvCreateCq (context : κ) (cqContext : ℕ) (number : BitVec 32) (s : State κ) : State κ :=
  { s with
    fCqTable := s.fCqTable ++ [⟨number,0,0⟩]
    fOwnedCq := s.fOwnedCq ++ [(context,number)]
    cqs := Function.update s.cqs s.next (some ⟨context,cqContext,number,0⟩)
    next := s.next + 1
    gLastCq := some s.next
    fired := Function.update s.fired s.next 0
    seen := Function.update s.seen s.next 0
    woken := Function.update s.woken s.next 0 }

/-- `ibv_create_cq`, where the CQE buffer of the new queue cannot be mapped: the kernel's queue is destroyed again, and
whether it could be is not looked at. -/
def ibvCreateCqUnmapped (context : κ) (number : BitVec 32) (destroyed : Bool) (s : State κ) : State κ :=
  { s with
    fCqTable := if destroyed then s.fCqTable else s.fCqTable ++ [⟨number,0,0⟩]
    fOwnedCq := if destroyed then s.fOwnedCq else s.fOwnedCq ++ [(context,number)] }

/-- `ibv_destroy_cq`; the kernel may fail to destroy its queue, which is not looked at. -/
def ibvDestroyCq (p : ℕ) (cq : IbvCq κ) (destroyed : Bool) (s : State κ) : State κ :=
  { s with
    gLastCq := if s.gLastCq = some p then none else s.gLastCq
    fCqTable := if destroyed then remove cq.handle s.fCqTable else s.fCqTable
    fOwnedCq := if destroyed then s.fOwnedCq.erase (cq.context,cq.handle) else s.fOwnedCq
    cqs := Function.update s.cqs p none }

/-- `MlxRoCE::handleEvent`, and in the ledger the queue that a completion belongs to. -/
def event (type : BitVec 8) (eqe : Eqe) (s : State κ) : State κ :=
  match handleEvent type (some eqe) with
  | .completion cqn => { s with
      fCqTable := handleCompletion cqn s.fCqTable
      fired := fun p => s.fired p + if (s.cqs p).any (fun cq => cq.handle = cqn) then 1 else 0 }
  | _ => s

end State

inductive Action (κ : Type)
  | event (type : BitVec 8) (eqe : Eqe)
  | create (context : κ) (cqContext : ℕ) (number : BitVec 32)
  | createUnmapped (context : κ) (number : BitVec 32) (destroyed : Bool)
  | destroy (p : ℕ) (destroyed : Bool)
  /-- Another process makes or destroys a queue. -/
  | createOther (number : BitVec 32)
  | destroyOther (number : BitVec 32)
  | get (context : κ)
  deriving DecidableEq

/-- The firmware gives a new queue a number that no other queue in the table has; the other processes destroy their own. -/
def step [DecidableEq κ] (s : State κ) : Action κ → Option (State κ)
  | .event type eqe => some (s.event type eqe)
  | .create context cqContext number =>
    if lookup s.fCqTable number = none then some (s.ibvCreateCq context cqContext number) else none
  | .createUnmapped context number destroyed =>
    if lookup s.fCqTable number = none then some (s.ibvCreateCqUnmapped context number destroyed) else none
  | .destroy p destroyed => (s.cqs p).map (fun cq => s.ibvDestroyCq p cq destroyed)
  | .createOther number =>
    if lookup s.fCqTable number = none then some { s with fCqTable := s.fCqTable ++ [⟨number,0,0⟩] } else none
  | .destroyOther number =>
    if (s.fOwnedCq.map Prod.snd).contains number then none else some { s with fCqTable := remove number s.fCqTable }
  | .get context => some (s.ibvGetCqEvent context).2

/-! ## What the counts say -/

/-- A queue of the process, next to its context in the kernel. -/
structure Live (s : State κ) (p : ℕ) (cq : IbvCq κ) : Prop where
  below : p < s.next
  owned : (cq.context,cq.handle) ∈ s.fOwnedCq
  completions : (lookup s.fCqTable cq.handle).map MlxCQContext.completions = some (BitVec.ofNat 64 (s.fired p))
  eventCount : cq.eventCount = BitVec.ofNat 64 (s.seen p)
  woken : s.woken p ≤ s.seen p
  seen : s.seen p ≤ s.fired p

structure Inv (s : State κ) : Prop where
  live : ∀ p cq, s.cqs p = some cq → Live s p cq
  unique : ∀ p q cq cq', s.cqs p = some cq → s.cqs q = some cq' → cq.handle = cq'.handle → p = q
  /-- `ibv_get_cq_event` remembers the queue made last, as long as that queue is there. -/
  last : ∀ p, s.gLastCq = some p ↔ p + 1 = s.next ∧ (s.cqs p).isSome = true

variable {s t : State κ} {p q : ℕ} {cq : IbvCq κ}

theorem inv_initial (table : List MlxCQContext) : Inv (initial table : State κ) where
  live _ _ h := by cases h
  unique _ _ _ _ h := by cases h
  last _ := by simp [initial]

theorem Live.getCompletions (h : Live s p cq) : getCompletions s.fCqTable cq.handle = BitVec.ofNat 64 (s.fired p) := by
  rw [CompletionEvents.getCompletions, h.completions]
  rfl

theorem Live.number_ne (h : Live s p cq) (hfresh : lookup s.fCqTable n = none) : cq.handle ≠ n := by
  intro he
  have hc := h.completions
  rw [he, hfresh] at hc
  cases hc

/-- The parts of the state that say something about a queue are as before. -/
theorem Live.frame (h : Live s p cq) (hnext : s.next ≤ t.next) (howned : (cq.context,cq.handle) ∈ s.fOwnedCq →
    (cq.context,cq.handle) ∈ t.fOwnedCq) (htable : lookup t.fCqTable cq.handle = lookup s.fCqTable cq.handle)
    (hfired : t.fired p = s.fired p) (hseen : t.seen p = s.seen p) (hwoken : t.woken p = s.woken p) : Live t p cq where
  below := h.below.trans_le hnext
  owned := howned h.owned
  completions := by rw [htable, hfired]; exact h.completions
  eventCount := by rw [hseen]; exact h.eventCount
  woken := by rw [hwoken, hseen]; exact h.woken
  seen := by rw [hseen, hfired]; exact h.seen

/-- The table changes, and no queue of the process with it. -/
theorem Inv.retable (h : Inv s) (table : List MlxCQContext)
    (hkeep : ∀ p cq, s.cqs p = some cq → lookup table cq.handle = lookup s.fCqTable cq.handle) :
    Inv { s with fCqTable := table } where
  live p cq hp := (h.live p cq hp).frame le_rfl id (hkeep p cq hp) rfl rfl rfl
  unique := h.unique
  last := h.last

theorem event_inv (h : Inv s) (type : BitVec 8) (eqe : Eqe) : Inv (s.event type eqe) := by
  unfold State.event
  cases handleEvent type (some eqe) with
  | completion cqn =>
    refine ⟨fun p cq hp => ?_,h.unique,h.last⟩
    have hl := h.live p cq hp
    have hp' : s.cqs p = some cq := hp
    refine ⟨hl.below,hl.owned,?_,hl.eventCount,hl.woken,hl.seen.trans (Nat.le_add_right _ _)⟩
    dsimp only
    rw [lookup_handleCompletion, hp', Option.any_some]
    have hc := hl.completions
    cases hlook : lookup s.fCqTable cq.handle with
    | none =>
      rw [hlook] at hc
      cases hc
    | some ctx =>
      rw [hlook] at hc
      have hctx := Option.some.inj hc
      by_cases he : cq.handle = cqn
      · rw [Option.map_some, Option.map_some, if_pos he, if_pos (decide_eq_true he), BitVec.ofNat_add, ← hctx]
        rfl
      · rw [Option.map_some, Option.map_some, if_neg he, if_neg (by simpa using he), Nat.add_zero, hctx]
  | _ => exact h

theorem create_inv (h : Inv s) {context : κ} {number : BitVec 32} (hfresh : lookup s.fCqTable number = none) (cqContext : ℕ) :
    Inv (s.ibvCreateCq context cqContext number) := by
  have hother : ∀ p cq, p ≠ s.next → s.cqs p = some cq → Live (s.ibvCreateCq context cqContext number) p cq := by
    intro p cq hne hp
    have hl := h.live p cq hp
    refine hl.frame (Nat.le_succ _) (fun hm => List.mem_append_left _ hm) ?_ (Function.update_of_ne hne _ _)
      (Function.update_of_ne hne _ _) (Function.update_of_ne hne _ _)
    exact (lookup_append hfresh _ rfl).trans (if_neg (hl.number_ne hfresh))
  have hnumber : ∀ p cq, s.cqs p = some cq → cq.handle ≠ number := fun p cq hp => (h.live p cq hp).number_ne hfresh
  refine ⟨fun p cq hp => ?_,fun p q cq cq' hp hq he => ?_,fun p => ?_⟩
  · by_cases hne : p = s.next
    · subst hne
      simp only [State.ibvCreateCq] at hp
      rw [Function.update_self] at hp
      cases hp
      refine ⟨Nat.lt_succ_self _,List.mem_append_right _ List.mem_cons_self,?_,?_,?_,?_⟩
      · have hlook : lookup (s.ibvCreateCq context cqContext number).fCqTable number = some ⟨number,0,0⟩ :=
          (lookup_append hfresh ⟨number,0,0⟩ rfl).trans (if_pos rfl)
        rw [hlook]
        simp only [State.ibvCreateCq, Function.update_self]
        rfl
      · simp only [State.ibvCreateCq, Function.update_self]
        rfl
      · simp only [State.ibvCreateCq, Function.update_self, le_refl]
      · simp only [State.ibvCreateCq, Function.update_self, le_refl]
    · simp only [State.ibvCreateCq] at hp
      rw [Function.update_of_ne hne] at hp
      exact hother p cq hne hp
  · simp only [State.ibvCreateCq] at hp hq
    by_cases hpn : p = s.next
    · by_cases hqn : q = s.next
      · rw [hpn, hqn]
      · subst hpn
        rw [Function.update_self] at hp
        rw [Function.update_of_ne hqn] at hq
        cases hp
        exact absurd he.symm (hnumber q cq' hq)
    · rw [Function.update_of_ne hpn] at hp
      by_cases hqn : q = s.next
      · subst hqn
        rw [Function.update_self] at hq
        cases hq
        exact absurd he (hnumber p cq hp)
      · rw [Function.update_of_ne hqn] at hq
        exact h.unique p q cq cq' hp hq he
  · dsimp only [State.ibvCreateCq]
    rw [Option.some.injEq, Nat.add_right_cancel_iff]
    constructor
    · rintro rfl
      exact ⟨rfl,by rw [Function.update_self]; rfl⟩
    · rintro ⟨rfl,-⟩
      rfl

theorem createUnmapped_inv (h : Inv s) (context : κ) {number : BitVec 32} (hfresh : lookup s.fCqTable number = none)
    (destroyed : Bool) : Inv (s.ibvCreateCqUnmapped context number destroyed) := by
  refine ⟨fun p cq hp => ?_,h.unique,h.last⟩
  have hl := h.live p cq hp
  cases destroyed with
  | true => exact hl.frame le_rfl id rfl rfl rfl rfl
  | false =>
    refine hl.frame le_rfl (fun hm => List.mem_append_left _ hm) ?_ rfl rfl rfl
    exact (lookup_append hfresh _ rfl).trans (if_neg (hl.number_ne hfresh))

variable [DecidableEq κ]

theorem destroy_inv (h : Inv s) (hp : s.cqs p = some cq) (destroyed : Bool) : Inv (s.ibvDestroyCq p cq destroyed) := by
  have hleft : ∀ q cq', (s.ibvDestroyCq p cq destroyed).cqs q = some cq' → q ≠ p ∧ s.cqs q = some cq' := by
    intro q cq' hq
    have hne : q ≠ p := by
      rintro rfl
      rw [State.ibvDestroyCq] at hq
      dsimp only at hq
      rw [Function.update_self] at hq
      cases hq
    exact ⟨hne,(Function.update_of_ne hne _ _).symm.trans hq⟩
  refine ⟨fun q cq' hq => ?_,fun q r cq₁ cq₂ hq hr he => ?_,fun q => ?_⟩
  · obtain ⟨hne,hq⟩ := hleft q cq' hq
    have hhandle : cq'.handle ≠ cq.handle := fun he => hne (h.unique q p cq' cq hq hp he)
    refine (h.live q cq' hq).frame le_rfl (fun hm => ?_) ?_ rfl rfl rfl
    · cases destroyed with
      | false => exact hm
      | true => exact (List.mem_erase_of_ne (fun he => hhandle (congrArg Prod.snd he))).mpr hm
    · cases destroyed with
      | false => rfl
      | true => exact lookup_remove hhandle
  · exact h.unique q r cq₁ cq₂ (hleft q cq₁ hq).2 (hleft r cq₂ hr).2 he
  · dsimp only [State.ibvDestroyCq]
    by_cases hqp : q = p
    · subst hqp
      rw [Function.update_self]
      split_ifs with hlast
      · simp
      · simp [hlast]
    · rw [Function.update_of_ne hqp, ← h.last q]
      split_ifs with hlast
      · simp [hlast, Ne.symm hqp]
      · rfl

/-- `ibv_get_cq_event` succeeds for the queue made last, where completion events came since its last success. -/
theorem ibvGetCqEvent_cases (h : Inv s) (context : κ) :
    (s.ibvGetCqEvent context = (none,s) ∧ ∀ p cq, s.gLastCq = some p → s.cqs p = some cq → cq.context = context →
      BitVec.ofNat 64 (s.fired p) = BitVec.ofNat 64 (s.seen p)) ∨
    ∃ p cq, s.gLastCq = some p ∧ s.cqs p = some cq ∧ cq.context = context ∧
      BitVec.ofNat 64 (s.fired p) ≠ BitVec.ofNat 64 (s.seen p) ∧
      s.ibvGetCqEvent context = (some (p,cq.cqContext),{ s with
        cqs := Function.update s.cqs p (some { cq with eventCount := BitVec.ofNat 64 (s.fired p) })
        seen := Function.update s.seen p (s.fired p)
        woken := Function.update s.woken p (s.woken p + 1) }) := by
  unfold State.ibvGetCqEvent
  cases hlast : s.gLastCq with
  | none => exact Or.inl ⟨rfl,fun p cq hp => by cases hp⟩
  | some p =>
    obtain ⟨cq,hcq⟩ := Option.isSome_iff_exists.mp ((h.last p).mp hlast).2
    have hl := h.live p cq hcq
    have hquery : s.mlxQueryCqCompletions cq.context cq.handle = some (BitVec.ofNat 64 (s.fired p)) := by
      unfold State.mlxQueryCqCompletions State.sQueryCqCompletions
      rw [if_neg (not_not.mpr (List.contains_iff_mem.mpr hl.owned)), hl.getCompletions]
      rfl
    dsimp only
    rw [hcq]
    dsimp only
    by_cases hctx : cq.context = context
    · rw [if_pos hctx, ← hctx, hquery]
      dsimp only
      rw [hl.eventCount]
      by_cases hcount : BitVec.ofNat 64 (s.fired p) = BitVec.ofNat 64 (s.seen p)
      · rw [if_pos hcount]
        refine Or.inl ⟨rfl,fun q cq' hq hcq' _ => ?_⟩
        cases hq
        exact hcount
      · rw [if_neg hcount]
        exact Or.inr ⟨p,cq,rfl,hcq,rfl,hcount,rfl⟩
    · rw [if_neg hctx]
      refine Or.inl ⟨rfl,fun q cq' hq hcq' hc => ?_⟩
      cases hq
      rw [hcq] at hcq'
      cases hcq'
      exact absurd hc hctx

theorem get_inv (h : Inv s) (context : κ) : Inv (s.ibvGetCqEvent context).2 := by
  obtain ⟨heq,-⟩ | ⟨p,cq,hlast,hcq,-,hcount,heq⟩ := ibvGetCqEvent_cases h context
  · rw [heq]
    exact h
  · rw [heq]
    have hl := h.live p cq hcq
    -- the structure at an address keeps its handle
    have hsame : ∀ q cq', Function.update s.cqs p (some { cq with eventCount := BitVec.ofNat 64 (s.fired p) }) q = some cq' →
        ∃ old, s.cqs q = some old ∧ old.handle = cq'.handle := by
      intro q cq' hq
      by_cases hqp : q = p
      · subst hqp
        rw [Function.update_self] at hq
        cases hq
        exact ⟨cq,hcq,rfl⟩
      · rw [Function.update_of_ne hqp] at hq
        exact ⟨cq',hq,rfl⟩
    refine ⟨fun q cq' hq => ?_,fun q r cq₁ cq₂ hq hr he => ?_,fun q => ?_⟩
    · dsimp only at hq
      by_cases hqp : q = p
      · subst hqp
        rw [Function.update_self] at hq
        cases hq
        have hlt : s.seen q < s.fired q := lt_of_le_of_ne hl.seen (fun he => hcount (by rw [he]))
        have hwoken := hl.woken
        refine ⟨hl.below,hl.owned,hl.completions,?_,?_,?_⟩
        · simp only [Function.update_self]
        · simp only [Function.update_self]
          omega
        · simp only [Function.update_self, le_refl]
      · rw [Function.update_of_ne hqp] at hq
        exact (h.live q cq' hq).frame le_rfl id rfl rfl (Function.update_of_ne hqp _ _) (Function.update_of_ne hqp _ _)
    · obtain ⟨old,hq,hold⟩ := hsame q cq₁ hq
      obtain ⟨old',hr,hold'⟩ := hsame r cq₂ hr
      exact h.unique q r old old' hq hr (hold.trans (he.trans hold'.symm))
    · dsimp only
      rw [h.last q]
      by_cases hqp : q = p
      · rw [hqp, Function.update_self, hcq]
        rfl
      · rw [Function.update_of_ne hqp]

theorem step_inv {a : Action κ} (h : Inv s) (hs : step s a = some t) : Inv t := by
  cases a with
  | event type eqe =>
    cases hs
    exact event_inv h type eqe
  | create context cqContext number =>
    rw [step] at hs
    split at hs
    · rename_i hfresh
      cases hs
      exact create_inv h hfresh cqContext
    · cases hs
  | createUnmapped context number destroyed =>
    rw [step] at hs
    split at hs
    · rename_i hfresh
      cases hs
      exact createUnmapped_inv h context hfresh destroyed
    · cases hs
  | destroy p destroyed =>
    obtain ⟨cq,hcq,rfl⟩ := Option.map_eq_some_iff.mp hs
    exact destroy_inv h hcq destroyed
  | createOther number =>
    rw [step] at hs
    split at hs
    · rename_i hfresh
      cases hs
      refine h.retable _ (fun p cq hp => ?_)
      exact (lookup_append hfresh _ rfl).trans (if_neg ((h.live p cq hp).number_ne hfresh))
    · cases hs
  | destroyOther number =>
    rw [step] at hs
    split at hs
    · cases hs
    · rename_i hother
      cases hs
      refine h.retable _ (fun p cq hp => lookup_remove (fun he => hother ?_))
      exact List.contains_iff_mem.mpr (he ▸ List.mem_map_of_mem (h.live p cq hp).owned)
  | get context =>
    cases hs
    exact get_inv h context

/-! ## Runs -/

/-- The kernel counts the completion events of each queue, and programs are woken for the queue made last, at most once for
each of its events, exactly while some came since they were last woken. -/
structure Wakes (s : State κ) : Prop where
  counts : ∀ p cq, s.cqs p = some cq → getCompletions s.fCqTable cq.handle = BitVec.ofNat 64 (s.fired p)
  once : ∀ p cq, s.cqs p = some cq → s.woken p ≤ s.seen p ∧ s.seen p ≤ s.fired p
  wakes : ∀ context p cqContext, (s.ibvGetCqEvent context).1 = some (p,cqContext) ↔
    p + 1 = s.next ∧ ∃ cq, s.cqs p = some cq ∧ cq.context = context ∧ cq.cqContext = cqContext ∧
      (s.fired p - s.seen p) % 2 ^ 64 ≠ 0

/-- Where a counter of 64 bits has come round. -/
theorem ofNat_ne_iff {m k : ℕ} (h : k ≤ m) : BitVec.ofNat 64 m ≠ BitVec.ofNat 64 k ↔ (m - k) % 2 ^ 64 ≠ 0 := by
  rw [not_iff_not, ← BitVec.toNat_inj, BitVec.toNat_ofNat, BitVec.toNat_ofNat]
  omega

theorem Inv.wakes (h : Inv s) : Wakes s where
  counts p cq hp := (h.live p cq hp).getCompletions
  once p cq hp := ⟨(h.live p cq hp).woken,(h.live p cq hp).seen⟩
  wakes context p cqContext := by
    obtain ⟨heq,hno⟩ | ⟨q,cq,hlast,hcq,hctx,hcount,heq⟩ := ibvGetCqEvent_cases h context
    · rw [heq]
      constructor
      · intro he
        cases he
      · rintro ⟨hmade,cq,hcq,hctx,-,hne⟩
        have hlast := (h.last p).mpr ⟨hmade,by rw [hcq]; rfl⟩
        have hsame := hno p cq hlast hcq hctx
        exact absurd hsame ((ofNat_ne_iff (h.live p cq hcq).seen).mpr hne)
    · rw [heq]
      constructor
      · intro he
        cases he
        exact ⟨((h.last p).mp hlast).1,cq,hcq,hctx,rfl,(ofNat_ne_iff (h.live _ cq hcq).seen).mp hcount⟩
      · rintro ⟨hmade,cq',hcq',-,hcontext,-⟩
        -- there is one queue made last
        obtain rfl : q = p := by
          have hq := ((h.last q).mp hlast).1
          omega
        rw [hcq] at hcq'
        cases hcq'
        rw [← hcontext]

theorem wakes_run (table : List MlxCQContext) (hr : Reach step Free (initial table : State κ) s) : Wakes s :=
  (hr.invariant (inv_initial table) (fun _ _ _ h _ hs => step_inv h hs)).wakes

/-- A queue of another process has number 1. Each of two contexts makes one, and the one made last gets two events. -/
def twoEvents : List (Action Bool) :=
  [.create false 5 2,.create true 6 3,.event 0 ⟨0,0,3,0,0⟩,.event 0 ⟨0,0,1,0,0⟩,.event 0 ⟨0,0,2,0,0⟩,
    .event 0 ⟨0,0,3,0,0⟩,.get false,.get true]

theorem wakes_run_twoEvents : ∃ s : State Bool, s.fired 0 = 1 ∧ s.woken 0 = 0 ∧ s.fired 1 = 2 ∧ s.woken 1 = 1 ∧
    (s.ibvGetCqEvent true).1 = none ∧ Wakes s := by
  refine ⟨_,?_,?_,?_,?_,?_,wakes_run [⟨1,0,0⟩] (reach_of_after twoEvents .start rfl)⟩
  · rfl
  · rfl
  · rfl
  · rfl
  · rfl

end AppleMCX.CompletionEvents
