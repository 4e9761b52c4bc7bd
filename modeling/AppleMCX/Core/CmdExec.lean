import AppleMCX.Core.Cmd
import AppleMCX.Interaction.Program

/-! # One command after the other

`MlxCmd::exec` with everything that it allocates, for calls that do not overlap. The
environment decides on allocations and mappings and answers the command or lets it time out.
-/
namespace AppleMCX.CmdExec
open Cmd Interaction

/-- The entity of a command, and memory and mapping of its mailbox for a direction and a block. -/
inductive Resource
  | ent (k : ℕ)
  | desc (k : ℕ) (out : Bool) (i : ℕ)
  | map (k : ℕ) (out : Bool) (i : ℕ)
  deriving DecidableEq, Repr

def Resource.entity : Resource → ℕ
  | .ent k => k
  | .desc k _ _ => k
  | .map k _ _ => k

/-- An entity is known by the number of entities before it. -/
structure State where
  fUp : Bool
  fQuarantined : Bool
  fMaxRegCmds : ℕ
  fBitmask : BitVec 32
  fToken : BitVec 8
  fPageLock : Bool
  fEntArr : ℕ → Option ℕ
  live : List Resource
  next : ℕ
  /-- The opcode and the slot of every command submitted. -/
  submitted : List (Opcode × ℕ)
  /-- The delivery and the outbox status of every command completed. -/
  completed : List (ℕ × ℕ)

/-- After `init` with a queue of `fMaxRegCmds + 1` slots. -/
def initial (fMaxRegCmds : ℕ) : State where
  fUp := true
  fQuarantined := false
  fMaxRegCmds
  fBitmask := BitVec.ofNat 32 (2 ^ fMaxRegCmds - 1)
  fToken := 0
  fPageLock := false
  fEntArr := fun _ => none
  live := []
  next := 0
  submitted := []
  completed := []

inductive Question
  | lockPage
  | mallocEnt
  | mailboxDesc
  | mlxMapDMAContiguous
  | wait (timeoutMs : ℕ)

/-- A command that completes leaves `status_own` and the first byte of the outbox. -/
abbrev Answer : Question → Type
  | .lockPage => Unit
  | .mallocEnt => Bool
  | .mailboxDesc => Bool
  | .mlxMapDMAContiguous => IOReturn
  | .wait _ => Option (BitVec 8 × BitVec 8)

abbrev CmdProg := Prog State Question Answer

def delivery (statusOwn : BitVec 8) : ℕ := (statusOwn >>> 1 &&& 0x7f).toNat

/-- A held lock is not taken, the ownership bit of a completed command is clear, and a command without a time
limit does not time out. `setMemoryDescriptor` has no code for a timeout. -/
def Allowed (s : State) : (q : Question) → Answer q → Prop
  | .lockPage, _ => s.fPageLock = false
  | .mallocEnt, _ => True
  | .mailboxDesc, _ => True
  | .mlxMapDMAContiguous, kr => kr ≠ IOReturn.timeout
  | .wait timeoutMs, none => timeoutMs ≠ 0
  | .wait _, some a => (a : BitVec 8 × BitVec 8).1 &&& 1 = 0

def effect (s : State) : (q : Question) → Answer q → State
  | .lockPage, _ => { s with fPageLock := true }
  | .wait _, some a => { s with completed :=
      s.completed ++ [(delivery (a : BitVec 8 × BitVec 8).1,(a : BitVec 8 × BitVec 8).2.toNat)] }
  | _, _ => s

def env : Env State Question Answer := ⟨Allowed,effect⟩

/-! ## Slots -/

namespace State

def idleSlot (s : State) : Option ℕ := (List.range 32).find? (fun bit => s.fBitmask.getLsbD bit)

def takeIdx (idx : ℕ) (s : State) : State := { s with fBitmask := s.fBitmask &&& ~~~(BitVec.twoPow 32 idx) }

def freeIdx (idx : ℕ) (s : State) : State := { s with fBitmask := s.fBitmask ||| BitVec.twoPow 32 idx }

def unlockPage (s : State) : State := { s with fPageLock := false }

def setEnt (idx : ℕ) (ent : Option ℕ) (s : State) : State := { s with fEntArr := Function.update s.fEntArr idx ent }

def acquire (r : Resource) (s : State) : State := { s with live := r :: s.live }

def release (r : Resource) (s : State) : State := { s with live := s.live.filter (fun x => x ≠ r) }

def releaseAll (rs : List Resource) (s : State) : State := rs.foldl (fun s r => s.release r) s

/-- Page commands unlock `fPageLock`, other commands return their slot. -/
def giveBack (cmd : CmdInOut) (idx : ℕ) (s : State) : State := if cmd.pageCommand then s.unlockPage else s.freeIdx idx

end State

def modify (f : State → State) : CmdProg Unit := Prog.modify f

/-- The slot of the command, or the code that `exec` returns without one. -/
def takeSlot (cmd : CmdInOut) : CmdProg (Except IOReturn ℕ) :=
  if cmd.pageCommand then do
    Prog.query Question.lockPage
    let s ← Prog.get
    if (s.fEntArr s.fMaxRegCmds).isSome then
      modify State.unlockPage
      pure (.error .busy)
    else pure (.ok s.fMaxRegCmds)
  else do
    let s ← Prog.get
    match s.idleSlot with
    | none => pure (.error .noSpace)
    | some bit =>
      modify (State.takeIdx bit)
      pure (.ok bit)

/-! ## Mailboxes -/

def blocks (cmd : CmdInOut) : List (Bool × ℕ) :=
  (List.range (numBlocks cmd.inSize)).map (fun i => (false,i)) ++ (List.range (numBlocks cmd.outSize)).map (fun i => (true,i))

/-- What `freeMailbox` releases, where it is there. -/
def mailboxes (k : ℕ) (bs : List (Bool × ℕ)) : List Resource := bs.flatMap (fun b => [.map k b.1 b.2,.desc k b.1 b.2])

def freeMailbox (k : ℕ) (cmd : CmdInOut) : State → State := State.releaseAll (mailboxes k (blocks cmd))

def allocBlocks (k : ℕ) (cmd : CmdInOut) : List (Bool × ℕ) → CmdProg IOReturn
  | [] => pure .success
  | b :: bs => do
    let desc ← Prog.query Question.mailboxDesc
    if !desc then
      modify (freeMailbox k cmd)
      pure .noMemory
    else
    modify (State.acquire (.desc k b.1 b.2))
    let kr ← Prog.query Question.mlxMapDMAContiguous
    if kr ≠ .success then
      modify (freeMailbox k cmd)
      pure kr
    else
    modify (State.acquire (.map k b.1 b.2))
    allocBlocks k cmd bs

def allocMailbox (k : ℕ) (cmd : CmdInOut) : CmdProg IOReturn :=
  if numBlocks cmd.inSize > maxBlocks ∨ numBlocks cmd.outSize > maxBlocks then pure .noSpace
  else allocBlocks k cmd (blocks cmd)

/-! ## The call -/

def submit (idx : ℕ) (cmd : CmdInOut) : CmdProg Unit :=
  modify (fun s => { s with submitted := s.submitted ++ [(cmd.opcode,idx)] })

def discard (k idx : ℕ) (cmd : CmdInOut) (kr : IOReturn) : CmdProg IOReturn := do
  modify (State.giveBack cmd idx)
  modify (State.setEnt idx none)
  modify (State.release (.ent k))
  pure kr

/-- From the submission on. -/
def complete (k idx : ℕ) (cmd : CmdInOut) (timeoutMs : ℕ) : CmdProg IOReturn := do
  submit idx cmd
  let answer ← Prog.query (Question.wait timeoutMs)
  match answer with
  | none =>
    modify (fun s => { s with fQuarantined := true })
    modify (fun s => if cmd.pageCommand then s.unlockPage else s)
    pure .timeout
  | some (statusOwn,outbox) =>
    modify (freeMailbox k cmd)
    discard k idx cmd (Cmd.State.result (delivery statusOwn) outbox.toNat)

/-- From the slot on. -/
def execSlot (cmd : CmdInOut) (timeoutMs idx : ℕ) : CmdProg IOReturn := do
  let ok ← Prog.query Question.mallocEnt
  if !ok then
    modify (State.giveBack cmd idx)
    pure .noMemory
  else
  let s ← Prog.get
  modify (fun s => { s.acquire (.ent s.next) with next := s.next + 1 })
  modify (fun s => { s with fToken := s.fToken + 1 })
  modify (State.setEnt idx (some s.next))
  let kr ← allocMailbox s.next cmd
  if kr ≠ .success then discard s.next idx cmd kr
  else complete s.next idx cmd timeoutMs

def exec (cmd : Option CmdInOut) (timeoutMs : ℕ) : CmdProg IOReturn := do
  let s ← Prog.get
  if !s.fUp then pure .notReady else
  match cmd with
  | none => pure .badArgument
  | some cmd =>
  if s.fQuarantined ∧ !cmd.opcode.exempt then pure .notReady
  else if cmd.badArgument then pure .badArgument
  else
  let slot ← takeSlot cmd
  match slot with
  | .error kr => pure kr
  | .ok idx => execSlot cmd timeoutMs idx

structure Call where
  cmd : Option CmdInOut
  timeoutMs : ℕ
  deriving DecidableEq, Repr

def Call.run (call : Call) : CmdProg IOReturn := exec call.cmd call.timeoutMs

abbrev Calls (s₀ s : State) : Prop := Settled env Call.run (fun _ _ => True) s₀ s

/-! ## Mailboxes that are released -/

variable {cmd : CmdInOut} {s t u : State} {k idx timeoutMs : ℕ} {kr : IOReturn}

abbrev Ends {α : Type} (p : CmdProg α) (R : α → State → Prop) (s : State) : Prop :=
  Prog.Always env (fun _ => True) p R s

theorem releaseAll_eq (rs : List Resource) (s : State) :
    s.releaseAll rs = { s with live := s.live.filter (fun x => x ∉ rs) } := by
  induction rs generalizing s with
  | nil => simp [State.releaseAll]
  | cons r rs ih =>
    have hstep : s.releaseAll (r :: rs) = (s.release r).releaseAll rs := rfl
    have hlive : (s.live.filter (fun x => x ≠ r)).filter (fun x => x ∉ rs) = s.live.filter (fun x => x ∉ r :: rs) := by
      rw [List.filter_filter]
      apply List.filter_congr
      intro x _
      simp [Bool.and_comm]
    rw [hstep, ih]
    unfold State.release
    rw [hlive]

theorem filter_released {l base rs : List Resource} (hl : ∀ r ∈ l, r ∈ rs) (hbase : ∀ r ∈ base, r ∉ rs) :
    (l ++ base).filter (fun x => x ∉ rs) = base := by
  rw [List.filter_append]
  have hnone : l.filter (fun x => x ∉ rs) = [] := by
    apply List.filter_eq_nil_iff.mpr
    intro r hr
    simp [hl r hr]
  have hall : base.filter (fun x => x ∉ rs) = base := by
    apply List.filter_eq_self.mpr
    intro r hr
    simp [hbase r hr]
  rw [hnone, hall, List.nil_append]

theorem mailboxes_entity {bs : List (Bool × ℕ)} {r : Resource} (h : r ∈ mailboxes k bs) :
    r.entity = k ∧ r ≠ .ent k := by
  obtain ⟨b,-,hr⟩ := List.mem_flatMap.mp h
  simp only [List.mem_cons, List.not_mem_nil, or_false] at hr
  rcases hr with rfl | rfl
  · exact ⟨rfl,by simp⟩
  · exact ⟨rfl,by simp⟩

theorem mem_mailboxes {bs : List (Bool × ℕ)} {b : Bool × ℕ} (h : b ∈ bs) :
    .map k b.1 b.2 ∈ mailboxes k bs ∧ .desc k b.1 b.2 ∈ mailboxes k bs := by
  constructor
  · exact List.mem_flatMap.mpr ⟨b,h,by simp⟩
  · exact List.mem_flatMap.mpr ⟨b,h,by simp⟩

/-- A code that `exec` returns on its ways out without a completion. -/
def Failure (kr : IOReturn) : Prop := kr ≠ .success ∧ kr ≠ .timeout

/-- Either all mailboxes are there, or none of those that were allocated. -/
theorem allocBlocks_ends {bs : List (Bool × ℕ)} {l base : List Resource} (hbs : ∀ b ∈ bs, b ∈ blocks cmd)
    (hlive : s.live = l ++ base) (hl : ∀ r ∈ l, r ∈ mailboxes k (blocks cmd))
    (hbase : ∀ r ∈ base, r ∉ mailboxes k (blocks cmd)) :
    Ends (allocBlocks k cmd bs) (fun kr t =>
      (kr = .success ∧ ∃ l', t = { s with live := l' ++ base } ∧ (∀ r ∈ l', r ∈ mailboxes k (blocks cmd)) ∧
        (∀ r ∈ l, r ∈ l') ∧ ∀ r ∈ mailboxes k bs, r ∈ l') ∨
      (Failure kr ∧ t = { s with live := base })) s := by
  have hfree : ∀ (u : State) (m : List Resource), u = { s with live := m ++ base } →
    (∀ r ∈ m, r ∈ mailboxes k (blocks cmd)) →
      freeMailbox k cmd u = { s with live := base } := by
    intro u m hu hm
    unfold freeMailbox
    rw [releaseAll_eq, hu]
    dsimp only
    rw [filter_released hm hbase]
  have hself : s = { s with live := l ++ base } := by rw [← hlive]
  induction bs generalizing s l with
  | nil =>
    refine ⟨trivial,.inl ⟨rfl,l,hself,hl,fun r hr => hr,?_⟩⟩
    intro r hr
    cases hr
  | cons b bs ih =>
    have hb := hbs b List.mem_cons_self
    have hmem := mem_mailboxes (k := k) hb
    refine ⟨trivial,fun desc _ => ?_⟩
    cases desc with
    | false => exact ⟨trivial,trivial,.inr ⟨by constructor <;> decide,hfree s l hself hl⟩⟩
    | true =>
      have hdesc : ∀ r ∈ Resource.desc k b.1 b.2 :: l, r ∈ mailboxes k (blocks cmd) := by
        intro r hr
        rcases List.mem_cons.mp hr with rfl | hr
        · exact hmem.2
        · exact hl r hr
      have hmap : ∀ r ∈ Resource.map k b.1 b.2 :: Resource.desc k b.1 b.2 :: l, r ∈ mailboxes k (blocks cmd) := by
        intro r hr
        rcases List.mem_cons.mp hr with rfl | hr
        · exact hmem.1
        · exact hdesc r hr
      refine ⟨trivial,trivial,fun kr hkr => ?_⟩
      by_cases hsucc : kr = .success
      · subst hsucc
        refine ⟨trivial,?_⟩
        have hrest := ih (s := { s with live := Resource.map k b.1 b.2 :: Resource.desc k b.1 b.2 :: l ++ base })
          (l := Resource.map k b.1 b.2 :: Resource.desc k b.1 b.2 :: l) (fun c hc => hbs c (List.mem_cons_of_mem _ hc)) rfl hmap
          (fun u m hu hm => hfree u m hu hm) rfl
        have hnext : ((s.acquire (.desc k b.1 b.2)).acquire (.map k b.1 b.2)) =
            { s with live := Resource.map k b.1 b.2 :: Resource.desc k b.1 b.2 :: l ++ base } := by
          unfold State.acquire
          rw [hlive]
          rfl
        show Ends (allocBlocks k cmd bs) _ ((s.acquire (.desc k b.1 b.2)).acquire (.map k b.1 b.2))
        rw [hnext]
        refine hrest.mono (fun kr t _ hR => ?_)
        rcases hR with ⟨hkr,l',ht,hl',hold,hnew⟩ | ⟨hkr,ht⟩
        · refine .inl ⟨hkr,l',ht,hl',fun r hr => hold r (by simp [hr]),fun r hr => ?_⟩
          obtain ⟨c,hc,hrc⟩ := List.mem_flatMap.mp hr
          rcases List.mem_cons.mp hc with rfl | hc
          · apply hold
            simp only [List.mem_cons, List.not_mem_nil, or_false] at hrc
            rcases hrc with rfl | rfl
            · exact List.mem_cons_self
            · exact List.mem_cons_of_mem _ List.mem_cons_self
          · exact hnew r (List.mem_flatMap.mpr ⟨c,hc,hrc⟩)
        · exact .inr ⟨hkr,ht⟩
      · have hfailed := hfree (s.acquire (.desc k b.1 b.2)) (Resource.desc k b.1 b.2 :: l) (by
          unfold State.acquire
          rw [hlive]
          rfl) hdesc
        show Ends (if kr ≠ .success then _ else _) _ _
        rw [if_pos hsucc]
        exact ⟨trivial,trivial,.inr ⟨⟨hsucc,hkr⟩,hfailed⟩⟩

theorem allocMailbox_ends (hbase : ∀ r ∈ s.live, r ∉ mailboxes k (blocks cmd)) :
    Ends (allocMailbox k cmd) (fun kr t =>
      (kr = .success ∧ ∃ l, t = { s with live := l ++ s.live } ∧ (∀ r ∈ l, r ∈ mailboxes k (blocks cmd)) ∧
        ∀ r ∈ mailboxes k (blocks cmd), r ∈ l) ∨
      (Failure kr ∧ t = s)) s := by
  unfold allocMailbox
  split
  · exact ⟨trivial,.inr ⟨by constructor <;> decide,rfl⟩⟩
  · have hends : Ends (allocBlocks k cmd (blocks cmd)) _ s := allocBlocks_ends (l := []) (fun _ hb => hb) rfl
      (fun _ hr => by cases hr) hbase
    refine hends.mono (fun kr t _ hR => ?_)
    rcases hR with ⟨hkr,l,ht,hl,-,hall⟩ | hfail
    · exact .inl ⟨hkr,l,ht,hl,hall⟩
    · exact .inr hfail

/-! ## What a call does -/

structure Slot (cmd : CmdInOut) (idx : ℕ) (s : State) : Prop where
  page : cmd.pageCommand = true → idx = s.fMaxRegCmds
  bit : cmd.pageCommand = false → s.fBitmask.getLsbD idx = true
  empty : s.fEntArr idx = none

def taken (cmd : CmdInOut) (idx : ℕ) (s : State) : State :=
  if cmd.pageCommand then { s with fPageLock := true } else s.takeIdx idx

def Admitted (cmd : CmdInOut) (s : State) : Prop := s.fQuarantined = true → cmd.opcode.exempt = true

/-- The state after the call in terms of the one before. -/
inductive Result : Option CmdInOut → State → IOReturn → State → Prop where
  | refused {c : Option CmdInOut} {s : State} {kr : IOReturn} (hkr : Failure kr) : Result c s kr s
  | unmapped {cmd : CmdInOut} {s : State} {kr : IOReturn} (hkr : Failure kr) :
      Result (some cmd) s kr { s with next := s.next + 1, fToken := s.fToken + 1 }
  | completed {cmd : CmdInOut} {s : State} {idx : ℕ} (d o : ℕ) (hslot : Slot cmd idx s) (hadm : Admitted cmd s) :
      Result (some cmd) s (Cmd.State.result d o) { s with
        next := s.next + 1
        fToken := s.fToken + 1
        submitted := s.submitted ++ [(cmd.opcode,idx)]
        completed := s.completed ++ [(d,o)] }
  | timedOut {cmd : CmdInOut} {s : State} {idx : ℕ} {l : List Resource} (hslot : Slot cmd idx s) (hadm : Admitted cmd s)
      (hl : ∀ r ∈ l, r ∈ mailboxes s.next (blocks cmd)) (hall : ∀ r ∈ mailboxes s.next (blocks cmd), r ∈ l) :
      Result (some cmd) s .timeout { s with
        next := s.next + 1
        fToken := s.fToken + 1
        fBitmask := (taken cmd idx s).fBitmask
        fEntArr := Function.update s.fEntArr idx (some s.next)
        live := l ++ .ent s.next :: s.live
        submitted := s.submitted ++ [(cmd.opcode,idx)]
        fQuarantined := true }

/-- Between two calls. -/
structure Inv (s : State) : Prop where
  lock : s.fPageLock = false
  idle : ∀ b, s.fBitmask.getLsbD b = true → b < s.fMaxRegCmds ∧ s.fEntArr b = none
  live : ∀ r ∈ s.live, r.entity < s.next
  slots : ∀ p ∈ s.submitted, p.2 = s.fMaxRegCmds ↔ p.1 = .managePages

theorem giveBack_taken (h : Inv s) (hslot : Slot cmd idx s) : (taken cmd idx s).giveBack cmd idx = s := by
  unfold taken State.giveBack
  cases hp : cmd.pageCommand with
  | true =>
    have hlock := h.lock
    simp only [if_true, State.unlockPage]
    rw [← hlock]
  | false =>
    have hbit := hslot.bit hp
    have hmask : s.fBitmask &&& ~~~(BitVec.twoPow 32 idx) ||| BitVec.twoPow 32 idx = s.fBitmask := by
      apply BitVec.eq_of_getLsbD_eq
      intro i hi
      simp only [BitVec.getLsbD_or, BitVec.getLsbD_and, BitVec.getLsbD_not, BitVec.getLsbD_twoPow, hi, decide_true, Bool.true_and]
      by_cases he : idx = i
      · subst he
        simp [hbit]
      · simp [he]
    simp only [Bool.false_eq_true, if_false, State.takeIdx, State.freeIdx]
    rw [hmask]

theorem idleSlot_bit {bit : ℕ} (h : s.idleSlot = some bit) : s.fBitmask.getLsbD bit = true := by
  have hfound := List.find?_some h
  exact hfound

theorem takeSlot_ends (h : Inv s) : Ends (takeSlot cmd) (fun slot t =>
    match slot with
    | .error kr => Failure kr ∧ t = s
    | .ok idx => Slot cmd idx s ∧ t = taken cmd idx s) s := by
  unfold takeSlot
  split
  · rename_i hp
    refine ⟨trivial,fun _ _ => ?_⟩
    show Ends (if (s.fEntArr s.fMaxRegCmds).isSome then _ else _) _ _
    split
    · refine ⟨trivial,trivial,by constructor <;> decide,?_⟩
      have hlock := h.lock
      show { s with fPageLock := false } = s
      rw [← hlock]
    · rename_i hnone
      refine ⟨trivial,⟨fun _ => rfl,fun hf => absurd hf (by simp [hp]),?_⟩,?_⟩
      · exact Option.not_isSome_iff_eq_none.mp hnone
      · unfold taken
        rw [if_pos hp]
        rfl
  · rename_i hp
    show Ends (match s.idleSlot with | none => _ | some bit => _) _ _
    split
    · exact ⟨trivial,by constructor <;> decide,rfl⟩
    · rename_i bit hidle
      have hbit := idleSlot_bit hidle
      refine ⟨trivial,trivial,⟨fun hf => absurd hf hp,fun _ => hbit,(h.idle bit hbit).2⟩,?_⟩
      unfold taken
      rw [if_neg hp]

theorem taken_fields (cmd : CmdInOut) (idx : ℕ) (s : State) : taken cmd idx s =
    { s with fBitmask := (taken cmd idx s).fBitmask, fPageLock := (taken cmd idx s).fPageLock } := by
  unfold taken
  split <;> rfl

theorem result_not_timeout (d o : ℕ) : Cmd.State.result d o ≠ .timeout := by
  unfold Cmd.State.result
  split
  · decide
  · split <;> decide

theorem result_success {d o : ℕ} : Cmd.State.result d o = .success ↔ d = 0 ∧ o = 0 := by
  unfold Cmd.State.result
  constructor
  · intro h
    split at h
    · cases h
    · rename_i hd
      refine ⟨not_not.mp hd,?_⟩
      split at h <;> first | rfl | cases h
  · rintro ⟨rfl,rfl⟩
    rfl

def opened (cmd : CmdInOut) (idx : ℕ) (s : State) : State :=
  { s with
    fBitmask := (taken cmd idx s).fBitmask
    fPageLock := (taken cmd idx s).fPageLock
    fToken := s.fToken + 1
    fEntArr := Function.update s.fEntArr idx (some s.next)
    live := .ent s.next :: s.live
    next := s.next + 1 }

theorem discard_ends (h : Inv s) (hslot : Slot cmd idx s) {R : IOReturn → State → Prop}
    (hbit : u.fBitmask = (taken cmd idx s).fBitmask) (hlock : u.fPageLock = (taken cmd idx s).fPageLock)
    (hent : u.fEntArr = Function.update s.fEntArr idx (some s.next)) (hlive : u.live = .ent s.next :: s.live)
    (hR : R kr { u with fBitmask := s.fBitmask, fPageLock := s.fPageLock, fEntArr := s.fEntArr, live := s.live }) :
    Ends (discard s.next idx cmd kr) R u := by
  have hgive : u.giveBack cmd idx = { u with fBitmask := s.fBitmask, fPageLock := s.fPageLock } := by
    have htaken := giveBack_taken h hslot
    unfold State.giveBack at htaken ⊢
    split at htaken
    · rw [if_pos ‹_›]
      have hb := congrArg State.fBitmask htaken
      simp only [State.unlockPage] at hb ⊢
      rw [h.lock, ← hb, ← hbit]
    · rw [if_neg ‹_›]
      have hb := congrArg State.fBitmask htaken
      have hl := congrArg State.fPageLock htaken
      simp only [State.freeIdx] at hb hl ⊢
      rw [hbit, hb, ← hl, ← hlock]
  have hclear : Function.update (Function.update s.fEntArr idx (some s.next)) idx none = s.fEntArr := by
    rw [Function.update_idem, ← hslot.empty, Function.update_eq_self]
  have hfree : (Resource.ent s.next :: s.live).filter (fun x => x ≠ .ent s.next) = s.live := by
    rw [List.filter_cons_of_neg (by simp)]
    apply List.filter_eq_self.mpr
    intro r hr
    have hlt := h.live r hr
    have hne : r ≠ .ent s.next := by
      intro he
      rw [he] at hlt
      exact Nat.lt_irrefl _ hlt
    simpa using hne
  have hend : ((u.giveBack cmd idx).setEnt idx none).release (.ent s.next) =
      { u with fBitmask := s.fBitmask, fPageLock := s.fPageLock, fEntArr := s.fEntArr, live := s.live } := by
    rw [hgive]
    unfold State.setEnt State.release
    dsimp only
    rw [hent, hclear, hlive, hfree]
  refine ⟨trivial,trivial,trivial,trivial,?_⟩
  rw [hend]
  exact hR

theorem complete_ends (h : Inv s) (hslot : Slot cmd idx s) (hadm : Admitted cmd s) {l : List Resource}
    (hl : ∀ r ∈ l, r ∈ mailboxes s.next (blocks cmd)) (hall : ∀ r ∈ mailboxes s.next (blocks cmd), r ∈ l) :
    Ends (complete s.next idx cmd timeoutMs) (Result (some cmd) s)
      { opened cmd idx s with live := l ++ .ent s.next :: s.live } := by
  have hbase : ∀ r ∈ Resource.ent s.next :: s.live, r ∉ mailboxes s.next (blocks cmd) := by
    intro r hr hmem
    obtain ⟨hentity,hne⟩ := mailboxes_entity hmem
    rcases List.mem_cons.mp hr with rfl | hr
    · exact hne rfl
    · have hlt := h.live r hr
      omega
  refine ⟨trivial,trivial,fun answer _ => ?_⟩
  cases answer with
  | none =>
    refine ⟨trivial,trivial,trivial,?_⟩
    have htimed := Result.timedOut hslot hadm hl hall
    have hlock : (taken cmd idx s).fPageLock = cmd.pageCommand := by
      unfold taken
      split
      · rename_i hp
        rw [hp]
      · rename_i hp
        rw [show (s.takeIdx idx).fPageLock = s.fPageLock from rfl, h.lock]
        simpa using hp
    convert htimed using 1
    have hunlocked := h.lock
    unfold opened
    cases hp : cmd.pageCommand with
    | true =>
      simp only [if_true, State.unlockPage]
      rw [hunlocked]
      rfl
    | false =>
      simp only [Bool.false_eq_true, if_false]
      rw [hlock, hp, hunlocked]
      rfl
  | some answer =>
    obtain ⟨statusOwn,outbox⟩ := answer
    refine ⟨trivial,?_⟩
    apply discard_ends h hslot
    · unfold freeMailbox
      rw [releaseAll_eq]
      rfl
    · unfold freeMailbox
      rw [releaseAll_eq]
      rfl
    · unfold freeMailbox
      rw [releaseAll_eq]
      rfl
    · unfold freeMailbox
      rw [releaseAll_eq]
      exact filter_released hl hbase
    · unfold freeMailbox
      rw [releaseAll_eq]
      exact Result.completed _ _ hslot hadm

theorem execSlot_ends (h : Inv s) (hslot : Slot cmd idx s) (hadm : Admitted cmd s) :
    Ends (execSlot cmd timeoutMs idx) (Result (some cmd) s) (taken cmd idx s) := by
  refine ⟨trivial,fun ok _ => ?_⟩
  cases ok with
  | false =>
    refine ⟨trivial,trivial,?_⟩
    show Result (some cmd) s _ ((taken cmd idx s).giveBack cmd idx)
    rw [giveBack_taken h hslot]
    exact Result.refused (by constructor <;> decide)
  | true =>
    have hnext : (taken cmd idx s).next = s.next := by rw [taken_fields]
    have hopened : (({ (taken cmd idx s).acquire (.ent (taken cmd idx s).next) with
        next := (taken cmd idx s).next + 1
        fToken := (taken cmd idx s).fToken + 1 } : State).setEnt idx (some (taken cmd idx s).next)) = opened cmd idx s := by
      rw [taken_fields]
      rfl
    refine ⟨trivial,trivial,trivial,?_⟩
    show Ends (Prog.bind (allocMailbox (taken cmd idx s).next cmd) (fun kr =>
        if kr ≠ .success then discard (taken cmd idx s).next idx cmd kr
        else complete (taken cmd idx s).next idx cmd timeoutMs)) _
      (({ (taken cmd idx s).acquire (.ent (taken cmd idx s).next) with
        next := (taken cmd idx s).next + 1
        fToken := (taken cmd idx s).fToken + 1 } : State).setEnt idx (some (taken cmd idx s).next))
    rw [hopened, hnext]
    apply Prog.Always.bind (M := fun kr t =>
      (kr = .success ∧ ∃ l, t = { opened cmd idx s with live := l ++ .ent s.next :: s.live } ∧
        (∀ r ∈ l, r ∈ mailboxes s.next (blocks cmd)) ∧ ∀ r ∈ mailboxes s.next (blocks cmd), r ∈ l) ∨
      (Failure kr ∧ t = opened cmd idx s))
    · apply allocMailbox_ends
      intro r hr hmem
      obtain ⟨hentity,hne⟩ := mailboxes_entity hmem
      rcases List.mem_cons.mp hr with rfl | hr
      · exact hne rfl
      · have hlt := h.live r hr
        omega
    · intro kr t _ hkr
      rcases hkr with ⟨rfl,l,rfl,hl,hall⟩ | ⟨hfail,rfl⟩
      · rw [if_neg (fun hne => hne rfl)]
        exact complete_ends h hslot hadm hl hall
      · rw [if_pos hfail.1]
        exact discard_ends h hslot rfl rfl rfl rfl (Result.unmapped hfail)

theorem exec_ends (h : Inv s) (c : Option CmdInOut) : Ends (exec c timeoutMs) (Result c s) s := by
  show Ends (if !s.fUp then _ else _) _ _
  split
  · exact ⟨trivial,Result.refused (by constructor <;> decide)⟩
  · cases c with
    | none => exact ⟨trivial,Result.refused (by constructor <;> decide)⟩
    | some cmd =>
      show Ends (if s.fQuarantined ∧ !cmd.opcode.exempt then _ else _) _ _
      split
      · exact ⟨trivial,Result.refused (by constructor <;> decide)⟩
      · rename_i hq
        have hadm : Admitted cmd s := by
          intro hquar
          by_contra hex
          exact hq ⟨hquar,by simpa using hex⟩
        split
        · exact ⟨trivial,Result.refused (by constructor <;> decide)⟩
        · apply Prog.Always.bind (takeSlot_ends h)
          intro slot t _ hslot
          cases slot with
          | error kr =>
            obtain ⟨hfail,rfl⟩ := hslot
            exact ⟨trivial,Result.refused hfail⟩
          | ok idx =>
            obtain ⟨hslot,rfl⟩ := hslot
            exact execSlot_ends h hslot hadm

/-! ## Sequences of calls -/

variable {c c' : Option CmdInOut}

theorem inv_initial (fMaxRegCmds : ℕ) : Inv (initial fMaxRegCmds) where
  lock := rfl
  idle := by
    intro b hb
    refine ⟨?_,rfl⟩
    simp only [initial, BitVec.getLsbD_ofNat, Nat.testBit_two_pow_sub_one, Bool.and_eq_true, decide_eq_true_eq] at hb
    exact hb.2
  live := fun r hr => by cases hr
  slots := fun p hp => by cases hp

theorem Slot.last (h : Inv s) (hslot : Slot cmd idx s) : idx = s.fMaxRegCmds ↔ cmd.opcode = .managePages := by
  cases hp : cmd.pageCommand with
  | true => exact ⟨fun _ => by simpa [CmdInOut.pageCommand] using hp,fun _ => hslot.page hp⟩
  | false =>
    have hlt := (h.idle idx (hslot.bit hp)).1
    constructor
    · intro he
      omega
    · intro hop
      simp [CmdInOut.pageCommand, hop] at hp

/-- A slot that is taken is not idle, and nothing else becomes idle. -/
theorem taken_bit (h : Inv s) (hslot : Slot cmd idx s) {b : ℕ} (hb : (taken cmd idx s).fBitmask.getLsbD b = true) :
    s.fBitmask.getLsbD b = true ∧ b ≠ idx := by
  unfold taken at hb
  split at hb
  · rename_i hp
    refine ⟨hb,fun he => ?_⟩
    have hlt := (h.idle b hb).1
    rw [he, hslot.page hp] at hlt
    exact Nat.lt_irrefl _ hlt
  · simp only [State.takeIdx, BitVec.getLsbD_and, BitVec.getLsbD_not, BitVec.getLsbD_twoPow, Bool.and_eq_true] at hb
    refine ⟨hb.1,fun he => ?_⟩
    subst he
    simp at hb
    omega

theorem result_inv (h : Inv s) (hr : Result c s kr t) : Inv t := by
  have hslots : ∀ {cmd idx}, Slot cmd idx s → ∀ p ∈ s.submitted ++ [(cmd.opcode,idx)], p.2 = s.fMaxRegCmds ↔
    p.1 = .managePages := by
    intro cmd idx hslot p hp
    rcases List.mem_append.mp hp with hp | hp
    · exact h.slots p hp
    · rw [List.mem_singleton.mp hp]
      exact hslot.last h
  cases hr with
  | refused hkr => exact h
  | unmapped hkr => exact ⟨h.lock,h.idle,fun r hr => Nat.lt_succ_of_lt (h.live r hr),h.slots⟩
  | completed d o hslot hadm => exact ⟨h.lock,h.idle,fun r hr => Nat.lt_succ_of_lt (h.live r hr),hslots hslot⟩
  | timedOut hslot hadm hl hall =>
    refine ⟨h.lock,fun b hb => ?_,fun r hr => ?_,hslots hslot⟩
    · obtain ⟨hbit,hne⟩ := taken_bit h hslot hb
      refine ⟨(h.idle b hbit).1,?_⟩
      dsimp only
      rw [Function.update_of_ne hne]
      exact (h.idle b hbit).2
    · dsimp only
      rcases List.mem_append.mp hr with hr | hr
      · rw [(mailboxes_entity (hl r hr)).1]
        exact Nat.lt_succ_self _
      · rcases List.mem_cons.mp hr with rfl | hr
        · exact Nat.lt_succ_self _
        · exact Nat.lt_succ_of_lt (h.live r hr)

theorem returns_result (h : Inv s) (hr : Prog.Returns env (exec c timeoutMs) s kr t) : Result c s kr t :=
  (exec_ends h c).returns hr

theorem calls_inv (h : Inv s) (hcalls : Calls s t) : Inv t :=
  hcalls.invariant h (fun _ _ hJ _ _ _ hr => result_inv hJ (returns_result hJ hr))

/-- A slot that a timeout left behind, with the entity and the mailboxes of its command. -/
structure Held (idx k : ℕ) (cmd : CmdInOut) (s : State) : Prop where
  quarantined : s.fQuarantined = true
  entry : s.fEntArr idx = some k
  bit : s.fBitmask.getLsbD idx = false
  ent : .ent k ∈ s.live
  mailboxes : ∀ r ∈ mailboxes k (blocks cmd), r ∈ s.live

theorem timedOut_held (h : Inv s) (hslot : Slot cmd idx s) {l : List Resource}
    (hall : ∀ r ∈ mailboxes s.next (blocks cmd), r ∈ l) : Held idx s.next cmd { s with
      next := s.next + 1
      fToken := s.fToken + 1
      fBitmask := (taken cmd idx s).fBitmask
      fEntArr := Function.update s.fEntArr idx (some s.next)
      live := l ++ .ent s.next :: s.live
      submitted := s.submitted ++ [(cmd.opcode,idx)]
      fQuarantined := true } where
  quarantined := rfl
  entry := Function.update_self _ _ _
  bit := by
    by_contra hbit
    exact (taken_bit h hslot (by simpa using hbit)).2 rfl
  ent := List.mem_append_right _ List.mem_cons_self
  mailboxes := fun r hr => List.mem_append_left _ (hall r hr)

theorem Result.held (hr : Result c s kr t) (h : Inv s) (hheld : Held idx k cmd s) :
    Held idx k cmd t ∧ ∃ l, t.submitted = s.submitted ++ l ∧ ∀ p ∈ l, p.1.exempt = true ∧ p.2 ≠ idx := by
  have hother : ∀ {cmd j}, Slot cmd j s → Admitted cmd s → ∀ p ∈ [(cmd.opcode,j)], p.1.exempt = true ∧
    p.2 ≠ idx := by
    intro cmd j hslot hadm p hp
    rw [List.mem_singleton.mp hp]
    refine ⟨hadm hheld.quarantined,fun he => ?_⟩
    have hempty := hslot.empty
    dsimp only at he
    rw [he, hheld.entry] at hempty
    cases hempty
  cases hr with
  | refused hkr => exact ⟨hheld,[],(List.append_nil _).symm,fun p hp => by cases hp⟩
  | unmapped hkr =>
    exact ⟨⟨hheld.quarantined,hheld.entry,hheld.bit,hheld.ent,hheld.mailboxes⟩,
      [],(List.append_nil _).symm,fun p hp => by cases hp⟩
  | completed d o hslot hadm =>
    exact ⟨⟨hheld.quarantined,hheld.entry,hheld.bit,hheld.ent,hheld.mailboxes⟩,_,rfl,hother hslot hadm⟩
  | timedOut hslot hadm hl hall =>
    have hne := (hother hslot hadm _ (List.mem_singleton.mpr rfl)).2
    refine ⟨⟨rfl,?_,?_,?_,?_⟩,_,rfl,hother hslot hadm⟩
    · dsimp only
      rw [Function.update_of_ne (Ne.symm hne)]
      exact hheld.entry
    · by_contra hbit
      have hold := (taken_bit h hslot (by simpa using hbit)).1
      rw [hheld.bit] at hold
      cases hold
    · exact List.mem_append_right _ (List.mem_cons_of_mem _ hheld.ent)
    · exact fun r hr => List.mem_append_right _ (List.mem_cons_of_mem _ (hheld.mailboxes r hr))

theorem calls_held (h : Inv s) (hheld : Held idx k cmd s) (hcalls : Calls s t) :
    Held idx k cmd t ∧ ∃ l, t.submitted = s.submitted ++ l ∧ ∀ p ∈ l, p.1.exempt = true ∧ p.2 ≠ idx := by
  have hend := hcalls.invariant (J := fun t => Inv t ∧ Held idx k cmd t ∧
    ∃ l, t.submitted = s.submitted ++ l ∧ ∀ p ∈ l, p.1.exempt = true ∧ p.2 ≠ idx)
    ⟨h,hheld,[],(List.append_nil _).symm,fun p hp => by cases hp⟩ ?_
  · exact hend.2
  · rintro call u ⟨hinv,hu,l,hl,hexempt⟩ _ kr v hr
    have hresult := returns_result hinv hr
    obtain ⟨hv,m,hm,hmexempt⟩ := hresult.held hinv hu
    refine ⟨result_inv hinv hresult,hv,l ++ m,by rw [hm, hl, List.append_assoc],fun p hp => ?_⟩
    rcases List.mem_append.mp hp with hp | hp
    · exact hexempt p hp
    · exact hmexempt p hp

theorem Held.idleSlot_ne (h : Held idx k cmd s) : s.idleSlot ≠ some idx := by
  intro hidle
  have hbit := idleSlot_bit hidle
  rw [h.bit] at hbit
  cases hbit

/-! ## Accounting -/

/-- What the call `exec c` from `s` to `t` leaves behind, also for all calls that follow. -/
structure Accounted (c : Option CmdInOut) (s : State) (kr : IOReturn) (t : State) : Prop where
  kept : kr ≠ .timeout →
    t.fBitmask = s.fBitmask ∧ t.fEntArr = s.fEntArr ∧ t.fPageLock = s.fPageLock ∧ t.live = s.live
  lost : kr = .timeout → ∃ cmd idx, c = some cmd ∧ t.submitted = s.submitted ++ [(cmd.opcode,idx)] ∧
    ∀ u, Calls t u → Held idx s.next cmd u ∧ u.idleSlot ≠ some idx ∧
      ∃ l, u.submitted = t.submitted ++ l ∧ ∀ p ∈ l, p.1.exempt = true ∧ p.2 ≠ idx
  slots : ∀ p ∈ t.submitted, p.2 = t.fMaxRegCmds ↔ p.1 = .managePages
  success : kr = .success → t.completed = s.completed ++ [(0,0)]

theorem exec_accounted {fMaxRegCmds : ℕ} (h : Calls (initial fMaxRegCmds) s)
    (hr : Prog.Returns env (exec c timeoutMs) s kr t) : Accounted c s kr t := by
  have hinv := calls_inv (inv_initial fMaxRegCmds) h
  have hresult := returns_result hinv hr
  have ht := result_inv hinv hresult
  refine ⟨?_,?_,ht.slots,?_⟩
  · intro hkr
    cases hresult with
    | refused _ => exact ⟨rfl,rfl,rfl,rfl⟩
    | unmapped _ => exact ⟨rfl,rfl,rfl,rfl⟩
    | completed d o _ _ => exact ⟨rfl,rfl,rfl,rfl⟩
    | timedOut _ _ _ _ => exact absurd rfl hkr
  · intro hkr
    cases hresult with
    | refused hfail => exact absurd hkr hfail.2
    | unmapped hfail => exact absurd hkr hfail.2
    | completed d o _ _ => exact absurd hkr (result_not_timeout d o)
    | @timedOut cmd _ idx l hslot _ _ hall =>
      refine ⟨cmd,idx,rfl,rfl,fun u hu => ?_⟩
      obtain ⟨hlater,hsub⟩ := calls_held ht (timedOut_held hinv hslot hall) hu
      exact ⟨hlater,hlater.idleSlot_ne,hsub⟩
  · intro hkr
    cases hresult with
    | refused hfail => exact absurd hkr hfail.1
    | unmapped hfail => exact absurd hkr hfail.1
    | completed d o _ _ =>
      obtain ⟨rfl,rfl⟩ := result_success.mp hkr
      rfl
    | timedOut _ _ _ _ => cases hkr

/-- A page command that times out, on a queue of 32 slots. -/
def lostPageCommand : CmdInOut := ⟨.managePages,true,16,true,16⟩

theorem exec_accounted_lostPageCommand : ∃ t, Accounted (some lostPageCommand) (initial 31) .timeout t := by
  have hr : ∃ t, Prog.Returns env (exec (some lostPageCommand) 5000) (initial 31) .timeout t := by
    apply Exists.intro
    apply Prog.Returns.read
    apply Prog.Returns.ask (a := ()) rfl
    apply Prog.Returns.read
    apply Prog.Returns.ask (a := true) trivial
    apply Prog.Returns.read
    apply Prog.Returns.write
    apply Prog.Returns.write
    apply Prog.Returns.write
    apply Prog.Returns.write
    apply Prog.Returns.ask (a := none) (by decide : 5000 ≠ 0)
    apply Prog.Returns.write
    apply Prog.Returns.write
    exact .done _ _
  obtain ⟨t,hr⟩ := hr
  exact ⟨t,exec_accounted .start hr⟩

end AppleMCX.CmdExec
