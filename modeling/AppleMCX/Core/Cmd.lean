import AppleMCX.Core.Command
import AppleMCX.Interaction.Transition
import Mathlib.Algebra.Group.Nat.Defs
import Mathlib.Logic.Function.Basic

/-! # Concurrent command execution

`MlxCmd::exec` as the threads run it: every section under a lock and every single
assignment to what the threads share is one step. A call is known by its number, and its
entity and mailboxes by the call they were made for.
-/
namespace AppleMCX.Cmd
open Interaction

def dataBlockSize : ℕ := 512
def maxBlocks : ℕ := 8
def maxSize : ℕ := 16 + maxBlocks * dataBlockSize

/-- `MlxCmdInOut`; the two buffers only as far as they are given. -/
structure CmdInOut where
  opcode : Opcode
  hasIn : Bool
  inSize : ℕ
  hasOut : Bool
  outSize : ℕ
  deriving DecidableEq, Repr

def CmdInOut.pageCommand (cmd : CmdInOut) : Bool := cmd.opcode = .managePages

def CmdInOut.badArgument (cmd : CmdInOut) : Bool :=
  !cmd.hasIn ∨ cmd.inSize = 0 ∨ cmd.inSize > maxSize ∨ cmd.outSize > maxSize ∨ !cmd.hasOut ∨ cmd.outSize < 8

/-- `inNumBlocks` and `outNumBlocks` of a buffer. -/
def numBlocks (size : ℕ) : ℕ := if size > 16 then (size - 16 + dataBlockSize - 1) / dataBlockSize else 0

/-- A mailbox, by the call, the direction and the block it was allocated for. -/
structure Mailbox where
  call : ℕ
  out : Bool
  block : ℕ
  deriving DecidableEq, Repr

structure Ent where
  token : BitVec 8
  inMailbox : List Mailbox
  outMailbox : List Mailbox
  timedOut : Bool
  deriving DecidableEq, Repr

/-- Where a call stands in `exec`: the name is that of its next step. -/
inductive ExecPc
  | absent | lockPage | checkPage | allocIdx | allocEnt | abandon | token | store | allocMailbox | submit | wait
  | quarantine | unlockPage | timedOut | freeMailbox (kr : IOReturn) | release (kr : IOReturn)
  | clear (kr : IOReturn) | done (kr : IOReturn)
  deriving DecidableEq, Repr

structure Call where
  cmd : CmdInOut
  pc : ExecPc
  idx : ℕ
  ent : Ent
  deriving DecidableEq, Repr

/-- What `submit` took from `fEntArr`, beside the entity of the call that submits. -/
structure Submission where
  call : ℕ
  own : Ent
  used : Option Ent
  deriving DecidableEq, Repr

structure State where
  fUp : Bool
  fQuarantined : Bool
  fMaxRegCmds : ℕ
  fBitmask : BitVec 32
  fToken : BitVec 8
  fPageLock : Option ℕ
  fEntArr : ℕ → Option ℕ
  calls : ℕ → Call
  submitted : List Submission

def noEnt : Ent := ⟨0,[],[],false⟩

/-- After `init` with a queue of `fMaxRegCmds + 1` slots. -/
def initial (fMaxRegCmds : ℕ) : State where
  fUp := true
  fQuarantined := false
  fMaxRegCmds
  fBitmask := BitVec.ofNat 32 (2 ^ fMaxRegCmds - 1)
  fToken := 0
  fPageLock := none
  fEntArr := fun _ => none
  calls := fun _ => ⟨⟨.queryHcaCap,false,0,false,0⟩,.absent,0,noEnt⟩
  submitted := []

namespace State

def setCall (i : ℕ) (c : Call) (s : State) : State := { s with calls := Function.update s.calls i c }

def goto (i : ℕ) (pc : ExecPc) (s : State) : State := s.setCall i { s.calls i with pc }

def setEnt (i : ℕ) (ent : Ent) (pc : ExecPc) (s : State) : State := s.setCall i { s.calls i with ent, pc }

def idleSlot (s : State) : Option ℕ := (List.range 32).find? (fun bit => s.fBitmask.getLsbD bit)

def allocIdx (i : ℕ) (s : State) : State :=
  match s.idleSlot with
  | none => s.goto i (.done .noSpace)
  | some bit =>
    { s with fBitmask := s.fBitmask &&& ~~~(BitVec.twoPow 32 bit) }.setCall i
      { s.calls i with idx := bit, pc := .allocEnt }

def freeIdx (idx : ℕ) (s : State) : State := { s with fBitmask := s.fBitmask ||| BitVec.twoPow 32 idx }

/-- Page commands unlock `fPageLock`, other commands return their slot. -/
def release (i : ℕ) (s : State) : State :=
  if (s.calls i).cmd.pageCommand then { s with fPageLock := none } else s.freeIdx (s.calls i).idx

def mailboxes (i : ℕ) (out : Bool) (count : ℕ) : List Mailbox := (List.range count).map (fun block => ⟨i,out,block⟩)

/-- `none` where `exec` goes on to take a slot. -/
def refuses (cmd : Option CmdInOut) (s : State) : Option IOReturn :=
  if !s.fUp then some .notReady
  else match cmd with
    | none => some .badArgument
    | some cmd =>
      if s.fQuarantined ∧ !cmd.opcode.exempt then some .notReady
      else if cmd.badArgument then some .badArgument
      else none

/-- The checks at the entry of `exec`. -/
def enter (i : ℕ) (cmd : Option CmdInOut) (s : State) : Option State :=
  if (s.calls i).pc = .absent then
    match s.refuses cmd, cmd with
    | some kr, _ => some (s.goto i (.done kr))
    | none, none => none
    | none, some cmd =>
      some (s.setCall i ⟨cmd,if cmd.pageCommand then .lockPage else .allocIdx,0,noEnt⟩)
  else none

def result (delivery outbox : ℕ) : IOReturn :=
  if delivery ≠ 0 then .ioError else
  match outbox with
  | 0 => .success
  | 2 => .unsupported
  | 3 | 5 | 9 | 0x0a | 0x10 | 0x30 | 0x40 => .badArgument
  | 6 => .busy
  | 8 => .noResources
  | 4 => .notReady
  | 0x0f => .noSpace
  | _ => .ioError

end State

inductive Outcome
  | proceed
  | fail (kr : IOReturn)
  | complete (delivery outbox : ℕ)
  | timeout
  deriving DecidableEq, Repr

inductive Action
  | enter (i : ℕ) (cmd : Option CmdInOut)
  | exec (i : ℕ) (outcome : Outcome)

namespace State

def exec (i : ℕ) (outcome : Outcome) (s : State) : Option State :=
  let c := s.calls i
  match c.pc, outcome with
  | .lockPage, .proceed =>
    if s.fPageLock = none then
      some ({ s with fPageLock := some i }.setCall i { c with idx := s.fMaxRegCmds, pc := .checkPage })
    else none
  | .checkPage, .proceed =>
    if s.fEntArr c.idx = none then some (s.goto i .allocEnt)
    else some ({ s with fPageLock := none }.goto i (.done .busy))
  | .allocIdx, .proceed => some (s.allocIdx i)
  | .allocEnt, .proceed => some (s.goto i .token)
  | .allocEnt, .fail _ => some (s.goto i .abandon)
  | .abandon, .proceed => some ((s.release i).goto i (.done .noMemory))
  | .token, .proceed => some ({ s with fToken := s.fToken + 1 }.setEnt i { c.ent with token := s.fToken } .store)
  | .store, .proceed => some ({ s with fEntArr := Function.update s.fEntArr c.idx (some i) }.goto i .allocMailbox)
  | .allocMailbox, .proceed =>
    if numBlocks c.cmd.inSize > maxBlocks ∨ numBlocks c.cmd.outSize > maxBlocks then
      some (s.goto i (.release .noSpace))
    else
      some (s.setEnt i { c.ent with
        inMailbox := mailboxes i false (numBlocks c.cmd.inSize)
        outMailbox := mailboxes i true (numBlocks c.cmd.outSize) } .submit)
  | .allocMailbox, .fail kr => if kr = .success then none else some (s.goto i (.release kr))
  | .submit, .proceed =>
    some ({ s with submitted := s.submitted ++
      [(⟨i,c.ent,(s.fEntArr c.idx).map (fun j => (s.calls j).ent)⟩ : Submission)] }.goto i .wait)
  | .wait, .complete delivery outbox => some (s.goto i (.freeMailbox (result delivery outbox)))
  | .wait, .timeout => some (s.setEnt i { c.ent with timedOut := true } .quarantine)
  | .quarantine, .proceed =>
    some ({ s with fQuarantined := true }.goto i (if c.cmd.pageCommand then .unlockPage else .timedOut))
  | .unlockPage, .proceed => some ({ s with fPageLock := none }.goto i .timedOut)
  | .freeMailbox kr, .proceed => some (s.setEnt i { c.ent with inMailbox := [], outMailbox := [] } (.release kr))
  | .release kr, .proceed => some ((s.release i).goto i (.clear kr))
  | .clear kr, .proceed => some ({ s with fEntArr := Function.update s.fEntArr c.idx none }.goto i (.done kr))
  | _, _ => none

def step (s : State) : Action → Option State
  | .enter i cmd => s.enter i cmd
  | .exec i outcome => s.exec i outcome

end State
end AppleMCX.Cmd
