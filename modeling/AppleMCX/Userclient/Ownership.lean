import AppleMCX.Core.Command
import AppleMCX.Interaction.Transition
import AppleMCX.Ib.Verbs

/-! # Clients and the handles they own

`MlxUserClient` keeps the handles of its objects in tables of its own, while the contexts are
in tables of the device that are searched by number. A call takes its steps between those of
other calls: every section under `fOwnedLock` or under the lock of a device table is one, and
so is every firmware command and every access to a field without a lock.
-/
namespace AppleMCX.UserClient
open Interaction Verbs

inductive Kind
  | qp | cq | mr | ah
  deriving DecidableEq, Repr

instance : Fintype Kind := ⟨{.qp,.cq,.mr,.ah},fun k => by cases k <;> decide⟩

inductive QpState
  | rst | init | rtr | rts
  deriving DecidableEq, Repr

/-- `MlxQPContext`, `MlxCQContext`, `MlxMRContext` or `MlxAHContext`, with the client that it was created for. -/
structure Context (ι : Type) where
  handle : ℕ
  owner : ι
  state : QpState
  pkeyPort : ℕ
  path : ℕ
  logSize : ℕ
  consumerIndex : BitVec 32
  deriving DecidableEq

/-- What a command has created in the firmware and none has destroyed, with the client that it was created for
and the CQs of a QP. -/
structure Object (ι : Type) where
  handle : ℕ
  owner : ι
  sendCq : ℕ
  recvCq : ℕ
  deriving DecidableEq

structure CreateQpReq where
  pd : ℕ
  sendCq : ℕ
  recvCq : ℕ
  deriving DecidableEq, Repr

structure ModifyQpReq where
  qpn : ℕ
  curState : QpState
  newState : QpState
  pkeyPort : ℕ
  path : ℕ
  deriving DecidableEq, Repr

inductive Request
  | createQP (req : CreateQpReq)
  | modifyQP (req : ModifyQpReq)
  | destroyQP (qpn : ℕ)
  | createCQ (entries : ℕ)
  | destroyCQ (cqHandle : ℕ)
  | updateCqConsumer (cqHandle : ℕ) (consumerIndex : BitVec 32)
  | regMR
  | deregMR (mrHandle : ℕ)
  | createAH
  | destroyAH (ahHandle : ℕ)
  | clientClose
  deriving DecidableEq, Repr

/-- Why an object is destroyed: its context could not be recorded, its handle could not be recorded,
the client asked for it, or the client goes away. -/
inductive Why
  | rollback | undo | call | close
  deriving DecidableEq, Repr

inductive Put
  | created | busy
  | failed (kr : IOReturn)
  | modified (kr : IOReturn)
  deriving DecidableEq, Repr

structure Args where
  sendCq : ℕ
  recvCq : ℕ
  entries : ℕ
  deriving DecidableEq, Repr

/-- The next step of a call. -/
inductive Pc
  | returned (kr : IOReturn)
  | checkSend (sendCq recvCq : ℕ)
  | checkRecv (sendCq recvCq : ℕ)
  | create (k : Kind) (args : Args)
  | storeNext (h : BitVec 32)
  | record (k : Kind) (h : ℕ) (entries : ℕ)
  | add (put : Put) (k : Kind) (h : ℕ)
  | activate (h : ℕ)
  | take (k : Kind) (h : ℕ)
  | takeModify (req : ModifyQpReq)
  | count (h : ℕ)
  | destroy (why : Why) (k : Kind) (h : ℕ)
  | remove (why : Why) (k : Kind) (h : ℕ)
  | deactivate (h : ℕ)
  | modify (req : ModifyQpReq)
  | checkUpdate (h : ℕ) (consumerIndex : BitVec 32)
  | update (h : ℕ) (consumerIndex : BitVec 32)
  | closeTake (k : Kind)
  | closeDrop
  deriving DecidableEq, Repr

structure Call (ι : Type) where
  client : ι
  pc : Pc

/-- What a step meets with: it goes through, it fails, it is refused before a command is submitted, or a command
creates an object of some number. -/
inductive Outcome
  | done | failed | refused
  | number (n : BitVec 24) (variant : BitVec 8)
  deriving DecidableEq, Repr

structure State (τ ι : Type) where
  -- `fOwnedQp`, `fOwnedCq`, `fOwnedMr` and `fOwnedAh`
  fOwned : ι × Kind → List ℕ
  -- cleared by `cleanup` along with the tables
  fRoce : ι → Bool
  fActiveCq : ι → ℕ
  -- `fQpTable`, `fCqTable`, `fMrTable` and `fAhTable`
  fTable : Kind → List (Context ι)
  fNextHandle : BitVec 32
  fw : Kind → List (Object ι)
  calls : τ → Call ι
  /-- The handles of objects that exist and that the code has forgotten. -/
  lost : ι × Kind → List ℕ

def initial {τ ι : Type} (client : ι) : State τ ι where
  fOwned := fun _ => []
  fRoce := fun _ => true
  fActiveCq := fun _ => 0
  fTable := fun _ => []
  fNextHandle := 1
  fw := fun _ => []
  calls := fun _ => ⟨client,.returned .success⟩
  lost := fun _ => []

/-! ## Handles -/

def Kind.handle : Kind → BitVec 24 → BitVec 8 → ℕ
  | .mr, n, variant => mlxComposeMkey n variant
  | _, n, _ => n.toNat

def Kind.index : Kind → ℕ → ℕ
  | .mr, h => mlxMkeyIndex h
  | _, h => h % 2 ^ 24

def modifyFirst {α : Type} (p : α → Bool) (f : α → α) : List α → List α
  | [] => []
  | a :: l => if p a then f a :: l else a :: modifyFirst p f l

/-! ## Where a call goes on -/

/-- After `addOwned` has returned true. -/
def Put.kept : Put → Kind → ℕ → Pc
  | .created, .cq, h => .activate h
  | .created, _, _ => .returned .success
  | .busy, _, _ => .returned .busy
  | .failed kr, _, _ => .returned kr
  | .modified kr, _, _ => .returned kr

/-- After `addOwned` has returned false; only the creating functions look at it. -/
def Put.dropped : Put → Kind → ℕ → Pc
  | .created, k, h => .destroy .undo k h
  | .busy, _, _ => .returned .busy
  | .failed kr, _, _ => .returned kr
  | .modified kr, _, _ => .returned kr

def Why.finish : Why → Kind → ℕ → Pc
  | .rollback, _, _ => .returned .noMemory
  | .undo, _, _ => .returned .noMemory
  | .call, .cq, h => .deactivate h
  | .call, _, _ => .returned .success
  | .close, k, _ => .closeTake k

def Why.failed (kr : IOReturn) : Why → Kind → ℕ → Pc
  | .rollback, _, _ => .returned .noMemory
  | .undo, _, _ => .returned .noMemory
  | .call, k, h => .add (.failed kr) k h
  | .close, k, _ => .closeTake k

/-- The order of `releaseOwnedResources`. -/
def Kind.nextClose : Kind → Pc
  | .qp => .closeTake .mr
  | .mr => .closeTake .ah
  | .ah => .closeTake .cq
  | .cq => .closeDrop

/-- `MlxQP::modifyQP` on the context that was found: the result, and the context after it. -/
def Context.modify {ι : Type} (req : ModifyQpReq) (o : Outcome) (ctx : Context ι) : IOReturn × Context ι :=
  let exec (ctx' : Context ι) : IOReturn × Context ι :=
    if o = .done then (.success,{ ctx' with state := req.newState }) else (.ioError,ctx')
  if ctx.state ≠ req.curState then (.notPermitted,ctx) else
  match ctx.state with
  | .rst =>
    if req.newState ≠ .init then (.notPermitted,ctx)
    else if o = .refused then (.badArgument,ctx)
    else exec { ctx with pkeyPort := req.pkeyPort }
  | .init =>
    if req.newState ≠ .rtr then (.notPermitted,ctx)
    -- the path is stored before it is encoded
    else if o = .refused then (.badArgument,{ ctx with path := req.path })
    else exec { ctx with path := req.path }
  | .rtr =>
    if req.newState ≠ .rts then (.notPermitted,ctx)
    else if o = .refused then (.badArgument,ctx)
    else exec ctx
  | .rts => (.unsupported,ctx)

/-- `MlxCQ::updateCqConsumer` on the context that was found. -/
def Context.updateConsumer {ι : Type} (consumerIndex : BitVec 32) (ctx : Context ι) : IOReturn × Context ι :=
  if consumerIndex.toNat > 2 ^ ctx.logSize * 2 then (.badArgument,ctx)
  else (.success,{ ctx with consumerIndex := consumerIndex })

namespace State
variable {τ ι : Type} [DecidableEq τ] [DecidableEq ι]

def go (s : State τ ι) (i : τ) (pc : Pc) : State τ ι :=
  { s with calls := Function.update s.calls i ⟨(s.calls i).client,pc⟩ }

def setOwned (s : State τ ι) (c : ι) (k : Kind) (l : List ℕ) : State τ ι :=
  { s with fOwned := Function.update s.fOwned (c,k) l }

def setTable (s : State τ ι) (k : Kind) (l : List (Context ι)) : State τ ι :=
  { s with fTable := Function.update s.fTable k l }

def setFw (s : State τ ι) (k : Kind) (l : List (Object ι)) : State τ ι := { s with fw := Function.update s.fw k l }

def lose (s : State τ ι) (c : ι) (k : Kind) (h : ℕ) : State τ ι :=
  { s with lost := Function.update s.lost (c,k) (s.lost (c,k) ++ [h]) }

/-- `owns`; there are no tables any more after `cleanup`. -/
def owns (s : State τ ι) (c : ι) (k : Kind) (h : ℕ) : Bool := s.fRoce c && decide (h ∈ s.fOwned (c,k))

def exists? (s : State τ ι) (k : Kind) (n : ℕ) : Bool := (s.fw k).any (fun o => k.index o.handle = n)

/-! ## The steps -/

variable (s : State τ ι) (i : τ) (c : ι) (o : Outcome)

/-- What a request begins with. -/
def entry : Request → Pc
  | .createQP req => if req.pd ≠ 1 then .returned .notPermitted else .checkSend req.sendCq req.recvCq
  | .modifyQP req => .takeModify req
  | .destroyQP qpn => .take .qp qpn
  | .createCQ entries =>
    -- the bounds on the entries are those of `MlxCQ::createCQ`
    if !s.fRoce c ∨ s.fActiveCq c ≠ 0 ∨ entries = 0 ∨ 2048 < entries then .returned .badArgument
    else .create .cq ⟨0,0,entries⟩
  | .destroyCQ cqHandle => .take .cq cqHandle
  | .updateCqConsumer cqHandle consumerIndex =>
    if !s.fRoce c then .returned .notReady else .checkUpdate cqHandle consumerIndex
  | .regMR => .create .mr ⟨0,0,0⟩
  | .deregMR mrHandle => .take .mr mrHandle
  | .createAH => .create .ah ⟨0,0,0⟩
  | .destroyAH ahHandle => .take .ah ahHandle
  | .clientClose => if s.fRoce c then .closeTake .qp else .returned .success

/-- Up to the command that creates the object; an address handle gets the next number instead. -/
def create (k : Kind) (args : Args) : Option (State τ ι) :=
  match k, o with
  | .ah, .refused => some (s.go i (.returned .noMemory))
  | .ah, _ => some (s.go i (.storeNext s.fNextHandle))
  | _, .refused => some (s.go i (.returned .noResources))
  | _, .failed => some (s.go i (.returned .ioError))
  | k, .number n variant =>
    -- the firmware does not give the number of an object that exists
    if s.exists? k n.toNat then none
    else some ((s.setFw k (s.fw k ++ [⟨k.handle n variant,c,args.sendCq,args.recvCq⟩])).go i
      (.record k (k.handle n variant) args.entries))
  | _, .done => none

/-- `setObject` on the table of the device, after the allocations. -/
def record (k : Kind) (h entries : ℕ) : Option (State τ ι) :=
  match o with
  | .done => some ((s.setTable k (s.fTable k ++ [⟨h,c,.rst,0,0,Nat.clog 2 (max 64 entries),0⟩])).go i (.add .created k h))
  | .failed => some (s.go i (if k = .ah then .returned .noMemory else .destroy .rollback k h))
  | _ => none

/-- `addOwned` -/
def add (put : Put) (k : Kind) (h : ℕ) : Option (State τ ι) :=
  if o = .done ∧ s.fRoce c then some ((s.setOwned c k (s.fOwned (c,k) ++ [h])).go i (put.kept k h))
  else if o = .done ∨ o = .failed then
    some ((if put = .created then s else s.lose c k h).go i (put.dropped k h))
  else none

/-- `removeOwned` -/
def take (k : Kind) (h : ℕ) : Option (State τ ι) :=
  if s.owns c k h then
    some ((s.setOwned c k ((s.fOwned (c,k)).erase h)).go i (if k = .cq then .count h else .destroy .call k h))
  else some (s.go i (.returned .notPermitted))

def takeModify (req : ModifyQpReq) : Option (State τ ι) :=
  if s.owns c .qp req.qpn then some ((s.setOwned c .qp ((s.fOwned (c,.qp)).erase req.qpn)).go i (.modify req))
  else some (s.go i (.returned .notPermitted))

/-- The command that destroys the object; an address handle has a context only. -/
def destroy (why : Why) (k : Kind) (h : ℕ) : Option (State τ ι) :=
  if why ≠ .rollback ∧ !s.fRoce c then none
  else if k = .ah then
    if (s.fTable .ah).any (fun ctx => ctx.handle = h) then
      some ((s.setTable .ah ((s.fTable .ah).eraseP (fun ctx => ctx.handle = h))).go i (why.finish .ah h))
    else some ((if why = .call then s else s.lose c k h).go i (why.failed .notFound k h))
  else
  match o with
  | .done =>
    if s.exists? k (k.index h) then
      some ((s.setFw k ((s.fw k).eraseP (fun o => k.index o.handle = k.index h))).go i
        -- only `MlxQP::createQP` rolls back with the function that also removes a context
        (if why = .rollback ∧ k ≠ .qp then .returned .noMemory else .remove why k h))
    else none
  | .failed => some ((if why = .call then s else s.lose c k h).go i (why.failed .ioError k h))
  | _ => none

/-- The first context of the handle is released and removed. -/
def remove (why : Why) (k : Kind) (h : ℕ) : Option (State τ ι) :=
  some ((s.setTable k ((s.fTable k).eraseP (fun ctx => ctx.handle = h))).go i (why.finish k h))

/-- `MlxQP::modifyQP` -/
def modify (req : ModifyQpReq) : Option (State τ ι) :=
  if !s.fRoce c then none else
  match (s.fTable .qp).find? (fun ctx => ctx.handle = req.qpn) with
  | none => some (s.go i (.add (.modified .notFound) .qp req.qpn))
  | some ctx =>
    some ((s.setTable .qp (modifyFirst (fun ctx => ctx.handle = req.qpn) (fun ctx => (ctx.modify req o).2) (s.fTable .qp))).go i
      (.add (.modified (ctx.modify req o).1) .qp req.qpn))

def updateCqConsumer (h : ℕ) (consumerIndex : BitVec 32) : Option (State τ ι) :=
  if !s.fRoce c then none
  else if o = .refused then some (s.go i (.returned .notReady))
  else
  match (s.fTable .cq).find? (fun ctx => ctx.handle = h) with
  | none => some (s.go i (.returned .notFound))
  | some ctx =>
    some ((s.setTable .cq (modifyFirst (fun ctx => ctx.handle = h) (fun ctx => (ctx.updateConsumer consumerIndex).2)
      (s.fTable .cq))).go i (.returned (ctx.updateConsumer consumerIndex).1))

/-- `takeOwned` in `releaseOwnedResources` -/
def closeTake (k : Kind) : Option (State τ ι) :=
  match (if s.fRoce c then s.fOwned (c,k) else []) with
  | [] => some (s.go i k.nextClose)
  | h :: l => some ((s.setOwned c k l).go i (.destroy .close k h))

/-- The rest of `cleanup`. -/
def closeDrop : Option (State τ ι) :=
  some ({ s with
    fRoce := Function.update s.fRoce c false
    fActiveCq := Function.update s.fActiveCq c 0
    fOwned := fun p => if p.1 = c then [] else s.fOwned p
    lost := fun p => if p.1 = c then s.lost p ++ s.fOwned p else s.lost p }.go i (.returned .success))

def run : Option (State τ ι) :=
  let c := (s.calls i).client
  match (s.calls i).pc with
  | .returned _ => none
  | .checkSend sendCq recvCq =>
    some (s.go i (if s.owns c .cq sendCq then .checkRecv sendCq recvCq else .returned .notPermitted))
  | .checkRecv sendCq recvCq =>
    some (s.go i (if s.owns c .cq recvCq then .create .qp ⟨sendCq,recvCq,0⟩ else .returned .notPermitted))
  | .create k args => if !s.fRoce c then none else s.create i c o k args
  | .storeNext h => some ({ s with fNextHandle := h + 1 }.go i (.record .ah h.toNat 0))
  | .record k h entries => s.record i c o k h entries
  | .add put k h => s.add i c o put k h
  | .activate h => some ({ s with fActiveCq := Function.update s.fActiveCq c h }.go i (.returned .success))
  | .take k h => s.take i c k h
  | .takeModify req => s.takeModify i c req
  | .count h => some (s.go i (if s.fOwned (c,.qp) ≠ [] then .add .busy .cq h else .destroy .call .cq h))
  | .destroy why k h => s.destroy i c o why k h
  | .remove why k h => s.remove i why k h
  | .deactivate h =>
    some ({ s with fActiveCq := if s.fActiveCq c = h then Function.update s.fActiveCq c 0 else s.fActiveCq }.go i
      (.returned .success))
  | .modify req => s.modify i c o req
  | .checkUpdate h consumerIndex =>
    some (s.go i (if s.owns c .cq h then .update h consumerIndex else .returned .notPermitted))
  | .update h consumerIndex => s.updateCqConsumer i c o h consumerIndex
  | .closeTake k => s.closeTake i c k
  | .closeDrop => s.closeDrop i c

end State

inductive Action (τ ι : Type)
  | begin (i : τ) (c : ι) (req : Request)
  | run (i : τ) (o : Outcome)

def step {τ ι : Type} [DecidableEq τ] [DecidableEq ι] (s : State τ ι) : Action τ ι → Option (State τ ι)
  | .begin i c req =>
    match (s.calls i).pc with
    | .returned _ => some { s with calls := Function.update s.calls i ⟨c,s.entry c req⟩ }
    | _ => none
  | .run i o => s.run i o

end AppleMCX.UserClient
