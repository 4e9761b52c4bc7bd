import AppleMCX.Hw.CommandImages
import AppleMCX.Interaction.References
import AppleMCX.Interaction.Watched
import AppleMCX.Netif.Fields

/-! # The objects of the Ethernet interface in the firmware

What a device keeps of the commands that it reads in the inputs it gets: objects under the numbers
it has chosen, and which of them refer to which. It rejects a command that names an object it does not
have, and one that destroys an object others refer to.
-/
namespace AppleMCX.FirmwareObjects
open Interaction Ethernet Commands

/-! ## A device that keeps references -/

inductive Kind
  | pd | td | mkey | tis | cq | sq | rq | tir | qp | uar | eq | flowTable | flowGroup | flowEntry | flowRoot
  deriving DecidableEq, Repr

abbrev Key : Type := Kind × ℕ

/-- Its objects with their references, and the commands it has rejected; `none` is one it could not read. -/
structure Device where
  objects : List (Key × List Key)
  rejected : List (Option Command)

def objectKind : Commands.Object → Kind
  | .mkey => .mkey
  | .qp => .qp
  | .cq => .cq
  | .sq => .sq
  | .rq => .rq
  | .tis => .tis
  | .tir => .tir
  | .td => .td
  | .pd => .pd
  | .uar => .uar

/-- The objects that a command names, but for the one it destroys. The event queue in `CREATE_CQ` and the page of
registers in the commands that create queues belong to the core and are left out. -/
def names : Command → List Key
  | .createMkey pd => [(.pd,pd.toNat)]
  | .createTis td pd => [(.td,td.toNat),(.pd,pd.toNat)]
  | .createSq _ tisn wq => [(.cq,wq.cqn.toNat),(.tis,tisn.toNat),(.pd,wq.pd.toNat)]
  | .createRq wq => [(.cq,wq.cqn.toNat),(.pd,wq.pd.toNat)]
  | .createTir rqn td => [(.rq,rqn.toNat),(.td,td.toNat)]
  | .createQp qp => [(.pd,qp.pd.toNat),(.cq,qp.sendCq.toNat),(.cq,qp.recvCq.toNat)]
  | .modifySqReady sqn => [(.sq,sqn.toNat)]
  | .modifyRqReady rqn => [(.rq,rqn.toNat)]
  | .createFlowGroup table | .setFlowTableRoot table | .deleteFlowTableEntry table | .destroyFlowGroup table _ =>
    [(.flowTable,table.toNat)]
  | .setFlowTableEntry table group tirn => [(.flowTable,table.toNat),(.flowGroup,group.toNat),(.tir,tirn.toNat)]
  | _ => []

/-- The object that a command creates under the number in the reply. -/
def makes (number : ℕ) : Command → Option Key
  | .allocPd => some (.pd,number)
  | .allocTd => some (.td,number)
  | .allocUar => some (.uar,number)
  | .createMkey _ => some (.mkey,number)
  | .createTis _ _ => some (.tis,number)
  | .createCq _ => some (.cq,number)
  | .createEq _ => some (.eq,number)
  | .createSq _ _ _ => some (.sq,number)
  | .createRq _ => some (.rq,number)
  | .createTir _ _ => some (.tir,number)
  | .createQp _ => some (.qp,number)
  | .createFlowTable => some (.flowTable,number)
  | .createFlowGroup _ => some (.flowGroup,number)
  | _ => none

/-- The entry at index zero of a table, and the root, which need no number. -/
def sets : Command → Option Key
  | .setFlowTableEntry table _ _ => some (.flowEntry,table.toNat)
  | .setFlowTableRoot _ => some (.flowRoot,0)
  | _ => none

def destroys : Command → Option Key
  | .destroyObject object objectId => some (objectKind object,objectId.toNat)
  | .destroyEq eqNumber => some (.eq,eqNumber.toNat)
  | .disconnectFlowTableRoot => some (.flowRoot,0)
  | .deleteFlowTableEntry table => some (.flowEntry,table.toNat)
  | .destroyFlowGroup _ group => some (.flowGroup,group.toNat)
  | .destroyFlowTable table => some (.flowTable,table.toNat)
  | _ => none

/-- What the device insists on. -/
def Device.Accepts (d : Device) (c : Command) : Prop :=
  (∀ k ∈ names c, Live d.objects k) ∧ (∀ k ∈ sets c, ¬ Live d.objects k) ∧
    ∀ k ∈ destroys c, Live d.objects k ∧ Unreferenced d.objects k

instance (d : Device) (c : Command) : Decidable (d.Accepts c) := by
  unfold Device.Accepts
  infer_instance

def Device.apply (d : Device) (c : Command) (number : ℕ) : List (Key × List Key) :=
  match (makes number c).or (sets c), destroys c with
  | some k, _ => (k,names c) :: d.objects
  | none, some k => d.objects.filter (fun o => o.1 ≠ k)
  | none, none => d.objects

/-- A command that is not accepted is noted; one that succeeds is applied. -/
def Device.handle (d : Device) (c : Command) (reply : Reply) : Device where
  objects := if reply.kr = .success then d.apply c reply.number else d.objects
  rejected := if d.Accepts c then d.rejected else some c :: d.rejected

/-- An input arrives, with a reply to it. -/
def Device.receive (d : Device) (inSize : ℕ) (input : Hw.Buffer) (reply : Reply) : Device :=
  match Command.read inSize input with
  | some c => d.handle c reply
  | none => { d with rejected := none :: d.rejected }

/-! ## The inputs of the Ethernet interface -/

def MLX5E_INVALID_RESOURCE : ℕ := 0xffffffff

/-- The memory that a command hands over. -/
abbrev Memory : Type := List (Ethernet.Field × ℕ)

def field (n : Option ℕ) : BitVec 24 := BitVec.ofNat 24 (n.getD MLX5E_INVALID_RESOURCE)

/-- What the commands take from the other parts of the driver, and what stands behind their inputs. -/
structure Hardware where
  bootUarIndex : BitVec 24
  compEqNumber : BitVec 8
  fTxMinInlineMode : BitVec 3
  dbRecordDMA : Memory → BitVec 64
  ringDMA : Memory → BitVec 64
  rest : Hw.Buffer

def Hardware.wq (hw : Hardware) (cqn pd : Option ℕ) (refs : Memory) : WqContext :=
  ⟨field cqn,field pd,hw.bootUarIndex,hw.dbRecordDMA refs,contiguous (hw.ringDMA refs) 4 (by decide)⟩

/-- The command that the interface submits in a state. `createRxFlowSteering` connects the root where
`fFlowRootActive` is clear, and `destroyRxFlowSteering` disconnects it where the flag is set. -/
def commandOf (hw : Hardware) (s : State) (op : Opcode) (number : ℕ) (refs : Memory) : Option Command :=
  match op with
  | .allocPd => some .allocPd
  | .allocTransportDomain => some .allocTd
  | .createMkey => some (.createMkey (field s.fPd))
  | .createTis => some (.createTis (field s.fTd) (field s.fPd))
  | .createCq => some (.createCq ⟨MLX5E_DEFAULT_LOG_SQ_SIZE,hw.bootUarIndex,hw.compEqNumber,hw.dbRecordDMA refs,
      contiguous (hw.ringDMA refs) 4 (by decide)⟩)
  | .createSq => some (.createSq hw.fTxMinInlineMode (field s.fTisn) (hw.wq (s.dma.number .fTxCqn) s.fPd refs))
  | .createRq => some (.createRq (hw.wq (s.dma.number .fRxCqn) s.fPd refs))
  | .createTir => some (.createTir (field (s.dma.number .fRqn)) (field s.fTd))
  | .modifySq => some (.modifySqReady (BitVec.ofNat 24 number))
  | .modifyRq => some (.modifyRqReady (BitVec.ofNat 24 number))
  | .queryVportState => some .queryLinkState
  | .createFlowTable => some .createFlowTable
  | .createFlowGroup => some (.createFlowGroup (field s.fFlowTableId))
  | .setFlowTableEntry =>
    some (.setFlowTableEntry (field s.fFlowTableId) (BitVec.ofNat 32 (s.fFlowGroupId.getD MLX5E_INVALID_RESOURCE))
      (field s.fTirn))
  | .setFlowTableRoot =>
    some (if s.fFlowRootActive then .disconnectFlowTableRoot else .setFlowTableRoot (field s.fFlowTableId))
  | .deleteFlowTableEntry => some (.deleteFlowTableEntry (field s.fFlowTableId))
  | .destroyFlowGroup => some (.destroyFlowGroup (field s.fFlowTableId) (BitVec.ofNat 32 number))
  | .destroyFlowTable => some (.destroyFlowTable (BitVec.ofNat 24 number))
  | .destroyMkey => some (.destroyObject .mkey (BitVec.ofNat 24 number))
  | .destroyTis => some (.destroyObject .tis (BitVec.ofNat 24 number))
  | .destroyTir => some (.destroyObject .tir (BitVec.ofNat 24 number))
  | .destroySq => some (.destroyObject .sq (BitVec.ofNat 24 number))
  | .destroyRq => some (.destroyObject .rq (BitVec.ofNat 24 number))
  | .destroyCq => some (.destroyObject .cq (BitVec.ofNat 24 number))
  | .deallocTransportDomain => some (.destroyObject .td (BitVec.ofNat 24 number))
  | .deallocPd => some (.destroyObject .pd (BitVec.ofNat 24 number))
  | _ => none

/-- The device behind the command interface. It gives a new object a number of 24 bits that no object of
the kind has; what it does with a command that fails or times out, and with the queues, is up to it. -/
def device (hw : Hardware) : Watcher State Question Answer Device where
  Allowed s d
    | .exec op number refs, reply => (reply : Reply).kr = .success → ∀ c ∈ commandOf hw s op number refs,
        ∀ k ∈ makes (reply : Reply).number c, k.2 < 2 ^ 24 ∧ ¬ Live d.objects k
    | _, _ => True
  effect s d
    | .exec op number refs, reply =>
      match commandOf hw s op number refs with
      | some c => d.receive c.inSize (c.received hw.rest) reply
      | none => { d with rejected := none :: d.rejected }
    | _, _ => d

/-- The interface and the device. -/
def world (hw : Hardware) : Env (State × Device) Question Answer := env.watched (device hw)

/-! ## The numbers that the interface keeps -/

inductive Slot
  | fPd | fTd | fMkeyIndex | fTisn | fTxCqn | fSqn | fRxCqn | fRqn | fTirn | fFlowTableId | fFlowGroupId | fFlowEntryValid
  | fFlowRootActive
  deriving DecidableEq, Repr

def slotKind : Slot → Kind
  | .fPd => .pd
  | .fTd => .td
  | .fMkeyIndex => .mkey
  | .fTisn => .tis
  | .fTxCqn | .fRxCqn => .cq
  | .fSqn => .sq
  | .fRqn => .rq
  | .fTirn => .tir
  | .fFlowTableId => .flowTable
  | .fFlowGroupId => .flowGroup
  | .fFlowEntryValid => .flowEntry
  | .fFlowRootActive => .flowRoot

def slotDeps : Slot → List Slot
  | .fPd | .fTd | .fTxCqn | .fRxCqn | .fFlowTableId => []
  | .fMkeyIndex => [.fPd]
  | .fTisn => [.fTd,.fPd]
  | .fSqn => [.fTxCqn,.fTisn,.fPd]
  | .fRqn => [.fRxCqn,.fPd]
  | .fTirn => [.fRqn,.fTd]
  | .fFlowGroupId | .fFlowRootActive => [.fFlowTableId]
  | .fFlowEntryValid => [.fFlowTableId,.fFlowGroupId,.fTirn]

def schema : Schema Slot Kind where
  kind := slotKind
  deps := slotDeps
  irrefl := by
    intro x
    cases x <;> decide

abbrev View : Type := Slot → Option ℕ

/-- The number in each slot; the entry is known by its table, and there is one root. -/
def view (s : State) : View
  | .fPd => s.fPd
  | .fTd => s.fTd
  | .fMkeyIndex => s.fMkeyIndex
  | .fTisn => s.fTisn
  | .fTxCqn => s.dma.number .fTxCqn
  | .fSqn => s.dma.number .fSqn
  | .fRxCqn => s.dma.number .fRxCqn
  | .fRqn => s.dma.number .fRqn
  | .fTirn => s.fTirn
  | .fFlowTableId => s.fFlowTableId
  | .fFlowGroupId => s.fFlowGroupId
  | .fFlowEntryValid => if s.fFlowEntryValid then some (s.fFlowTableId.getD 0) else none
  | .fFlowRootActive => if s.fFlowRootActive then some 0 else none

/-! ## The device on its own -/

section Device
variable {d : Device} {c : Command} {reply : Reply}

theorem handle_rejected (h : d.Accepts c) : (d.handle c reply).rejected = d.rejected := if_pos h

/-- Where every command is accepted, every reference leads to an object. -/
theorem handle_linked (hd : Linked d.objects) (h : d.Accepts c) : Linked (d.handle c reply).objects := by
  unfold Device.handle Device.apply
  split
  · split
    · exact hd.create h.1
    · rename_i hdestroys
      exact hd.destroy (h.2.2 _ hdestroys).2
    · exact hd
  · exact hd

theorem receive_received (rest : Hw.Buffer) : d.receive c.inSize (c.received rest) reply = d.handle c reply := by
  rw [Device.receive, read_received c rest]

end Device

/-! ## What the interface and the device agree on -/

/-- The slots hold the numbers of the objects; the protection domain is the first of them. After a
timeout the device may have done anything, and it gets no more commands. -/
structure Inv (s : State) (d : Device) : Prop where
  wf : schema.Wf (view s)
  bounded : ∀ x n, view s x = some n → n < 2 ^ 24
  first : view s .fPd = none → ∀ x, view s x = none
  accepted : d.rejected = []
  linked : Linked d.objects
  mirror : s.fQuarantined = false → schema.Mirror (view s) d.objects

/-- Nothing has been rejected, and every reference leads to an object. -/
def Sound (p : State × Device) : Prop := p.2.rejected = [] ∧ Linked p.2.objects

/-- The program starts with these numbers in the slots and ends with others. -/
def Runs {α : Type} (hw : Hardware) (v : View) (p : Eth α) (R : α → View → Prop) : Prop :=
  ∀ s d, Inv s d → view s = v →
    Prog.Always (world hw) Sound (p.watched Device) (fun a q => Inv q.1 q.2 ∧ R a (view q.1)) (s,d)

variable {α β : Type} {hw : Hardware} {s t : State} {d : Device} {v w : View} {x y : Slot} {n : ℕ} {op : Opcode}
  {number : ℕ} {refs : Memory} {c : Command} {m : ℕ → ℕ}

theorem Inv.sound (h : Inv s d) : Sound (s,d) := ⟨h.accepted,h.linked⟩

theorem Inv.congr (h : Inv s d) (hv : view t = view s) (hq : t.fQuarantined = s.fQuarantined) : Inv t d where
  wf := hv ▸ h.wf
  bounded := hv ▸ h.bounded
  first := hv ▸ h.first
  accepted := h.accepted
  linked := h.linked
  mirror := by
    rw [hv, hq]
    exact h.mirror

theorem field_toNat {n : Option ℕ} {k : ℕ} (hn : n = some k) (hk : k < 2 ^ 24) : (field n).toNat = k := by
  rw [hn, field, BitVec.toNat_ofNat]
  exact Nat.mod_eq_of_lt hk

/-- The objects that a slot refers to, as they stand in the input. -/
theorem Inv.refs_eq (h : Inv s d) (hdeps : ∀ y ∈ slotDeps x, view s y ≠ none) :
    schema.refs (view s) x = (slotDeps x).map (fun y => (slotKind y,(field (view s y)).toNat)) := by
  have hkey : ∀ y ∈ slotDeps x, schema.key (view s) y = some (slotKind y,(field (view s y)).toNat) := by
    intro y hy
    obtain ⟨k,hk⟩ := Option.ne_none_iff_exists'.mp (hdeps y hy)
    rw [Schema.key, field_toNat hk (h.bounded y k hk), hk]
    rfl
  unfold Schema.refs
  show (slotDeps x).filterMap _ = _
  rw [List.filterMap_congr hkey]
  exact congrFun List.filterMap_eq_map' _

/-! ## Programs without commands -/

theorem view_effect (s : State) (q : Question) (a : Answer q) : view (effect s q a) = view s := by
  cases q with
  | exec op number refs =>
    obtain ⟨o,ho⟩ := fwEffect_objects op number refs a s.dma
    have heq : effect s (.exec op number refs) a =
        { s with fQuarantined := s.fQuarantined || (a : Reply).kr = .timeout, dma := { s.dma with objects := o } } := by
      rw [← ho]
      rfl
    rw [heq]
    rfl
  | _ => rfl

theorem Runs.mono {p : Eth α} {R R' : α → View → Prop} (h : Runs hw v p R) (hR : ∀ a w, R a w → R' a w) :
    Runs hw v p R' :=
  fun s d hs hv => (h s d hs hv).mono (fun a _ _ hr => ⟨hr.1,hR a _ hr.2⟩)

theorem Runs.bind {p : Eth α} {f : α → Eth β} {M : α → View → Prop} {R : β → View → Prop} (hp : Runs hw v p M)
    (hf : ∀ a w, M a w → Runs hw w (f a) R) : Runs hw v (p.bind f) R := by
  intro s d hs hv
  refine Prog.Always.watched_bind (hp s d hs hv) ?_
  rintro a ⟨t,e⟩ _ ⟨ht,hm⟩
  exact hf a _ hm t e ht rfl

theorem runs_done {a : α} {R : α → View → Prop} (h : R a v) : Runs hw v (.done a) R := by
  rintro s d hs rfl
  exact ⟨hs.sound,hs,h⟩

theorem runs_ite {b : Prop} [Decidable b] {p q : Eth α} {R : α → View → Prop} (hp : b → Runs hw v p R)
    (hq : ¬ b → Runs hw v q R) : Runs hw v (if b then p else q) R := by
  split
  · exact hp ‹_›
  · exact hq ‹_›

theorem runs_get {f : State → Eth α} {R : α → View → Prop} (hf : ∀ s, view s = v → Runs hw v (f s) R) :
    Runs hw v (Prog.get.bind f) R := fun s d hs hv => hf s hv s d hs hv

theorem runs_update {f : State → State} (hf : ∀ s, view (f s) = view s ∧ (f s).fQuarantined = s.fQuarantined) :
    Runs hw v (update f) (fun _ w => w = v) := by
  rintro s d hs rfl
  have hinv := hs.congr (hf s).1 (hf s).2
  exact ⟨hs.sound,hinv.sound,hinv,(hf s).1⟩

theorem runs_updateDma {f : Dma → Dma} (hf : ∀ dma, (f dma).number = dma.number) :
    Runs hw v (updateDma f) (fun _ w => w = v) := by
  refine runs_update (fun s => ⟨funext (fun x => ?_),rfl⟩)
  cases x <;> first | rfl | exact congrFun (hf s.dma) _

theorem runs_query {q : Question} (hq : ∀ s a, (effect s q a).fQuarantined = s.fQuarantined)
    (hd : ∀ s d a, (device hw).effect s d q a = d) : Runs hw v (Prog.query q) (fun _ w => w = v) := by
  rintro s d hs rfl
  refine ⟨hs.sound,fun a _ => ?_⟩
  have hinv : Inv (effect s q a) ((device hw).effect s d q a) := by
    rw [hd]
    exact hs.congr (view_effect s q a) (hq s a)
  exact ⟨hinv.sound,hinv,view_effect s q a⟩

/-! ## Commands -/

theorem always_exec {k : Reply → Eth β} {R : β → State × Device → Prop} (h : Inv s d) (hop : op.exempt = false)
    (hc : commandOf hw s op number refs = some c)
    (hskip : Prog.Always (world hw) Sound ((k ⟨.notReady,0⟩).watched Device) R (s,d))
    (hask : s.fQuarantined = false → ∀ (reply : Reply) (t : State), view t = view s →
      t.fQuarantined = decide (reply.kr = .timeout) →
      (reply.kr = .success → ∀ e ∈ makes reply.number c, e.2 < 2 ^ 24 ∧ ¬ Live d.objects e) →
      Prog.Always (world hw) Sound ((k reply).watched Device) R (t,d.handle c reply)) :
    Prog.Always (world hw) Sound (((exec op number refs).bind k).watched Device) R (s,d) := by
  have hexec : ∀ p : Eth Reply, (if s.fQuarantined ∧ !op.exempt then pure ⟨.notReady,0⟩
      else Prog.query (Question.exec op number refs)) = p → Prog.Always (world hw) Sound ((p.bind k).watched Device) R (s,d) →
      Prog.Always (world hw) Sound (((exec op number refs).bind k).watched Device) R (s,d) := by
    rintro p rfl hp
    exact hp
  by_cases hq : s.fQuarantined = true
  · exact hexec _ (if_pos ⟨hq,by rw [hop]; rfl⟩) hskip
  · rw [Bool.not_eq_true] at hq
    refine hexec _ (if_neg (fun hb => absurd hb.1 (by rw [hq]; decide))) ⟨h.sound,fun reply ha => ?_⟩
    have heffect : (world hw).effect (s,d) (.exec op number refs) reply =
        (effect s (.exec op number refs) reply,d.handle c reply) := by
      refine Prod.ext rfl ?_
      show (match commandOf hw s op number refs with
        | some c => d.receive c.inSize (c.received hw.rest) reply
        | none => { d with rejected := none :: d.rejected }) = _
      rw [hc]
      exact receive_received hw.rest
    rw [heffect]
    refine hask hq reply _ (view_effect s _ _) ?_ (fun hok e he => ha.2 hok c hc e he)
    show (s.fQuarantined || decide ((reply : Reply).kr = .timeout)) = _
    rw [hq, Bool.false_or]

/-- After a command that has failed, the slots are as before. -/
theorem Inv.failed (h : Inv s d) {reply : Reply} (hv : view t = view s) (hq : s.fQuarantined = false)
    (hacc : d.Accepts c) (hkr : reply.kr ≠ .success) : Inv t (d.handle c reply) := by
  have hobjects : (d.handle c reply).objects = d.objects := if_neg hkr
  refine ⟨hv ▸ h.wf,hv ▸ h.bounded,hv ▸ h.first,?_,handle_linked h.linked hacc,fun _ => ?_⟩
  · rw [handle_rejected hacc]
    exact h.accepted
  · rw [hv, hobjects]
    exact h.mirror hq

/-- The command neither creates nor destroys, and what it names is there. -/
structure Uses (v : View) (c : Command) : Prop where
  names : ∀ k ∈ names c, ∃ y, schema.key v y = some k
  makes : ∀ n, makes n c = none
  sets : sets c = none
  destroys : destroys c = none

theorem runs_uses {k : Reply → Eth β} {R : β → View → Prop} (hop : op.exempt = false)
    (hc : ∀ s d, Inv s d → view s = v → ∃ c, commandOf hw s op number refs = some c ∧ Uses v c)
    (hk : ∀ reply, Runs hw v (k reply) R) : Runs hw v ((exec op number refs).bind k) R := by
  rintro s d hs rfl
  obtain ⟨c,hcommand,huses⟩ := hc s d hs rfl
  have hacc : s.fQuarantined = false → d.Accepts c := by
    intro hq
    refine ⟨fun e he => (hs.mirror hq).live.mpr (huses.names e he),fun e he => ?_,fun e he => ?_⟩
    · rw [huses.sets] at he
      cases he
    · rw [huses.destroys] at he
      cases he
  refine always_exec hs hop hcommand (hk _ s d hs rfl) (fun hq reply t hv htq _ => ?_)
  refine hk reply t _ ?_ hv
  by_cases hkr : reply.kr = .success
  · have hobjects : (d.handle c reply).objects = d.objects := by
      show (if reply.kr = .success then d.apply c reply.number else d.objects) = _
      rw [if_pos hkr, Device.apply, huses.makes, huses.sets, huses.destroys]
      rfl
    refine ⟨hv ▸ hs.wf,hv ▸ hs.bounded,hv ▸ hs.first,?_,handle_linked hs.linked (hacc hq),fun _ => ?_⟩
    · rw [handle_rejected (hacc hq)]
      exact hs.accepted
    · rw [hv, hobjects]
      exact hs.mirror hq
  · exact hs.failed hv hq (hacc hq) hkr

/-- The command creates the object for a slot, under a number that depends on the one in the reply. -/
structure Creates (v : View) (x : Slot) (m : ℕ → ℕ) (c : Command) : Prop where
  names : names c = schema.refs v x
  destroys : destroys c = none
  created : (∀ n, makes n c = some (slotKind x,m n)) ∧ sets c = none ∨
    (∀ n, makes n c = none ∧ sets c = some (slotKind x,m n) ∧ m n < 2 ^ 24) ∧ ∀ y, slotKind y = slotKind x → y = x

/-- What a slot needs for its object to be created. -/
structure Ready (v : View) (x : Slot) : Prop where
  empty : v x = none
  deps : ∀ y ∈ slotDeps x, v y ≠ none
  first : x = .fPd ∨ v .fPd ≠ none

theorem Creates.accepts (hcr : Creates (view s) x m c) (hs : Inv s d) (hx : view s x = none) (hq : s.fQuarantined = false) :
    d.Accepts c := by
  refine ⟨fun e he => ?_,fun e he => ?_,fun e he => ?_⟩
  · rw [hcr.names] at he
    exact (hs.mirror hq).refs_live e he
  · rcases hcr.created with ⟨_,hsets⟩ | ⟨hsets,hunique⟩
    · rw [hsets] at he
      cases he
    · rw [(hsets 0).2.1] at he
      cases he
      rw [(hs.mirror hq).live]
      rintro ⟨y,hy⟩
      obtain ⟨hsome,hkind⟩ := Schema.key_eq_some.mp hy
      rw [hunique y hkind, hx] at hsome
      cases hsome
  · rw [hcr.destroys] at he
    cases he

/-- After a creation that has succeeded, its number belongs into the slot. -/
theorem Creates.inv (hcr : Creates (view s) x m c) (hs : Inv s d) (hready : Ready (view s) x) (hq : s.fQuarantined = false)
    {reply : Reply} (hkr : reply.kr = .success)
    (hmakes : ∀ e ∈ makes reply.number c, e.2 < 2 ^ 24 ∧ ¬ Live d.objects e)
    (ht : view t = Function.update (view s) x (some (m reply.number))) : Inv t (d.handle c reply) := by
  have hacc := hcr.accepts hs hready.empty hq
  have hmirror := hs.mirror hq
  have hnew : m reply.number < 2 ^ 24 ∧ ¬ Live d.objects (slotKind x,m reply.number) := by
    rcases hcr.created with ⟨hmade,_⟩ | ⟨hset,_⟩
    · exact hmakes _ (hmade _)
    · exact ⟨(hset reply.number).2.2,hacc.2.1 _ (hset reply.number).2.1⟩
  have hfresh : ∀ y, schema.key (view s) y ≠ some (schema.kind x,m reply.number) :=
    fun y hy => hnew.2 (hmirror.live.mpr ⟨y,hy⟩)
  have hcreated : (makes reply.number c).or (sets c) = some (slotKind x,m reply.number) := by
    rcases hcr.created with ⟨hmade,_⟩ | ⟨hset,_⟩
    · rw [hmade]
      rfl
    · rw [(hset reply.number).1, (hset reply.number).2.1]
      rfl
  have hobjects : (d.handle c reply).objects = ((schema.kind x,m reply.number),schema.refs (view s) x) :: d.objects := by
    show (if reply.kr = .success then d.apply c reply.number else d.objects) = _
    rw [if_pos hkr, Device.apply, hcreated, hcr.names]
    rfl
  refine ⟨?_,?_,?_,?_,handle_linked hs.linked hacc,fun _ => ?_⟩
  · rw [ht]
    exact hs.wf.create hready.deps hfresh
  · rw [ht]
    intro y k hy
    by_cases hyx : y = x
    · rw [hyx, Function.update_self] at hy
      rw [← Option.some.inj hy]
      exact hnew.1
    · rw [Function.update_of_ne hyx] at hy
      exact hs.bounded y k hy
  · rw [ht]
    intro hpd
    refine absurd hpd ?_
    rcases hready.first with hx | hpd
    · rw [hx, Function.update_self]
      exact Option.some_ne_none _
    · by_cases hx : Slot.fPd = x
      · rw [hx, Function.update_self]
        exact Option.some_ne_none _
      · rw [Function.update_of_ne hx]
        exact hpd
  · rw [handle_rejected hacc]
    exact hs.accepted
  · rw [ht, hobjects]
    exact hmirror.create hs.wf hready.empty

/-- A creation, the number of which is stored where it has succeeded. -/
theorem runs_creates {k : Reply → Eth β} {R : β → View → Prop} (hop : op.exempt = false) (hready : Ready v x)
    (hc : ∀ s d, Inv s d → view s = v → ∃ c, commandOf hw s op number refs = some c ∧ Creates v x m c)
    (hfail : ∀ reply : Reply, reply.kr ≠ .success → Runs hw v (k reply) R)
    (hok : ∀ reply : Reply, reply.kr = .success → ∃ f a, k reply = (update f).bind (fun _ => .done a) ∧
      (∀ s, view s = v → view (f s) = Function.update v x (some (m reply.number))) ∧
      R a (Function.update v x (some (m reply.number)))) :
    Runs hw v ((exec op number refs).bind k) R := by
  rintro s d hs rfl
  obtain ⟨c,hcommand,hcr⟩ := hc s d hs rfl
  have hacc := hcr.accepts hs hready.empty
  refine always_exec hs hop hcommand (hfail _ (by decide) s d hs rfl) (fun hq reply t hv htq hmakes => ?_)
  by_cases hkr : reply.kr = .success
  · obtain ⟨f,a,hk,hf,hR⟩ := hok reply hkr
    have hview := hf t hv
    have hinv := hcr.inv hs hready hq hkr (hmakes hkr) hview
    rw [hk]
    refine ⟨⟨?_,handle_linked hs.linked (hacc hq)⟩,hinv.sound,hinv,?_⟩
    · show (d.handle c reply).rejected = []
      rw [handle_rejected (hacc hq)]
      exact hs.accepted
    · rw [hview]
      exact hR
  · exact hfail reply hkr t _ (hs.failed hv hq (hacc hq) hkr) hv

/-- The command destroys the object of a slot. -/
structure Destroys (v : View) (x : Slot) (c : Command) : Prop where
  names : ∀ k ∈ names c, ∃ y, schema.key v y = some k
  makes : ∀ n, makes n c = none
  sets : sets c = none
  destroys : ∃ k, destroys c = some k ∧ schema.key v x = some k

/-- What a slot needs for its object to be destroyed. -/
structure Free (v : View) (x : Slot) : Prop where
  deps : ∀ y, x ∈ slotDeps y → v y = none
  first : x = .fPd → ∀ y, y ≠ .fPd → v y = none

theorem Destroys.accepts (hde : Destroys (view s) x c) (hs : Inv s d) (hfree : Free (view s) x) (hq : s.fQuarantined = false) :
    d.Accepts c := by
  have hmirror := hs.mirror hq
  obtain ⟨k,hk,hkey⟩ := hde.destroys
  refine ⟨fun e he => hmirror.live.mpr (hde.names e he),fun e he => ?_,fun e he => ?_⟩
  · rw [hde.sets] at he
    cases he
  · rw [hk] at he
    cases he
    exact ⟨hmirror.live.mpr ⟨x,hkey⟩,hmirror.unreferenced hs.wf hkey hfree.deps⟩

theorem Destroys.inv (hde : Destroys (view s) x c) (hs : Inv s d) (hfree : Free (view s) x) (hq : s.fQuarantined = false)
    {reply : Reply} (hkr : reply.kr = .success) (ht : view t = Function.update (view s) x none) :
    Inv t (d.handle c reply) := by
  have hacc := hde.accepts hs hfree hq
  obtain ⟨k,hk,hkey⟩ := hde.destroys
  have hobjects : (d.handle c reply).objects = d.objects.filter (fun o => o.1 ≠ k) := by
    show (if reply.kr = .success then d.apply c reply.number else d.objects) = _
    rw [if_pos hkr, Device.apply, hde.makes, hde.sets, hk]
    rfl
  have hfewer : ∀ y, y ≠ x → view t y = view s y := fun y hy => by rw [ht, Function.update_of_ne hy]
  have hnone : view t x = none := by rw [ht, Function.update_self]
  refine ⟨?_,?_,?_,?_,handle_linked hs.linked hacc,fun _ => ?_⟩
  · rw [ht]
    exact hs.wf.destroy hfree.deps
  · intro y j hy
    by_cases hyx : y = x
    · rw [hyx, hnone] at hy
      cases hy
    · rw [hfewer y hyx] at hy
      exact hs.bounded y j hy
  · intro hpd y
    by_cases hyx : y = x
    · rw [hyx]
      exact hnone
    · rw [hfewer y hyx]
      by_cases hx : x = .fPd
      · exact hfree.first hx y (hx ▸ hyx)
      · rw [hfewer .fPd (Ne.symm hx)] at hpd
        exact hs.first hpd y
  · rw [handle_rejected hacc]
    exact hs.accepted
  · rw [ht, hobjects]
    exact (hs.mirror hq).destroy hs.wf hkey hfree.deps

theorem runs_destroys {k : Reply → Eth β} {R : β → View → Prop} (hop : op.exempt = false) (hfree : Free v x)
    (hc : ∀ s d, Inv s d → view s = v → ∃ c, commandOf hw s op number refs = some c ∧ Destroys v x c)
    (hfail : ∀ reply : Reply, reply.kr ≠ .success → Runs hw v (k reply) R)
    (hok : ∀ reply : Reply, reply.kr = .success → ∃ f a, k reply = (update f).bind (fun _ => .done a) ∧
      (∀ s, view s = v → view (f s) = Function.update v x none) ∧ R a (Function.update v x none)) :
    Runs hw v ((exec op number refs).bind k) R := by
  rintro s d hs rfl
  obtain ⟨c,hcommand,hde⟩ := hc s d hs rfl
  have hacc := hde.accepts hs hfree
  refine always_exec hs hop hcommand (hfail _ (by decide) s d hs rfl) (fun hq reply t hv htq _ => ?_)
  by_cases hkr : reply.kr = .success
  · obtain ⟨f,a,hk,hf,hR⟩ := hok reply hkr
    have hview := hf t hv
    have hinv := hde.inv hs hfree hq hkr hview
    rw [hk]
    refine ⟨⟨?_,handle_linked hs.linked (hacc hq)⟩,hinv.sound,hinv,?_⟩
    · show (d.handle c reply).rejected = []
      rw [handle_rejected (hacc hq)]
      exact hs.accepted
    · rw [hview]
      exact hR
  · exact hfail reply hkr t _ (hs.failed hv hq (hacc hq) hkr) hv

/-! ## Creating and destroying what has no memory -/

/-- What a success or a failure of a creation leaves in a slot. -/
def Filled (v : View) (x : Slot) (m : ℕ → ℕ) (kr : IOReturn) (w : View) : Prop :=
  (kr = .success → ∃ n, w = Function.update v x (some (m n))) ∧ (kr ≠ .success → w = v)

theorem runs_createObject {store : Option ℕ → State → State} (hop : op.exempt = false) (hready : Ready v x)
    (hc : ∀ s d, Inv s d → view s = v → ∃ c, commandOf hw s op 0 [] = some c ∧ Creates v x m c)
    (hstore : ∀ s n, view s = v → view (store (some n) s) = Function.update v x (some (m n))) :
    Runs hw v (createObject op store) (Filled v x m) := by
  unfold createObject
  refine runs_creates hop hready hc (fun reply hkr => ?_) (fun reply hkr => ?_)
  · refine Runs.bind (M := fun _ w => w = v) ?_ ?_
    · unfold onSuccess
      rw [if_neg hkr]
      exact runs_done rfl
    · rintro _ w rfl
      exact runs_done ⟨fun h => absurd h hkr,fun _ => rfl⟩
  · refine ⟨store (some reply.number),reply.kr,?_,fun s hs => hstore s _ hs,fun _ => ⟨_,rfl⟩,fun h => absurd hkr h⟩
    unfold onSuccess
    rw [if_pos hkr]
    rfl

/-- What `destroyObject` leaves behind: a success empties the slot. -/
def Emptied (v : View) (x : Slot) (kr : IOReturn) (w : View) : Prop :=
  (kr = .success → w x = none) ∧ (w = v ∨ w = Function.update v x none)

theorem runs_destroyObject {num : State → Option ℕ} {store : Option ℕ → State → State}
    {g : ℕ → ℕ} (hop : op.exempt = false)
    (hfree : Free v x) (hnum : ∀ s, view s = v → num s = (v x).map g)
    (hc : ∀ s d n, Inv s d → view s = v → v x = some n → ∃ c, commandOf hw s op (g n) [] = some c ∧ Destroys v x c)
    (hstore : ∀ s, view s = v → view (store none s) = Function.update v x none) :
    Runs hw v (destroyObject op num store) (Emptied v x) := by
  unfold destroyObject
  refine runs_get (fun s hs => ?_)
  rw [hnum s hs]
  cases hx : v x with
  | none => exact runs_done ⟨fun _ => hx,Or.inl rfl⟩
  | some n =>
    refine runs_destroys hop hfree (fun s d hinv hs => hc s d n hinv hs hx) (fun reply hkr => ?_) (fun reply hkr => ?_)
    · refine Runs.bind (M := fun _ w => w = v) ?_ ?_
      · unfold onSuccess
        rw [if_neg hkr]
        exact runs_done rfl
      · rintro _ w rfl
        exact runs_done ⟨fun h => absurd h hkr,Or.inl rfl⟩
    · refine ⟨store none,reply.kr,?_,hstore,fun _ => Function.update_self _ _ _,Or.inr rfl⟩
      unfold onSuccess
      rw [if_pos hkr]
      rfl

end AppleMCX.FirmwareObjects
