import AppleMCX.Interaction.Bytes
import AppleMCX.Interaction.Transition
import AppleMCX.Usermode.QueuePairState
import Mathlib.Data.BitVec
import Mathlib.Data.List.TakeWhile

/-! # The handshake of the test programs

Two processes exchange what they are to know of each other over a TCP connection, in which bytes
are in flight and each call of `send` and `recv` may be about fewer bytes than it was asked for,
and set their queue pairs up with what they have received. The number that they exchange for a
queue pair is the one in `ibv_qp`, and that is not the one that the kernel has given.
-/
namespace AppleMCX.Perftest
open Interaction
open QueuePairState (IbvQpAttr)

inductive Side
  | server | client
  deriving DecidableEq, Repr

def Side.other : Side → Side
  | .server => .client
  | .client => .server

/-! ## The message -/

structure PtHsMsg where
  qpn : BitVec 32
  rkey : BitVec 32
  psn : BitVec 32
  gid : Block 16
  size : BitVec 32
  iters : BitVec 32
  ver : BitVec 32

def wordBytes (x : BitVec 32) : List Byte := (beBytes 4 x.toNat).reverse

def word (bytes : List Byte) : BitVec 32 := BitVec.ofNat 32 (ofBytes bytes.reverse)

/-- The structure in memory, which is what is sent. -/
def PtHsMsg.bytes (m : PtHsMsg) : List Byte :=
  wordBytes m.qpn ++ (wordBytes m.rkey ++ (wordBytes m.psn ++ (m.gid.val ++ (wordBytes m.size ++ (wordBytes m.iters ++
    wordBytes m.ver)))))

/-- The structure over the bytes that were received. -/
def PtHsMsg.ofBytes (bytes : List Byte) : PtHsMsg where
  qpn := word (slice 0 4 bytes)
  rkey := word (slice 4 4 bytes)
  psn := word (slice 8 4 bytes)
  gid := (Block.zero 16).copy (slice 12 16 bytes)
  size := word (slice 28 4 bytes)
  iters := word (slice 32 4 bytes)
  ver := word (slice 36 4 bytes)

/-- `sizeof(struct pt_hs_msg)` -/
def msgSize : ℕ := 40

/-! ## The processes -/

/-- The two numbers of an `ibv_qp`: its own, and that of the kernel's queue pair, which is in `mlx_qp`. -/
structure IbvQp where
  qp_num : BitVec 32
  mlx_qp : BitVec 32

/-- `ibv_create_qp`: the memory is zeroed, and the number that the kernel gives is stored by `mlx_create_qp` only. -/
def ibvCreateQp (qpn : BitVec 32) : IbvQp := ⟨0,qpn⟩

/-- The GID that `ibv_query_gid` puts together. -/
def defaultGid : Block 16 :=
  ⟨[0xfe,0x80] ++ List.replicate 6 0 ++ [0x02,0x02,0xc9,0xff,0xfe,0x00,0x00,0x01],rfl⟩

/-- `ibv_query_gid` of an open context. -/
def ibvQueryGid (port_num : BitVec 8) (index : BitVec 32) : Option (Block 16) :=
  if port_num = 0 ∨ index.toInt < 0 then none else some defaultGid

/-- A process behind `pt_init` and `pt_create_qp`: the number that the kernel gave its queue pair, the key of its region,
and the test that it is to run, with the size of a 32-bit number. -/
structure Endpoint where
  qpn : BitVec 32
  rkey : BitVec 32
  size : BitVec 64
  iters : BitVec 32
  size_lt : size.toNat < 2 ^ 32

def Endpoint.qp (e : Endpoint) : IbvQp := ibvCreateQp e.qpn

structure PtPeer where
  qpn : BitVec 32
  rkey : BitVec 32
  psn : BitVec 32
  gid : Block 16
  deriving DecidableEq

def ptHsVer : BitVec 32 := 1

def Endpoint.msg (e : Endpoint) : PtHsMsg where
  qpn := e.qp.qp_num
  rkey := e.rkey
  psn := 0
  gid := (ibvQueryGid 1 0).getD (.zero 16)
  size := e.size.setWidth 32
  iters := e.iters
  ver := ptHsVer

/-- What the other process comes to know of it. -/
def Endpoint.peer (e : Endpoint) : PtPeer := ⟨0,e.rkey,0,defaultGid⟩

/-- The end of `pt_handshake`, behind the exchange. -/
def validate (e : Endpoint) (remote : PtHsMsg) : Option PtPeer :=
  if remote.ver ≠ ptHsVer then none
  else if remote.size.setWidth 64 ≠ e.size then none
  else if remote.iters ≠ e.iters then none
  else some ⟨remote.qpn,remote.rkey,remote.psn,remote.gid⟩

def noAttr : IbvQpAttr := ⟨0,0,0,0,0,0,0,0,0,0,false,.zero 16,0,0,0,0⟩

/-- The attributes of the three calls of `pt_qp_to_rts`, as far as they are passed on. -/
def rtsAttrs (peer : PtPeer) : List IbvQpAttr :=
  [{ noAttr with qp_state := 1, port_num := 1, pkey_index := 0 },
    { noAttr with
      qp_state := 2, path_mtu := 5, dest_qp_num := peer.qpn, rq_psn := peer.psn, max_dest_rd_atomic := 16, min_rnr_timer := 12
      av := true, dgid := (Block.zero 16).copy peer.gid.val, sgid_index := 0, hop_limit := 64, ah_port_num := 1 },
    { noAttr with qp_state := 3, sq_psn := 0, max_rd_atomic := 16 }]

/-- `pt_qp_to_rts`: the attributes that were set, and whether that is all of them. -/
def ptQpToRts (modified : IbvQpAttr → Bool) (peer : PtPeer) : Bool × List IbvQpAttr :=
  ((rtsAttrs peer).all modified,(rtsAttrs peer).takeWhile modified)

/-- `rejected` is a handshake that fails over what was received, and `failed` one that fails before. -/
inductive Pc
  | start | listening | connected | sent
  | done (peer : PtPeer)
  | ready (attrs : List IbvQpAttr)
  | rejected | failed

/-- The processes, and the bytes that each has sent and the other has not received. -/
structure State where
  pc : Side → Pc
  stream : Side → List Byte

def initial : State := ⟨fun _ => .start,fun _ => []⟩

inductive Action
  /-- `socket`, `bind` and `listen` of the server. -/
  | listen
  | connect
  | accept
  /-- A call before the exchange fails. -/
  | fail (side : Side)
  /-- `send` takes `n` bytes. -/
  | send (side : Side) (n : ℕ)
  /-- `recv` returns `k` bytes; none at the end of the stream or for an error. -/
  | recv (side : Side) (k : ℕ)
  | toRts (side : Side) (modified : IbvQpAttr → Bool)

variable (e : Side → Endpoint)

def State.goto (s : State) (side : Side) (pc : Pc) : State := { s with pc := Function.update s.pc side pc }

def step (s : State) : Action → Option State
  | .listen =>
    match s.pc .server with
    | .start => some (s.goto .server .listening)
    | _ => none
  | .connect =>
    match s.pc .client, s.pc .server with
    | .start, .start => none
    | .start, _ => some (s.goto .client .connected)
    | _, _ => none
  | .accept =>
    match s.pc .server, s.pc .client with
    | .listening, .start => none
    | .listening, _ => some (s.goto .server .connected)
    | _, _ => none
  | .fail side =>
    match s.pc side with
    | .start => some (s.goto side .failed)
    | .listening => some (s.goto side .failed)
    | _ => none
  | .send side n =>
    match s.pc side with
    | .connected =>
      if n ≤ msgSize then
        some { s.goto side (if n = msgSize then .sent else .failed) with
          stream := Function.update s.stream side (s.stream side ++ (e side).msg.bytes.take n) }
      else none
    | _ => none
  | .recv side k =>
    match s.pc side with
    | .sent =>
      if k ≤ msgSize ∧ k ≤ (s.stream side.other).length then
        let remote := (s.stream side.other).take k
        let pc := if k ≠ msgSize then .failed else
          match validate (e side) (.ofBytes remote) with
          | none => .rejected
          | some peer => .done peer
        some { s.goto side pc with stream := Function.update s.stream side.other ((s.stream side.other).drop k) }
      else none
    | _ => none
  | .toRts side modified =>
    match s.pc side with
    | .done peer =>
      let (ok,attrs) := ptQpToRts modified peer
      some (s.goto side (if ok then .ready attrs else .failed))
    | _ => none

/-! ## The bytes -/

theorem wordBytes_length (x : BitVec 32) : (wordBytes x).length = 4 := by
  rw [wordBytes, List.length_reverse, beBytes_length]

theorem word_wordBytes (x : BitVec 32) : word (wordBytes x) = x := by
  have hlt : x.toNat < 256 ^ 4 := x.isLt
  unfold word wordBytes
  rw [List.reverse_reverse, ofBytes_beBytes, Nat.mod_eq_of_lt hlt, BitVec.ofNat_toNat, BitVec.setWidth_eq]

theorem copy_val {n : ℕ} (src dst : Block n) : dst.copy src.val = src := by
  have hcopy := Block.take_copy dst src.property.le
  rw [src.property, List.take_of_length_le (dst.copy src.val).property.le] at hcopy
  rw [← Block.mk.injEq] at hcopy
  · exact hcopy

theorem PtHsMsg.bytes_length (m : PtHsMsg) : m.bytes.length = msgSize := by
  simp only [bytes, List.length_append, wordBytes_length, m.gid.property]
  rfl

/-- What was sent whole is read back. -/
theorem PtHsMsg.ofBytes_bytes (m : PtHsMsg) : PtHsMsg.ofBytes m.bytes = m := by
  have hq := wordBytes_length m.qpn
  have hr := wordBytes_length m.rkey
  have hp := wordBytes_length m.psn
  have hg := m.gid.property
  have hs := wordBytes_length m.size
  have hi := wordBytes_length m.iters
  have hv := wordBytes_length m.ver
  have h0 : slice 0 4 m.bytes = wordBytes m.qpn := slice_mid [] _ _ rfl hq
  have h4 : slice 4 4 m.bytes = wordBytes m.rkey := slice_mid _ _ _ hq hr
  have h8 : slice 8 4 m.bytes = wordBytes m.psn := by
    rw [bytes, ← List.append_assoc (wordBytes m.qpn)]
    exact slice_mid _ _ _ (by simp only [List.length_append, hq, hr]) hp
  have h12 : slice 12 16 m.bytes = m.gid.val := by
    rw [bytes, ← List.append_assoc (wordBytes m.qpn), ← List.append_assoc _ (wordBytes m.psn)]
    exact slice_mid _ _ _ (by simp only [List.length_append, hq, hr, hp]) hg
  have h28 : slice 28 4 m.bytes = wordBytes m.size := by
    rw [bytes, ← List.append_assoc (wordBytes m.qpn), ← List.append_assoc _ (wordBytes m.psn),
      ← List.append_assoc _ m.gid.val]
    exact slice_mid _ _ _ (by simp only [List.length_append, hq, hr, hp, hg]) hs
  have h32 : slice 32 4 m.bytes = wordBytes m.iters := by
    rw [bytes, ← List.append_assoc (wordBytes m.qpn), ← List.append_assoc _ (wordBytes m.psn),
      ← List.append_assoc _ m.gid.val,
      ← List.append_assoc _ (wordBytes m.size)]
    exact slice_mid _ _ _ (by simp only [List.length_append, hq, hr, hp, hg, hs]) hi
  have h36 : slice 36 4 m.bytes = wordBytes m.ver := by
    rw [bytes, ← List.append_assoc (wordBytes m.qpn), ← List.append_assoc _ (wordBytes m.psn),
      ← List.append_assoc _ m.gid.val,
      ← List.append_assoc _ (wordBytes m.size), ← List.append_assoc _ (wordBytes m.iters),
      ← List.append_nil (wordBytes m.ver)]
    exact slice_mid _ _ _ (by simp only [List.length_append, hq, hr, hp, hg, hs, hi]) hv
  unfold ofBytes
  rw [h0, h4, h8, h12, h28, h32, h36]
  simp only [word_wordBytes, copy_val]

/-! ## What a run keeps -/

/-- The two processes are to run the same test. -/
def Agree (e : Side → Endpoint) : Prop := (e .server).size = (e .client).size ∧ (e .server).iters = (e .client).iters

def Pc.unsent : Pc → Bool
  | .start | .listening | .connected => true
  | _ => false

def Pc.waiting : Pc → Bool
  | .start | .listening | .connected | .sent => true
  | _ => false

/-- What a process has come to is right. -/
def Pc.Sound (e : Side → Endpoint) (side : Side) : Pc → Prop
  | .done peer => peer = (e side.other).peer ∧ Agree e
  | .ready attrs => attrs = rtsAttrs (e side.other).peer ∧ Agree e
  | .rejected => ¬ Agree e
  | _ => True

structure Inv (e : Side → Endpoint) (s : State) : Prop where
  unsent : ∀ side, (s.pc side).unsent = true → s.stream side = []
  stream : ∀ side, (s.pc side.other).waiting = true → s.stream side <+: (e side).msg.bytes
  sound : ∀ side, (s.pc side).Sound e side

variable {e : Side → Endpoint} {s t : State} {side : Side} {pc : Pc}

@[simp] theorem Side.other_other (side : Side) : side.other.other = side := by cases side <;> rfl

theorem agreement_iff (side : Side) :
    Agree e ↔ (e side.other).size = (e side).size ∧ (e side.other).iters = (e side).iters := by
  unfold Agree
  cases side with
  | server => exact and_congr eq_comm eq_comm
  | client => exact Iff.rfl

/-- The message of the other process is taken exactly where the tests are the same. -/
theorem validate_msg (side : Side) [Decidable (Agree e)] :
    validate (e side) (e side.other).msg = if Agree e then some (e side.other).peer else none := by
  have hsize : ((e side.other).size.setWidth 32).setWidth 64 = (e side.other).size := by
    refine BitVec.eq_of_toNat_eq ?_
    rw [BitVec.toNat_setWidth, BitVec.toNat_setWidth, Nat.mod_eq_of_lt (e side.other).size_lt, Nat.mod_eq_of_lt (BitVec.isLt _)]
  unfold validate Endpoint.msg
  dsimp only
  rw [if_neg (not_not_intro rfl), hsize]
  by_cases hs : (e side.other).size = (e side).size
  · by_cases hi : (e side.other).iters = (e side).iters
    · rw [if_neg (not_not_intro hs), if_neg (not_not_intro hi), if_pos ((agreement_iff side).mpr ⟨hs,hi⟩)]
      rfl
    · rw [if_neg (not_not_intro hs), if_pos hi, if_neg (fun h => hi ((agreement_iff side).mp h).2)]
  · rw [if_pos hs, if_neg (fun h => hs ((agreement_iff side).mp h).1)]

theorem inv_initial : Inv e initial where
  unsent _ _ := rfl
  stream _ _ := List.nil_prefix
  sound _ := trivial

/-- A process goes on, and has not gone back. -/
theorem Inv.goto (h : Inv e s) (hu : pc.unsent = true → (s.pc side).unsent = true)
    (hw : pc.waiting = true → (s.pc side).waiting = true)
    (hpc : pc.Sound e side) : Inv e (s.goto side pc) where
  unsent x hx := by
    unfold State.goto at hx
    dsimp only at hx
    by_cases he : x = side
    · subst he
      rw [Function.update_self] at hx
      exact h.unsent x (hu hx)
    · rw [Function.update_of_ne he] at hx
      exact h.unsent x hx
  stream x hx := by
    unfold State.goto at hx
    dsimp only at hx
    by_cases he : x.other = side
    · subst he
      rw [Function.update_self] at hx
      exact h.stream x (hw hx)
    · rw [Function.update_of_ne he] at hx
      exact h.stream x hx
  sound x := by
    unfold State.goto
    dsimp only
    by_cases he : x = side
    · subst he
      rw [Function.update_self]
      exact hpc
    · rw [Function.update_of_ne he]
      exact h.sound x

theorem Inv.write (h : Inv e s) (hsent : (s.pc side).unsent = false) {bytes : List Byte} (hbytes : bytes <+: (e side).msg.bytes) :
    Inv e { s with stream := Function.update s.stream side bytes } where
  unsent x hx := by
    have hne : x ≠ side := by
      rintro rfl
      rw [hsent] at hx
      cases hx
    dsimp only
    rw [Function.update_of_ne hne]
    exact h.unsent x hx
  stream x hx := by
    dsimp only
    by_cases he : x = side
    · subst he
      rw [Function.update_self]
      exact hbytes
    · rw [Function.update_of_ne he]
      exact h.stream x hx
  sound := h.sound

theorem Inv.read (h : Inv e s) (hread : (s.pc side).waiting = false) (k : ℕ) :
    Inv e { s with stream := Function.update s.stream side.other ((s.stream side.other).drop k) } where
  unsent x hx := by
    dsimp only
    by_cases he : x = side.other
    · subst he
      rw [Function.update_self, h.unsent _ hx, List.drop_nil]
    · rw [Function.update_of_ne he]
      exact h.unsent x hx
  stream x hx := by
    have hne : x ≠ side.other := by
      rintro rfl
      dsimp only at hx
      rw [Side.other_other, hread] at hx
      cases hx
    dsimp only
    rw [Function.update_of_ne hne]
    exact h.stream x hx
  sound := h.sound

theorem goto_pc (s : State) (side : Side) (pc : Pc) : (s.goto side pc).pc side = pc := Function.update_self _ _ _

/-- All of the stream that is as long as a message is the message. -/
theorem Inv.received (h : Inv e s) (hw : (s.pc side).waiting = true) (hlen : msgSize ≤ (s.stream side.other).length) :
    PtHsMsg.ofBytes ((s.stream side.other).take msgSize) = (e side.other).msg := by
  have hprefix := h.stream side.other (by rw [Side.other_other]; exact hw)
  have hle := hprefix.length_le
  have hwhole : s.stream side.other = (e side.other).msg.bytes := by
    rw [PtHsMsg.bytes_length] at hle
    refine hprefix.eq_of_length ?_
    rw [PtHsMsg.bytes_length]
    omega
  rw [hwhole, List.take_of_length_le (PtHsMsg.bytes_length _).le, PtHsMsg.ofBytes_bytes]

theorem send_inv (h : Inv e s) {n : ℕ} (hs : step e s (.send side n) = some t) : Inv e t := by
  simp only [step] at hs
  cases hpc : s.pc side with
  | connected =>
    rw [hpc] at hs
    dsimp only at hs
    split at hs
    · cases hs
      have hempty : s.stream side = [] := h.unsent side (by rw [hpc]; rfl)
      have hgoto : Inv e (s.goto side (if n = msgSize then .sent else .failed)) := by
        split
        · exact h.goto (fun hu => (by cases hu)) (fun _ => (by rw [hpc]; rfl)) trivial
        · exact h.goto (fun hu => (by cases hu)) (fun hw => (by cases hw)) trivial
      have hsent : ((s.goto side (if n = msgSize then .sent else .failed)).pc side).unsent = false := by
        rw [goto_pc]
        split <;> rfl
      rw [hempty, List.nil_append]
      exact hgoto.write hsent (List.take_prefix n _)
    · cases hs
  | _ =>
    rw [hpc] at hs
    cases hs

theorem recv_cases {k : ℕ} (h : Inv e s) (hs : step e s (.recv side k) = some t) [Decidable (Agree e)] :
    s.pc side = .sent ∧ t = { s.goto side (if k ≠ msgSize then .failed
      else if Agree e then .done (e side.other).peer else .rejected) with
      stream := Function.update s.stream side.other ((s.stream side.other).drop k) } := by
  simp only [step] at hs
  cases hpc : s.pc side with
  | sent =>
    rw [hpc] at hs
    dsimp only at hs
    split at hs
    · rename_i hk
      cases hs
      refine ⟨rfl,?_⟩
      by_cases hmsg : k = msgSize
      · subst hmsg
        rw [h.received (by rw [hpc]; rfl) hk.2, validate_msg]
        by_cases hagree : Agree e
        · rw [if_pos hagree, if_pos hagree]
        · rw [if_neg hagree, if_neg hagree]
      · rw [if_pos hmsg, if_pos hmsg]
    · cases hs
  | _ =>
    rw [hpc] at hs
    cases hs

theorem recv_inv (h : Inv e s) {k : ℕ} (hs : step e s (.recv side k) = some t) : Inv e t := by
  classical
  obtain ⟨-,rfl⟩ := recv_cases h hs
  have hgoto : Inv e (s.goto side (if k ≠ msgSize then .failed else if Agree e then .done (e side.other).peer
    else .rejected)) := by
    split
    · exact h.goto (fun hu => (by cases hu)) (fun hw => (by cases hw)) trivial
    · split
      · rename_i hagree
        exact h.goto (fun hu => (by cases hu)) (fun hw => (by cases hw)) ⟨rfl,hagree⟩
      · rename_i hagree
        exact h.goto (fun hu => (by cases hu)) (fun hw => (by cases hw)) hagree
  refine hgoto.read ?_ k
  rw [goto_pc]
  split
  · rfl
  · split <;> rfl

theorem toRts_inv (h : Inv e s) {modified : IbvQpAttr → Bool} (hs : step e s (.toRts side modified) = some t) :
    Inv e t := by
  simp only [step] at hs
  have hsound := h.sound side
  cases hpc : s.pc side with
  | done peer =>
    rw [hpc] at hs hsound
    cases hs
    obtain ⟨rfl,hagree⟩ := hsound
    unfold ptQpToRts
    dsimp only
    split
    · rename_i hall
      refine h.goto (fun hu => (by cases hu)) (fun hw => (by cases hw)) ⟨?_,hagree⟩
      exact List.takeWhile_eq_self_iff.mpr (List.all_eq_true.mp hall)
    · exact h.goto (fun hu => (by cases hu)) (fun hw => (by cases hw)) trivial
  | _ =>
    rw [hpc] at hs
    cases hs

theorem step_inv {a : Action} (h : Inv e s) (hs : step e s a = some t) : Inv e t := by
  cases a with
  | listen =>
    simp only [step] at hs
    split at hs
    · rename_i hpc
      cases hs
      exact h.goto (fun _ => (by rw [hpc]; rfl)) (fun _ => (by rw [hpc]; rfl)) trivial
    · cases hs
  | connect =>
    simp only [step] at hs
    split at hs
    · cases hs
    · rename_i hpc _
      cases hs
      exact h.goto (fun _ => (by rw [hpc]; rfl)) (fun _ => (by rw [hpc]; rfl)) trivial
    · cases hs
  | accept =>
    simp only [step] at hs
    split at hs
    · cases hs
    · rename_i hpc _
      cases hs
      exact h.goto (fun _ => (by rw [hpc]; rfl)) (fun _ => (by rw [hpc]; rfl)) trivial
    · cases hs
  | fail side =>
    simp only [step] at hs
    split at hs
    · cases hs
      exact h.goto (fun hu => (by cases hu)) (fun hw => (by cases hw)) trivial
    · cases hs
      exact h.goto (fun hu => (by cases hu)) (fun hw => (by cases hw)) trivial
    · cases hs
  | send side n => exact send_inv h hs
  | recv side k => exact recv_inv h hs
  | toRts side modified => exact toRts_inv h hs

/-! ## The connection -/

/-- The queue pair of one process is addressed to number zero at the GID that all have, which is that of the other process
only where the kernel has given it this number. It expects the sequence number that the other begins with. -/
structure Connected (mine theirs : List IbvQpAttr) (other : Endpoint) : Prop where
  destination : ∃ rtr ∈ mine, rtr.qp_state = 2 ∧ rtr.dest_qp_num = 0 ∧ rtr.dgid = defaultGid ∧ rtr.av = true
  reaches : ∀ rtr ∈ mine, rtr.qp_state = 2 → (rtr.dest_qp_num = other.qp.mlx_qp ↔ other.qpn = 0)
  psn : ∀ rtr ∈ mine, rtr.qp_state = 2 → ∀ rts ∈ theirs, rts.qp_state = 3 → rtr.rq_psn = rts.sq_psn

/-- Whatever became of the exchange, what a process acts on is what the other one has said. -/
structure Handshaken (e : Side → Endpoint) (s : State) : Prop where
  peer : ∀ side peer, s.pc side = .done peer → peer = ⟨0,(e side.other).rkey,0,defaultGid⟩ ∧ Agree e
  agreement : ∀ side, s.pc side = .rejected → (∀ peer, s.pc side.other ≠ .done peer) ∧
    ∀ attrs, s.pc side.other ≠ .ready attrs
  verdict : ∀ side t, step e s (.recv side msgSize) = some t →
    (Agree e → t.pc side = .done (e side.other).peer) ∧ (¬ Agree e → t.pc side = .rejected)
  connected : ∀ attrs attrs', s.pc .server = .ready attrs → s.pc .client = .ready attrs' →
    Connected attrs attrs' (e .client) ∧ Connected attrs' attrs (e .server)

theorem rtsAttrs_rtr {peer : PtPeer} {rtr : IbvQpAttr} (hrtr : rtr ∈ rtsAttrs peer) (hstate : rtr.qp_state = 2) :
    rtr.dest_qp_num = peer.qpn ∧ rtr.rq_psn = peer.psn := by
  simp only [rtsAttrs, List.mem_cons, List.not_mem_nil, or_false] at hrtr
  rcases hrtr with rfl | rfl | rfl
  · cases hstate
  · exact ⟨rfl,rfl⟩
  · cases hstate

theorem rtsAttrs_rts {peer : PtPeer} {rts : IbvQpAttr} (hrts : rts ∈ rtsAttrs peer) (hstate : rts.qp_state = 3) :
    rts.sq_psn = 0 := by
  simp only [rtsAttrs, List.mem_cons, List.not_mem_nil, or_false] at hrts
  rcases hrts with rfl | rfl | rfl
  · cases hstate
  · cases hstate
  · rfl

theorem rtsAttrs_connected (other : Endpoint) (peer' : PtPeer) :
    Connected (rtsAttrs other.peer) (rtsAttrs peer') other where
  destination := ⟨_,List.mem_cons_of_mem _ List.mem_cons_self,rfl,rfl,copy_val _ _,rfl⟩
  reaches rtr hrtr hstate := by
    rw [(rtsAttrs_rtr hrtr hstate).1]
    exact eq_comm
  psn rtr hrtr hstate rts hrts hstate' := (rtsAttrs_rtr hrtr hstate).2.trans (rtsAttrs_rts hrts hstate').symm

theorem Inv.handshaken (h : Inv e s) : Handshaken e s where
  peer side peer hpc := by
    have hsound := h.sound side
    rw [hpc] at hsound
    exact hsound
  agreement side hpc := by
    have hsound := h.sound side
    have hother := h.sound side.other
    rw [hpc] at hsound
    constructor
    · intro peer hdone
      rw [hdone] at hother
      exact hsound hother.2
    · intro attrs hready
      rw [hready] at hother
      exact hsound hother.2
  verdict side t hs := by
    classical
    obtain ⟨-,rfl⟩ := recv_cases h hs
    constructor
    · intro hagree
      rw [if_neg (not_not_intro rfl), if_pos hagree]
      exact goto_pc s side _
    · intro hagree
      rw [if_neg (not_not_intro rfl), if_neg hagree]
      exact goto_pc s side _
  connected attrs attrs' hserver hclient := by
    have hs := h.sound .server
    have hc := h.sound .client
    rw [hserver] at hs
    rw [hclient] at hc
    rw [hs.1, hc.1]
    exact ⟨rtsAttrs_connected _ _,rtsAttrs_connected _ _⟩

/-- In every run of the two processes. -/
theorem handshake_run (e : Side → Endpoint) {s : State} (hr : Reach (step e) Free initial s) : Handshaken e s :=
  (hr.invariant inv_initial (fun _ _ _ h _ hs => step_inv h hs)).handshaken

def twoProcesses : Side → Endpoint
  | .server => ⟨7,0x100,1 <<< 20,1000,by decide⟩
  | .client => ⟨9,0x200,1 <<< 20,1000,by decide⟩

/-- Both have brought their queue pairs to RTS, and the one of the server is addressed to number zero in place of 9. -/
theorem handshake_run_bothReady : ∃ s attrs attrs', Handshaken twoProcesses s ∧ s.pc .server = .ready attrs ∧
    s.pc .client = .ready attrs' ∧ Connected attrs attrs' (twoProcesses .client) ∧
    ∀ rtr ∈ attrs, rtr.qp_state = 2 → rtr.dest_qp_num ≠ 9 := by
  have hr : Reach (step twoProcesses) Free initial _ := reach_of_after
    [.listen,.connect,.accept,.send .client 40,.send .server 40,.recv .client 40,.recv .server 40,
      .toRts .server (fun _ => true),.toRts .client (fun _ => true)] .start rfl
  have hconnected := ((handshake_run twoProcesses hr).connected _ _ rfl rfl).1
  refine ⟨_,_,_,handshake_run twoProcesses hr,rfl,rfl,hconnected,?_⟩
  intro rtr hrtr hstate hnine
  exact absurd ((hconnected.reaches rtr hrtr hstate).mp hnine) (by decide)

end AppleMCX.Perftest
