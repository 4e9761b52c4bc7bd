import AppleMCX.Core.Cmd
import AppleMCX.Interaction.Bytes

/-! # Command descriptors and mailboxes

What `submit` puts into the descriptor and the mailbox chains, byte by byte, and how a device
reads it back; then how the device stores a response and `exec` copies it out. The memory of the mailboxes
is known by its device addresses.
-/
namespace AppleMCX.CmdFraming
open Cmd Interaction

abbrev Address := BitVec 64

def ownerHw : Byte := 1

/-- `MlxCmdLayout`, the 64 bytes of a descriptor in their order. -/
structure MlxCmdLayout where
  type : Byte
  rsvd0 : Block 3
  inlen : Block 4
  inPtr : Block 8
  input : Block 16
  output : Block 16
  outPtr : Block 8
  outlen : Block 4
  token : Byte
  sig : Byte
  rsvd1 : Byte
  statusOwn : Byte
  deriving DecidableEq

/-- `MlxCmdMailbox`, 576 bytes. -/
structure MlxCmdMailbox where
  data : Block 512
  rsvd0 : Block 48
  next : Block 8
  blockNum : Block 4
  rsvd1 : Byte
  token : Byte
  ctrlSig : Byte
  sig : Byte
  deriving DecidableEq

def MlxCmdLayout.bytes (lay : MlxCmdLayout) : List Byte :=
  lay.type :: (lay.rsvd0.val ++ (lay.inlen.val ++ (lay.inPtr.val ++ (lay.input.val ++ (lay.output.val ++
    (lay.outPtr.val ++ (lay.outlen.val ++ [lay.token,lay.sig,lay.rsvd1,lay.statusOwn])))))))

def MlxCmdMailbox.bytes (mb : MlxCmdMailbox) : List Byte :=
  mb.data.val ++ (mb.rsvd0.val ++ (mb.next.val ++ (mb.blockNum.val ++ [mb.rsvd1,mb.token,mb.ctrlSig,mb.sig])))

def xor8Buf (buf : List Byte) (off len : ℕ) : Byte := xorBytes (slice off len buf)

def setSignature (lay : MlxCmdLayout) : MlxCmdLayout :=
  let lay := { lay with sig := 0 }
  { lay with sig := ~~~(xor8Buf lay.bytes 0 64) }

def setMailboxSignature (mb : MlxCmdMailbox) (len : ℕ) : MlxCmdMailbox :=
  let ctrlXorLen := 576 - 512 - 2
  let rsvd0Off := 512
  let mb := { mb with ctrlSig := ~~~(xor8Buf mb.bytes rsvd0Off ctrlXorLen) }
  { mb with sig := ~~~(xor8Buf mb.bytes 0 (len - 1)) }

/-- The part of `MlxCmdEnt` that `submit` reads. Memory that is mapped at the same time has different addresses. -/
structure MlxCmdEnt (inSize outSize : ℕ) where
  token : Byte
  inMailboxDMA : ℕ → Address
  outMailboxDMA : ℕ → Address
  inDistinct : ∀ i j, i < numBlocks inSize → j < numBlocks inSize → inMailboxDMA i = inMailboxDMA j → i = j
  outDistinct : ∀ i j, i < numBlocks outSize → j < numBlocks outSize → outMailboxDMA i = outMailboxDMA j → i = j
  apart : ∀ i j, i < numBlocks inSize → j < numBlocks outSize → inMailboxDMA i ≠ outMailboxDMA j

/-- The bytes of block `i` in a buffer of `size` bytes, computed in 32 bits. -/
def dataLen (size i : ℕ) : ℕ :=
  let copied := 16 + i * dataBlockSize
  min ((2 ^ 32 + size - copied) % 2 ^ 32) dataBlockSize

/-- The address that the pointer to block `i` of `count` holds. -/
def pointer (addr : ℕ → Address) (count i : ℕ) : Address := if i < count then addr i else 0

/-- What both loops of `submit` do to block `i` of `count`. -/
def linkBlock (token : Byte) (addr : ℕ → Address) (count i : ℕ) (mb : MlxCmdMailbox) : MlxCmdMailbox :=
  setMailboxSignature { mb with
    next := beBlock 8 (pointer addr count (i + 1)).toNat
    blockNum := beBlock 4 i
    token := token } 576

def fillBlock (input : List Byte) (i : ℕ) (mb : MlxCmdMailbox) : MlxCmdMailbox :=
  { mb with data := mb.data.copy ((input.drop (16 + i * dataBlockSize)).take (dataLen input.length i)) }

def submitLayout (input : List Byte) (outSize : ℕ) (ent : MlxCmdEnt input.length outSize) : MlxCmdLayout :=
  setSignature {
    type := 0x7
    rsvd0 := .zero 3
    inlen := beBlock 4 input.length
    inPtr := beBlock 8 (pointer ent.inMailboxDMA (numBlocks input.length) 0).toNat
    input := (Block.zero 16).copy (input.take (if input.length < 16 then input.length else 16))
    output := .zero 16
    outPtr := beBlock 8 (pointer ent.outMailboxDMA (numBlocks outSize) 0).toNat
    outlen := beBlock 4 outSize
    token := ent.token
    sig := 0
    rsvd1 := 0
    statusOwn := ownerHw }

def submitMailboxes (input : List Byte) (outSize : ℕ) (ent : MlxCmdEnt input.length outSize)
    (mem : Address → MlxCmdMailbox) : Address → MlxCmdMailbox :=
  let inNumBlocks := numBlocks input.length
  let outNumBlocks := numBlocks outSize
  scatter ent.outMailboxDMA (linkBlock ent.token ent.outMailboxDMA outNumBlocks) outNumBlocks
    (scatter ent.inMailboxDMA (fun i mb => linkBlock ent.token ent.inMailboxDMA inNumBlocks i (fillBlock input i mb))
      inNumBlocks mem)

/-- The response as `exec` copies it into the caller's buffer. -/
def copyResponse {inSize outSize : ℕ} (ent : MlxCmdEnt inSize outSize) (lay : MlxCmdLayout) (mem : Address → MlxCmdMailbox)
    (out : Block outSize) : Block outSize :=
  (List.range (numBlocks outSize)).foldl
    (fun out i => out.copyAt (16 + i * dataBlockSize) ((mem (ent.outMailboxDMA i)).data.val.take (dataLen outSize i)))
    (out.copy (lay.output.val.take (if outSize < 16 then outSize else 16)))

/-! ## The device -/

def field (off n : ℕ) (bytes : List Byte) : ℕ := ofBytes (slice off n bytes)

def next (mem : Address → MlxCmdMailbox) (a : Address) : Address := BitVec.ofNat 64 (field 560 8 (mem a).bytes)

def follow (mem : Address → MlxCmdMailbox) : ℕ → Address → List Address
  | 0, _ => []
  | count + 1, a => a :: follow mem count (next mem a)

/-- ⌈(`size` - 16) / 512⌉, and none up to 16. -/
def blocksFor (size : ℕ) : ℕ := (size - 16 + 511) / 512

def readInput (lay : List Byte) (mem : Address → MlxCmdMailbox) : List Byte :=
  let inlen := field 4 4 lay
  slice 16 (min 16 inlen) lay ++
    ((follow mem (blocksFor inlen) (BitVec.ofNat 64 (field 8 8 lay))).flatMap (fun a => slice 0 512 (mem a).bytes)).take
      (inlen - 16)

/-- The device stores a response in the same way, as far as `outlen` allows, and gives the descriptor back. -/
def storeResponse (response : List Byte) (delivery : Byte) (lay : MlxCmdLayout) (mem : Address → MlxCmdMailbox) :
    MlxCmdLayout × (Address → MlxCmdMailbox) :=
  let outlen := field 56 4 lay.bytes
  let stored := response.take outlen
  let chain := follow mem (blocksFor outlen) (BitVec.ofNat 64 (field 48 8 lay.bytes))
  ({ lay with output := lay.output.copy (stored.take 16), statusOwn := delivery <<< 1 },
    scatter (fun i => chain.getD i 0) (fun i mb => { mb with data := mb.data.copy (slice (16 + i * 512) 512 stored) })
      chain.length mem)

/-- From `a` on come `count` blocks with the numbers from `i` on, the token and both signatures; the last pointer is zero. -/
inductive Chain (mem : Address → MlxCmdMailbox) (token : Byte) : ℕ → ℕ → Address → Prop where
  | nil (i : ℕ) : Chain mem token i 0 0
  | cons {i count : ℕ} {a : Address} (number : field 568 4 (mem a).bytes = i) (htoken : slice 573 1 (mem a).bytes = [token])
      (ctrlSig : xorBytes (slice 512 63 (mem a).bytes) = 0xff) (sig : xorBytes (mem a).bytes = 0xff)
      (rest : Chain mem token (i + 1) count (next mem a)) : Chain mem token i (count + 1) a

/-! ## The bytes of the structures -/

variable (lay : MlxCmdLayout) (mb : MlxCmdMailbox)

theorem layout_length : lay.bytes.length = 64 := by
  simp only [MlxCmdLayout.bytes, List.length_cons, List.length_append, lay.rsvd0.property, lay.inlen.property,
    lay.inPtr.property, lay.input.property, lay.output.property, lay.outPtr.property, lay.outlen.property, List.length_nil]

theorem layout_inlen : slice 4 4 lay.bytes = lay.inlen.val := by
  have h := slice_mid (o := 4) (lay.type :: lay.rsvd0.val) lay.inlen.val
    (lay.inPtr.val ++ (lay.input.val ++ (lay.output.val ++ (lay.outPtr.val ++ (lay.outlen.val ++
      [lay.token,lay.sig,lay.rsvd1,lay.statusOwn]))))) (by simp [lay.rsvd0.property]) lay.inlen.property
  simpa [MlxCmdLayout.bytes] using h

theorem layout_inPtr : slice 8 8 lay.bytes = lay.inPtr.val := by
  have h := slice_mid (o := 8) (lay.type :: (lay.rsvd0.val ++ lay.inlen.val)) lay.inPtr.val
    (lay.input.val ++ (lay.output.val ++ (lay.outPtr.val ++ (lay.outlen.val ++
      [lay.token,lay.sig,lay.rsvd1,lay.statusOwn])))) (by simp [lay.rsvd0.property, lay.inlen.property]) lay.inPtr.property
  simpa [MlxCmdLayout.bytes] using h

theorem layout_input : slice 16 16 lay.bytes = lay.input.val := by
  have h := slice_mid (o := 16) (lay.type :: (lay.rsvd0.val ++ (lay.inlen.val ++ lay.inPtr.val))) lay.input.val
    (lay.output.val ++ (lay.outPtr.val ++ (lay.outlen.val ++ [lay.token,lay.sig,lay.rsvd1,lay.statusOwn])))
    (by simp [lay.rsvd0.property, lay.inlen.property, lay.inPtr.property]) lay.input.property
  simpa [MlxCmdLayout.bytes] using h

theorem layout_outPtr : slice 48 8 lay.bytes = lay.outPtr.val := by
  have h := slice_mid (o := 48)
    (lay.type :: (lay.rsvd0.val ++ (lay.inlen.val ++ (lay.inPtr.val ++ (lay.input.val ++ lay.output.val))))) lay.outPtr.val
    (lay.outlen.val ++ [lay.token,lay.sig,lay.rsvd1,lay.statusOwn])
    (by simp [lay.rsvd0.property, lay.inlen.property, lay.inPtr.property, lay.input.property, lay.output.property])
    lay.outPtr.property
  simpa [MlxCmdLayout.bytes] using h

theorem layout_outlen : slice 56 4 lay.bytes = lay.outlen.val := by
  have h := slice_mid (o := 56)
    (lay.type :: (lay.rsvd0.val ++ (lay.inlen.val ++ (lay.inPtr.val ++ (lay.input.val ++ (lay.output.val ++ lay.outPtr.val))))))
    lay.outlen.val [lay.token,lay.sig,lay.rsvd1,lay.statusOwn]
    (by simp [lay.rsvd0.property, lay.inlen.property, lay.inPtr.property, lay.input.property, lay.output.property,
      lay.outPtr.property]) lay.outlen.property
  simpa [MlxCmdLayout.bytes] using h

theorem layout_token : slice 60 1 lay.bytes = [lay.token] := by
  have h := slice_mid (o := 60) (n := 1)
    (lay.type :: (lay.rsvd0.val ++ (lay.inlen.val ++ (lay.inPtr.val ++ (lay.input.val ++ (lay.output.val ++
      (lay.outPtr.val ++ lay.outlen.val))))))) [lay.token] [lay.sig,lay.rsvd1,lay.statusOwn]
    (by simp [lay.rsvd0.property, lay.inlen.property, lay.inPtr.property, lay.input.property, lay.output.property,
      lay.outPtr.property, lay.outlen.property]) rfl
  simpa [MlxCmdLayout.bytes] using h

theorem mailbox_data : slice 0 512 mb.bytes = mb.data.val := by
  have h := slice_mid (o := 0) [] mb.data.val
    (mb.rsvd0.val ++ (mb.next.val ++ (mb.blockNum.val ++ [mb.rsvd1,mb.token,mb.ctrlSig,mb.sig]))) rfl mb.data.property
  simpa [MlxCmdMailbox.bytes] using h

theorem mailbox_next : slice 560 8 mb.bytes = mb.next.val := by
  have h := slice_mid (o := 560) (mb.data.val ++ mb.rsvd0.val) mb.next.val
    (mb.blockNum.val ++ [mb.rsvd1,mb.token,mb.ctrlSig,mb.sig]) (by simp [mb.data.property, mb.rsvd0.property]) mb.next.property
  simpa [MlxCmdMailbox.bytes] using h

theorem mailbox_blockNum : slice 568 4 mb.bytes = mb.blockNum.val := by
  have h := slice_mid (o := 568) (mb.data.val ++ (mb.rsvd0.val ++ mb.next.val)) mb.blockNum.val
    [mb.rsvd1,mb.token,mb.ctrlSig,mb.sig] (by simp [mb.data.property, mb.rsvd0.property, mb.next.property]) mb.blockNum.property
  simpa [MlxCmdMailbox.bytes] using h

theorem mailbox_token : slice 573 1 mb.bytes = [mb.token] := by
  have h := slice_mid (o := 573) (n := 1) (mb.data.val ++ (mb.rsvd0.val ++ (mb.next.val ++ (mb.blockNum.val ++ [mb.rsvd1]))))
    [mb.token] [mb.ctrlSig,mb.sig]
    (by simp [mb.data.property, mb.rsvd0.property, mb.next.property, mb.blockNum.property]) rfl
  simpa [MlxCmdMailbox.bytes] using h

/-- What the control signature is made over. -/
def MlxCmdMailbox.control (mb : MlxCmdMailbox) : List Byte :=
  mb.rsvd0.val ++ (mb.next.val ++ (mb.blockNum.val ++ [mb.rsvd1,mb.token]))

theorem mailbox_bytes : mb.bytes = mb.data.val ++ (mb.control ++ [mb.ctrlSig,mb.sig]) := by
  simp [MlxCmdMailbox.bytes, MlxCmdMailbox.control]

theorem control_length : mb.control.length = 62 := by
  simp only [MlxCmdMailbox.control, List.length_cons, List.length_append, mb.rsvd0.property, mb.next.property,
    mb.blockNum.property, List.length_nil]

/-! ## Signatures -/

theorem setSignature_xor : xorBytes (setSignature lay).bytes = 0xff := by
  have hall : ∀ l : MlxCmdLayout, xor8Buf l.bytes 0 64 = xorBytes l.bytes := by
    intro l
    unfold xor8Buf slice
    rw [List.drop_zero, List.take_of_length_le (layout_length l).le]
  have hsplit : ∀ sig : Byte, MlxCmdLayout.bytes { lay with sig := sig } =
      (lay.type :: (lay.rsvd0.val ++ (lay.inlen.val ++ (lay.inPtr.val ++ (lay.input.val ++ (lay.output.val ++
        (lay.outPtr.val ++ (lay.outlen.val ++ [lay.token])))))))) ++ sig :: [lay.rsvd1,lay.statusOwn] := by
    intro sig
    simp [MlxCmdLayout.bytes]
  unfold setSignature
  dsimp only
  rw [hall, hsplit, hsplit]
  exact xorBytes_complement _ _

theorem setMailboxSignature_xor : xorBytes (setMailboxSignature mb 576).bytes = 0xff := by
  have hfront : ∀ m : MlxCmdMailbox, m.bytes = (m.data.val ++ (m.control ++ [m.ctrlSig])) ++ [m.sig] := by
    intro m
    rw [mailbox_bytes]
    simp
  have hslice : ∀ m : MlxCmdMailbox, slice 0 575 m.bytes = m.data.val ++ (m.control ++ [m.ctrlSig]) := by
    intro m
    have h := slice_mid (o := 0) (n := 575) [] (m.data.val ++ (m.control ++ [m.ctrlSig])) [m.sig] rfl
      (by simp [m.data.property, control_length])
    rw [hfront]
    simpa using h
  rw [hfront]
  unfold setMailboxSignature xor8Buf
  dsimp only
  rw [show 576 - 1 = 575 from rfl, hslice]
  exact xorBytes_complement_last _

theorem setMailboxSignature_ctrl : xorBytes (slice 512 63 (setMailboxSignature mb 576).bytes) = 0xff := by
  have hslice : ∀ m : MlxCmdMailbox, slice 512 62 m.bytes = m.control := by
    intro m
    rw [mailbox_bytes]
    exact slice_mid _ _ _ m.data.property (control_length m)
  have hslice' : ∀ m : MlxCmdMailbox, slice 512 63 m.bytes = m.control ++ [m.ctrlSig] := by
    intro m
    have h := slice_mid (o := 512) (n := 63) m.data.val (m.control ++ [m.ctrlSig]) [m.sig] m.data.property
      (by simp [control_length])
    rw [mailbox_bytes]
    simpa using h
  rw [hslice']
  unfold setMailboxSignature xor8Buf
  dsimp only
  rw [hslice]
  exact xorBytes_complement_last _

/-! ## Chains -/

theorem numBlocks_eq (size : ℕ) : numBlocks size = blocksFor size := by
  unfold numBlocks blocksFor dataBlockSize
  split <;> omega

theorem lt_numBlocks {size i : ℕ} : i < numBlocks size ↔ 16 + i * 512 < size := by
  unfold numBlocks dataBlockSize
  split <;> omega

/-- No difference wraps around in a block that exists. -/
theorem dataLen_eq {size i : ℕ} (hsize : size ≤ maxSize) (hi : i < numBlocks size) :
    dataLen size i = min (size - (16 + i * 512)) 512 := by
  have hlt := lt_numBlocks.mp hi
  have hmod : (2 ^ 32 + size - (16 + i * 512)) % 2 ^ 32 = size - (16 + i * 512) := by
    unfold maxSize maxBlocks dataBlockSize at hsize
    omega
  unfold dataLen dataBlockSize
  dsimp only
  rw [hmod]

variable {lay mb} {mem : Address → MlxCmdMailbox} {token : Byte} {addr : ℕ → Address} {n i : ℕ}

theorem next_linked {a : Address} (h : mem a = linkBlock token addr n i mb) : next mem a = pointer addr n (i + 1) := by
  have hlt := (pointer addr n (i + 1)).isLt
  unfold next field
  rw [mailbox_next, h, show (linkBlock token addr n i mb).next = beBlock 8 (pointer addr n (i + 1)).toNat from rfl,
    ofBytes_beBlock (by omega), BitVec.ofNat_toNat, BitVec.setWidth_eq]

theorem chain_linked (hn : n ≤ maxBlocks) (h : ∀ i, i < n → ∃ mb, mem (addr i) = linkBlock token addr n i mb) (k : ℕ) :
    ∀ i, i + k = n → Chain mem token i k (pointer addr n i) := by
  induction k with
  | zero =>
    intro i hi
    rw [pointer, if_neg (by omega)]
    exact .nil i
  | succ k ih =>
    intro i hi
    obtain ⟨mb,hmb⟩ := h i (by omega)
    rw [pointer, if_pos (by omega)]
    unfold maxBlocks at hn
    apply Chain.cons
    · unfold field
      rw [mailbox_blockNum, hmb]
      exact ofBytes_beBlock (by omega)
    · rw [mailbox_token, hmb]
      rfl
    · rw [hmb]
      exact setMailboxSignature_ctrl _
    · rw [hmb]
      exact setMailboxSignature_xor _
    · rw [next_linked hmb]
      exact ih (i + 1) (by omega)

theorem follow_linked (h : ∀ i, i < n → ∃ mb, mem (addr i) = linkBlock token addr n i mb) (k : ℕ) :
    ∀ i, i + k = n → follow mem k (pointer addr n i) = (List.range' i k).map addr := by
  induction k with
  | zero =>
    intro i hi
    rfl
  | succ k ih =>
    intro i hi
    obtain ⟨mb,hmb⟩ := h i (by omega)
    have hpointer : pointer addr n i = addr i := by rw [pointer, if_pos (by omega)]
    rw [follow, hpointer, next_linked hmb, ih (i + 1) (by omega), List.range'_succ, List.map_cons]

/-! ## Round trips -/

variable {input : List Byte} {outSize : ℕ} {ent : MlxCmdEnt input.length outSize}

theorem submit_inBlock (hi : i < numBlocks input.length) : submitMailboxes input outSize ent mem (ent.inMailboxDMA i) =
    linkBlock ent.token ent.inMailboxDMA (numBlocks input.length) i (fillBlock input i (mem (ent.inMailboxDMA i))) := by
  unfold submitMailboxes
  rw [scatter_of_ne (fun j hj => (ent.apart i j hi hj).symm), scatter_apply ent.inDistinct hi]

theorem submit_outBlock (hi : i < numBlocks outSize) :
    ∃ mb, submitMailboxes input outSize ent mem (ent.outMailboxDMA i) =
    linkBlock ent.token ent.outMailboxDMA (numBlocks outSize) i mb := by
  unfold submitMailboxes
  rw [scatter_apply ent.outDistinct hi]
  exact ⟨_,rfl⟩

theorem numBlocks_le {size : ℕ} (h : size ≤ maxSize) : numBlocks size ≤ maxBlocks := by
  unfold maxSize maxBlocks dataBlockSize at h
  unfold numBlocks maxBlocks dataBlockSize
  split <;> omega

theorem pointer_field (a : Address) : BitVec.ofNat 64 (ofBytes (beBlock 8 a.toNat).val) = a := by
  have hlt := a.isLt
  rw [ofBytes_beBlock (by omega), BitVec.ofNat_toNat, BitVec.setWidth_eq]

theorem submit_inPtr : BitVec.ofNat 64 (field 8 8 (submitLayout input outSize ent).bytes) =
    pointer ent.inMailboxDMA (numBlocks input.length) 0 := by
  unfold field
  rw [layout_inPtr]
  exact pointer_field _

theorem submit_outPtr : BitVec.ofNat 64 (field 48 8 (submitLayout input outSize ent).bytes) =
    pointer ent.outMailboxDMA (numBlocks outSize) 0 := by
  unfold field
  rw [layout_outPtr]
  exact pointer_field _

theorem submit_inlen (h : input.length ≤ maxSize) :
    field 4 4 (submitLayout input outSize ent).bytes = input.length := by
  unfold maxSize maxBlocks dataBlockSize at h
  unfold field
  rw [layout_inlen]
  exact ofBytes_beBlock (by omega)

theorem submit_outlen (h : outSize ≤ maxSize) : field 56 4 (submitLayout input outSize ent).bytes = outSize := by
  unfold maxSize maxBlocks dataBlockSize at h
  unfold field
  rw [layout_outlen]
  exact ofBytes_beBlock (by omega)

theorem submit_header : slice 16 (min 16 input.length) (submitLayout input outSize ent).bytes = input.take 16 := by
  have hlen : (input.take (if input.length < 16 then input.length else 16)).length = min 16 input.length := by
    rw [List.length_take]
    split <;> omega
  have hcopy := Block.take_copy (Block.zero 16)
    (by omega : (input.take (if input.length < 16 then input.length else 16)).length ≤ 16)
  have hinput := layout_input (submitLayout input outSize ent)
  have hslice : slice 16 (min 16 input.length) (submitLayout input outSize ent).bytes =
      (slice 16 16 (submitLayout input outSize ent).bytes).take (min 16 input.length) := by
    unfold slice
    rw [List.take_take, min_eq_left (Nat.min_le_left _ _)]
  rw [hslice, hinput, ← hlen]
  refine hcopy.trans ?_
  split
  · rw [List.take_of_length_le le_rfl, List.take_of_length_le (by omega)]
  · rfl

theorem fillBlock_data (h : input.length ≤ maxSize) (hi : i < numBlocks input.length) (mb : MlxCmdMailbox) :
    (fillBlock input i mb).data.val.take (slice (i * 512) 512 (input.drop 16)).length = slice (i * 512) 512 (input.drop 16) := by
  have hsrc : (input.drop (16 + i * 512)).take (dataLen input.length i) = slice (i * 512) 512 (input.drop 16) := by
    unfold slice
    rw [List.drop_drop, dataLen_eq h hi, List.take_eq_take_iff, List.length_drop]
    omega
  have hlen : (slice (i * 512) 512 (input.drop 16)).length ≤ 512 := List.length_take_le _ _
  have hcopy := Block.take_copy mb.data hlen
  unfold fillBlock dataBlockSize
  rw [hsrc]
  exact hcopy

theorem readInput_submit (h : input.length ≤ maxSize) :
    readInput (submitLayout input outSize ent).bytes (submitMailboxes input outSize ent mem) = input := by
  have hfollow : follow (submitMailboxes input outSize ent mem) (numBlocks input.length)
      (pointer ent.inMailboxDMA (numBlocks input.length) 0) = (List.range' 0 (numBlocks input.length)).map ent.inMailboxDMA :=
    follow_linked (fun i hi => ⟨_,submit_inBlock hi⟩) (numBlocks input.length) 0 (Nat.zero_add _)
  have hblocks := blocks_flatMap (b := 512) (n := numBlocks input.length) (x := input.drop 16)
    (f := fun i => slice 0 512 (submitMailboxes input outSize ent mem (ent.inMailboxDMA i)).bytes) ?_ ?_ ?_
  · have hlast : (input.drop 16).length ≤ numBlocks input.length * 512 := by
      rw [List.length_drop]
      unfold numBlocks dataBlockSize
      split <;> omega
    rw [List.take_of_length_le hlast, List.length_drop] at hblocks
    unfold readInput
    dsimp only
    rw [submit_inlen h, submit_inPtr, submit_header, ← numBlocks_eq, hfollow, List.flatMap_map,
      ← List.range_eq_range']
    conv_rhs => rw [← List.take_append_drop 16 input, ← hblocks]
  · intro i hi
    rw [mailbox_data]
    exact Block.property _
  · intro i hi
    have hlt := lt_numBlocks.mp hi
    rw [List.length_drop]
    omega
  · intro i hi
    rw [mailbox_data, submit_inBlock hi]
    exact fillBlock_data h hi _

/-- Copying out block after block puts together the response that was stored. -/
theorem copyResponse_stored {stored : List Byte} (hsize : outSize ≤ maxSize) (hlen : stored.length = outSize)
    (hhead : lay.output.val.take (stored.take 16).length = stored.take 16)
    (hdata : ∀ i, i < numBlocks outSize → (mem (ent.outMailboxDMA i)).data.val.take (slice (16 + i * 512) 512 stored).length =
      slice (16 + i * 512) 512 stored) (out : Block outSize) : (copyResponse ent lay mem out).val = stored := by
  have hstart : ((out.copy (lay.output.val.take (if outSize < 16 then outSize else 16)))).val.take (min outSize 16) =
      stored.take 16 := by
    have hsrc : lay.output.val.take (if outSize < 16 then outSize else 16) = stored.take 16 := by
      have hwidth : (stored.take 16).length = if outSize < 16 then outSize else 16 := by
        rw [List.length_take, hlen]
        split <;> omega
      rw [← hwidth]
      exact hhead
    have hle : (stored.take 16).length = min outSize 16 := by rw [List.length_take, hlen, min_comm]
    have hcopy := Block.take_copy out (by omega : (stored.take 16).length ≤ outSize)
    rw [hsrc, ← hle]
    exact hcopy
  have hrun : ∀ k, k ≤ numBlocks outSize →
      ((List.range k).foldl (fun out i => out.copyAt (16 + i * dataBlockSize)
        ((mem (ent.outMailboxDMA i)).data.val.take (dataLen outSize i)))
        (out.copy (lay.output.val.take (if outSize < 16 then outSize else 16)))).val.take (min outSize (16 + k * 512)) =
      stored.take (16 + k * 512) := by
    intro k
    induction k with
    | zero =>
      intro _
      exact hstart
    | succ k ih =>
      intro hk
      have hlt := lt_numBlocks.mp hk
      have hprev := ih (by omega)
      have hwidth : (slice (16 + k * 512) 512 stored).length = dataLen outSize k := by
        unfold slice
        rw [List.length_take, List.length_drop, hlen, dataLen_eq hsize hk, min_comm]
      have hblock := hdata k hk
      rw [hwidth] at hblock
      have hfit : 16 + k * 512 + (slice (16 + k * 512) 512 stored).length = min outSize (16 + (k + 1) * 512) := by
        rw [hwidth, dataLen_eq hsize hk]
        omega
      rw [min_eq_right hlt.le] at hprev
      rw [List.range_succ, List.foldl_append, List.foldl_cons, List.foldl_nil, ← hfit]
      unfold dataBlockSize at hprev ⊢
      rw [hblock, Block.take_copyAt _ (by omega), hprev]
      unfold slice
      rw [← List.take_add]
      congr 1
      omega
  have hall := hrun (numBlocks outSize) le_rfl
  have hcover : outSize ≤ 16 + numBlocks outSize * 512 := by
    unfold numBlocks dataBlockSize
    split <;> omega
  have hstored : stored.take (16 + numBlocks outSize * 512) = stored :=
    List.take_of_length_le (by rw [hlen]; exact hcover)
  rw [min_eq_left hcover, hstored] at hall
  exact (List.take_of_length_le (Block.property _).le).symm.trans hall

/-- The response comes back as far as the caller asked for it. -/
theorem copyResponse_storeResponse (h : outSize ≤ maxSize) {response : List Byte} (hlen : outSize ≤ response.length)
    (delivery : Byte) (out : Block outSize) :
    let answered := storeResponse response delivery (submitLayout input outSize ent) (submitMailboxes input outSize ent mem)
    (copyResponse ent answered.1 answered.2 out).val = response.take outSize := by
  have hfollow : follow (submitMailboxes input outSize ent mem) (numBlocks outSize)
      (pointer ent.outMailboxDMA (numBlocks outSize) 0) = (List.range' 0 (numBlocks outSize)).map ent.outMailboxDMA :=
    follow_linked (fun i hi => submit_outBlock hi) (numBlocks outSize) 0 (Nat.zero_add _)
  have haddr : ∀ i, i < numBlocks outSize →
      ((List.range' 0 (numBlocks outSize)).map ent.outMailboxDMA).getD i 0 = ent.outMailboxDMA i := by
    intro i hi
    rw [← List.range_eq_range', List.getD_eq_getElem?_getD, List.getElem?_map, List.getElem?_range hi]
    rfl
  have hstored : (response.take outSize).length = outSize := by rw [List.length_take, min_eq_left hlen]
  dsimp only
  unfold storeResponse
  dsimp only
  rw [submit_outlen h, submit_outPtr, ← numBlocks_eq, hfollow]
  apply copyResponse_stored h hstored
  · exact Block.take_copy _ (List.length_take_le _ _)
  · intro i hi
    rw [← haddr i hi]
    rw [scatter_apply ?_ (by simpa using hi)]
    · exact Block.take_copy _ (List.length_take_le _ _)
    · intro j k hj hk he
      rw [List.length_map, List.length_range'] at hj hk
      rw [haddr j hj, haddr k hk] at he
      exact ent.outDistinct j k hj hk he

/-! ## Framing -/

/-- What the device finds after `submit`, and what `exec` returns of a response. -/
structure Framed (input : List Byte) (outSize : ℕ) (ent : MlxCmdEnt input.length outSize) (mem : Address → MlxCmdMailbox) :
    Prop where
  inChain : Chain (submitMailboxes input outSize ent mem) ent.token 0 (blocksFor input.length)
    (BitVec.ofNat 64 (field 8 8 (submitLayout input outSize ent).bytes))
  outChain : Chain (submitMailboxes input outSize ent mem) ent.token 0 (blocksFor outSize)
    (BitVec.ofNat 64 (field 48 8 (submitLayout input outSize ent).bytes))
  token : slice 60 1 (submitLayout input outSize ent).bytes = [ent.token]
  sig : xorBytes (submitLayout input outSize ent).bytes = 0xff
  recovered : readInput (submitLayout input outSize ent).bytes (submitMailboxes input outSize ent mem) = input
  response : ∀ response delivery out, outSize ≤ response.length →
    let answered := storeResponse response delivery (submitLayout input outSize ent) (submitMailboxes input outSize ent mem)
    (copyResponse ent answered.1 answered.2 out).val = response.take outSize

theorem command_framed (ent : MlxCmdEnt input.length outSize) (mem : Address → MlxCmdMailbox)
    (hin : input.length ≤ maxSize) (hout : outSize ≤ maxSize) : Framed input outSize ent mem where
  inChain := by
    rw [submit_inPtr, ← numBlocks_eq]
    exact chain_linked (numBlocks_le hin) (fun i hi => ⟨_,submit_inBlock hi⟩) _ 0 (Nat.zero_add _)
  outChain := by
    rw [submit_outPtr, ← numBlocks_eq]
    exact chain_linked (numBlocks_le hout) (fun i hi => submit_outBlock hi) _ 0 (Nat.zero_add _)
  token := by
    rw [layout_token]
    rfl
  sig := by
    unfold submitLayout
    exact setSignature_xor _
  recovered := readInput_submit hin
  response := fun _ delivery out hlen => copyResponse_storeResponse hout hlen delivery out

def clearedMailbox : MlxCmdMailbox := ⟨.zero 512,.zero 48,.zero 8,.zero 4,0,0,0,0⟩

def smallEnt : MlxCmdEnt (List.replicate 20 (1 : Byte)).length 600 where
  token := 5
  inMailboxDMA := fun i => BitVec.ofNat 64 (0x1000 + 0x1000 * i)
  outMailboxDMA := fun i => BitVec.ofNat 64 (0x100000 + 0x1000 * i)
  inDistinct := by
    have h : ∀ i < 1, ∀ j < 1, BitVec.ofNat 64 (0x1000 + 0x1000 * i) = BitVec.ofNat 64 (0x1000 + 0x1000 * j) →
      i = j := by decide
    exact fun i j hi hj => h i hi j hj
  outDistinct := by
    have h : ∀ i < 2, ∀ j < 2, BitVec.ofNat 64 (0x100000 + 0x1000 * i) = BitVec.ofNat 64 (0x100000 + 0x1000 * j) →
      i = j := by
      decide
    exact fun i j hi hj => h i hi j hj
  apart := by
    have h : ∀ i < 1, ∀ j < 2, BitVec.ofNat 64 (0x1000 + 0x1000 * i) ≠ BitVec.ofNat 64 (0x100000 + 0x1000 * j) := by decide
    exact fun i j hi hj => h i hi j hj

theorem command_framed_small : Framed (List.replicate 20 1) 600 smallEnt (fun _ => clearedMailbox) :=
  command_framed smallEnt _ (by decide) (by decide)

end AppleMCX.CmdFraming
