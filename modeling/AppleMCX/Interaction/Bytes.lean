import Mathlib.Algebra.Group.Nat.Defs
import Mathlib.Data.List.TakeDrop
import Mathlib.Order.Lattice
import Mathlib.Order.MinMax
import Mathlib.Logic.Function.Basic

/-! # Byte buffers

Buffers of a fixed length with the copies that C makes into them, numbers in network order,
XOR checksums, and writes to a memory through a table of addresses.
-/
namespace Interaction

abbrev Byte := BitVec 8

/-- A buffer of `n` bytes. -/
structure Block (n : ℕ) where
  val : List Byte
  property : val.length = n
  deriving DecidableEq

/-- The `n` bytes at `off`. -/
def slice (off n : ℕ) (bytes : List Byte) : List Byte := (bytes.drop off).take n

theorem slice_mid (a b c : List Byte) {o n : ℕ} (ha : a.length = o) (hb : b.length = n) :
    slice o n (a ++ (b ++ c)) = b := by
  unfold slice
  rw [List.drop_left' ha, List.take_left' hb]

/-- Blocks that begin with consecutive slices hold the whole; only the last may go on behind its slice. -/
theorem blocks_flatMap {b n : ℕ} {f : ℕ → List Byte} {x : List Byte} (hlen : ∀ i, i < n → (f i).length = b)
    (hlt : ∀ i, i < n → i * b ≤ x.length)
    (hf : ∀ i, i < n → (f i).take (slice (i * b) b x).length = slice (i * b) b x) :
    ((List.range n).flatMap f).take (x.take (n * b)).length = x.take (n * b) := by
  have hall : ∀ k, k ≤ n → ((List.range k).flatMap f).length = k * b := by
    intro k hk
    induction k with
    | zero => simp
    | succ k ih =>
      rw [List.range_succ, List.flatMap_append, List.length_append, ih (by omega), List.flatMap_cons, List.flatMap_nil,
        List.append_nil, hlen k (by omega), Nat.succ_mul]
  induction n with
  | zero => simp
  | succ n ih =>
    have hprev := ih (fun i hi => hlen i (by omega)) (fun i hi => hlt i (by omega)) (fun i hi => hf i (by omega))
      (fun k hk => hall k (by omega))
    have hn := hlt n (by omega)
    have hlast := hall n (by omega)
    have hfull : (x.take (n * b)).length = n * b := by rw [List.length_take, min_eq_left hn]
    have hsplit : x.take ((n + 1) * b) = x.take (n * b) ++ slice (n * b) b x := by
      rw [Nat.succ_mul, List.take_add]
      rfl
    rw [hfull, List.take_of_length_le hlast.le] at hprev
    rw [hsplit, List.length_append, hfull, List.range_succ, List.flatMap_append, List.flatMap_cons, List.flatMap_nil,
      List.append_nil, ← hlast, List.take_append, List.take_of_length_le (by omega), Nat.add_sub_cancel_left, hlast,
      hf n (by omega), hprev]

namespace Block
variable {n : ℕ}

def zero (n : ℕ) : Block n := ⟨List.replicate n 0,List.length_replicate⟩

/-- `memcpy` to offset `off`; what would be behind the end is cut off. -/
def copyAt (off : ℕ) (src : List Byte) (dst : Block n) : Block n :=
  ⟨((dst.val.take off ++ src ++ dst.val.drop (off + src.length)) ++ List.replicate n 0).take n, by
    rw [List.length_take, List.length_append, List.length_replicate]
    omega⟩

def copy (src : List Byte) (dst : Block n) : Block n := dst.copyAt 0 src

theorem take_copyAt {o : ℕ} {src : List Byte} (dst : Block n) (h : o + src.length ≤ n) :
    (dst.copyAt o src).val.take (o + src.length) = dst.val.take o ++ src := by
  have hlen : (dst.val.take o ++ src).length = o + src.length := by
    rw [List.length_append, List.length_take, dst.property]
    omega
  unfold copyAt
  dsimp only
  rw [List.take_take, min_eq_left h, List.append_assoc, List.take_left' hlen]

theorem take_copy {src : List Byte} (dst : Block n) (h : src.length ≤ n) :
    (dst.copy src).val.take src.length = src := by
  have hcopy := take_copyAt (o := 0) dst (by omega : 0 + src.length ≤ n)
  rw [Nat.zero_add, List.take_zero, List.nil_append] at hcopy
  exact hcopy

end Block

/-! ## Numbers in network order -/

def beBytes : ℕ → ℕ → List Byte
  | 0, _ => []
  | n + 1, x => beBytes n (x / 256) ++ [BitVec.ofNat 8 x]

def ofBytes (bytes : List Byte) : ℕ := bytes.foldl (fun x b => x * 256 + b.toNat) 0

theorem beBytes_length (n x : ℕ) : (beBytes n x).length = n := by
  induction n generalizing x with
  | zero => rfl
  | succ n ih => rw [beBytes, List.length_append, ih, List.length_singleton]

theorem beBytes_eq (n x : ℕ) : beBytes n x = (List.range n).map (fun i => BitVec.ofNat 8 (x / 256 ^ (n - 1 - i))) := by
  induction n generalizing x with
  | zero => rfl
  | succ n ih =>
    rw [beBytes, ih, List.range_succ, List.map_append, List.map_singleton, Nat.add_sub_cancel, Nat.sub_self, Nat.pow_zero,
      Nat.div_one]
    refine congrArg (fun l => l ++ [BitVec.ofNat 8 x]) (List.map_congr_left (fun i hi => ?_))
    have hi := List.mem_range.mp hi
    rw [Nat.div_div_eq_div_mul, ← Nat.pow_succ', show (n - 1 - i).succ = n - i by omega]

def beBlock (n x : ℕ) : Block n := ⟨beBytes n x,beBytes_length n x⟩

theorem ofBytes_beBytes (n x : ℕ) : ofBytes (beBytes n x) = x % 256 ^ n := by
  induction n generalizing x with
  | zero => rw [Nat.pow_zero, Nat.mod_one]; rfl
  | succ n ih =>
    have hfold : ofBytes (beBytes n (x / 256) ++ [BitVec.ofNat 8 x]) = ofBytes (beBytes n (x / 256)) * 256 + x % 256 := by
      unfold ofBytes
      rw [List.foldl_append]
      simp
    rw [beBytes, hfold, ih, Nat.pow_succ, Nat.mul_comm (256 ^ n), Nat.mod_mul]
    omega

theorem ofBytes_beBlock {n x : ℕ} (h : x < 256 ^ n) : ofBytes (beBlock n x).val = x := by
  rw [show (beBlock n x).val = beBytes n x from rfl, ofBytes_beBytes, Nat.mod_eq_of_lt h]

/-! ## Checksums -/

def xorBytes (bytes : List Byte) : Byte := bytes.foldl (fun acc b => acc ^^^ b) 0

theorem byte_zero_xor (a : Byte) : 0 ^^^ a = a := BitVec.zero_xor

theorem byte_xor_zero (a : Byte) : a ^^^ 0 = a := BitVec.xor_zero

theorem xorBytes_foldl (bytes : List Byte) (a : Byte) :
    bytes.foldl (fun acc b => acc ^^^ b) a = a ^^^ xorBytes bytes := by
  unfold xorBytes
  induction bytes generalizing a with
  | nil => exact (byte_xor_zero a).symm
  | cons b bytes ih => rw [List.foldl_cons, List.foldl_cons, ih, ih (0 ^^^ b), byte_zero_xor, BitVec.xor_assoc]

theorem xorBytes_append (a b : List Byte) : xorBytes (a ++ b) = xorBytes a ^^^ xorBytes b := by
  rw [xorBytes, List.foldl_append, ← xorBytes, xorBytes_foldl]

theorem xorBytes_cons (a : Byte) (b : List Byte) : xorBytes (a :: b) = a ^^^ xorBytes b := by
  rw [xorBytes, List.foldl_cons, xorBytes_foldl, byte_zero_xor]

/-- A byte that is the complement of the checksum with zero in its place makes the checksum 0xff. -/
theorem xorBytes_complement (a b : List Byte) : xorBytes (a ++ ~~~(xorBytes (a ++ 0 :: b)) :: b) = 0xff := by
  have hones : ∀ x y : Byte, x ^^^ (~~~(x ^^^ (0 ^^^ y)) ^^^ y) = 0xff := by
    intro x y
    rw [byte_zero_xor]
    apply BitVec.eq_of_getLsbD_eq
    intro i hi
    have hbit : (0xff : Byte).getLsbD i = true := by
      rw [show (0xff : Byte) = BitVec.allOnes 8 from rfl, BitVec.getLsbD_allOnes, decide_eq_true hi]
    rw [hbit]
    simp only [BitVec.getLsbD_xor, BitVec.getLsbD_not, hi, decide_true, Bool.true_and]
    cases x.getLsbD i <;> cases y.getLsbD i <;> rfl
  rw [xorBytes_append, xorBytes_cons, xorBytes_append, xorBytes_cons]
  exact hones _ _

/-- The same at the end. -/
theorem xorBytes_complement_last (a : List Byte) : xorBytes (a ++ [~~~(xorBytes a)]) = 0xff := by
  have h := xorBytes_complement a []
  rw [xorBytes_append a [0], xorBytes_cons, show xorBytes [] = 0 from rfl, byte_xor_zero, byte_xor_zero] at h
  exact h

/-! ## Writes through a table of addresses -/

variable {A V : Type} [DecidableEq A]

/-- The values at the first `n` addresses are rewritten, one after the other. -/
def scatter (addr : ℕ → A) (f : ℕ → V → V) (n : ℕ) (mem : A → V) : A → V :=
  (List.range n).foldl (fun m i => Function.update m (addr i) (f i (m (addr i)))) mem

theorem scatter_succ (addr : ℕ → A) (f : ℕ → V → V) (n : ℕ) (mem : A → V) : scatter addr f (n + 1) mem =
    Function.update (scatter addr f n mem) (addr n) (f n (scatter addr f n mem (addr n))) := by
  unfold scatter
  rw [List.range_succ, List.foldl_append]
  rfl

theorem scatter_of_ne {addr : ℕ → A} {f : ℕ → V → V} {n : ℕ} {mem : A → V}
    {a : A} (h : ∀ i, i < n → addr i ≠ a) :
    scatter addr f n mem a = mem a := by
  induction n with
  | zero => rfl
  | succ n ih =>
    rw [scatter_succ, Function.update_of_ne (h n (by omega)).symm]
    exact ih (fun i hi => h i (by omega))

theorem scatter_apply {addr : ℕ → A} {f : ℕ → V → V} {n : ℕ} {mem : A → V} {i : ℕ}
    (hinj : ∀ i j, i < n → j < n → addr i = addr j → i = j) (hi : i < n) :
    scatter addr f n mem (addr i) = f i (mem (addr i)) := by
  induction n with
  | zero => cases hi
  | succ n ih =>
    rw [scatter_succ]
    by_cases he : i = n
    · subst he
      rw [Function.update_self, scatter_of_ne]
      intro j hj hadr
      have heq := hinj j i (by omega) (by omega) hadr
      omega
    · have hne : addr i ≠ addr n := fun hadr => he (hinj i n hi (by omega) hadr)
      rw [Function.update_of_ne hne]
      exact ih (fun j k hj hk => hinj j k (by omega) (by omega)) (by omega)

end Interaction
