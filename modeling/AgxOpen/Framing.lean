import Mathlib.Algebra.Order.Ring.Nat
import Mathlib.Tactic.Common

/-!
# Items of one size in a string of bytes

A codec writes a value as a fixed number of bytes. A file of such values is read
by a loop that ends at the first short read.
-/
namespace AgxOpen

/-- Values of one size, with the two ways between a value and its bytes. -/
structure Codec (β α : Type) where
  size : ℕ
  size_pos : 0 < size
  encode : α → List β
  decode : List β → α
  length_encode : ∀ a, (encode a).length = size
  decode_encode : ∀ a, decode (encode a) = a
  encode_decode : ∀ bytes, bytes.length = size → encode (decode bytes) = bytes

namespace Codec

variable {β α γ S : Type} {c : Codec β α} {step : S → α → S} {s : S} {xs : List α}
  {input tail : List β}

/-- The lowest `n` bytes of a number, lowest first. -/
def toBytes : ℕ → ℕ → List (BitVec 8)
  | 0, _ => []
  | n+1, x => BitVec.ofNat 8 x :: toBytes n (x / 256)

def ofBytes : List (BitVec 8) → ℕ
  | [] => 0
  | b :: bytes => b.toNat + 256 * ofBytes bytes

theorem length_toBytes (n x : ℕ) : (toBytes n x).length = n := by
  induction n generalizing x with
  | zero => rfl
  | succ n ih => rw [toBytes, List.length_cons, ih]

theorem pow_bytes (n : ℕ) : 256^n = 2^(8 * n) := by
  rw [pow_mul, show 2^8 = 256 from rfl]

theorem ofBytes_toBytes (n x : ℕ) : ofBytes (toBytes n x) = x % 256^n := by
  induction n generalizing x with
  | zero => simp [toBytes, ofBytes, Nat.mod_one]
  | succ n ih =>
    rw [toBytes, ofBytes, ih, pow_succ' 256 n, Nat.mod_mul, BitVec.toNat_ofNat]

theorem ofBytes_lt (bytes : List (BitVec 8)) : ofBytes bytes < 256^bytes.length := by
  induction bytes with
  | nil => simp [ofBytes]
  | cons b bytes ih =>
    have hb := b.isLt
    rw [ofBytes, List.length_cons, pow_succ]
    omega

theorem toBytes_ofBytes (bytes : List (BitVec 8)) : toBytes bytes.length (ofBytes bytes) = bytes := by
  induction bytes with
  | nil => rfl
  | cons b bytes ih =>
    have hb := b.isLt
    have hdiv : (b.toNat + 256 * ofBytes bytes) / 256 = ofBytes bytes := by omega
    have hmod : (b.toNat + 256 * ofBytes bytes) % 256 = b.toNat := by omega
    rw [List.length_cons, ofBytes, toBytes, hdiv, ih]
    congr 1
    apply BitVec.eq_of_toNat_eq
    rw [BitVec.toNat_ofNat]
    exact hmod

/-- A little-endian word of `n` bytes. -/
def word (n : ℕ) (hn : 0 < n) : Codec (BitVec 8) (BitVec (8 * n)) where
  size := n
  size_pos := hn
  encode w := toBytes n w.toNat
  decode bytes := BitVec.ofNat (8 * n) (ofBytes bytes)
  length_encode w := length_toBytes n w.toNat
  decode_encode w := by
    apply BitVec.eq_of_toNat_eq
    rw [ofBytes_toBytes, BitVec.toNat_ofNat, pow_bytes, Nat.mod_mod, Nat.mod_eq_of_lt w.isLt]
  encode_decode bytes hlen := by
    have hlt := ofBytes_lt bytes
    rw [hlen, pow_bytes] at hlt
    rw [BitVec.toNat_ofNat, Nat.mod_eq_of_lt hlt]
    conv_lhs => rw [← hlen]
    exact toBytes_ofBytes bytes

/-- One value behind another. -/
def pair (c : Codec β α) (d : Codec β γ) : Codec β (α × γ) where
  size := c.size + d.size
  size_pos := Nat.add_pos_left c.size_pos d.size
  encode x := c.encode x.1 ++ d.encode x.2
  decode bytes := (c.decode (bytes.take c.size),d.decode (bytes.drop c.size))
  length_encode x := by rw [List.length_append, c.length_encode, d.length_encode]
  decode_encode x := by
    rw [List.take_left' (c.length_encode x.1), List.drop_left' (c.length_encode x.1),
      c.decode_encode, d.decode_encode]
  encode_decode bytes hlen := by
    rw [c.encode_decode _ (by rw [List.length_take]; omega),
      d.encode_decode _ (by rw [List.length_drop]; omega), List.take_append_drop]

/-- The same bytes for another type of values. -/
def equiv (c : Codec β α) (e : γ ≃ α) : Codec β γ where
  size := c.size
  size_pos := c.size_pos
  encode x := c.encode (e x)
  decode bytes := e.symm (c.decode bytes)
  length_encode x := c.length_encode (e x)
  decode_encode x := by rw [c.decode_encode, e.symm_apply_apply]
  encode_decode bytes hlen := by rw [e.apply_symm_apply, c.encode_decode bytes hlen]

/-- Read one value after another until there are too few bytes for the next. -/
def scan (c : Codec β α) (step : S → α → S) (s : S) (input : List β) : S :=
  if input.length < c.size then s
  else scan c step (step s (c.decode (input.take c.size))) (input.drop c.size)
termination_by input.length
decreasing_by
  have := c.size_pos
  rw [List.length_drop]
  omega

theorem scan_short (h : input.length < c.size) : c.scan step s input = s := by
  rw [scan, if_pos h]

theorem scan_encode (x : α) (input : List β) :
    c.scan step s (c.encode x ++ input) = c.scan step (step s x) input := by
  have hlen := c.length_encode x
  rw [scan, if_neg (by rw [List.length_append]; omega), List.take_left' hlen, List.drop_left' hlen,
    c.decode_encode]

/-- The bytes of a list of values. -/
def frames (c : Codec β α) (xs : List α) : List β := xs.flatMap c.encode

/-- The loop takes the values in their order and drops what is behind them. -/
theorem scan_frames (ht : tail.length < c.size) :
    c.scan step s (c.frames xs ++ tail) = xs.foldl step s := by
  induction xs generalizing s with
  | nil => exact scan_short ht
  | cons x xs ih =>
    rw [frames, List.flatMap_cons, List.append_assoc, scan_encode]
    exact ih

/-- Every string is values and what is too short for one. -/
theorem exists_frames (c : Codec β α) (input : List β) :
    ∃ xs tail, input = c.frames xs ++ tail ∧ tail.length < c.size := by
  induction hn : input.length using Nat.strong_induction_on generalizing input with
  | _ n ih =>
    by_cases hlt : input.length < c.size
    · exact ⟨[],input,rfl,hlt⟩
    have hpos := c.size_pos
    obtain ⟨xs,tail,hsplit,ht⟩ :=
      ih (n - c.size) (by omega) (input.drop c.size) (by rw [List.length_drop, hn])
    refine ⟨c.decode (input.take c.size) :: xs,tail,?_,ht⟩
    rw [frames, List.flatMap_cons, c.encode_decode _ (by rw [List.length_take]; omega),
      List.append_assoc, ← frames, ← hsplit, List.take_append_drop]

/-- The values the loop reads. -/
def items (c : Codec β α) (input : List β) : List α := c.scan (fun xs x => xs ++ [x]) [] input

theorem items_frames (ht : tail.length < c.size) : c.items (c.frames xs ++ tail) = xs := by
  have happ (ys : List α) : xs.foldl (fun xs x => xs ++ [x]) ys = ys ++ xs := by
    induction xs generalizing ys with
    | nil => rw [List.foldl_nil, List.append_nil]
    | cons x xs ih => rw [List.foldl_cons, ih, List.append_assoc, List.singleton_append]
  rw [items, scan_frames ht, happ, List.nil_append]

theorem length_frames (xs : List α) : (c.frames xs).length = c.size * xs.length := by
  induction xs with
  | nil => rfl
  | cons x xs ih =>
    rw [frames, List.flatMap_cons, List.length_append, c.length_encode, ← frames, ih,
      List.length_cons, Nat.mul_succ, Nat.add_comm]

theorem length_items (input : List β) : c.size * (c.items input).length ≤ input.length := by
  obtain ⟨xs,tail,rfl,ht⟩ := exists_frames c input
  rw [items_frames ht, List.length_append, length_frames]
  exact Nat.le_add_right _ _

theorem scan_items (input : List β) : c.scan step s input = (c.items input).foldl step s := by
  obtain ⟨xs,tail,rfl,ht⟩ := exists_frames c input
  rw [scan_frames ht, items_frames ht]

/-- How a string splits is determined. -/
theorem frames_append_inj {ys : List α} {tail' : List β} (ht : tail.length < c.size)
    (ht' : tail'.length < c.size) (h : c.frames xs ++ tail = c.frames ys ++ tail') :
    xs = ys ∧ tail = tail' := by
  have hxs : c.items (c.frames xs ++ tail) = xs := items_frames ht
  rw [h, items_frames ht'] at hxs
  subst hxs
  exact ⟨rfl,List.append_cancel_left h⟩

end Codec
end AgxOpen
