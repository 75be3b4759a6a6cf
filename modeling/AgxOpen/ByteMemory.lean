import Mathlib.Algebra.Order.Ring.Nat
import Mathlib.Tactic.Common

/-! Little-endian words in a memory of bytes. -/
namespace AgxOpen

abbrev Bytes := ℕ → BitVec 8

namespace Bytes

variable {m m' : Bytes} {off off' n k x : ℕ}

/-- The number in `n` bytes from `off` on, lowest byte first. -/
def load (m : Bytes) (off : ℕ) : ℕ → ℕ
  | 0 => 0
  | n+1 => load m off n + 256^n * (m (off+n)).toNat

/-- Put a number into `n` bytes from `off` on. -/
def store (m : Bytes) (off n x : ℕ) : Bytes := fun i =>
  if off ≤ i ∧ i < off+n then BitVec.ofNat 8 (x / 256^(i-off)) else m i

theorem store_outside {i : ℕ} (hi : i < off ∨ off+n ≤ i) : store m off n x i = m i :=
  if_neg (by omega)

theorem load_congr (h : ∀ i, off ≤ i → i < off+n → m i = m' i) : load m off n = load m' off n := by
  induction n with
  | zero => rfl
  | succ n ih =>
    rw [load, load, ih fun i hlo hhi => h i hlo (by omega), h (off+n) (by omega) (by omega)]

theorem load_store_apart (h : off'+k ≤ off ∨ off+n ≤ off') :
    load (store m off n x) off' k = load m off' k := by
  refine load_congr fun i hlo hhi => store_outside ?_
  omega

theorem load_store_same : load (store m off n x) off n = x % 256^n := by
  have hpart : ∀ k ≤ n, load (store m off n x) off k = x % 256^k := by
    intro k hk
    induction k with
    | zero => simp [load, Nat.mod_one]
    | succ k ih =>
      have hbyte : store m off n x (off+k) = BitVec.ofNat 8 (x / 256^k) := by
        rw [store, if_pos (by omega), Nat.add_sub_cancel_left]
      rw [load, ih (by omega), hbyte, BitVec.toNat_ofNat]
      exact Nat.mod_pow_succ.symm
  exact hpart n le_rfl

/-- The 64-bit word at `off`. -/
def load64 (m : Bytes) (off : ℕ) : BitVec 64 := BitVec.ofNat 64 (m.load off 8)

def store64 (m : Bytes) (off : ℕ) (value : BitVec 64) : Bytes := m.store off 8 value.toNat

@[simp] theorem load64_store64_same (value : BitVec 64) :
    (m.store64 off value).load64 off = value := by
  have hpow : 256^8 = 2^64 := by decide
  rw [load64, store64, load_store_same, hpow, Nat.mod_eq_of_lt value.isLt, BitVec.ofNat_toNat,
    BitVec.setWidth_eq]

theorem load64_store_apart (h : off'+8 ≤ off ∨ off+n ≤ off') :
    (m.store off n x).load64 off' = m.load64 off' := by
  rw [load64, load_store_apart h, load64]

end Bytes
end AgxOpen
