import Mathlib.Data.Nat.Bitwise

/-! Masks and packed fields of machine words, read bit by bit or as remainders. -/
namespace AgxOpen.BitFields

variable {w : ℕ}

/-- The word whose `n` low bits are set. -/
def mask (w n : ℕ) : BitVec w := BitVec.ofNat w (2^n-1)

@[simp] theorem getElem_mask (n i : ℕ) (hi : i < w) : (mask w n)[i] = decide (i < n) := by
  rw [mask, BitVec.getElem_eq_testBit_toNat]
  simp only [BitVec.toNat_ofNat, Nat.testBit_mod_two_pow, hi, decide_true, Bool.true_and,
    Nat.testBit_two_pow_sub_one]

@[simp] theorem getLsbD_mask (n i : ℕ) :
    (mask w n).getLsbD i = (decide (i < w) && decide (i < n)) := by
  by_cases hi : i < w
  · rw [BitVec.getLsbD_eq_getElem hi, getElem_mask]; simp [hi]
  · simp [hi, BitVec.getLsbD_of_ge _ _ (Nat.le_of_not_lt hi)]

theorem toNat_mask {n : ℕ} (hn : n ≤ w) : (mask w n).toNat = 2^n-1 := by
  have hp : 2^n ≤ 2^w := Nat.pow_le_pow_right (by omega) hn
  have h1 : 0 < 2^n := Nat.two_pow_pos n
  rw [mask, BitVec.toNat_ofNat, Nat.mod_eq_of_lt (by omega)]

/-- Masking the low bits is taking a remainder. -/
theorem toNat_and_mask (x : BitVec w) {n : ℕ} (hn : n ≤ w) :
    (x &&& mask w n).toNat = x.toNat % 2^n := by
  rw [BitVec.toNat_and, toNat_mask hn, Nat.and_two_pow_sub_one_eq_mod]

/-- A right-aligned field is a quotient and a remainder. -/
theorem toNat_field (x : BitVec w) (shift : ℕ) {n : ℕ} (hn : n ≤ w) :
    (x >>> shift &&& mask w n).toNat = x.toNat / 2^shift % 2^n := by
  rw [toNat_and_mask _ hn, BitVec.toNat_ushiftRight, Nat.shiftRight_eq_div_pow]

theorem and_mask_eq_zero_iff (x : BitVec w) {n : ℕ} (hn : n ≤ w) :
    x &&& mask w n = 0#w ↔ x.toNat % 2^n = 0 := by
  rw [← BitVec.toNat_inj, toNat_and_mask x hn]
  simp

/-- A single bit is set exactly when masking it leaves something. -/
theorem and_twoPow_eq_zero_iff (x : BitVec w) {k : ℕ} (hk : k < w) :
    x &&& BitVec.twoPow w k = 0#w ↔ x[k] = false := by
  constructor
  · intro h
    have hb := congrArg (fun y : BitVec w => y[k]) h
    simpa [BitVec.getElem_twoPow] using hb
  · intro h
    ext i hi
    by_cases hik : i = k
    · subst hik; simp [h]
    · simp [BitVec.getElem_twoPow, hik]

/-- Packing a field and extracting it again keeps its masked value. -/
theorem field_put_get (x : BitVec w) (shift n : ℕ) (h : shift+n ≤ w) :
    ((x &&& mask w n) <<< shift) >>> shift &&& mask w n = x &&& mask w n := by
  ext i hi
  simp only [BitVec.getElem_and, BitVec.getElem_ushiftRight, getElem_mask,
    BitVec.getLsbD_shiftLeft, BitVec.getLsbD_and, getLsbD_mask]
  by_cases hin : i < n
  · have hs : shift+i < w := by omega
    simp [hin, hs, hi]
  · simp [hin]

end AgxOpen.BitFields
