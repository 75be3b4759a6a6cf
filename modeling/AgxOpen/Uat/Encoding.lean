import AgxOpen.Types

/-!
# Page-table geometry and entry formats

The constants and inline functions of `agx/uat.h`. Two encodings of a table
address coexist: a TTBR keeps bits 47..1, a page-table entry bits 47..14.
-/
namespace AgxOpen.Uat
open BitFields

def pageMask : U64 := 0x3fff#64

def l1Shift : ℕ := 36
def l1Count : ℕ := 64
def l1Mask : U64 := 0x3f#64
def l2Shift : ℕ := 25
def l2Count : ℕ := 2048
def l2Mask : U64 := 0x7ff#64
def l3Shift : ℕ := 14
def l3Count : ℕ := 2048
def l3Mask : U64 := 0x7ff#64

def ttbrSelectBit : U64 := bit64 42
def vaLimit : U64 := bit64 43
def contextCount : ℕ := 64

def pteValid : U64 := bit64 0
def pteType : U64 := bit64 1
def pteOffsetShift : ℕ := 14
def pteOffsetMask : U64 := 0x3ffffffff#64
def pteAddrMask : U64 := pteOffsetMask <<< pteOffsetShift

def ttbrValid : U64 := bit64 0
def ttbrBaddrShift : ℕ := 1
def ttbrBaddrMask : U64 := 0x7fffffffffff#64
def ttbrAsidShift : ℕ := 48
def ttbrAsidMask : U64 := 0xffff#64

def l1Index (va : U64) : U32 := (va >>> l1Shift &&& l1Mask).setWidth 32
def l2Index (va : U64) : U32 := (va >>> l2Shift &&& l2Mask).setWidth 32
def l3Index (va : U64) : U32 := (va >>> l3Shift &&& l3Mask).setWidth 32

def ttbrSelect (va : U64) : U32 := if va &&& ttbrSelectBit ≠ 0#64 then 1#32 else 0#32

def pageOffset (va : U64) : U64 := va &&& pageMask

def ptePhys (pte : U64) : U64 := pte &&& pteAddrMask

def tablePte (tablePa : U64) : U64 := tablePa &&& pteAddrMask ||| pteValid ||| pteType

def tablePteAddr (pte : U64) : U64 := ptePhys pte

def pte (physAddr flags : U64) : U64 := physAddr &&& pteAddrMask ||| flags &&& ~~~pteAddrMask

def ttbr (tablePa : U64) (asid : U32) : U64 :=
  let baddr := tablePa >>> ttbrBaddrShift &&& ttbrBaddrMask
  baddr <<< ttbrBaddrShift ||| fieldPut (asid.setWidth 64) ttbrAsidShift ttbrAsidMask |||
    (if tablePa ≠ 0#64 then ttbrValid else 0#64)

/-- The bit tests of the walker and of the hardware. -/
def isValid (entry : U64) : Bool := entry &&& pteValid != 0#64

/-- The base address a TTBR names: its bits 47..1. -/
def ttbrBase (entry : U64) : U64 := (entry >>> ttbrBaddrShift &&& ttbrBaddrMask) <<< ttbrBaddrShift

/-- The address space identifier of a TTBR: its bits 63..48. -/
def ttbrAsid (entry : U64) : U64 := fieldGet entry ttbrAsidShift ttbrAsidMask

/-- The 16 KB page of an address. -/
def pageOf (va : U64) : ℕ := va.toNat / 2^14

theorem toNat_setWidth_field (va : U64) (shift n : ℕ) (hn : n ≤ 32) :
    ((va >>> shift &&& mask 64 n).setWidth 32).toNat = va.toNat / 2^shift % 2^n := by
  have hp : 2^n ≤ 2^32 := Nat.pow_le_pow_right (by omega) hn
  have hlt := Nat.mod_lt (va.toNat / 2^shift) (Nat.two_pow_pos n)
  rw [BitVec.toNat_setWidth, toNat_field va shift (by omega), Nat.mod_eq_of_lt (by omega)]

theorem l1Index_toNat (va : U64) : (l1Index va).toNat = pageOf va / 2^22 % 64 := by
  rw [l1Index, show l1Mask = mask 64 6 from rfl, toNat_setWidth_field _ _ _ (by omega), pageOf,
    l1Shift, Nat.div_div_eq_div_mul]
  rfl

theorem l2Index_toNat (va : U64) : (l2Index va).toNat = pageOf va / 2^11 % 2048 := by
  rw [l2Index, show l2Mask = mask 64 11 from rfl, toNat_setWidth_field _ _ _ (by omega), pageOf,
    l2Shift, Nat.div_div_eq_div_mul]
  rfl

theorem l3Index_toNat (va : U64) : (l3Index va).toNat = pageOf va % 2048 := by
  rw [l3Index, show l3Mask = mask 64 11 from rfl, toNat_setWidth_field _ _ _ (by omega), pageOf,
    l3Shift]
  rfl

theorem lt_vaLimit_iff (va : U64) : va < vaLimit ↔ va.toNat < 2^43 := by
  simp [BitVec.lt_def, vaLimit, BitVec.toNat_twoPow]

theorem pageOf_lt {va : U64} (h : va < vaLimit) : pageOf va < 2^29 := by
  rw [lt_vaLimit_iff] at h
  unfold pageOf
  omega

theorem ttbrSelect_toNat {va : U64} (h : va < vaLimit) :
    (ttbrSelect va).toNat = pageOf va / 2^28 := by
  rw [lt_vaLimit_iff] at h
  have hb : va[42] = decide (va.toNat / 2^42 % 2 = 1) := by
    rw [BitVec.getElem_eq_testBit_toNat, Nat.testBit_eq_decide_div_mod_eq]
  unfold ttbrSelect ttbrSelectBit pageOf
  by_cases hs : va &&& bit64 42 = 0#64
  · rw [and_twoPow_eq_zero_iff va (by omega), hb] at hs
    simp only [and_twoPow_eq_zero_iff va (show 42 < 64 by omega), hb, hs, ne_eq, not_true_eq_false,
      if_false, BitVec.toNat_ofNat]
    have := of_decide_eq_false hs
    omega
  · simp only [ne_eq, hs, not_false_eq_true, if_true, BitVec.toNat_ofNat]
    rw [and_twoPow_eq_zero_iff va (by omega), hb] at hs
    have := of_decide_eq_true (Bool.not_eq_false _ ▸ hs)
    omega

theorem pageOffset_eq_zero_iff (va : U64) : pageOffset va = 0#64 ↔ va.toNat % 2^14 = 0 := by
  rw [pageOffset, show pageMask = mask 64 14 from rfl, and_mask_eq_zero_iff va (by omega)]

theorem getElem_pteAddrMask (i : ℕ) (hi : i < 64) :
    pteAddrMask[i] = decide (14 ≤ i ∧ i < 48) := by
  rw [pteAddrMask, show pteOffsetMask = mask 64 34 from rfl, BitVec.getElem_shiftLeft,
    getElem_mask, pteOffsetShift, Bool.eq_iff_iff]
  simp only [Bool.and_eq_true, Bool.not_eq_true', decide_eq_false_iff_not, decide_eq_true_eq]
  omega

theorem isValid_eq (entry : U64) : isValid entry = entry[0] := by
  have h := and_twoPow_eq_zero_iff entry (show 0 < 64 by omega)
  unfold isValid pteValid
  cases hb : entry[0] <;> simp_all

theorem ptePhys_pte (physAddr flags : U64) :
    ptePhys (pte physAddr flags) = physAddr &&& pteAddrMask := by
  ext i hi
  simp only [ptePhys, pte, BitVec.getElem_and, BitVec.getElem_or, BitVec.getElem_not]
  cases pteAddrMask[i] <;> simp

theorem isValid_pte (physAddr flags : U64) : isValid (pte physAddr (flags ||| pteValid)) = true := by
  rw [isValid_eq, pte]
  simp [getElem_pteAddrMask, pteValid, BitVec.getElem_twoPow]

theorem tablePteAddr_tablePte (tablePa : U64) :
    tablePteAddr (tablePte tablePa) = tablePa &&& pteAddrMask := by
  ext i hi
  simp only [tablePteAddr, ptePhys, tablePte, BitVec.getElem_and, BitVec.getElem_or,
    getElem_pteAddrMask, pteValid, pteType, BitVec.getElem_twoPow]
  by_cases hb : 14 ≤ i ∧ i < 48
  · simp [hb, show i ≠ 0 by omega, show i ≠ 1 by omega]
  · simp [hb]

theorem isValid_tablePte (tablePa : U64) : isValid (tablePte tablePa) = true := by
  rw [isValid_eq, tablePte]
  simp [pteValid, BitVec.getElem_twoPow]

/-- A physical address that both encodings hold without loss: nonzero, 16 KB
aligned and below 2^48. -/
def PhysOk (tablePa : U64) : Prop := tablePa ≠ 0#64 ∧ tablePa &&& pteAddrMask = tablePa

instance (tablePa : U64) : Decidable (PhysOk tablePa) := inferInstanceAs (Decidable (_ ∧ _))

theorem PhysOk.getElem {tablePa : U64} (h : PhysOk tablePa) {i : ℕ} (hi : i < 64)
    (hb : i < 14 ∨ 48 ≤ i) : tablePa[i] = false := by
  rw [← h.2, BitVec.getElem_and, getElem_pteAddrMask, decide_eq_false (by omega), Bool.and_false]

/-- The condition spelled out in the terms of the allocator's contract. -/
theorem physOk_iff (tablePa : U64) :
    PhysOk tablePa ↔ tablePa ≠ 0#64 ∧ tablePa.toNat % 2^14 = 0 ∧ tablePa.toNat < 2^48 := by
  refine and_congr_right fun _ => ?_
  rw [← pageOffset_eq_zero_iff, pageOffset, show pageMask = mask 64 14 from rfl]
  constructor
  · intro h
    have hb : ∀ i (hi : i < 64), i < 14 ∨ 48 ≤ i → tablePa[i] = false := by
      intro i hi hb
      rw [← h, BitVec.getElem_and, getElem_pteAddrMask, decide_eq_false (by omega),
        Bool.and_false]
    constructor
    · ext i hi
      rw [BitVec.getElem_and, getElem_mask]
      by_cases h14 : i < 14
      · simp [hb i hi (.inl h14)]
      · simp [h14]
    · apply Nat.lt_pow_two_of_testBit
      intro i hi
      by_cases h64 : i < 64
      · rw [← BitVec.getElem_eq_testBit_toNat tablePa i h64]
        exact hb i h64 (.inr hi)
      · rw [BitVec.testBit_toNat, BitVec.getLsbD_of_ge _ _ (Nat.le_of_not_lt h64)]
  · rintro ⟨ha,hl⟩
    ext i hi
    have hlow := congrArg (fun x : U64 => x[i]) ha
    simp only [BitVec.getElem_and, getElem_mask] at hlow
    rw [BitVec.getElem_and, getElem_pteAddrMask]
    by_cases h48 : i < 48
    · by_cases h14 : i < 14
      · have hbit : tablePa[i] = false := by simpa [h14] using hlow
        simp [hbit]
      · simp [h48, Nat.le_of_not_lt h14]
    · have : tablePa[i] = false := by
        rw [BitVec.getElem_eq_testBit_toNat]
        exact Nat.testBit_lt_two_pow (hl.trans_le (Nat.pow_le_pow_right (by omega) (by omega)))
      simp [this]

@[simp] theorem ttbr_zero : ttbr 0#64 0#32 = 0#64 := by decide

theorem ttbrBase_ttbr {tablePa : U64} (h : PhysOk tablePa) (asid : U32) :
    ttbrBase (ttbr tablePa asid) = tablePa := by
  apply BitVec.eq_of_getLsbD_eq
  intro i hi
  simp only [ttbrBase, ttbr, fieldPut, ttbrBaddrShift, ttbrAsidShift, h.1, ne_eq,
    not_false_eq_true, if_true, show ttbrBaddrMask = mask 64 47 from rfl,
    show ttbrAsidMask = mask 64 16 from rfl, BitVec.getLsbD_shiftLeft, BitVec.getLsbD_and,
    BitVec.getLsbD_ushiftRight, BitVec.getLsbD_or, getLsbD_mask, ttbrValid,
    BitVec.getLsbD_twoPow]
  have hb := h.getElem hi
  rw [← BitVec.getLsbD_eq_getElem hi] at hb
  by_cases h0 : i < 1
  · simp [h0, hb (by omega)]
  · have he : 1+(i-1) = i := by omega
    by_cases h48 : i < 48
    · have h47 : i-1 < 47 := by omega
      have hz : i ≠ 0 := by omega
      simp [he, h48, h47, hz, hz.symm, hi, show i-1 < 64 by omega]
    · simp [h0, hb (by omega), show ¬ i-1 < 47 by omega]

theorem isValid_ttbr {tablePa : U64} (h : PhysOk tablePa) (asid : U32) :
    isValid (ttbr tablePa asid) = true := by
  rw [isValid_eq, ttbr]
  simp [h.1, ttbrValid, BitVec.getElem_twoPow]

theorem ttbrAsid_ttbr {tablePa : U64} (h : PhysOk tablePa) {asid : U32} (ha : asid.toNat < 2^16) :
    ttbrAsid (ttbr tablePa asid) = asid.setWidth 64 := by
  ext i hi
  simp only [ttbrAsid, fieldGet, ttbr, fieldPut, ttbrBaddrShift, ttbrAsidShift, h.1, ne_eq,
    not_false_eq_true, if_true, show ttbrBaddrMask = mask 64 47 from rfl,
    show ttbrAsidMask = mask 64 16 from rfl, BitVec.getElem_and, BitVec.getElem_ushiftRight,
    BitVec.getLsbD_and, BitVec.getLsbD_ushiftRight, BitVec.getLsbD_or, BitVec.getLsbD_shiftLeft,
    getLsbD_mask, getElem_mask, ttbrValid, BitVec.getLsbD_twoPow, BitVec.getLsbD_setWidth,
    BitVec.getElem_setWidth]
  by_cases h16 : i < 16
  · simp [h16, hi, show 48+i < 64 by omega, show ¬ 47+i < 47 by omega, show ¬ 48+i < 48 by omega,
      show 0 ≠ 48+i by omega]
  · have : asid.getLsbD i = false := by
      rw [← BitVec.testBit_toNat]
      exact Nat.testBit_lt_two_pow (ha.trans_le (Nat.pow_le_pow_right (by omega) (by omega)))
    simp [h16, this]

end AgxOpen.Uat
