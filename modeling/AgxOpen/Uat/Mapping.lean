import AgxOpen.Uat.Walker

/-!
# What the page tables are for

A finite map from a context and a 16 KB page to a physical page, and the reply
and effect each call should have on it.
-/
namespace AgxOpen.Uat
open Function (update)

abbrev Page := Fin (2^29)
abbrev Slot := Fin contextCount × Page
abbrev Mapping := Slot → Option U64

/-- The slot of an address, for a context and an address in range. -/
def slotOf (ctxId : U32) (va : U64) : Option Slot :=
  if h : ctxId.toNat < contextCount ∧ va < vaLimit then
    some (⟨ctxId.toNat,h.1⟩,⟨pageOf va,pageOf_lt h.2⟩)
  else none

/-- The abstract call. `refused` tells whether an allocation was turned down. -/
def Call.spec (M : Mapping) (refused : Bool) : Call → Reply × Mapping
  | .mapPage ctxId iova phys _ =>
    match slotOf ctxId iova with
    | none => (.status Status.einval,M)
    | some s =>
      if pageOffset iova ≠ 0#64 ∨ pageOffset phys ≠ 0#64 then (.status Status.einval,M)
      else if refused then (.status Status.enomem,M)
      else (.status Status.ok,update M s (some (phys &&& pteAddrMask)))
  | .unmapPage ctxId iova =>
    match slotOf ctxId iova with
    | none => (.status Status.einval,M)
    | some s =>
      match M s with
      | none => (.status Status.enodata,M)
      | some _ => (.status Status.ok,update M s none)
  | .lookup ctxId iova =>
    match (slotOf ctxId iova).bind M with
    | none => (.found 0#64 false,M)
    | some phys => (.found phys true,M)
  | .freeContext ctxId => (.done,fun s => if s.1.val = ctxId.toNat then none else M s)

/-- The replies of a whole sequence, and the map it leaves. -/
def specRun (M : Mapping) : List (Call × Bool) → List Reply × Mapping
  | [] => ([],M)
  | (c,refused) :: rest =>
    let r := c.spec M refused
    let tail := specRun r.2 rest
    (r.1 :: tail.1,tail.2)

/-- A position in the tree, newest index first. The last entry is the L0 slot. -/
abbrev Path := List ℕ

def Slot.root (s : Slot) : ℕ := s.1.val*2+s.2.val/2^28
def Slot.index1 (s : Slot) : ℕ := s.2.val/2^22 % 64
def Slot.index2 (s : Slot) : ℕ := s.2.val/2^11 % 2048
def Slot.index3 (s : Slot) : ℕ := s.2.val % 2048

/-- The L3 table that holds the entry of a slot. -/
def Slot.leaf (s : Slot) : Path := [s.index2,s.index1,s.root]

theorem Slot.ext_indices {s t : Slot} (hl : s.leaf = t.leaf) (h3 : s.index3 = t.index3) :
    s = t := by
  obtain ⟨c,p⟩ := s
  obtain ⟨d,q⟩ := t
  have hp := p.isLt
  have hq := q.isLt
  simp only [leaf, index1, index2, index3, root, List.cons.injEq, and_true] at hl h3
  have hc : c.val = d.val := by omega
  have hpq : p.val = q.val := by omega
  rw [Fin.ext hc, Fin.ext hpq]

variable {ctxId : U32} {va : U64} {s : Slot}

theorem slotOf_eq_none : slotOf ctxId va = none ↔ contextCount ≤ ctxId.toNat ∨ vaLimit ≤ va := by
  unfold slotOf
  split
  · rename_i h
    simp [h.1, BitVec.not_le.mpr h.2]
  · rename_i h
    simp only [true_iff]
    by_cases hc : ctxId.toNat < contextCount
    · exact .inr (BitVec.not_lt.mp fun hv => h ⟨hc,hv⟩)
    · exact .inl (by omega)

theorem slotOf_eq_some (h : slotOf ctxId va = some s) :
    ctxId.toNat < contextCount ∧ va < vaLimit ∧ s.1.val = ctxId.toNat ∧ s.2.val = pageOf va := by
  unfold slotOf at h
  split at h
  · rename_i hr
    obtain rfl := Option.some.inj h
    exact ⟨hr.1,hr.2,rfl,rfl⟩
  · contradiction

theorem slotOf_root (h : slotOf ctxId va = some s) :
    s.root = ctxId.toNat*2+(ttbrSelect va).toNat := by
  obtain ⟨-,hv,hc,hp⟩ := slotOf_eq_some h
  rw [Slot.root, hc, hp, ttbrSelect_toNat hv]

theorem slotOf_index1 (h : slotOf ctxId va = some s) : s.index1 = (l1Index va).toNat := by
  obtain ⟨-,-,-,hp⟩ := slotOf_eq_some h
  rw [Slot.index1, hp, l1Index_toNat]

theorem slotOf_index2 (h : slotOf ctxId va = some s) : s.index2 = (l2Index va).toNat := by
  obtain ⟨-,-,-,hp⟩ := slotOf_eq_some h
  rw [Slot.index2, hp, l2Index_toNat]

theorem slotOf_index3 (h : slotOf ctxId va = some s) : s.index3 = (l3Index va).toNat := by
  obtain ⟨-,-,-,hp⟩ := slotOf_eq_some h
  rw [Slot.index3, hp, l3Index_toNat]

theorem ttbrSelect_lt (va : U64) : (ttbrSelect va).toNat < 2 := by
  unfold ttbrSelect
  split <;> decide

end AgxOpen.Uat
