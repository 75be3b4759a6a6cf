import Mathlib.Data.List.Infix
import Mathlib.Tactic.Common

/-!
# Numbers in lines of columns

A number is printed without blanks, so a line of padded columns says which numbers are in it,
and a text says which lines are in it.
-/
namespace AgxOpen.Columns

variable {α : Type*} {b n m width : ℕ} {a : α} {text text' rest rest' : List α}

theorem digitChar_inj (hn : n < 16) (hm : m < 16) (h : n.digitChar = m.digitChar) : n = m := by
  have hall : ∀ i : Fin 16, ∀ j : Fin 16, i.val.digitChar = j.val.digitChar → i = j := by decide
  exact congrArg Fin.val (hall ⟨n,hn⟩ ⟨m,hm⟩ h)

theorem mem_toDigits (hb : 1 < b) {c : Char} (hc : c ∈ Nat.toDigits b n) :
    ∃ d < b, c = d.digitChar := by
  induction n using Nat.strongRecOn with
  | ind n ih =>
    by_cases hn : n < b
    · rw [Nat.toDigits_of_lt_base hn] at hc
      exact ⟨n,hn,List.mem_singleton.mp hc⟩
    · rw [Nat.toDigits_of_base_le hb (not_lt.mp hn)] at hc
      obtain hc | hc := List.mem_append.mp hc
      · exact ih _ (Nat.div_lt_self (by omega) hb) hc
      · exact ⟨_,Nat.mod_lt n (by omega),List.mem_singleton.mp hc⟩

/-- A number has one text in each base up to 16. -/
theorem toDigits_inj (hb : 1 < b) (hle : b ≤ 16) (h : Nat.toDigits b n = Nat.toDigits b m) :
    n = m := by
  induction n using Nat.strongRecOn generalizing m with
  | ind n ih =>
    have hlen : n < b ↔ m < b := by
      have hn := Nat.length_toDigits_le_iff (n := n) hb Nat.one_pos
      have hm := Nat.length_toDigits_le_iff (n := m) hb Nat.one_pos
      rw [Nat.pow_one] at hn hm
      rw [← hn, ← hm, h]
    by_cases hn : n < b
    · rw [Nat.toDigits_of_lt_base hn, Nat.toDigits_of_lt_base (hlen.mp hn)] at h
      exact digitChar_inj (hn.trans_le hle) ((hlen.mp hn).trans_le hle) (List.singleton_inj.mp h)
    · have hm := not_lt.mp (mt hlen.mpr hn)
      rw [Nat.toDigits_of_base_le hb (not_lt.mp hn), Nat.toDigits_of_base_le hb hm] at h
      obtain ⟨hdiv,hmod⟩ := List.append_inj' h rfl
      have hdiv := ih _ (Nat.div_lt_self (by omega) hb) hdiv
      have hmod := digitChar_inj ((Nat.mod_lt n (by omega)).trans_le hle)
        ((Nat.mod_lt m (by omega)).trans_le hle) (List.singleton_inj.mp hmod)
      rw [← Nat.div_add_mod n b, ← Nat.div_add_mod m b, hdiv, hmod]

/-- Padding that is not in the text does not hide where it ends. -/
theorem rightpad_inj [DecidableEq α] (ha : a ∉ text) (ha' : a ∉ text')
    (h : text.rightpad width a = text'.rightpad width a) : text = text' := by
  have hfilter {l : List α} (hl : a ∉ l) : (l.rightpad width a).filter (· ≠ a) = l := by
    have hkeep : ∀ x ∈ l, decide (x ≠ a) = true := fun x hx => decide_eq_true fun he => hl (he ▸ hx)
    have hpad : ∀ x ∈ List.replicate (width - l.length) a, ¬ decide (x ≠ a) = true := by simp
    rw [List.rightpad, List.filter_append, List.filter_eq_self.mpr hkeep,
      List.filter_eq_nil_iff.mpr hpad, List.append_nil]
  rw [← hfilter ha, h, hfilter ha']

/-- A column that its text fits into. -/
theorem column_inj [DecidableEq α] (ha : a ∉ text) (ha' : a ∉ text') (hw : text.length ≤ width)
    (hw' : text'.length ≤ width)
    (h : text.rightpad width a ++ rest = text'.rightpad width a ++ rest') :
    text = text' ∧ rest = rest' := by
  have hlen : (text.rightpad width a).length = (text'.rightpad width a).length := by
    simp [List.rightpad, hw, hw']
  obtain ⟨hcol,hrest⟩ := List.append_inj h hlen
  exact ⟨rightpad_inj ha ha' hcol,hrest⟩

/-- A line ends at the first end-of-line. -/
theorem line_inj (ha : a ∉ text) (ha' : a ∉ text') (h : text ++ a :: rest = text' ++ a :: rest') :
    text = text' ∧ rest = rest' := by
  induction text generalizing text' with
  | nil =>
    cases text' with
    | nil => exact ⟨rfl,(List.cons.inj h).2⟩
    | cons x text' => exact absurd (List.cons.inj h).1 (List.ne_of_not_mem_cons ha')
  | cons x text ih =>
    cases text' with
    | nil => exact absurd (List.cons.inj h).1.symm (List.ne_of_not_mem_cons ha)
    | cons y text' =>
      obtain ⟨rfl,ht⟩ := List.cons.inj h
      obtain ⟨rfl,hr⟩ := ih (mt (List.mem_cons_of_mem _) ha) (mt (List.mem_cons_of_mem _) ha') ht
      exact ⟨rfl,hr⟩

/-- Lines that are not empty, up to an empty line, are determined by the text. -/
theorem lines_inj {β : Type*} {f : β → List α} (hf : Function.Injective f) (hne : ∀ x, f x ≠ [])
    (ha : ∀ x, a ∉ f x) {xs ys : List β}
    (h : xs.flatMap (fun x => f x ++ [a]) ++ a :: rest =
      ys.flatMap (fun x => f x ++ [a]) ++ a :: rest') : xs = ys := by
  have hends {x : β} {l l' : List α} (he : a :: l = f x ++ l') : False := by
    cases hx : f x with
    | nil => exact hne x hx
    | cons c t =>
      rw [hx] at he
      exact ha x (hx ▸ (List.cons.inj he).1 ▸ List.mem_cons_self)
  induction xs generalizing ys with
  | nil =>
    cases ys with
    | nil => rfl
    | cons y ys =>
      rw [List.flatMap_cons, List.append_assoc, List.append_assoc] at h
      exact (hends h).elim
  | cons x xs ih =>
    rw [List.flatMap_cons, List.append_assoc, List.append_assoc] at h
    cases ys with
    | nil => exact (hends h.symm).elim
    | cons y ys =>
      rw [List.flatMap_cons, List.append_assoc, List.append_assoc] at h
      obtain ⟨hxy,ht⟩ := line_inj (ha x) (ha y) h
      rw [hf hxy, ih ht]

end AgxOpen.Columns
