import AgxOpen.Uat.Walker

/-! One proof rule for each operation of the walker's memory. -/
namespace AgxOpen.Uat
open Program
open Function (update)

variable {trusted : Bool} {m : Memory} {α : Type} {Q : Trace → α → Memory → Prop}

theorem wp_loadL1 {ctx select : ℕ} {k : Ptr → UatProgram α} (hc : ctx < contextCount)
    (hs : select < 2) (hk : wp (step trusted) (k (m.l1 (ctx,select)))
      (fun events a u => Q (⟨.loadL1 ctx select,m.l1 (ctx,select),m⟩ :: events) a u) m) :
    wp (step trusted) (loadL1 ctx select >>= k) Q m := by
  apply wp_call _ _ _ hk
  · simp [step, hc, hs]
  · intro p t h
    simp only [step] at h
    split at h
    · rename_i hp; exact hp.2.2.symm
    · contradiction

theorem wp_storeL1 {ctx select : ℕ} {p : Ptr} {k : Unit → UatProgram α} (hc : ctx < contextCount)
    (hs : select < 2) (hk : wp (step trusted) (k ())
      (fun events a u => Q (⟨.storeL1 ctx select p,(),{ m with l1 := update m.l1 (ctx,select) p }⟩
        :: events) a u) { m with l1 := update m.l1 (ctx,select) p }) :
    wp (step trusted) (storeL1 ctx select p >>= k) Q m :=
  wp_call () (by simp [step, hc, hs]) (fun _ _ _ => rfl) hk

theorem wp_storeL0 {slot : ℕ} {value : U64} {k : Unit → UatProgram α}
    (hs : slot < contextCount*2) (hk : wp (step trusted) (k ())
      (fun events a u => Q (⟨.storeL0 slot value,(),{ m with l0 := update m.l0 slot value }⟩
        :: events) a u) { m with l0 := update m.l0 slot value }) :
    wp (step trusted) (storeL0 slot value >>= k) Q m :=
  wp_call () (by simp [step, hs]) (fun _ _ _ => rfl) hk

theorem wp_loadNode {p : Ptr} {n : Node} {k : Node → UatProgram α} (h : m.nodes p = some n)
    (hk : wp (step trusted) (k n) (fun events a u => Q (⟨.loadNode p,n,m⟩ :: events) a u) m) :
    wp (step trusted) (loadNode p >>= k) Q m := by
  apply wp_call n _ _ hk
  · simp [step, h]
  · intro n' t h'
    simp only [step, h, Option.some.injEq] at h'
    split at h'
    · rename_i hn; exact hn.symm
    · contradiction

theorem wp_storeNode {p : Ptr} {n n' : Node} {k : Unit → UatProgram α} (h : m.nodes p = some n')
    (hk : wp (step trusted) (k ()) (fun events a u =>
      Q (⟨.storeNode p n,(),{ m with nodes := update m.nodes p (some n) }⟩ :: events) a u)
      { m with nodes := update m.nodes p (some n) }) :
    wp (step trusted) (storeNode p n >>= k) Q m :=
  wp_call () (by simp [step, h]) (fun _ _ _ => rfl) hk

theorem wp_loadChild {p : Ptr} {idx : ℕ} {a : Children} {k : Ptr → UatProgram α}
    (h : m.arrays p = some a) (hi : idx < a.count)
    (hk : wp (step trusted) (k (a.slots idx))
      (fun events b u => Q (⟨.loadChild p idx,a.slots idx,m⟩ :: events) b u) m) :
    wp (step trusted) (loadChild p idx >>= k) Q m := by
  apply wp_call _ _ _ hk
  · simp [step, h, hi]
  · intro q t h'
    simp only [step, h] at h'
    split at h'
    · rename_i hq; exact hq.2.symm
    · contradiction

theorem wp_storeChild {p child : Ptr} {idx : ℕ} {a : Children} {k : Unit → UatProgram α}
    (h : m.arrays p = some a) (hi : idx < a.count)
    (hk : wp (step trusted) (k ()) (fun events b u => Q (⟨.storeChild p idx child,(),
      { m with arrays := update m.arrays p (some ⟨a.count,update a.slots idx child⟩) }⟩
        :: events) b u)
      { m with arrays := update m.arrays p (some ⟨a.count,update a.slots idx child⟩) }) :
    wp (step trusted) (storeChild p idx child >>= k) Q m :=
  wp_call () (by simp [step, h, hi]) (fun _ _ _ => rfl) hk

theorem wp_loadEntry {cpu : Ptr} {idx : ℕ} {t : Table} {k : U64 → UatProgram α}
    (h : m.tables cpu = some t) (hi : idx < tableWords)
    (hk : wp (step trusted) (k (t.words idx))
      (fun events a u => Q (⟨.loadEntry cpu idx,t.words idx,m⟩ :: events) a u) m) :
    wp (step trusted) (loadEntry cpu idx >>= k) Q m := by
  apply wp_call _ _ _ hk
  · simp [step, h, hi]
  · intro v t' h'
    simp only [step, h] at h'
    split at h'
    · rename_i hv; exact hv.2.symm
    · contradiction

/-- The memory after a store to one word of a table. -/
def Memory.setEntry (m : Memory) (cpu : Ptr) (t : Table) (idx : ℕ) (value : U64) : Memory :=
  { m with tables := update m.tables cpu (some ⟨t.phys,update t.words idx value⟩) }

theorem wp_storeEntry {cpu : Ptr} {idx : ℕ} {value : U64} {t : Table} {k : Unit → UatProgram α}
    (h : m.tables cpu = some t) (hi : idx < tableWords)
    (hk : wp (step trusted) (k ()) (fun events a u => Q (⟨.storeEntry cpu idx value,(),
      m.setEntry cpu t idx value⟩ :: events) a u) (m.setEntry cpu t idx value)) :
    wp (step trusted) (storeEntry cpu idx value >>= k) Q m :=
  wp_call () (by simp [step, h, hi, Memory.setEntry]) (fun _ _ _ => rfl) hk

theorem wp_freeTable {cpu : Ptr} {t : Table} {k : Unit → UatProgram α}
    (h : m.tables cpu = some t)
    (hk : ∀ m', m' = { m with
        tables := update m.tables cpu none
        frames := if trusted then update m.frames t.phys none else m.frames } →
      wp (step trusted) (k ()) (fun events a u =>
        Q (⟨.freeTable cpu t.phys,(),m'⟩ :: events) a u) m') :
    wp (step trusted) (freeTable cpu t.phys >>= k) Q m :=
  wp_call () (by simp [step, h]) (fun _ _ _ => rfl) (hk _ rfl)

theorem wp_freeNodeBlock {p : Ptr} {n : Node} {k : Unit → UatProgram α} (h : m.nodes p = some n)
    (hk : wp (step trusted) (k ()) (fun events a u =>
      Q (⟨.freeNode p,(),{ m with nodes := update m.nodes p none }⟩ :: events) a u)
      { m with nodes := update m.nodes p none }) :
    wp (step trusted) (freeNodeBlock p >>= k) Q m :=
  wp_call () (by simp [step, h]) (fun _ _ _ => rfl) hk

theorem wp_freeChildren {p : Ptr} {a : Children} {k : Unit → UatProgram α}
    (h : m.arrays p = some a) (hk : wp (step trusted) (k ()) (fun events b u =>
      Q (⟨.freeChildren p a.count,(),{ m with arrays := update m.arrays p none }⟩ :: events) b u)
      { m with arrays := update m.arrays p none }) :
    wp (step trusted) (freeChildren p a.count >>= k) Q m :=
  wp_call () (by simp [step, h]) (fun _ _ _ => rfl) hk

theorem wp_allocNodeBlock {k : Ptr → UatProgram α}
    (hrefuse : wp (step trusted) (k 0)
      (fun events a u => Q (⟨.allocNode,(0 : ℕ),m⟩ :: events) a u) m)
    (hok : ∀ p ≠ 0, m.nodes p = none → m.arrays p = none → wp (step trusted) (k p)
      (fun events a u => Q (⟨.allocNode,p,
        { m with nodes := update m.nodes p (some ⟨0,0#64,0,0#32⟩) }⟩ :: events) a u)
      { m with nodes := update m.nodes p (some ⟨0,0#64,0,0#32⟩) }) :
    wp (step trusted) (allocNodeBlock >>= k) Q m := by
  refine ⟨⟨(0 : ℕ),m,by simp [step]⟩,fun p t h => ?_⟩
  simp only [step, Option.isNone_iff_eq_none] at h
  split at h
  · rename_i hp
    subst hp
    obtain rfl := Option.some.inj h
    exact hrefuse
  · split at h
    · rename_i hp hf
      obtain rfl := Option.some.inj h
      exact hok p hp hf.1 hf.2
    · contradiction

theorem wp_allocChildren {count : ℕ} {k : Ptr → UatProgram α}
    (hrefuse : wp (step trusted) (k 0)
      (fun events a u => Q (⟨.allocChildren count,(0 : ℕ),m⟩ :: events) a u) m)
    (hok : ∀ p ≠ 0, m.nodes p = none → m.arrays p = none → wp (step trusted) (k p)
      (fun events a u => Q (⟨.allocChildren count,p,
        { m with arrays := update m.arrays p (some ⟨count,fun _ => 0⟩) }⟩ :: events) a u)
      { m with arrays := update m.arrays p (some ⟨count,fun _ => 0⟩) }) :
    wp (step trusted) (allocChildren count >>= k) Q m := by
  refine ⟨⟨(0 : ℕ),m,by simp [step]⟩,fun p t h => ?_⟩
  simp only [step, Option.isNone_iff_eq_none] at h
  split at h
  · rename_i hp
    subst hp
    obtain rfl := Option.some.inj h
    exact hrefuse
  · split at h
    · rename_i hp hf
      obtain rfl := Option.some.inj h
      exact hok p hp hf.1 hf.2
    · contradiction

/-- The memory after `alloc_table` handed out a table. -/
def Memory.addTable (trusted : Bool) (m : Memory) (cpu : Ptr) (phys : U64) : Memory :=
  { m with
    tables := update m.tables cpu (some ⟨phys,fun _ => 0#64⟩)
    frames := if trusted then update m.frames phys (some cpu) else m.frames }

theorem wp_allocTable {k : Option (Ptr × U64) → UatProgram α}
    (hrefuse : wp (step trusted) (k none)
      (fun events a u => Q (⟨.allocTable,(none : Option (Ptr × U64)),m⟩ :: events) a u) m)
    (hok : ∀ cpu phys, m.tables cpu = none →
      (trusted = true → PhysOk phys ∧ m.frames phys = none) →
      wp (step trusted) (k (some (cpu,phys))) (fun events a u =>
        Q (⟨.allocTable,(some (cpu,phys) : Option (Ptr × U64)),m.addTable trusted cpu phys⟩
          :: events) a u) (m.addTable trusted cpu phys)) :
    wp (step trusted) (allocTable >>= k) Q m := by
  refine ⟨⟨(none : Option (Ptr × U64)),m,rfl⟩,fun r t h => ?_⟩
  match r, h with
  | none, h =>
    obtain rfl := Option.some.inj h
    exact hrefuse
  | some (cpu,phys), h =>
    simp only [step, Option.isNone_iff_eq_none] at h
    split at h
    · rename_i hf
      obtain rfl := Option.some.inj h
      exact hok cpu phys hf.1 hf.2
    · contradiction

end AgxOpen.Uat
