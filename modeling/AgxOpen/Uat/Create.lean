import AgxOpen.Uat.Tree

/-!
# Growing the tree

`agx_uat_new_node` makes a cell that nothing refers to. `agx_uat_l1` and
`agx_uat_child` link it into the host structures and then into the tables. No
step of this shows in the mapping.
-/
namespace AgxOpen.Uat
open Program
open Function (update)

variable {trusted : Bool} {T : Tree} {m s : Memory} {c d : Cell} {p q : Path} {i : ℕ}

/-- A node whose blocks and table were not live in the memory. -/
structure Cell.Fresh (trusted : Bool) (m : Memory) (count : ℕ) (c : Cell) : Prop where
  ptr : c.ptr ≠ 0
  children : c.node.children ≠ 0
  count : c.node.childCount.toNat = count
  data : c.data = fun _ => 0#64
  node : m.nodes c.ptr = none
  array : m.arrays c.node.children = none
  table : m.tables c.node.cpu = none
  frame : trusted = true → PhysOk c.node.phys ∧ m.frames c.node.phys = none

/-- The memory with a new node in it. -/
def Memory.addNode (trusted : Bool) (m : Memory) (c : Cell) : Memory :=
  { m.addTable trusted c.node.cpu c.node.phys with
    nodes := update m.nodes c.ptr (some c.node)
    arrays := update m.arrays c.node.children (some ⟨c.node.childCount.toNat,fun _ => 0⟩) }

/-- Taking out what was put in. -/
theorem update_none {α β : Type} [DecidableEq α] {f : α → Option β} {x : α} (h : f x = none) :
    update f x none = f := by
  rw [← h, Function.update_eq_self]

theorem Extends.setNode (h : Extends m s) {x : Ptr} (hx : m.nodes x = none) (v : Option Node) :
    Extends m { s with nodes := update s.nodes x v } :=
  { h with nodes := h.nodes.update hx v }

theorem Extends.setArray (h : Extends m s) {x : Ptr} (hx : m.arrays x = none)
    (v : Option Children) : Extends m { s with arrays := update s.arrays x v } :=
  { h with arrays := h.arrays.update hx v }

theorem Extends.setTable (h : Extends m s) (trusted : Bool) {cpu : Ptr} {phys : U64} (hc : m.tables cpu = none)
    (hp : trusted = true → m.frames phys = none) (v : Option Table) (w : Option Ptr) :
    Extends m { s with
      tables := update s.tables cpu v
      frames := if trusted then update s.frames phys w else s.frames } where
  l0 := h.l0
  l1 := h.l1
  nodes := h.nodes
  arrays := h.arrays
  tables := h.tables.update hc v
  frames := by
    cases trusted with
    | false => exact h.frames
    | true => exact h.frames.update (hp rfl) w

theorem Cell.Fresh.extends {count : ℕ} (h : c.Fresh trusted m count) :
    Extends m (m.addNode trusted c) :=
  (((Extends.refl m).setTable trusted h.table (fun ht => (h.frame ht).2) _ _).setNode
    h.node _).setArray h.array _

/-- `agx_uat_new_node`: either a refusal that leaves no trace, or a fresh cell. -/
theorem newNode_spec {childCount : U32} (h0 : childCount ≠ 0#32) :
    wp (step trusted) (newNode childCount) (fun events x u =>
      (∀ e ∈ events, Extends m e.state) ∧
      (x = 0 ∧ u = m ∧ refused events = true ∨
        ∃ c, Cell.Fresh trusted m childCount.toNat c ∧ x = c.ptr ∧ u = m.addNode trusted c ∧
          refused events = false)) m := by
  have hm := Extends.refl m
  unfold newNode
  apply wp_allocNodeBlock
  · simp [hm, refusal]
  · intro x hx hn _
    have h1 := fun v => hm.setNode hn v
    simp only [hx, if_false]
    apply wp_allocTable
    · apply wp_freeNodeBlock (Function.update_self ..)
      simp only [Function.update_idem, update_none hn]
      simp [h1, hm, refusal]
    · intro cpu phys hc hf
      have h2 := fun v => (hm.setTable trusted hc (fun ht => (hf ht).2)
        (some ⟨phys,fun _ => 0#64⟩) (some cpu)).setNode hn v
      apply wp_storeNode (Function.update_self ..)
      apply wp_storeNode (Function.update_self ..)
      simp only [h0, if_false]
      apply wp_allocChildren
      · apply wp_storeNode (Function.update_self ..)
        simp only [if_true]
        apply wp_freeTable (t := ⟨phys,fun _ => 0#64⟩) (by simp [Memory.addTable])
        rintro _ rfl
        apply wp_freeNodeBlock (Function.update_self ..)
        have hframes : (if trusted = true then update (if trusted = true then
            update m.frames phys (some cpu) else m.frames) phys none else
            if trusted = true then update m.frames phys (some cpu) else m.frames) = m.frames := by
          cases trusted with
          | false => rfl
          | true => simp [update_none (hf rfl).2]
        simp only [Memory.addTable, Function.update_idem, update_none hn, update_none hc, hframes]
        simp only [pure_eq, wp_ret, List.forall_mem_cons, refused_cons, refusal, Bool.true_or,
          Bool.false_or, Bool.or_true, beq_self_eq_true, true_and]
        exact ⟨⟨h1 _,h2 _,h2 _,h2 _,h2 _,h2 _,h1 _,hm,by simp⟩,.inl trivial⟩
      · intro y hy _ hay
        apply wp_storeNode (Function.update_self ..)
        simp only [hy, if_false]
        simp only [Memory.addTable, Function.update_idem]
        simp only [pure_eq, wp_ret, List.forall_mem_cons, refused_cons, refusal, Bool.false_or,
          beq_eq_false_iff_ne.mpr hx, beq_eq_false_iff_ne.mpr hy]
        refine ⟨⟨h1 _,h2 _,h2 _,h2 _,(h2 _).setArray hay _,(h2 _).setArray hay _,by simp⟩,
          .inr ⟨⟨x,⟨cpu,phys,y,childCount⟩,fun _ => 0#64⟩,?_,rfl,rfl,rfl⟩⟩
        exact ⟨hx,hy,rfl,rfl,hn,hay,hc,hf⟩

def Tree.insert (T : Tree) (q : Path) (c : Cell) : Tree := update T q (some c)

namespace Tree

theorem insert_cases {q' : Path} (h : T.insert q c q' = some d) : q' = q ∧ d = c ∨ T q' = some d := by
  by_cases hq : q' = q
  · subst hq
    exact .inl ⟨rfl,by simpa [insert] using h.symm⟩
  · exact .inr (by simpa [insert, hq] using h)

theorem ptr_insert : (T.insert q c).ptr = update T.ptr q c.ptr := by
  funext q'
  by_cases hq : q' = q
  · subst hq; simp [ptr, insert]
  · simp [ptr, insert, hq]

theorem entry_insert : (T.insert q c).entry = update T.entry q (tablePte c.node.phys) := by
  funext q'
  by_cases hq : q' = q
  · subst hq; simp [entry, insert]
  · simp [entry, insert, hq]

/-- What lies below a position, after a change of one value. -/
theorem below_update {α : Type} (f : Path → α) (v : α) :
    (fun j => update f (i :: p) v (j :: q)) =
      if q = p then update (fun j => f (j :: p)) i v else fun j => f (j :: q) := by
  funext j
  split
  · rename_i h
    subst h
    by_cases hj : j = i
    · subst hj; simp
    · simp [hj]
  · rename_i h
    simp [h]

theorem words_insert_of_ne (h : q ≠ p) : (T.insert (i :: p) c).words q d = T.words q d := by
  simp only [words, entry_insert, below_update, if_neg h]

theorem words_insert_self (hl : p.length < 3) :
    (T.insert (i :: p) c).words p d = update (T.words p d) i (tablePte c.node.phys) := by
  simp only [words, entry_insert, below_update, if_neg (Nat.ne_of_lt hl), if_true]

theorem root_insert {slot : ℕ} : (T.insert [slot] c).root =
    update T.root slot (ttbr c.node.phys (BitVec.ofNat 32 (slot/2))) := by
  funext slot'
  by_cases hs : slot' = slot
  · subst hs; simp [root, insert]
  · simp [root, insert, hs]

theorem root_insert_below (hp : p ≠ []) : (T.insert (i :: p) c).root = T.root := by
  funext slot
  simp [root, insert, hp.symm]

theorem mapping_insert (hq : T q = none) (hc : c.data = fun _ => 0#64) :
    (T.insert q c).mapping = T.mapping := by
  funext s
  by_cases hs : s.leaf = q
  · subst hs
    simp [mapping, insert, hq, hc, isValid]
  · simp [mapping, insert, hs]

theorem Ok.insert (h : T.Ok) (hlen : p.length < 3) (hi : i < fanout p)
    (hp : p ≠ [] → T p ≠ none) (hc : c.data = fun _ => 0#64)
    (hsep : ∀ q d, T q = some d →
      d.ptr ≠ c.ptr ∧ d.node.children ≠ c.node.children ∧ d.node.cpu ≠ c.node.cpu) :
    (T.insert (i :: p) c).Ok where
  nil := by simp [Tree.insert, h.nil]
  parent {j q} hq := by
    obtain ⟨d,hd⟩ := Option.ne_none_iff_exists'.mp hq
    rcases insert_cases hd with ⟨he,-⟩ | hd
    · obtain ⟨rfl,rfl⟩ := List.cons.inj he
      refine ⟨hlen,hi,fun hn => ?_⟩
      simp [Tree.insert, hp hn]
    · have hq := h.parent (i := j) (p := q) (by simp [hd])
      refine ⟨hq.1,hq.2.1,fun hn => ?_⟩
      unfold Tree.insert
      by_cases he : q = i :: p
      · simp [he]
      · simpa [he] using hq.2.2 hn
  sep {q q' d d'} hd hd' he := by
    rcases insert_cases hd with ⟨rfl,rfl⟩ | h1 <;> rcases insert_cases hd' with ⟨rfl,rfl⟩ | h2
    · rfl
    · grind [hsep _ _ h2]
    · grind [hsep _ _ h1]
    · exact h.sep h1 h2 he
  leaf {q d} j hd hl := by
    rcases insert_cases hd with ⟨rfl,rfl⟩ | hd
    · simp [hc]
    · exact h.leaf j hd hl

/-- The cells of a tree are apart from a fresh one. -/
theorem Fresh_sep {count : ℕ} (hh : T.Host m) (hs : T.Stored m) (hf : c.Fresh trusted m count)
    (hd : T q = some d) :
    d.ptr ≠ c.ptr ∧ d.node.children ≠ c.node.children ∧ d.node.cpu ≠ c.node.cpu := by
  refine ⟨fun he => ?_,fun he => ?_,fun he => ?_⟩
  · simpa [he, hf.node] using hh.node hd
  · simpa [he, hf.array] using hh.array hd
  · simpa [he, hf.table] using hs.table hd

theorem Host.insert {q : Path} (h : T.Host m) (hok : T.Ok) (hf : c.Fresh trusted m (fanout q))
    (hq : T q = none) (hn : q ≠ [])
    (l1 : ∀ ctx select, select < 2 → s.l1 (ctx,select) = update T.ptr q c.ptr [ctx*2+select])
    (nodes : s.nodes = update m.nodes c.ptr (some c.node))
    (old : ∀ q' d, T q' = some d → s.arrays d.node.children =
      some ⟨fanout q',fun j => update T.ptr q c.ptr (j :: q')⟩)
    (new : s.arrays c.node.children = some ⟨fanout q,fun _ => 0⟩) : (T.insert q c).Host s where
  l1 ctx _ hs := by rw [ptr_insert, l1 ctx _ hs]
  ptr hd := by
    rcases insert_cases hd with ⟨rfl,rfl⟩ | hd
    · exact hf.ptr
    · exact h.ptr hd
  node {q' d} hd := by
    rw [nodes]
    rcases insert_cases hd with ⟨rfl,rfl⟩ | hd
    · simp
    · have hne : d.ptr ≠ c.ptr := fun he => by simpa [he, hf.node] using h.node hd
      rw [Function.update_of_ne hne, h.node hd]
  children hd := by
    rcases insert_cases hd with ⟨rfl,rfl⟩ | hd
    · exact hf.children
    · exact h.children hd
  count hd := by
    rcases insert_cases hd with ⟨rfl,rfl⟩ | hd
    · exact hf.count
    · exact h.count hd
  array {q' d} hd := by
    rw [ptr_insert]
    rcases insert_cases hd with ⟨rfl,rfl⟩ | hd
    · rw [new]
      congr 2
      funext j
      have hj : T (j :: q') = none := by
        by_contra hj
        exact (hok.parent hj).2.2 hn hq
      simp [Tree.ptr, hj]
    · exact old q' d hd

theorem Stored.insert {q : Path} (hok : T.Ok) (hf : c.Fresh trusted m (fanout q))
    (hq : T q = none) (hn : q ≠ []) (l0 : s.l0 = (T.insert q c).root)
    (old : ∀ q' d, T q' = some d →
      s.tables d.node.cpu = some ⟨d.node.phys,(T.insert q c).words q' d⟩)
    (new : s.tables c.node.cpu = some ⟨c.node.phys,fun _ => 0#64⟩) : (T.insert q c).Stored s where
  l0 := l0
  table {q' d} hd := by
    rcases insert_cases hd with ⟨rfl,rfl⟩ | hd
    · rw [new]
      congr 2
      funext j
      have hj : T (j :: q') = none := by
        by_contra hj
        exact (hok.parent hj).2.2 hn hq
      have he : T.entry (j :: q') = 0#64 := by simp [entry, hj]
      unfold words
      split
      · rw [hf.data]
      · simp [entry_insert, he]
    · exact old q' d hd

theorem Framed.insert {count : ℕ} (h : T.Framed m) (ht : trusted = true)
    (hf : c.Fresh trusted m count)
    (hs : s.frames = update m.frames c.node.phys (some c.node.cpu)) : (T.insert q c).Framed s where
  phys hd := by
    rcases insert_cases hd with ⟨rfl,rfl⟩ | hd
    · exact (hf.frame ht).1
    · exact h.phys hd
  frame {q' d} hd := by
    rw [hs]
    rcases insert_cases hd with ⟨rfl,rfl⟩ | hd
    · simp
    · have hne : d.node.phys ≠ c.node.phys := fun he => by
        simpa [he, (hf.frame ht).2] using h.frame hd
      rw [Function.update_of_ne hne, h.frame hd]

theorem ne_none_of_update {α β : Type} [DecidableEq α] {f : α → Option β} {x y : α} {v : Option β}
    (h : update f x v y ≠ none) : y = x ∨ f y ≠ none := by
  by_cases hy : y = x
  · exact .inl hy
  · exact .inr (by simpa [hy] using h)

theorem Owns.insert (h : T.Owns m) (hq : T q = none)
    (nodes : ∀ x, s.nodes x ≠ none → x = c.ptr ∨ m.nodes x ≠ none)
    (arrays : ∀ x, s.arrays x ≠ none → x = c.node.children ∨ m.arrays x ≠ none)
    (tables : ∀ x, s.tables x ≠ none → x = c.node.cpu ∨ m.tables x ≠ none) :
    (T.insert q c).Owns s := by
  have keep {q' d} (hd : T q' = some d) : T.insert q c q' = some d := by
    have hne : q' ≠ q := by rintro rfl; simp [hq] at hd
    simpa [Tree.insert, hne] using hd
  have here : T.insert q c q = some c := by simp [Tree.insert]
  constructor
  · intro x hx
    rcases nodes x hx with rfl | hx
    · exact ⟨q,c,here,rfl⟩
    · obtain ⟨q',d,hd,he⟩ := h.node hx
      exact ⟨q',d,keep hd,he⟩
  · intro x hx
    rcases arrays x hx with rfl | hx
    · exact ⟨q,c,here,rfl⟩
    · obtain ⟨q',d,hd,he⟩ := h.array hx
      exact ⟨q',d,keep hd,he⟩
  · intro x hx
    rcases tables x hx with rfl | hx
    · exact ⟨q,c,here,rfl⟩
    · obtain ⟨q',d,hd,he⟩ := h.table hx
      exact ⟨q',d,keep hd,he⟩

end Tree

/-- What the two functions that create on demand achieve: the node at the
position, or `NULL` after a refusal, with nothing to see for the hardware. -/
def Ensured (trusted : Bool) (T : Tree) (q : Path) (events : Trace) (x : Ptr) (u : Memory) :
    Prop :=
  ∃ T' : Tree, Inv trusted T' u ∧ T'.mapping = T.mapping ∧ x = T'.ptr q ∧
    (x = 0 ↔ refused events = true) ∧
    (trusted = true → ∀ e ∈ events, Shows e.state T.mapping)

theorem Tree.ptr_eq_zero (h : T.Host m) : T.ptr q = 0 ↔ T q = none := by
  cases hq : T q with
  | none => simp [Tree.ptr, hq]
  | some c => simpa [Tree.ptr, hq] using h.ptr hq

/-- The invariant of the tree after the stores of `agx_uat_l1`. -/
theorem Inv.insert_root (h : Inv trusted T m) {ctx select : ℕ} (hc : ctx < contextCount)
    (hs : select < 2) (hq : T [ctx*2+select] = none) (hf : c.Fresh trusted m l1Count) :
    Inv trusted (T.insert [ctx*2+select] c) { m.addNode trusted c with
      l1 := update m.l1 (ctx,select) c.ptr
      l0 := update m.l0 (ctx*2+select) (ttbr c.node.phys (BitVec.ofNat 32 ctx)) } where
  ok := by
    refine h.ok.insert (by simp) ?_ (by simp) hf.data fun q d hd =>
      Tree.Fresh_sep h.host h.stored hf hd
    simp only [fanout, List.length_nil]
    omega
  host := by
    refine h.host.insert h.ok hf hq (by simp) ?_ rfl ?_ ?_
    · intro ctx' select' hs'
      by_cases he : (ctx',select') = (ctx,select)
      · obtain ⟨rfl,rfl⟩ := Prod.mk.inj he
        simp
      · have hne : [ctx'*2+select'] ≠ [ctx*2+select] := by
          intro hl
          simp only [List.cons.injEq, and_true] at hl
          exact he (by rw [Prod.mk.injEq]; omega)
        simp [he, hne, h.host.l1 ctx' hs']
    · intro q d hd
      have hq' : q ≠ [] := by rintro rfl; simp [h.ok.nil] at hd
      rw [hf.extends.arrays _ _ (h.host.array hd), Tree.below_update, if_neg hq']
    · simp [Memory.addNode, hf.count, fanout]
  stored := by
    refine Tree.Stored.insert h.ok hf hq (by simp) ?_ ?_ ?_
    · rw [Tree.root_insert, ← h.stored.l0, show (ctx*2+select)/2 = ctx by omega]
    · intro q d hd
      have hq' : q ≠ [] := by rintro rfl; simp [h.ok.nil] at hd
      rw [hf.extends.tables _ _ (h.stored.table hd), Tree.words_insert_of_ne hq']
    · simp [Memory.addNode, Memory.addTable]
  framed ht := by
    refine (h.framed ht).insert ht hf ?_
    simp [Memory.addNode, Memory.addTable, ht]
  owns := by
    exact h.owns.insert hq (fun _ => Tree.ne_none_of_update) (fun _ => Tree.ne_none_of_update)
      fun _ => Tree.ne_none_of_update

/-- The invariant of the tree after the stores of `agx_uat_child`. -/
theorem Inv.insert_child (h : Inv trusted T m) (hd : T p = some d) (hlen : p.length < 3)
    (hi : i < fanout p) (hq : T (i :: p) = none) (hf : c.Fresh trusted m (fanout (i :: p))) :
    Inv trusted (T.insert (i :: p) c) (Memory.setEntry { m.addNode trusted c with
        arrays := update (m.addNode trusted c).arrays d.node.children
          (some ⟨fanout p,update (fun j => T.ptr (j :: p)) i c.ptr⟩) }
      d.node.cpu ⟨d.node.phys,T.words p d⟩ i (tablePte c.node.phys)) where
  ok := h.ok.insert hlen hi (by simp [hd]) hf.data fun q d hd =>
    Tree.Fresh_sep h.host h.stored hf hd
  host := by
    have hsep := Tree.Fresh_sep h.host h.stored hf hd
    refine h.host.insert h.ok hf hq (by simp) ?_ rfl ?_ ?_
    · intro ctx select hs
      have hne : [ctx*2+select] ≠ i :: p := by
        rintro he
        obtain ⟨-,rfl⟩ := List.cons.inj he
        simp [h.ok.nil] at hd
      rw [Function.update_of_ne hne]
      exact h.host.l1 ctx hs
    · intro q e he
      by_cases hqp : q = p
      · subst hqp
        obtain rfl := Option.some.inj (hd.symm.trans he)
        simp [Memory.setEntry, Tree.below_update]
      · have hne : e.node.children ≠ d.node.children := fun hc => hqp (h.ok.sep he hd (by simp [hc]))
        have := hf.extends.arrays _ _ (h.host.array he)
        simpa [Memory.setEntry, hne, Tree.below_update, hqp] using this
    · simp [Memory.setEntry, hsep.2.1.symm, Memory.addNode, hf.count]
  stored := by
    have hsep := Tree.Fresh_sep h.host h.stored hf hd
    have hp : p ≠ [] := by rintro rfl; simp [h.ok.nil] at hd
    refine Tree.Stored.insert h.ok hf hq (by simp) ?_ ?_ ?_
    · rw [Tree.root_insert_below hp, ← h.stored.l0]
      rfl
    · intro q e he
      by_cases hqp : q = p
      · subst hqp
        obtain rfl := Option.some.inj (hd.symm.trans he)
        simp [Memory.setEntry, Tree.words_insert_self hlen]
      · have hne : e.node.cpu ≠ d.node.cpu := fun hc => hqp (h.ok.sep he hd (by simp [hc]))
        have := hf.extends.tables _ _ (h.stored.table he)
        simpa [Memory.setEntry, hne, Tree.words_insert_of_ne hqp] using this
    · simp [Memory.setEntry, hsep.2.2.symm, Memory.addNode, Memory.addTable]
  framed ht := by
    refine (h.framed ht).insert ht hf ?_
    simp [Memory.setEntry, Memory.addNode, Memory.addTable, ht]
  owns := by
    refine h.owns.insert hq (fun _ => Tree.ne_none_of_update) (fun x hx => ?_) fun x hx => ?_
    · rcases Tree.ne_none_of_update hx with rfl | hx
      · exact .inr (by simp [h.host.array hd])
      · exact Tree.ne_none_of_update hx
    · rcases Tree.ne_none_of_update hx with rfl | hx
      · exact .inr (by simp [h.stored.table hd])
      · exact Tree.ne_none_of_update hx

theorem l1_spec (h : Inv trusted T m) {ctxId select : U32} (hc : ctxId.toNat < contextCount)
    (hs : select.toNat < 2) : wp (step trusted) (l1 ctxId select true ctxId)
      (Ensured trusted T [ctxId.toNat*2+select.toNat]) m := by
  have hx := h.host.l1 ctxId.toNat hs
  have hm : trusted = true → Shows m T.mapping := fun ht => by subst ht; exact h.shows
  unfold l1
  apply wp_loadL1 hc hs
  by_cases h0 : m.l1 (ctxId.toNat,select.toNat) = 0
  · have hq := (Tree.ptr_eq_zero h.host).mp (hx.symm.trans h0)
    simp only [h0, ne_eq, not_true_eq_false, Bool.true_eq_false, or_self, if_false]
    apply wp_bind
    refine wp_mono (newNode_spec (by decide)) ?_
    rintro events x u ⟨hext,⟨rfl,rfl,hr⟩ | ⟨c,hf,rfl,rfl,hr⟩⟩
    · refine ⟨T,h,rfl,(hx.symm.trans h0).symm,by simp [refusal, hr],fun ht => ?_⟩
      simp only [List.append_nil, List.forall_mem_cons]
      exact ⟨hm ht,fun e he => (hm ht).mono (hext e he)⟩
    · have hi := h.insert_root hc hs hq hf
      have hmap := Tree.mapping_insert hq hf.data
      simp only [hf.ptr, if_false]
      apply wp_storeL1 hc hs
      apply wp_loadNode (n := c.node) (by simp [Memory.addNode])
      apply wp_storeL0 (by omega)
      rw [BitVec.ofNat_toNat, BitVec.setWidth_eq] at hi
      refine ⟨_,hi,hmap,by simp [Tree.ptr_insert],by simp [refusal, hr, hf.ptr],fun ht => ?_⟩
      have hadd := (hm ht).mono hf.extends
      have hlink := hadd.congr (s := { m.addNode trusted c with
        l1 := update m.l1 (ctxId.toNat,select.toNat) c.ptr }) rfl rfl rfl
      subst ht
      simp only [List.forall_mem_cons, List.forall_mem_append]
      exact ⟨hm rfl,fun e he => (hm rfl).mono (hext e he),hlink,hlink,hmap ▸ hi.shows,by simp⟩
  · simp only [h0, ne_eq, not_false_eq_true, true_or, if_true]
    refine ⟨T,h,rfl,hx,by simp [refusal, h0],fun ht => ?_⟩
    simpa using hm ht

theorem child_spec (h : Inv trusted T m) (hd : T p = some d) (hlen : p.length < 3)
    {idx childCount : U32} (hi : idx.toNat < fanout p)
    (hn : childCount.toNat = fanout (idx.toNat :: p)) (h0 : childCount ≠ 0#32) :
    wp (step trusted) (child d.ptr idx childCount true)
      (Ensured trusted T (idx.toNat :: p)) m := by
  have hm : trusted = true → Shows m T.mapping := fun ht => by subst ht; exact h.shows
  have hp := fanout_le (p := p) (by rintro rfl; simp [h.ok.nil] at hd)
  unfold child
  apply wp_loadNode (h.host.node hd)
  apply wp_loadChild (h.host.array hd) hi
  change wp _ (if T.ptr (idx.toNat :: p) ≠ 0 ∨ _ then _ else _) _ _
  by_cases hx : T.ptr (idx.toNat :: p) = 0
  · have hq := (Tree.ptr_eq_zero h.host).mp hx
    simp only [hx, ne_eq, not_true_eq_false, Bool.true_eq_false, or_self, if_false]
    apply wp_bind
    refine wp_mono (newNode_spec h0) ?_
    rintro events x u ⟨hext,⟨rfl,rfl,hr⟩ | ⟨c,hf,rfl,rfl,hr⟩⟩
    · refine ⟨T,h,rfl,hx.symm,by simp [refusal, hr],fun ht => ?_⟩
      simp only [List.append_nil, List.forall_mem_cons]
      exact ⟨hm ht,hm ht,fun e he => (hm ht).mono (hext e he)⟩
    · rw [hn] at hf
      have hinv := h.insert_child hd hlen hi hq hf
      have hmap := Tree.mapping_insert hq hf.data
      have hsep := Tree.Fresh_sep h.host h.stored hf hd
      simp only [hf.ptr, if_false]
      apply wp_storeChild (hf.extends.arrays _ _ (h.host.array hd)) hi
      apply wp_loadNode (n := c.node) (by simp [Memory.addNode])
      apply wp_storeEntry (t := ⟨d.node.phys,T.words p d⟩)
        (by exact hf.extends.tables _ _ (h.stored.table hd)) (hi.trans_le hp)
      refine ⟨_,hinv,hmap,by simp [Tree.ptr_insert],by simp [refusal, hr, hf.ptr],fun ht => ?_⟩
      have hadd := (hm ht).mono hf.extends
      have hlink := hadd.congr (s := { m.addNode trusted c with
        arrays := update (m.addNode trusted c).arrays d.node.children
          (some ⟨fanout p,update (fun j => T.ptr (j :: p)) idx.toNat c.ptr⟩) }) rfl rfl rfl
      subst ht
      simp only [List.forall_mem_cons, List.forall_mem_append]
      exact ⟨hm rfl,hm rfl,fun e he => (hm rfl).mono (hext e he),hlink,hlink,hmap ▸ hinv.shows,
        by simp⟩
  · simp only [hx, ne_eq, not_false_eq_true, true_or, if_true]
    refine ⟨T,h,rfl,rfl,by simp [refusal, hx],fun ht => ?_⟩
    simpa using hm ht

end AgxOpen.Uat
