import Mathlib.Data.Set.Insert
import AgxOpen.Uat.Calls

/-!
# Releasing a context

`agx_uat_free_node` takes a whole subtree out of the memory, children first,
while everything above still refers to it. `agx_uat_free_context` clears the
`l1` entry and the L0 slot only afterwards.
-/
namespace AgxOpen.Uat
open Program
open Function (update)

variable {trusted : Bool} {T : Tree} {m s : Memory} {c d : Cell} {p q : Path} {i : ℕ}
  {D D' : Set Path}

/-- Some cell at a position of the set has this key. -/
def Tree.Keys {α : Type} (T : Tree) (D : Set Path) (key : Cell → α) (x : α) : Prop :=
  ∃ p ∈ D, ∃ c, T p = some c ∧ key c = x

open Classical in
/-- A partial function without the points of a predicate. -/
noncomputable def erase {α β : Type} (P : α → Prop) (f : α → Option β) : α → Option β :=
  fun x => if P x then none else f x

/-- The memory after the cells of a set of positions were freed. -/
noncomputable def Memory.drop (trusted : Bool) (T : Tree) (D : Set Path) (m : Memory) : Memory where
  l0 := m.l0
  l1 := m.l1
  nodes := erase (T.Keys D Cell.ptr) m.nodes
  arrays := erase (T.Keys D fun c => c.node.children) m.arrays
  tables := erase (T.Keys D fun c => c.node.cpu) m.tables
  frames := if trusted then erase (T.Keys D fun c => c.node.phys) m.frames else m.frames

section erase
variable {α β : Type} {P P' : α → Prop} {f : α → Option β} {x : α}

theorem erase_of_not (h : ¬ P x) : erase P f x = f x := if_neg h

theorem erase_congr (h : ∀ x, P x ↔ P' x) : erase P f = erase P' f := by
  rw [funext fun x => propext (h x)]

theorem erase_none (h : ∀ x, ¬ P x) : erase P f = f := funext fun x => erase_of_not (h x)

theorem erase_ne_none (h : erase P f x ≠ none) : ¬ P x ∧ f x ≠ none := by
  unfold erase at h
  split_ifs at h with hx
  · exact absurd rfl h
  · exact ⟨hx,h⟩

theorem update_erase [DecidableEq α] (h : ∀ y, P' y ↔ y = x ∨ P y) :
    update (erase P f) x none = erase P' f := by
  funext y
  by_cases hy : y = x
  · subst hy
    simp [erase, h]
  · rw [Function.update_of_ne hy]
    by_cases hp : P y
    · simp [erase, h, hp]
    · simp [erase, h, hp, hy]

end erase

theorem Tree.keys_congr {α : Type} {key : Cell → α} (h : ∀ p, T p ≠ none → (p ∈ D ↔ p ∈ D'))
    (x : α) : T.Keys D key x ↔ T.Keys D' key x := by
  constructor
  · rintro ⟨p,hp,c,hc,rfl⟩
    exact ⟨p,(h p (by simp [hc])).mp hp,c,hc,rfl⟩
  · rintro ⟨p,hp,c,hc,rfl⟩
    exact ⟨p,(h p (by simp [hc])).mpr hp,c,hc,rfl⟩

theorem Tree.keys_union_singleton {α : Type} (key : Cell → α) (hc : T q = some c) (x : α) :
    T.Keys (D ∪ {q}) key x ↔ x = key c ∨ T.Keys D key x := by
  constructor
  · rintro ⟨p,hp | rfl,d,hd,rfl⟩
    · exact .inr ⟨p,hp,d,hd,rfl⟩
    · obtain rfl := Option.some.inj (hc.symm.trans hd)
      exact .inl rfl
  · rintro (rfl | ⟨p,hp,d,hd,rfl⟩)
    · exact ⟨q,.inr rfl,c,hc,rfl⟩
    · exact ⟨p,.inl hp,d,hd,rfl⟩

/-- A cell outside the set keeps its keys to itself. -/
theorem Tree.not_keys {α : Type} (key : Cell → α) (hq : q ∉ D)
    (hsep : ∀ p d, T p = some d → key d = key c → p = q) : ¬ T.Keys D key (key c) := by
  rintro ⟨p,hp,d,hd,he⟩
  exact hq (hsep p d hd he ▸ hp)

theorem Memory.drop_congr (h : ∀ p, T p ≠ none → (p ∈ D ↔ p ∈ D')) :
    m.drop trusted T D = m.drop trusted T D' := by
  unfold Memory.drop
  congr 1
  · exact erase_congr (Tree.keys_congr h)
  · exact erase_congr (Tree.keys_congr h)
  · exact erase_congr (Tree.keys_congr h)
  · rw [erase_congr (Tree.keys_congr h)]

theorem Memory.drop_empty : m.drop trusted T ∅ = m := by
  have hk {α : Type} (key : Cell → α) (x : α) : ¬ T.Keys ∅ key x := fun ⟨_,hp,_⟩ => hp
  simp only [Memory.drop, erase_none (hk _), ite_self]

/-- The last four operations on a node take out just its own position. -/
theorem Memory.drop_union_singleton (hc : T q = some c) :
    { m.drop trusted T D with
      nodes := update (m.drop trusted T D).nodes c.ptr none
      arrays := update (m.drop trusted T D).arrays c.node.children none
      tables := update (m.drop trusted T D).tables c.node.cpu none
      frames := if trusted then update (m.drop trusted T D).frames c.node.phys none
        else (m.drop trusted T D).frames } = m.drop trusted T (D ∪ {q}) := by
  have hk {α : Type} (key : Cell → α) := Tree.keys_union_singleton (D := D) key hc
  simp only [Memory.drop, update_erase (hk Cell.ptr), update_erase (hk fun c => c.node.children),
    update_erase (hk fun c => c.node.cpu)]
  cases trusted with
  | false => rfl
  | true => simp only [if_true, update_erase (hk fun c => c.node.phys)]

/-- A position and everything under it. -/
def below (q : Path) : Set Path := {p | q <:+ p}

theorem mem_below_self : q ∈ below q := List.suffix_refl q

theorem mem_below_cons (h : p ∈ below q) : i :: p ∈ below q := h.trans (List.suffix_cons i p)

theorem mem_below_iff : p ∈ below q ↔ p = q ∨ ∃ i, p ∈ below (i :: q) := by
  constructor
  · rintro ⟨t,rfl⟩
    rcases List.eq_nil_or_concat t with rfl | ⟨t,i,rfl⟩
    · exact .inl rfl
    · exact .inr ⟨i,t,by simp⟩
  · rintro (rfl | ⟨i,h⟩)
    · exact mem_below_self
    · exact (List.suffix_cons i q).trans h

theorem below_disjoint {j : ℕ} (hi : p ∈ below (i :: q)) (hj : p ∈ below (j :: q)) : i = j := by
  have hs := List.suffix_of_suffix_length_le hi hj (by simp)
  exact (List.cons.inj (hs.eq_of_length (by simp))).1

/-- Below a missing node there is nothing. -/
theorem Tree.Ok.none_of_below (h : T.Ok) (hq : q ≠ []) (hT : T q = none) (hp : p ∈ below q) :
    T p = none := by
  obtain ⟨t,rfl⟩ := hp
  induction t with
  | nil => exact hT
  | cons i t ih => exact h.none_below i (by simp [hq]) ih

/-- A subtree is its root and the subtrees of its children. -/
theorem Tree.Ok.mem_below (h : T.Ok) (hp : T p ≠ none) :
    p ∈ below q ↔ p = q ∨ ∃ i < fanout q, p ∈ below (i :: q) := by
  rw [mem_below_iff]
  refine or_congr_right ⟨?_,fun ⟨i,_,hi⟩ => ⟨i,hi⟩⟩
  rintro ⟨i,hi⟩
  have hn : T (i :: q) ≠ none := fun hn => hp (h.none_of_below (by simp) hn hi)
  exact ⟨i,(h.parent hn).2.1,hi⟩

theorem freeNode_spec (h : Inv trusted T m) (fuel : ℕ) {q : Path} (hq : q ≠ [])
    (hl : q.length ≤ 4) (hfuel : 5 ≤ fuel+q.length) {D : Set Path} (hD : ∀ p ∈ D, p ∉ below q) :
    wp (step trusted) (freeNode fuel (T.ptr q)) (fun events _ u =>
      u = m.drop trusted T (D ∪ below q) ∧
      (T q = none → events = []) ∧ (T q ≠ none → ∃ e ∈ events, e.state = u))
      (m.drop trusted T D) := by
  induction fuel generalizing q D with
  | zero => omega
  | succ fuel ih =>
    unfold freeNode
    by_cases hx : T.ptr q = 0
    · have hT := (Tree.ptr_eq_zero h.host).mp hx
      simp only [hx, if_true]
      refine ⟨Memory.drop_congr fun p hp => ?_,fun _ => rfl,fun hn => absurd hT hn⟩
      have : p ∉ below q := fun hb => hp (h.ok.none_of_below hq hT hb)
      simp [this]
    · obtain ⟨c,hc,hp⟩ := Tree.of_ptr_ne_zero hx
      have hqD : q ∉ D := fun hm => hD q hm mem_below_self
      have hl3 : q.length ≤ 3 := by
        obtain ⟨i,p,rfl⟩ := List.exists_cons_of_ne_nil hq
        have := (h.ok.parent (i := i) (p := p) (by simp [hc])).1
        simpa [Nat.succ_le_iff] using this
      have hkeys {E : Set Path} (hE : q ∉ E) :
          (m.drop trusted T E).nodes c.ptr = some c.node ∧
          (m.drop trusted T E).arrays c.node.children =
            some ⟨fanout q,fun i => T.ptr (i :: q)⟩ ∧
          (m.drop trusted T E).tables c.node.cpu = some ⟨c.node.phys,T.words q c⟩ := by
        refine ⟨?_,?_,?_⟩
        · exact (erase_of_not (Tree.not_keys Cell.ptr hE fun p d hd he =>
            h.ok.sep hd hc (.inl he))).trans (h.host.node hc)
        · exact (erase_of_not (Tree.not_keys (fun c => c.node.children) hE fun p d hd he =>
            h.ok.sep hd hc (.inr (.inl he)))).trans (h.host.array hc)
        · exact (erase_of_not (Tree.not_keys (fun c => c.node.cpu) hE fun p d hd he =>
            h.ok.sep hd hc (.inr (.inr he)))).trans (h.stored.table hc)
      have hself (k : ℕ) : q ∉ D ∪ {p | ∃ i < k, p ∈ below (i :: q)} := by
        rintro (hm | ⟨i,-,hm⟩)
        · exact hqD hm
        · exact absurd hm.length_le (by simp)
      rw [hp] at hx ⊢
      simp only [hx, if_false]
      apply wp_loadNode (hkeys hqD).1
      simp only [h.host.children hc, if_false]
      apply wp_bind
      refine wp_mono (wp_forRange (fun k events t =>
        t = m.drop trusted T (D ∪ {p | ∃ i < k, p ∈ below (i :: q)})) _ (by simp) ?_) ?_
      · rintro k hk events _ rfl
        rw [h.host.count hc] at hk
        apply wp_loadChild (hkeys (hself k)).2.1 hk
        refine wp_mono (ih (q := k :: q) (by simp) (by simp; omega) (by simp; omega) ?_) ?_
        · rintro p (hp | ⟨i,hi,hp⟩) hb
          · exact hD p hp (mem_below_iff.mpr (.inr ⟨k,hb⟩))
          · exact absurd (below_disjoint hp hb) (by omega)
        · rintro _ _ _ ⟨rfl,-⟩
          apply Memory.drop_congr
          intro p _
          simp only [Set.mem_union, Set.mem_ofPred_eq, Nat.lt_succ_iff_lt_or_eq, or_and_right,
            exists_or, exists_eq_left, or_assoc]
      · rintro events _ _ rfl
        rw [h.host.count hc]
        obtain ⟨hnode,harr,htab⟩ := hkeys (hself (fanout q))
        apply wp_freeChildren harr
        apply wp_freeTable (t := ⟨c.node.phys,T.words q c⟩) (by exact htab)
        rintro _ rfl
        apply wp_freeNodeBlock (by exact hnode)
        rw [Memory.drop_union_singleton hc]
        have hfinal : m.drop trusted T (D ∪ {p | ∃ i < fanout q, p ∈ below (i :: q)} ∪ {q}) =
            m.drop trusted T (D ∪ below q) := by
          apply Memory.drop_congr
          intro p hp
          simp only [Set.mem_union, Set.mem_ofPred_eq, Set.mem_singleton_iff]
          rw [h.ok.mem_below (q := q) hp, or_assoc]
          exact or_congr_right or_comm
        rw [hfinal]
        refine ⟨rfl,fun hn => by simp [hc] at hn,fun _ =>
          ⟨⟨.freeNode c.ptr,(),m.drop trusted T (D ∪ below q)⟩,?_,rfl⟩⟩
        simp

open Classical in
/-- A tree without the positions of a set. -/
noncomputable def Tree.prune (T : Tree) (D : Set Path) : Tree := fun p => if p ∈ D then none else T p

namespace Tree

theorem prune_eq_some : T.prune D p = some c ↔ p ∉ D ∧ T p = some c := by
  unfold prune
  split_ifs with h <;> simp [h]

theorem prune_of_not (h : p ∉ D) : T.prune D p = T p := if_neg h

theorem prune_of_mem (h : p ∈ D) : T.prune D p = none := if_pos h

theorem ptr_prune (h : p ∉ D) : (T.prune D).ptr p = T.ptr p := by
  rw [ptr, prune_of_not h, ptr]

theorem entry_prune (h : p ∉ D) : (T.prune D).entry p = T.entry p := by
  rw [entry, prune_of_not h, entry]

/-- Outside a subtree that hangs off the L0 array, children stay outside. -/
theorem not_mem_below_cons {r : ℕ} (hp : p ≠ []) (h : p ∉ below [r]) : i :: p ∉ below [r] := by
  intro hi
  rcases List.suffix_cons_iff.mp hi with he | hs
  · exact hp (List.cons.inj he).2.symm
  · exact h hs

theorem Ok.prune (h : T.Ok) (r : ℕ) : (T.prune (below [r])).Ok where
  nil := by
    rw [prune_of_not, h.nil]
    intro hn
    exact absurd hn.length_le (by simp)
  parent {i p} hi := by
    obtain ⟨c,hc⟩ := Option.ne_none_iff_exists'.mp hi
    obtain ⟨hn,hc⟩ := prune_eq_some.mp hc
    have hp := h.parent (i := i) (p := p) (by simp [hc])
    refine ⟨hp.1,hp.2.1,fun hne => ?_⟩
    rw [prune_of_not fun hm => hn (mem_below_cons hm)]
    exact hp.2.2 hne
  sep hc hd he := h.sep (prune_eq_some.mp hc).2 (prune_eq_some.mp hd).2 he
  leaf i hc hl := h.leaf i (prune_eq_some.mp hc).2 hl

theorem mapping_prune (r : ℕ) : (T.prune (below [r])).mapping =
    fun s => if s.root = r then none else T.mapping s := by
  funext s
  have hs : s.leaf ∈ below [r] ↔ s.root = r := by
    change [r] <:+ _ ↔ _
    rw [List.suffix_iff_eq_drop, Slot.leaf]
    simpa using eq_comm
  unfold mapping prune
  by_cases hr : s.root = r <;> simp [hs, hr]

end Tree

/-- The invariant after one half of a context was freed and unlinked. -/
theorem Inv.prune (h : Inv trusted T m) {ctx select : ℕ} (hs : select < 2) :
    Inv trusted (T.prune (below [ctx*2+select])) { m.drop trusted T (below [ctx*2+select]) with
      l1 := update m.l1 (ctx,select) 0
      l0 := update m.l0 (ctx*2+select) 0#64 } where
  ok := h.ok.prune _
  host := by
    refine ⟨?_,?_,?_,?_,?_,?_⟩
    · intro ctx' select' hs'
      by_cases he : (ctx',select') = (ctx,select)
      · obtain ⟨rfl,rfl⟩ := Prod.mk.inj he
        simp [Tree.ptr, Tree.prune_of_mem mem_below_self]
      · have hne : [ctx'*2+select'] ∉ below [ctx*2+select] := by
          intro hm
          have hl := (List.cons.inj (hm.eq_of_length rfl)).1
          exact he (by rw [Prod.mk.injEq]; omega)
        rw [Tree.ptr_prune hne, ← h.host.l1 ctx' hs']
        simp [he]
    all_goals
      intro p c hc
      obtain ⟨hn,hc⟩ := Tree.prune_eq_some.mp hc
    · exact h.host.ptr hc
    · exact (erase_of_not (Tree.not_keys Cell.ptr hn fun p d hd he =>
        h.ok.sep hd hc (.inl he))).trans (h.host.node hc)
    · exact h.host.children hc
    · exact h.host.count hc
    · have hp : p ≠ [] := by rintro rfl; simp [h.ok.nil] at hc
      rw [funext fun i => Tree.ptr_prune (Tree.not_mem_below_cons (i := i) hp hn)]
      exact (erase_of_not (Tree.not_keys (fun c => c.node.children) hn fun p d hd he =>
        h.ok.sep hd hc (.inr (.inl he)))).trans (h.host.array hc)
  stored := by
    refine ⟨?_,?_⟩
    · funext slot
      by_cases he : slot = ctx*2+select
      · subst he
        simp [Tree.root, Tree.prune_of_mem mem_below_self]
      · have hne : [slot] ∉ below [ctx*2+select] := fun hm =>
          he (List.cons.inj (hm.eq_of_length rfl)).1.symm
        simp [he, Tree.root, Tree.prune_of_not hne, h.stored.l0]
    · intro p c hc
      obtain ⟨hn,hc⟩ := Tree.prune_eq_some.mp hc
      have hp : p ≠ [] := by rintro rfl; simp [h.ok.nil] at hc
      rw [Tree.words, funext fun i => Tree.entry_prune (Tree.not_mem_below_cons (i := i) hp hn)]
      exact (erase_of_not (Tree.not_keys (fun c => c.node.cpu) hn fun p d hd he =>
        h.ok.sep hd hc (.inr (.inr he)))).trans (h.stored.table hc)
  framed ht := by
    subst ht
    have hf := h.framed rfl
    refine ⟨fun hc => hf.phys (Tree.prune_eq_some.mp hc).2,fun {p c} hc => ?_⟩
    obtain ⟨hn,hc⟩ := Tree.prune_eq_some.mp hc
    refine (erase_of_not (Tree.not_keys (fun c => c.node.phys) hn fun p d hd he => ?_)).trans
      (hf.frame hc)
    have hcpu := (hf.frame hd).symm.trans (he ▸ hf.frame hc)
    exact h.ok.sep hd hc (.inr (.inr (Option.some.inj hcpu)))
  owns := by
    have keep {α : Type} (key : Cell → α) {x : α} (hx : ¬ T.Keys (below [ctx*2+select]) key x)
        (hc : ∃ p c, T p = some c ∧ key c = x) :
        ∃ p c, T.prune (below [ctx*2+select]) p = some c ∧ key c = x := by
      obtain ⟨p,c,hc,rfl⟩ := hc
      exact ⟨p,c,Tree.prune_eq_some.mpr ⟨fun hm => hx ⟨p,hm,c,hc,rfl⟩,hc⟩,rfl⟩
    refine ⟨fun hx => ?_,fun hx => ?_,fun hx => ?_⟩
    · exact keep Cell.ptr (erase_ne_none hx).1 (h.owns.node (erase_ne_none hx).2)
    · exact keep (fun c => c.node.children) (erase_ne_none hx).1
        (h.owns.array (erase_ne_none hx).2)
    · exact keep (fun c => c.node.cpu) (erase_ne_none hx).1
        (h.owns.table (erase_ne_none hx).2)

/-- A memory in the middle of a release: a root is freed but still linked. -/
def Torn (trusted : Bool) (s : Memory) : Prop :=
  ∃ T m slot, Inv trusted T m ∧ T [slot] ≠ none ∧ s = m.drop trusted T (below [slot])

/-- `agx_uat_free_node` on a root, then the two stores that unlink it. -/
theorem freeHalf_spec (h : Inv trusted T m) {ctxId : U32} (hc : ctxId.toNat < contextCount)
    {select : ℕ} (hs : select < 2) :
    wp (step trusted) (freeHalf ctxId select) (fun events _ u =>
      Inv trusted (T.prune (below [ctxId.toNat*2+select])) u ∧
      (T [ctxId.toNat*2+select] = none → u = m ∧ ∀ e ∈ events, e.state = m) ∧
      (T [ctxId.toNat*2+select] ≠ none → ∃ e ∈ events, Torn trusted e.state)) m := by
  unfold freeHalf
  apply wp_loadL1 hc hs
  rw [h.host.l1 _ hs]
  apply wp_bind
  have hfree := freeNode_spec h 4 (q := [ctxId.toNat*2+select]) (by simp) (by simp) (by simp)
    (D := ∅) (by simp)
  simp only [Memory.drop_empty, Set.empty_union] at hfree
  refine wp_mono hfree ?_
  rintro events _ _ ⟨rfl,hnone,hsome⟩
  apply wp_storeL1 hc hs
  change wp _ (storeL0 _ (ttbr 0#64 0#32) >>= ret) _ _
  have hsel : (BitVec.ofNat 32 select).toNat = select := by
    rw [BitVec.toNat_ofNat]
    omega
  rw [hsel, ttbr_zero]
  apply wp_storeL0 (by omega)
  refine ⟨h.prune hs,fun hn => ?_,fun hn => ?_⟩
  · have hdrop : m.drop trusted T (below [ctxId.toNat*2+select]) = m := by
      refine (Memory.drop_congr fun p hp => ?_).trans (Memory.drop_empty (T := T))
      have hb : p ∉ below [ctxId.toNat*2+select] := fun hb =>
        hp (h.ok.none_of_below (by simp) hn hb)
      simp [hb]
    have hl1 : update m.l1 (ctxId.toNat,select) 0 = m.l1 := by
      have := h.host.l1 ctxId.toNat hs
      rw [(Tree.ptr_eq_zero h.host).mpr hn] at this
      rw [← this, Function.update_eq_self]
    have hl0 : update m.l0 (ctxId.toNat*2+select) 0#64 = m.l0 := by
      have : m.l0 (ctxId.toNat*2+select) = 0#64 := by simp [h.stored.l0, Tree.root, hn]
      rw [← this, Function.update_eq_self]
    rw [hdrop, hl1, hl0, hnone hn]
    simp
  · obtain ⟨e,he,hu⟩ := hsome hn
    exact ⟨e,by simp [he],T,m,_,h,hn,hu⟩

/-- The context has a tree to free. -/
def Memory.Populated (m : Memory) (ctxId : U32) : Prop :=
  ctxId.toNat < contextCount ∧ (m.l1 (ctxId.toNat,0) ≠ 0 ∨ m.l1 (ctxId.toNat,1) ≠ 0)

instance (m : Memory) (ctxId : U32) : Decidable (m.Populated ctxId) :=
  inferInstanceAs (Decidable (_ ∧ _))

theorem freeContext_spec (h : Inv trusted T m) (ctxId : U32) :
    wp (step trusted) (freeContext ctxId) (fun events _ u =>
      (∃ T' : Tree, Inv trusted T' u ∧
        (Reply.done,T'.mapping) = (Call.freeContext ctxId).spec T.mapping (refused events)) ∧
      (¬ m.Populated ctxId → ∀ e ∈ events, e.state = m) ∧
      (m.Populated ctxId → ∃ e ∈ events, Torn trusted e.state)) m := by
  unfold freeContext
  split_ifs with hc
  · refine ⟨⟨T,h,?_⟩,by simp,fun hp => absurd hp.1 (by omega)⟩
    simp only [Call.spec, Prod.mk.injEq, true_and]
    funext s
    rw [if_neg]
    have := s.1.isLt
    omega
  · rw [not_le] at hc
    have hl1 {select : ℕ} (hs : select < 2) :
        m.l1 (ctxId.toNat,select) = 0 ↔ T [ctxId.toNat*2+select] = none := by
      rw [h.host.l1 _ hs, Tree.ptr_eq_zero h.host]
    change wp _ ((ret () >>= fun _ => freeHalf ctxId 0) >>= fun _ => freeHalf ctxId 1) _ _
    apply wp_bind
    refine wp_mono (freeHalf_spec h hc (by omega)) ?_
    rintro ev1 _ u1 ⟨h1,hn1,hs1⟩
    refine wp_mono (freeHalf_spec h1 hc (by omega)) ?_
    rintro ev2 _ u2 ⟨h2,hn2,hs2⟩
    have hother : T.prune (below [ctxId.toNat*2+0]) [ctxId.toNat*2+1] = T [ctxId.toNat*2+1] :=
      Tree.prune_of_not fun hm => absurd (List.cons.inj (hm.eq_of_length rfl)).1 (by omega)
    rw [hother] at hn2 hs2
    refine ⟨⟨_,h2,?_⟩,fun hp => ?_,fun hp => ?_⟩
    · simp only [Call.spec, Prod.mk.injEq, true_and, Tree.mapping_prune]
      funext s
      have := s.2.isLt
      unfold Slot.root
      split_ifs <;> first | rfl | omega
    · simp only [Memory.Populated, hc, true_and, not_or, not_not] at hp
      obtain ⟨rfl,he1⟩ := hn1 ((hl1 (by omega)).mp hp.1)
      obtain ⟨-,he2⟩ := hn2 ((hl1 (by omega)).mp hp.2)
      exact List.forall_mem_append.mpr ⟨he1,he2⟩
    · by_cases h0 : m.l1 (ctxId.toNat,0) = 0
      · have hp1 : m.l1 (ctxId.toNat,1) ≠ 0 := hp.2.resolve_left (not_not.mpr h0)
        obtain ⟨e,he,ht⟩ := hs2 (mt (hl1 (by omega)).mpr hp1)
        exact ⟨e,List.mem_append_right _ he,ht⟩
      · obtain ⟨e,he,ht⟩ := hs1 (mt (hl1 (by omega)).mpr h0)
        exact ⟨e,List.mem_append_left _ he,ht⟩

end AgxOpen.Uat
