import AgxOpen.Uat.Rules
import AgxOpen.Uat.Mapping

/-!
# The tree behind the memory

A tree assigns a cell to every position that has a node. It fixes the contents
of the host structures, of the L0 array and of every table word, so that the
mapping is read from the tree alone.
-/
namespace AgxOpen.Uat
open Function (update)

/-- A node with the words of its table, which count in a leaf only. -/
structure Cell where
  ptr : Ptr
  node : Node
  data : ℕ → U64

abbrev Tree := Path → Option Cell

/-- The number of positions below a position. -/
def fanout (p : Path) : ℕ :=
  match p.length with
  | 0 => contextCount*2
  | 1 => l1Count
  | _ => l2Count

theorem fanout_le {p : Path} (h : p ≠ []) : fanout p ≤ tableWords := by
  unfold fanout tableWords l1Count l2Count
  split
  · simp_all
  · omega
  · omega

namespace Tree
variable (T : Tree)

def ptr (p : Path) : Ptr := ((T p).map Cell.ptr).getD 0

def entry (p : Path) : U64 := ((T p).map fun c => tablePte c.node.phys).getD 0#64

def root (slot : ℕ) : U64 :=
  ((T [slot]).map fun c => ttbr c.node.phys (BitVec.ofNat 32 (slot/2))).getD 0#64

def words (p : Path) (c : Cell) : ℕ → U64 :=
  if p.length = 3 then c.data else fun i => T.entry (i :: p)

/-- The mapping that the leaf tables hold. -/
def mapping : Mapping := fun s => (T s.leaf).bind fun c =>
  if isValid (c.data s.index3) = true then some (ptePhys (c.data s.index3)) else none

/-- The shape of a tree: nothing shared, nothing detached, and leaf words that
are zero or valid. -/
structure Ok : Prop where
  nil : T [] = none
  parent {i : ℕ} {p : Path} : T (i :: p) ≠ none →
    p.length < 3 ∧ i < fanout p ∧ (p ≠ [] → T p ≠ none)
  sep {p q : Path} {c d : Cell} : T p = some c → T q = some d →
    c.ptr = d.ptr ∨ c.node.children = d.node.children ∨ c.node.cpu = d.node.cpu → p = q
  leaf {p : Path} {c : Cell} (i : ℕ) : T p = some c → p.length = 3 →
    c.data i = 0#64 ∨ isValid (c.data i) = true

/-- The host structures: the `l1` array, the nodes and their child arrays. -/
structure Host (m : Memory) : Prop where
  l1 (ctx : ℕ) {select : ℕ} : select < 2 → m.l1 (ctx,select) = T.ptr [ctx*2+select]
  ptr {p : Path} {c : Cell} : T p = some c → c.ptr ≠ 0
  node {p : Path} {c : Cell} : T p = some c → m.nodes c.ptr = some c.node
  children {p : Path} {c : Cell} : T p = some c → c.node.children ≠ 0
  count {p : Path} {c : Cell} : T p = some c → c.node.childCount.toNat = fanout p
  array {p : Path} {c : Cell} : T p = some c →
    m.arrays c.node.children = some ⟨fanout p,fun i => T.ptr (i :: p)⟩

/-- The words in memory: the L0 array and the tables. -/
structure Stored (m : Memory) : Prop where
  l0 : m.l0 = T.root
  table {p : Path} {c : Cell} : T p = some c →
    m.tables c.node.cpu = some ⟨c.node.phys,T.words p c⟩

/-- The physical addresses: every entry can name its table, and the table is
found there. -/
structure Framed (m : Memory) : Prop where
  phys {p : Path} {c : Cell} : T p = some c → PhysOk c.node.phys
  frame {p : Path} {c : Cell} : T p = some c → m.frames c.node.phys = some c.node.cpu

/-- Whatever is live belongs to the tree. -/
structure Owns (m : Memory) : Prop where
  node {x : Ptr} : m.nodes x ≠ none → ∃ p c, T p = some c ∧ c.ptr = x
  array {x : Ptr} : m.arrays x ≠ none → ∃ p c, T p = some c ∧ c.node.children = x
  table {x : Ptr} : m.tables x ≠ none → ∃ p c, T p = some c ∧ c.node.cpu = x

end Tree

/-- The memory is exactly the tree. -/
structure Inv (trusted : Bool) (T : Tree) (m : Memory) : Prop where
  ok : T.Ok
  host : T.Host m
  stored : T.Stored m
  framed : trusted = true → T.Framed m
  owns : T.Owns m

/-- The hardware tables of the memory, walked from the L0 array, hold a mapping. -/
def Shows (m : Memory) (M : Mapping) : Prop :=
  ∃ T : Tree, T.Ok ∧ T.Stored m ∧ T.Framed m ∧ T.mapping = M

theorem Inv.shows {T : Tree} {m : Memory} (h : Inv true T m) : Shows m T.mapping :=
  ⟨T,h.ok,h.stored,h.framed rfl,rfl⟩

/-- The states of a run show one mapping first and another one afterwards. -/
def Switches (M M' : Mapping) (events : Trace) : Prop :=
  ∃ before after, events = before ++ after ∧ (∀ e ∈ before, Shows e.state M) ∧
    ∀ e ∈ after, Shows e.state M'

/-- The empty tree is the memory behind `agx_uat_init`. -/
theorem inv_init (trusted : Bool) : Inv trusted (fun _ => none) (init fun _ => 0#64) := by
  refine ⟨⟨?_,?_,?_,?_⟩,⟨?_,?_,?_,?_,?_,?_⟩,⟨?_,?_⟩,fun _ => ⟨?_,?_⟩,⟨?_,?_,?_⟩⟩
  all_goals simp [init, Tree.ptr, Tree.root, funext_iff]

/-- One partial function is part of another. -/
def Included {α β : Type} (f g : α → Option β) : Prop := ∀ x v, f x = some v → g x = some v

theorem Included.refl {α β : Type} (f : α → Option β) : Included f f := fun _ _ h => h

theorem Included.update {α β : Type} [DecidableEq α] {f g : α → Option β} {x : α}
    (h : Included f g) (hx : f x = none) (v : Option β) : Included f (update g x v) := by
  intro y w hy
  have hne : y ≠ x := by rintro rfl; simp [hx] at hy
  rw [Function.update_of_ne hne]
  exact h y w hy

/-- Everything that was live is live and unchanged. -/
structure Extends (m s : Memory) : Prop where
  l0 : s.l0 = m.l0
  l1 : s.l1 = m.l1
  nodes : Included m.nodes s.nodes
  arrays : Included m.arrays s.arrays
  tables : Included m.tables s.tables
  frames : Included m.frames s.frames

theorem Extends.refl (m : Memory) : Extends m m :=
  ⟨rfl,rfl,.refl _,.refl _,.refl _,.refl _⟩

namespace Tree
variable {T : Tree} {m s : Memory}

theorem Stored.mono (h : T.Stored m) (he : Extends m s) : T.Stored s :=
  ⟨he.l0.trans h.l0,fun hc => he.tables _ _ (h.table hc)⟩

theorem Framed.mono (h : T.Framed m) (he : Extends m s) : T.Framed s :=
  ⟨h.phys,fun hc => he.frames _ _ (h.frame hc)⟩

end Tree

/-- Host structures do not show. -/
theorem Shows.congr {m s : Memory} {M : Mapping} (h : Shows m M) (h0 : s.l0 = m.l0)
    (ht : s.tables = m.tables) (hf : s.frames = m.frames) : Shows s M := by
  obtain ⟨T,hok,hs,hr,rfl⟩ := h
  exact ⟨T,hok,⟨h0.trans hs.l0,fun hc => ht ▸ hs.table hc⟩,
    ⟨hr.phys,fun hc => hf ▸ hr.frame hc⟩,rfl⟩

theorem Shows.mono {m s : Memory} {M : Mapping} (h : Shows m M) (he : Extends m s) :
    Shows s M := by
  obtain ⟨T,hok,hs,hf,rfl⟩ := h
  exact ⟨T,hok,hs.mono he,hf.mono he,rfl⟩

end AgxOpen.Uat
