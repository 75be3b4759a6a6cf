import AgxOpen.Program
import AgxOpen.Uat.Encoding

/-!
# The memory behind the page-table walker

Host structures (`struct agx_uat_node`, the child arrays, the `l1` array) and
hardware memory (the L0 array and 16 KB tables) side by side. An access to
something that is not live has no answer, so a run that never gets stuck is a
run without a dangling access, a double free or a free with the wrong size.
-/
namespace AgxOpen.Uat

/-- `struct agx_uat_node`. -/
structure Node where
  cpu : Ptr
  phys : U64
  children : Ptr
  childCount : U32
  deriving DecidableEq, Repr

/-- The `void *` array behind `children`, with the count it was allocated for. -/
structure Children where
  count : ℕ
  slots : ℕ → Ptr

/-- A hardware table: its physical address and its words. -/
structure Table where
  phys : U64
  words : ℕ → U64

/-- A 16 KB table holds 2048 words. -/
def tableWords : ℕ := 2048

structure Memory where
  l0 : ℕ → U64
  l1 : ℕ × ℕ → Ptr
  nodes : Ptr → Option Node
  arrays : Ptr → Option Children
  tables : Ptr → Option Table
  /-- The live table at a physical address, by its host address. -/
  frames : U64 → Option Ptr

/-- The table the hardware finds at a physical address. -/
def Memory.ram (m : Memory) (pa : U64) : Option Table := (m.frames pa).bind m.tables

/-- Host accesses, allocator callbacks and stores. The two sizes of bookkeeping
blocks, a node and a child array, have their own operations. -/
inductive Op
  | allocTable
  | freeTable (cpu : Ptr) (phys : U64)
  | allocNode
  | freeNode (node : Ptr)
  | allocChildren (count : ℕ)
  | freeChildren (children : Ptr) (count : ℕ)
  | loadL1 (ctx select : ℕ)
  | storeL1 (ctx select : ℕ) (node : Ptr)
  | storeL0 (slot : ℕ) (value : U64)
  | loadNode (node : Ptr)
  | storeNode (node : Ptr) (value : Node)
  | loadChild (children : Ptr) (idx : ℕ)
  | storeChild (children : Ptr) (idx : ℕ) (node : Ptr)
  | loadEntry (cpu : Ptr) (idx : ℕ)
  | storeEntry (cpu : Ptr) (idx : ℕ) (value : U64)
  /-- A call that cannot return. -/
  | fault

abbrev Res : Op → Type
  | .allocTable => Option (Ptr × U64)
  | .allocNode | .allocChildren _ | .loadL1 _ _ | .loadChild _ _ => Ptr
  | .loadNode _ => Node
  | .loadEntry _ _ => U64
  | _ => Unit

open Function (update)

/-- What each operation does, given its answer. With `trusted` set, `alloc_table`
returns an address that fits both encodings and that no live table has. -/
def step (trusted : Bool) (m : Memory) : (op : Op) → Res op → Option Memory
  | .allocTable, none => some m
  | .allocTable, some (cpu,phys) =>
    if (m.tables cpu).isNone ∧ (trusted → PhysOk phys ∧ (m.frames phys).isNone) then
      some { m with
        tables := update m.tables cpu (some ⟨phys,fun _ => 0#64⟩)
        frames := if trusted then update m.frames phys (some cpu) else m.frames }
    else none
  | .freeTable cpu phys, _ =>
    if (m.tables cpu).map Table.phys = some phys then
      some { m with
        tables := update m.tables cpu none
        frames := if trusted then update m.frames phys none else m.frames }
    else none
  | .allocNode, p =>
    if p = 0 then some m
    else if (m.nodes p).isNone ∧ (m.arrays p).isNone then
      some { m with nodes := update m.nodes p (some ⟨0,0#64,0,0#32⟩) }
    else none
  | .freeNode p, _ =>
    if (m.nodes p).isSome then some { m with nodes := update m.nodes p none } else none
  | .allocChildren count, p =>
    if p = 0 then some m
    else if (m.nodes p).isNone ∧ (m.arrays p).isNone then
      some { m with arrays := update m.arrays p (some ⟨count,fun _ => 0⟩) }
    else none
  | .freeChildren p count, _ =>
    if (m.arrays p).map Children.count = some count then
      some { m with arrays := update m.arrays p none }
    else none
  | .loadL1 ctx select, p =>
    if ctx < contextCount ∧ select < 2 ∧ m.l1 (ctx,select) = p then some m else none
  | .storeL1 ctx select p, _ =>
    if ctx < contextCount ∧ select < 2 then some { m with l1 := update m.l1 (ctx,select) p }
    else none
  | .storeL0 slot value, _ =>
    if slot < contextCount*2 then some { m with l0 := update m.l0 slot value } else none
  | .loadNode p, n => if m.nodes p = some n then some m else none
  | .storeNode p n, _ =>
    if (m.nodes p).isSome then some { m with nodes := update m.nodes p (some n) } else none
  | .loadChild p idx, child =>
    match m.arrays p with
    | some a => if idx < a.count ∧ a.slots idx = child then some m else none
    | none => none
  | .storeChild p idx child, _ =>
    match m.arrays p with
    | some a =>
      if idx < a.count then
        some { m with arrays := update m.arrays p (some ⟨a.count,update a.slots idx child⟩) }
      else none
    | none => none
  | .loadEntry cpu idx, value =>
    match m.tables cpu with
    | some t => if idx < tableWords ∧ t.words idx = value then some m else none
    | none => none
  | .storeEntry cpu idx value, _ =>
    match m.tables cpu with
    | some t =>
      if idx < tableWords then
        some { m with tables := update m.tables cpu (some ⟨t.phys,update t.words idx value⟩) }
      else none
    | none => none
  | .fault, _ => none

/-- The answer turns an allocation down. -/
def refusal : (op : Op) → Res op → Bool
  | .allocTable, none => true
  | .allocNode, p => p == 0
  | .allocChildren _, p => p == 0
  | _, _ => false

abbrev Trace := List (Event Op Res Memory)

/-- Some allocation of the run was refused. -/
def refused (events : Trace) : Bool := events.any fun e => refusal e.op e.answer

@[simp] theorem refused_nil : refused [] = false := rfl

@[simp] theorem refused_cons (op : Op) (r : Res op) (m : Memory) (events : Trace) :
    refused (⟨op,r,m⟩ :: events) = (refusal op r || refused events) := rfl

@[simp] theorem refused_append (before after : Trace) :
    refused (before ++ after) = (refused before || refused after) := List.any_append

/-- `agx_uat_init` over a given L0 array: nothing allocated, every root `NULL`. -/
def init (l0 : ℕ → U64) : Memory :=
  ⟨l0,fun _ => 0,fun _ => none,fun _ => none,fun _ => none,fun _ => none⟩

end AgxOpen.Uat
