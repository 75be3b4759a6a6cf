import AgxOpen.Uat.Memory

/-! The functions of `uat.c` as programs over the walker's memory. -/
namespace AgxOpen.Uat
open Program

abbrev UatProgram := Program Op Res

def allocTable : UatProgram (Option (Ptr × U64)) := request Op.allocTable
def freeTable (cpu : Ptr) (phys : U64) : UatProgram Unit := request (Op.freeTable cpu phys)
def allocNodeBlock : UatProgram Ptr := request Op.allocNode
def freeNodeBlock (node : Ptr) : UatProgram Unit := request (Op.freeNode node)
def allocChildren (count : ℕ) : UatProgram Ptr := request (Op.allocChildren count)
def freeChildren (children : Ptr) (count : ℕ) : UatProgram Unit :=
  request (Op.freeChildren children count)
def loadL1 (ctx select : ℕ) : UatProgram Ptr := request (Op.loadL1 ctx select)
def storeL1 (ctx select : ℕ) (node : Ptr) : UatProgram Unit := request (Op.storeL1 ctx select node)
def storeL0 (slot : ℕ) (value : U64) : UatProgram Unit := request (Op.storeL0 slot value)
def loadNode (node : Ptr) : UatProgram Node := request (Op.loadNode node)
def storeNode (node : Ptr) (value : Node) : UatProgram Unit := request (Op.storeNode node value)
def loadChild (children : Ptr) (idx : ℕ) : UatProgram Ptr := request (Op.loadChild children idx)
def storeChild (children : Ptr) (idx : ℕ) (node : Ptr) : UatProgram Unit :=
  request (Op.storeChild children idx node)
def loadEntry (cpu : Ptr) (idx : ℕ) : UatProgram U64 := request (Op.loadEntry cpu idx)
def storeEntry (cpu : Ptr) (idx : ℕ) (value : U64) : UatProgram Unit :=
  request (Op.storeEntry cpu idx value)
def fault : UatProgram Unit := request Op.fault

def l0Write (ctxId select : U32) (phys : U64) (asid : U32) : UatProgram Unit :=
  storeL0 (ctxId.toNat*2+select.toNat) (ttbr phys asid)

/-- The first store is what `alloc_table` fills in of the zero-filled node. -/
def newNode (childCount : U32) : UatProgram Ptr := do
  let node ← allocNodeBlock
  if node = 0 then return 0
  else match ← allocTable with
    | none => do
      freeNodeBlock node
      return 0
    | some (cpu,phys) => do
      storeNode node ⟨cpu,phys,0,0#32⟩
      storeNode node ⟨cpu,phys,0,childCount⟩
      if childCount = 0#32 then return node
      else do
        let children ← allocChildren childCount.toNat
        storeNode node ⟨cpu,phys,children,childCount⟩
        if children = 0 then do
          freeTable cpu phys
          freeNodeBlock node
          return 0
        else return node

/-- The recursion of `agx_uat_free_node`. The source bounds its depth by the
tree alone; here a call below `fuel` levels cannot return. -/
def freeNode : ℕ → Ptr → UatProgram Unit
  | 0, _ => fault
  | fuel+1, node =>
    if node = 0 then return ()
    else do
      let n ← loadNode node
      if n.children = 0 then do
        freeTable n.cpu n.phys
        freeNodeBlock node
      else do
        forRange n.childCount.toNat fun i => do
          let child ← loadChild n.children i
          freeNode fuel child
        freeChildren n.children n.childCount.toNat
        freeTable n.cpu n.phys
        freeNodeBlock node

def l1 (ctxId select : U32) (create : Bool) (asid : U32) : UatProgram Ptr := do
  let node ← loadL1 ctxId.toNat select.toNat
  if node ≠ 0 ∨ create = false then return node
  else do
    let node ← newNode (BitVec.ofNat 32 l1Count)
    if node = 0 then return 0
    else do
      storeL1 ctxId.toNat select.toNat node
      let n ← loadNode node
      l0Write ctxId select n.phys asid
      return node

def child (parent : Ptr) (idx childCount : U32) (create : Bool) : UatProgram Ptr := do
  let n ← loadNode parent
  let node ← loadChild n.children idx.toNat
  if node ≠ 0 ∨ create = false then return node
  else do
    let node ← newNode childCount
    if node = 0 then return 0
    else do
      storeChild n.children idx.toNat node
      let c ← loadNode node
      storeEntry n.cpu idx.toNat (tablePte c.phys)
      return node

def mapPage (ctxId : U32) (iova phys flags : U64) : UatProgram ℤ :=
  if contextCount ≤ ctxId.toNat then return Status.einval
  else if pageOffset iova ≠ 0#64 ∨ pageOffset phys ≠ 0#64 then return Status.einval
  else if vaLimit ≤ iova then return Status.einval
  else do
    let l1 ← l1 ctxId (ttbrSelect iova) true ctxId
    if l1 = 0 then return Status.enomem
    else do
      let l2 ← child l1 (l1Index iova) (BitVec.ofNat 32 l2Count) true
      if l2 = 0 then return Status.enomem
      else do
        let l3 ← child l2 (l2Index iova) (BitVec.ofNat 32 l3Count) true
        if l3 = 0 then return Status.enomem
        else do
          let n ← loadNode l3
          storeEntry n.cpu (l3Index iova).toNat (pte phys (flags ||| pteValid))
          return Status.ok

/-- The value and the `valid` flag that `agx_uat_lookup` returns. -/
def lookup (ctxId : U32) (iova : U64) : UatProgram (U64 × Bool) :=
  if contextCount ≤ ctxId.toNat ∨ vaLimit ≤ iova then return (0#64,false)
  else do
    let l1 ← l1 ctxId (ttbrSelect iova) false 0#32
    if l1 = 0 then return (0#64,false)
    else do
      let l2 ← child l1 (l1Index iova) 0#32 false
      if l2 = 0 then return (0#64,false)
      else do
        let l3 ← child l2 (l2Index iova) 0#32 false
        if l3 = 0 then return (0#64,false)
        else do
          let n ← loadNode l3
          let entry ← loadEntry n.cpu (l3Index iova).toNat
          return (ptePhys entry,isValid entry)

def unmapPage (ctxId : U32) (iova : U64) : UatProgram ℤ :=
  if contextCount ≤ ctxId.toNat ∨ vaLimit ≤ iova then return Status.einval
  else do
    let l1 ← l1 ctxId (ttbrSelect iova) false 0#32
    if l1 = 0 then return Status.enodata
    else do
      let l2 ← child l1 (l1Index iova) 0#32 false
      if l2 = 0 then return Status.enodata
      else do
        let l3 ← child l2 (l2Index iova) 0#32 false
        if l3 = 0 then return Status.enodata
        else do
          let n ← loadNode l3
          let entry ← loadEntry n.cpu (l3Index iova).toNat
          if isValid entry = false then return Status.enodata
          else do
            storeEntry n.cpu (l3Index iova).toNat 0#64
            return Status.ok

/-- One half of a context: free its tree, then unlink it. -/
def freeHalf (ctxId : U32) (select : ℕ) : UatProgram Unit := do
  let node ← loadL1 ctxId.toNat select
  freeNode 4 node
  storeL1 ctxId.toNat select 0
  l0Write ctxId (BitVec.ofNat 32 select) 0#64 0#32

def freeContext (ctxId : U32) : UatProgram Unit :=
  if contextCount ≤ ctxId.toNat then return ()
  else forRange 2 (freeHalf ctxId)

inductive Call
  | mapPage (ctxId : U32) (iova phys flags : U64)
  | unmapPage (ctxId : U32) (iova : U64)
  | lookup (ctxId : U32) (iova : U64)
  | freeContext (ctxId : U32)

inductive Reply
  | status (code : ℤ)
  | found (phys : U64) (valid : Bool)
  | done
  deriving DecidableEq, Repr

def Call.program : Call → UatProgram Reply
  | .mapPage ctxId iova phys flags => do return .status (← Uat.mapPage ctxId iova phys flags)
  | .unmapPage ctxId iova => do return .status (← Uat.unmapPage ctxId iova)
  | .lookup ctxId iova => do
    let r ← Uat.lookup ctxId iova
    return .found r.1 r.2
  | .freeContext ctxId => do
    Uat.freeContext ctxId
    return .done

/-- A completed call. -/
structure Done where
  call : Call
  events : Trace
  reply : Reply

/-- Finite sequences of completed calls, each from the state the last one left. -/
inductive Run (trusted : Bool) : Memory → List Done → Memory → Prop
  | nil (m : Memory) : Run trusted m [] m
  | cons {m m' m'' : Memory} {c : Call} {events : Trace} {r : Reply} {rest : List Done}
      (h : Exec (step trusted) c.program m events r m') (tail : Run trusted m' rest m'') :
      Run trusted m (⟨c,events,r⟩ :: rest) m''

/-- The states reached from `agx_uat_init` on a zeroed L0 array. -/
def Reached (trusted : Bool) (m : Memory) : Prop :=
  ∃ calls, Run trusted (init fun _ => 0#64) calls m

end AgxOpen.Uat
