import AgxOpen.ByteMemory
import AgxOpen.Concurrent
import AgxOpen.Handoff.Lock

/-!
# The handoff calls, access by access

`gfxhandoff.c` as programs over its ops and a memory of bytes, next to a
firmware. The environment says how many rounds of a wait loop a run shows. A
loop that goes on longer stays in its last round.
-/
namespace AgxOpen.Handoff

def offLockAp : ℕ := 0x10
def offLockFw : ℕ := 0x11
def offTurn : ℕ := 0x14
def flushIdle : U64 := 0#64
def flushBusy : U64 := 1#64
def flushDone : U64 := 2#64
def unmapTag : U64 := 0xdead000000000000#64
def unmapAddrMask : U64 := 0xffffffffffff#64

/-- The calls on a flush slot. -/
inductive FlushCall
  | prepareCacheflush (context : U32) (base size : U64)
  | waitCacheflush (context maxSpins : U32)
  | completeCacheflush (context : U32)
  | prepareUnmap (context : U32) (base size : U64)
  | completeUnmap (context : U32)

/-- Points of the run that the log records without any effect. -/
inductive Mark
  /-- `agx_handoff_wait_firmware` returned. -/
  | waited (ret : ℤ)
  | called (call : FlushCall)
  | returned (call : FlushCall) (ret : ℤ)

inductive Op
  | read8 (offset : ℕ)
  | write8 (offset : ℕ) (value : U8)
  | read32 (offset : ℕ)
  | write32 (offset : ℕ) (value : U32)
  | read64 (offset : ℕ)
  | write64 (offset : ℕ) (value : U64)
  | relax
  | barrier
  | setLocked (value : Bool)
  | setInitialized (value : Bool)
  | mark (m : Mark)
  /-- How many rounds of the next wait loop there are. -/
  | rounds
  /-- An operation that is never answered. -/
  | never
  /-- The firmware writes a byte that is not part of a slot. -/
  | fwWrite (offset : ℕ) (value : U8)
  /-- The firmware takes a slot from BUSY to DONE. -/
  | fwDone (slot : ℕ)

abbrev Res : Op → Type
  | .read8 _ => U8
  | .read32 _ => U32
  | .read64 _ => U64
  | .rounds => ℕ
  | .never => Empty
  | _ => Unit

/-- The shared structure and the two flags of `struct agx_handoff`. -/
structure Memory where
  bytes : Bytes
  locked : Bool
  initialized : Bool

namespace Memory

/-- The state word of a slot. -/
def slot (s : Memory) (k : ℕ) : U64 := s.bytes.load64 (offFlushState k)

def allows (s : Memory) : (op : Op) → Res op → Prop
  | .read8 offset, r => r = s.bytes offset
  | .read32 offset, r => r = BitVec.ofNat 32 (s.bytes.load offset 4)
  | .read64 offset, r => r = s.bytes.load64 offset
  | .fwWrite offset _, _ => offset < offFlush 0 ∨ offFlush flushSlots ≤ offset
  | .fwDone slot, _ => slot < flushSlots ∧ s.slot slot = flushBusy
  | _, _ => True

def after (s : Memory) : (op : Op) → Res op → Memory
  | .write8 offset value, _ => { s with bytes := s.bytes.store offset 1 value.toNat }
  | .write32 offset value, _ => { s with bytes := s.bytes.store offset 4 value.toNat }
  | .write64 offset value, _ => { s with bytes := s.bytes.store64 offset value }
  | .fwWrite offset value, _ => { s with bytes := s.bytes.store offset 1 value.toNat }
  | .fwDone slot, _ => { s with bytes := s.bytes.store64 (offFlushState slot) flushDone }
  | .setLocked value, _ => { s with locked := value }
  | .setInitialized value, _ => { s with initialized := value }
  | _, _ => s

def step (s : Memory) (op : Op) (r : Res op) (t : Memory) : Prop := s.allows op r ∧ t = s.after op r

end Memory

abbrev Prog := Program Op Res

def ask (op : Op) : Prog (Res op) := Program.request op

/-- A thread that does nothing any more. -/
def never {α : Type} : Prog α := .call .never fun r => r.elim

/-- The inner loop of `agx_handoff_lock`: the new count of spins, or nothing
when the limit is exceeded. -/
def pollTurn (maxSpins : U32) : ℕ → U32 → Prog (Option U32)
  | 0, _ => never
  | n+1, spins => do
    let turn ← ask (.read32 offTurn)
    if turn = 0#32 then return some spins
    else
      match spin maxSpins spins with
      | none => return none
      | some spins => do
        ask .relax
        pollTurn maxSpins n spins

/-- A round of the outer loop up to its own check of the limit. -/
def yieldTurn (maxSpins : U32) (n : ℕ) (spins : U32) : Prog (Option U32) := do
  let turn ← ask (.read32 offTurn)
  if turn = 0#32 then return some spins
  else do
    ask (.write8 offLockAp 0#8)
    ask .barrier
    let polled ← pollTurn maxSpins n spins
    match polled with
    | none => return none
    | some spins => do
      ask (.write8 offLockAp 1#8)
      ask .barrier
      return some spins

/-- The outer loop of `agx_handoff_lock`. -/
def lockLoop (maxSpins : U32) : ℕ → U32 → Prog ℤ
  | 0, _ => never
  | n+1, spins => do
    let fw ← ask (.read8 offLockFw)
    if fw = 0#8 then do
      ask .barrier
      ask (.setLocked true)
      return 0
    else do
      let yielded ← yieldTurn maxSpins n spins
      match yielded with
      | none => return Status.etimedout
      | some spins =>
        match spin maxSpins spins with
        | none => do
          ask (.write8 offLockAp 0#8)
          ask .barrier
          return Status.etimedout
        | some spins => do
          ask .relax
          lockLoop maxSpins n spins

def lock (maxSpins : U32) : Prog ℤ := do
  ask (.write8 offLockAp 1#8)
  ask .barrier
  let n ← ask .rounds
  lockLoop maxSpins n 0#32

def unlock : Prog Unit := do
  ask .barrier
  ask (.write32 offTurn 1#32)
  ask .barrier
  ask (.write8 offLockAp 0#8)
  ask .barrier
  ask (.setLocked false)

/-- The poll of `agx_handoff_wait_firmware`: the firmware's magic was seen. -/
def pollMagic (maxSpins : U32) : ℕ → U32 → Prog Bool
  | 0, _ => never
  | n+1, spins => do
    let seen ← ask (.read64 offMagicFw)
    if seen = magic then return true
    else
      match spin maxSpins spins with
      | none => return false
      | some spins => do
        ask .relax
        pollMagic maxSpins n spins

def clearSlot (slot : ℕ) : Prog Unit := do
  ask (.write64 (offFlushState slot) 0#64)
  ask (.write64 (offFlushAddr slot) 0#64)
  ask (.write64 (offFlushSize slot) 0#64)

def waitFirmware (maxSpins : U32) : Prog ℤ := do
  ask (.write64 offMagicAp magic)
  let ret ← lock maxSpins
  if ret ≠ 0 then return ret
  else do
    let n ← ask .rounds
    let seen ← pollMagic maxSpins n 0#32
    unlock
    if !seen then return Status.etimedout
    else do
      Program.forRange flushSlots clearSlot
      ask (.setInitialized true)
      return 0

/-- `agx_handoff_prepare_cacheflush` and `agx_handoff_prepare_unmap`, which
differ in the address word and in the state they leave. -/
def prepare (context : U32) (addr size state : U64) : Prog ℤ :=
  if flushSlots ≤ context.toNat then return Status.einval
  else do
    let found ← ask (.read64 (offFlushState context.toNat))
    if found ≠ 0#64 then return Status.einval
    else do
      ask (.write64 (offFlushAddr context.toNat) addr)
      ask (.write64 (offFlushSize context.toNat) size)
      ask (.write64 (offFlushState context.toNat) state)
      return 0

def prepareCacheflush (context : U32) (base size : U64) : Prog ℤ :=
  prepare context base size flushBusy

def prepareUnmap (context : U32) (base size : U64) : Prog ℤ :=
  prepare context (unmapTag ||| base &&& unmapAddrMask) size flushDone

def pollFlush (context maxSpins : U32) : ℕ → U32 → Prog ℤ
  | 0, _ => never
  | n+1, spins => do
    let found ← ask (.read64 (offFlushState context.toNat))
    if found ≠ flushBusy then return 0
    else
      match spin maxSpins spins with
      | none => return Status.etimedout
      | some spins => do
        ask .relax
        pollFlush context maxSpins n spins

def waitCacheflush (context maxSpins : U32) : Prog ℤ :=
  if flushSlots ≤ context.toNat then return Status.einval
  else do
    let n ← ask .rounds
    pollFlush context maxSpins n 0#32

/-- `agx_handoff_complete_cacheflush` and `agx_handoff_complete_unmap`. -/
def complete (context : U32) : Prog ℤ :=
  if flushSlots ≤ context.toNat then return Status.einval
  else do
    let found ← ask (.read64 (offFlushState context.toNat))
    if found ≠ flushDone then return Status.einval
    else do
      ask (.write64 (offFlushState context.toNat) 0#64)
      return 0

def completeCacheflush (context : U32) : Prog ℤ := complete context

def completeUnmap (context : U32) : Prog ℤ := complete context

def FlushCall.run : FlushCall → Prog ℤ
  | .prepareCacheflush context base size => Handoff.prepareCacheflush context base size
  | .waitCacheflush context maxSpins => Handoff.waitCacheflush context maxSpins
  | .completeCacheflush context => Handoff.completeCacheflush context
  | .prepareUnmap context base size => Handoff.prepareUnmap context base size
  | .completeUnmap context => Handoff.completeUnmap context

def FlushCall.context : FlushCall → U32
  | .prepareCacheflush context _ _ => context
  | .waitCacheflush context _ => context
  | .completeCacheflush context => context
  | .prepareUnmap context _ _ => context
  | .completeUnmap context => context

inductive Party
  | ap
  | firmware
  deriving DecidableEq

inductive Step
  | flush (call : FlushCall)
  | write (offset : ℕ) (value : U8)
  | done (slot : ℕ)

/-- The AP makes its calls behind a successful `agx_handoff_wait_firmware`. -/
def handshake (maxSpins : U32) : Prog Unit := do
  let ret ← waitFirmware maxSpins
  ask (.mark (.waited ret))
  if ret ≠ 0 then never else return ()

def program : Party → Step → Option (Prog Unit)
  | .ap, .flush call => some do
    ask (.mark (.called call))
    let ret ← call.run
    ask (.mark (.returned call ret))
  | .firmware, .write offset value => some (ask (.fwWrite offset value))
  | .firmware, .done slot => some (ask (.fwDone slot))
  | _, _ => none

/-- Any structure at first, with an AP behind `agx_handoff_init`. -/
def calls (maxSpins : U32) : Threads Party Op Res Memory Step where
  init s := s.locked = false ∧ s.initialized = false
  step := Memory.step
  first i := if i = .ap then handshake maxSpins else return ()
  program := program

end AgxOpen.Handoff
