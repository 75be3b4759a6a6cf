import AgxOpen.Transition
import AgxOpen.Types

/-!
# The handoff lock, one memory access at a time

`agx_handoff_lock`, `agx_handoff_unlock` and `agx_handoff_wait_firmware` against
the mirrored routine of the firmware. A program counter stands for the next
access, and the branches between two accesses belong to the step of the first.
Barriers and `relax` access nothing and make no step.
-/
namespace AgxOpen.Handoff
open Function (update)

def magic : U64 := 0x4b1d000000000002#64
def offMagicAp : ℕ := 0x00
def offMagicFw : ℕ := 0x08
def offFlush (ctx : ℕ) : ℕ := 0x20+0x18*ctx
def offFlushState (ctx : ℕ) : ℕ := offFlush ctx
def offFlushAddr (ctx : ℕ) : ℕ := offFlush ctx+0x08
def offFlushSize (ctx : ℕ) : ℕ := offFlush ctx+0x10
def flushSlots : ℕ := 0x41

/-- The words of the clearing loop in order: state, address and size of each slot. -/
def flushWord (i : ℕ) : ℕ :=
  match i % 3 with
  | 0 => offFlushState (i/3)
  | 1 => offFlushAddr (i/3)
  | _ => offFlushSize (i/3)

/-- The shared structure: both lock bytes, the turn and the 64-bit words. -/
structure Shared where
  lockAp : U8
  lockFw : U8
  turn : U32
  word : ℕ → U64

inductive ApPc
  /-- No call is running and the lock is not held. -/
  | idle
  /-- `agx_handoff_wait_firmware` writes its magic. -/
  | magicAp
  /-- `agx_handoff_lock`, access by access. -/
  | raise | readFw | readTurn | withdraw | pollTurn | reraise | giveUp
  /-- `agx_handoff_lock` has returned 0 to its caller. -/
  | critical
  /-- `agx_handoff_wait_firmware` holds the lock and polls. -/
  | pollMagic
  | unlockTurn | unlockFlag
  /-- The stores of the clearing loop. -/
  | clear (i : ℕ)
  deriving DecidableEq, Repr

structure Ap where
  pc : ApPc
  maxSpins : U32
  spins : U32
  /-- The running call is `agx_handoff_wait_firmware`, with its own `spins`. -/
  waiting : Bool
  waitSpins : U32
  /-- What the running call is about to return, or the last one returned. -/
  ret : ℤ
  locked : Bool
  initialized : Bool
  deriving DecidableEq, Repr

/-- `if (max_spins && ++spins > max_spins)`: the new count, or nothing when the
limit is exceeded. -/
def spin (maxSpins spins : U32) : Option U32 :=
  if maxSpins = 0#32 then some spins
  else if maxSpins < spins+1 then none else some (spins+1)

namespace Ap

/-- `agx_handoff_lock` returns an error, and so does a caller within the driver. -/
def leave (a : Ap) (ret : ℤ) : Ap := { a with pc := .idle, waiting := false, ret := ret }

/-- `agx_handoff_lock` returns 0. -/
def enter (a : Ap) : Ap :=
  if a.waiting then { a with pc := .pollMagic, locked := true, waitSpins := 0#32 }
  else { a with pc := .critical, locked := true, ret := Status.ok }

/-- The end of an iteration of the outer loop. -/
def again (a : Ap) : Ap :=
  match spin a.maxSpins a.spins with
  | none => { a with pc := .giveUp }
  | some spins => { a with pc := .readFw, spins := spins }

/-- The next access of the running call. -/
def step (m : Shared) (a : Ap) : Option (Shared × Ap) :=
  match a.pc with
  | .idle | .critical => none
  | .magicAp => some ({ m with word := update m.word offMagicAp magic },
      { a with pc := .raise, spins := 0#32 })
  | .raise => some ({ m with lockAp := 1#8 },{ a with pc := .readFw })
  | .readFw => some (m,if m.lockFw ≠ 0#8 then { a with pc := .readTurn } else a.enter)
  | .readTurn => some (m,if m.turn ≠ 0#32 then { a with pc := .withdraw } else a.again)
  | .withdraw => some ({ m with lockAp := 0#8 },{ a with pc := .pollTurn })
  | .pollTurn => some (m,
      if m.turn ≠ 0#32 then
        match spin a.maxSpins a.spins with
        | none => a.leave Status.etimedout
        | some spins => { a with spins := spins }
      else { a with pc := .reraise })
  | .reraise => some ({ m with lockAp := 1#8 },a.again)
  | .giveUp => some ({ m with lockAp := 0#8 },a.leave Status.etimedout)
  | .pollMagic => some (m,
      if m.word offMagicFw ≠ magic then
        match spin a.maxSpins a.waitSpins with
        | none => { a with pc := .unlockTurn, ret := Status.etimedout }
        | some spins => { a with waitSpins := spins }
      else { a with pc := .unlockTurn, ret := Status.ok })
  | .unlockTurn => some ({ m with turn := 1#32 },{ a with pc := .unlockFlag })
  | .unlockFlag => some ({ m with lockAp := 0#8 },
      if a.waiting ∧ a.ret = Status.ok then { a with pc := .clear 0, locked := false }
      else { a with pc := .idle, waiting := false, locked := false })
  | .clear i => some ({ m with word := update m.word (flushWord i) 0#64 },
      if i+1 < 3*flushSlots then { a with pc := .clear (i+1) }
      else { a with pc := .idle, waiting := false, initialized := true })

end Ap

inductive ApCall
  | lock (maxSpins : U32)
  | unlock
  | waitFirmware (maxSpins : U32)
  deriving DecidableEq, Repr

/-- Calls from outside: the lock is taken when it is not held and released when
it is. -/
def Ap.start (a : Ap) : ApCall → Option Ap
  | .lock maxSpins =>
    if a.pc = .idle then some { a with
      pc := .raise
      maxSpins := maxSpins
      spins := 0#32
      waiting := false } else none
  | .unlock => if a.pc = .critical then some { a with pc := .unlockTurn } else none
  | .waitFirmware maxSpins =>
    if a.pc = .idle then some { a with
      pc := .magicAp
      maxSpins := maxSpins
      waiting := true
      ret := Status.ok } else none

/-- `agx_handoff_init`. -/
def Ap.init : Ap := ⟨.idle,0#32,0#32,false,0#32,Status.ok,false,false⟩

inductive FwPc
  | idle
  | raise | readAp | readTurn | withdraw | pollTurn | reraise
  | critical
  | unlockTurn | unlockFlag
  deriving DecidableEq, Repr

/-- The mirrored lock and unlock routine. -/
def FwPc.step (m : Shared) : FwPc → Option (Shared × FwPc)
  | .idle | .critical => none
  | .raise => some ({ m with lockFw := 1#8 },.readAp)
  | .readAp => some (m,if m.lockAp ≠ 0#8 then .readTurn else .critical)
  | .readTurn => some (m,if m.turn = 0#32 then .withdraw else .readAp)
  | .withdraw => some ({ m with lockFw := 0#8 },.pollTurn)
  | .pollTurn => some (m,if m.turn = 0#32 then .pollTurn else .reraise)
  | .reraise => some ({ m with lockFw := 1#8 },.readAp)
  | .unlockTurn => some ({ m with turn := 0#32 },.unlockFlag)
  | .unlockFlag => some ({ m with lockFw := 0#8 },.idle)

structure State where
  mem : Shared
  ap : Ap
  fw : FwPc

inductive Label
  | call (c : ApCall)
  | ap
  | fwLock
  | fwUnlock
  | fw
  /-- The firmware writes one of the 64-bit words, such as its magic. -/
  | fwWord (off : ℕ) (value : U64)
  deriving DecidableEq, Repr

def next (s : State) : Label → Option State
  | .call c => (s.ap.start c).map fun a => { s with ap := a }
  | .ap => (s.ap.step s.mem).map fun r => { s with mem := r.1, ap := r.2 }
  | .fwLock => if s.fw = .idle then some { s with fw := .raise } else none
  | .fwUnlock => if s.fw = .critical then some { s with fw := .unlockTurn } else none
  | .fw => (s.fw.step s.mem).map fun r => { s with mem := r.1, fw := r.2 }
  | .fwWord off value => some { s with mem := { s.mem with word := update s.mem.word off value } }

/-- Both lock bytes are 0. The turn and the words are arbitrary. -/
def Initial (s : State) : Prop :=
  s.mem.lockAp = 0#8 ∧ s.mem.lockFw = 0#8 ∧ s.ap = Ap.init ∧ s.fw = .idle

def system : System State Label := ⟨Initial,next⟩

/-- A cleared structure with a given turn. -/
def start (turn : U32) : State := ⟨⟨0#8,0#8,turn,fun _ => 0#64⟩,Ap.init,.idle⟩

theorem start_reachable (turn : U32) : system.Reachable (start turn) := .init ⟨rfl,rfl,rfl,rfl⟩

end AgxOpen.Handoff
