import AgxOpen.WriteBuffer
import AgxOpen.Handoff.Calls

/-!
# The handoff over a bus without an order of its own

Every write of the AP is in flight until the bus delivers it. Only the barrier
callback and the address of a write keep it behind others. The firmware reads
and writes the memory itself. Each field has one width, so the memory is a word
for each offset, and each word keeps the call it was written by. The flags of
`struct agx_handoff` are the AP's own and no call reads them.
-/
namespace AgxOpen.Handoff

deriving instance DecidableEq for FlushCall

/-- A word and the call on a slot that was running when it was written. -/
structure Cell where
  value : U64
  source : Option FlushCall

structure Bus where
  buffer : WriteBuffer ℕ Cell
  calling : Option FlushCall

inductive BusOp
  /-- An operation of the AP. -/
  | code (op : Op)
  /-- The write or barrier at this place of the queue arrives. -/
  | deliver (place : ℕ)
  /-- The firmware writes a word that is not part of a slot. -/
  | fwWrite (offset : ℕ) (value : U64)
  /-- The firmware takes a slot from BUSY to DONE. -/
  | fwDone (slot : ℕ)

abbrev BusRes : BusOp → Type
  | .code op => Res op
  | _ => Unit

namespace Bus

/-- The word the firmware reads. -/
def word (s : Bus) (offset : ℕ) : U64 := (s.buffer.memory offset).value

/-- The word the AP reads: its own last write, if that is still in flight. -/
def sees (s : Bus) (offset : ℕ) : U64 := (s.buffer.settled offset).value

def write (s : Bus) (offset : ℕ) (value : U64) : Bus :=
  { s with buffer := s.buffer.issue offset ⟨value,s.calling⟩ }

def allows (s : Bus) : (op : Op) → Res op → Prop
  | .read8 offset, r => r = (s.sees offset).setWidth 8
  | .read32 offset, r => r = (s.sees offset).setWidth 32
  | .read64 offset, r => r = s.sees offset
  | .fwWrite .., _ | .fwDone _, _ => False
  | _, _ => True

def after (s : Bus) : Op → Bus
  | .write8 offset value => s.write offset (value.setWidth 64)
  | .write32 offset value => s.write offset (value.setWidth 64)
  | .write64 offset value => s.write offset value
  | .barrier => { s with buffer := s.buffer.fence }
  | .mark (.called call) => { s with calling := some call }
  | .mark (.returned ..) => { s with calling := none }
  | _ => s

def step (s : Bus) : (op : BusOp) → BusRes op → Bus → Prop
  | .code op, r, t => s.allows op r ∧ t = s.after op
  | .deliver place, _, t => ∃ older x newer c, older.length = place ∧
      s.buffer.Delivers older x newer c ∧ t = { s with buffer := c }
  | .fwWrite offset value, _, t => (offset < offFlush 0 ∨ offFlush flushSlots ≤ offset) ∧
      t = { s with buffer := s.buffer.set offset ⟨value,none⟩ }
  | .fwDone slot, _, t => slot < flushSlots ∧ s.word (offFlushState slot) = flushBusy ∧
      t = { s with buffer := s.buffer.set (offFlushState slot) ⟨flushDone,none⟩ }

end Bus

inductive Agent
  | ap
  | bus
  | firmware
  deriving DecidableEq

inductive BusCall
  | flush (call : FlushCall)
  | lock (maxSpins : U32)
  | unlock
  | waitFirmware (maxSpins : U32)
  | deliver (place : ℕ)
  | write (offset : ℕ) (value : U64)
  | done (slot : ℕ)

/-- A call of the AP, every operation of it on the bus. -/
def onBus {α : Type} (p : Prog α) : Program BusOp BusRes α := p.interp fun op => Program.request (BusOp.code op)

/-- The AP makes any of its calls at any time. -/
def apProgram : BusCall → Option (Prog Unit)
  | .flush call => program .ap (.flush call)
  | .lock maxSpins => some (lock maxSpins >>= fun _ => return ())
  | .unlock => some unlock
  | .waitFirmware maxSpins => some (waitFirmware maxSpins >>= fun _ => return ())
  | _ => none

def busProgram : Agent → BusCall → Option (Program BusOp BusRes Unit)
  | .ap, call => (apProgram call).map onBus
  | .bus, .deliver place => some (Program.request (BusOp.deliver place))
  | .firmware, .write offset value => some (Program.request (BusOp.fwWrite offset value))
  | .firmware, .done slot => some (Program.request (BusOp.fwDone slot))
  | _, _ => none

/-- Any words at first, with nothing in flight. -/
def bus : Threads Agent BusOp BusRes Bus BusCall where
  init s := s.buffer.flight = [] ∧ s.calling = none ∧ ∀ offset, (s.buffer.memory offset).source = none
  step := Bus.step
  first _ := return ()
  program := busProgram

/-- The state, the address and the size word of a request. -/
def FlushCall.request : FlushCall → Option (U64 × U64 × U64)
  | .prepareCacheflush _ base size => some (flushBusy,base,size)
  | .prepareUnmap _ base size => some (flushDone,unmapTag ||| base &&& unmapAddrMask,size)
  | _ => none

/-- A slot that the firmware finds BUSY or DONE by a request shows it all of the request. -/
structure Published (s : Bus) (slot : ℕ) : Prop where
  flush : ∀ context base size, s.word (offFlushState slot) = flushBusy →
    (s.buffer.memory (offFlushState slot)).source = some (.prepareCacheflush context base size) →
      s.word (offFlushAddr slot) = base ∧ s.word (offFlushSize slot) = size
  unmap : ∀ context base size, s.word (offFlushState slot) = flushDone →
    (s.buffer.memory (offFlushState slot)).source = some (.prepareUnmap context base size) →
      s.word (offFlushAddr slot) = unmapTag ||| base &&& unmapAddrMask ∧
        s.word (offFlushSize slot) = size

/-- One of the words is the state of a slot, the other its address or size. -/
def Swaps (offset offset' : ℕ) : Prop := ∃ slot < flushSlots,
  offset = offFlushState slot ∧ (offset' = offFlushAddr slot ∨ offset' = offFlushSize slot) ∨
  (offset = offFlushAddr slot ∨ offset = offFlushSize slot) ∧ offset' = offFlushState slot

instance (offset offset' : ℕ) : Decidable (Swaps offset offset') :=
  inferInstanceAs (Decidable (∃ slot < flushSlots, _))

/-- A write to a slot's state and one to its address or size. -/
def Tears : Flight ℕ Cell → Flight ℕ Cell → Prop
  | .write offset _, .write offset' _ => Swaps offset offset'
  | _, _ => False

instance (y x : Flight ℕ Cell) : Decidable (Tears y x) :=
  match y, x with
  | .write offset _, .write offset' _ => inferInstanceAs (Decidable (Swaps offset offset'))
  | .write .., .barrier | .barrier, _ => isFalse not_false

/-- No state word arrives ahead of an older address or size of its slot, nor one
of these ahead of an older state word. -/
def ordered (s : Bus) (_ : Log Agent BusOp BusRes) (_ : Agent) : BusOp → Prop
  | .deliver place => ∀ y ∈ s.buffer.flight.take place, ∀ x ∈ s.buffer.flight[place]?, ¬ Tears y x
  | _ => True

instance (s : Bus) (log : Log Agent BusOp BusRes) (i : Agent) (op : BusOp) :
    Decidable (ordered s log i op) :=
  match op with
  | .deliver place => inferInstanceAs (Decidable (∀ y ∈ s.buffer.flight.take place,
      ∀ x ∈ s.buffer.flight[place]?, ¬ Tears y x))
  | .code _ | .fwWrite .. | .fwDone _ => isTrue trivial

end AgxOpen.Handoff
