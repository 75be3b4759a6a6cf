import AgxOpen.Concurrent
import AgxOpen.Rtkit.Core

/-!
# The driver's world

The driver's structure, the registers and kernel services it uses, and the one
operation at a time that a thread performs on them. A message enters the inbox
when `agx_mailbox_send` writes `SEND1`, which is the moment of `send`. A load
answers with the whole structure, and each use of it takes one field.
-/
namespace AgxOpen

/-- `enum agx_power_state`. -/
inductive PowerState
  | off
  | quiescent
  | standby
  | on
  deriving DecidableEq

/-- `struct agx_shmem`. -/
structure Shmem where
  cpu : Ptr
  iova : U64
  size : U64
  deriving DecidableEq

/-- `struct agx_rtbuddy`. -/
structure Rtbuddy where
  irqRequested : Bool
  cpuRunning : Bool
  firmwareUp : Bool
  doorbellUp : Bool
  rtkit : Rtkit
  /-- There is a display broker. -/
  display : Bool
  power : PowerState
  drainCount : U64
  fwEvents : U64
  appUnknown : U64
  shmem : Fin 4 → Shmem

namespace Rtbuddy

/-- The structure behind `agx_rtbuddy_probe`, which sets every field. -/
def probe (display : Bool) : Rtbuddy where
  irqRequested := false
  cpuRunning := false
  firmwareUp := false
  doorbellUp := false
  rtkit := .init
  display := display
  power := .off
  drainCount := 0#64
  fwEvents := 0#64
  appUnknown := 0#64
  shmem := fun _ => ⟨0,0#64,0#64⟩

/-- One store to the driver's own fields. -/
inductive Store
  | irqRequested (value : Bool)
  | cpuRunning (value : Bool)
  | firmwareUp (value : Bool)
  | doorbellUp (value : Bool)
  | power (state : PowerState)
  | drainCount (handled : ℕ)
  | fwEvents
  | appUnknown
  | shmemSize (slot : Fin 4) (size : U64)
  /-- The three stores behind `dma_free_coherent`. -/
  | clearShmem (slot : Fin 4)

def setShmem (s : Rtbuddy) (slot : Fin 4) (value : Shmem) : Rtbuddy :=
  { s with shmem := Function.update s.shmem slot value }

def Store.apply (s : Rtbuddy) : Store → Rtbuddy
  | .irqRequested value => { s with irqRequested := value }
  | .cpuRunning value => { s with cpuRunning := value }
  | .firmwareUp value => { s with firmwareUp := value }
  | .doorbellUp value => { s with doorbellUp := value }
  | .power state => { s with power := state }
  | .drainCount handled => { s with drainCount := s.drainCount + BitVec.ofNat 64 handled }
  | .fwEvents => { s with fwEvents := s.fwEvents + 1#64 }
  | .appUnknown => { s with appUnknown := s.appUnknown + 1#64 }
  | .shmemSize slot size => s.setShmem slot { s.shmem slot with size := size }
  | .clearShmem slot => s.setShmem slot ⟨0,0#64,0#64⟩

/-- The stages `agx_rtbuddy_wait` waits for. -/
inductive Stage
  | epmap
  | iopAck
  | apAck
  deriving DecidableEq

def Stage.done : Stage → Rtkit → Bool
  | .epmap, s => s.epmapDone
  | .iopAck, s => s.iopAcked
  | .apAck, s => s.apAcked

/-- Points of the run that the log records without any effect: a call of
`agx_rtkit_rx` and its return, and the returns of boot and remove. -/
inductive Mark
  | rx (endpoint : U32) (message : U64)
  | rxDone
  | booted (ret : ℤ)
  | removed

inductive Op
  | load
  | rtkit (u : Rtkit.Update)
  | store (f : Store)
  | readCtrl
  | writeCtrl (ctrl : U32)
  | readI2a
  | writeI2a (control : U32)
  | recv0
  | recv1
  /-- `agx_mailbox_send`. -/
  | send (endpoint : U32) (message : U64)
  /-- `wait_event_timeout`. -/
  | wait (stage : Stage)
  | requestIrq
  | freeIrq
  /-- `shmem->cpu = dma_alloc_coherent(dev, size, &shmem->iova, ..)`. -/
  | dmaAlloc (slot : Fin 4) (size : U64)
  | dmaFree (buffer : Shmem)
  | notify (old new : PowerState)
  | wakeUp
  /-- The kernel enters and leaves the threaded interrupt handler. -/
  | irqEnter
  | irqExit
  | mark (m : Mark)
  /-- The firmware appends to the outbox. -/
  | push (msg0 msg1 : U64)

abbrev Res : Op → Type
  | .load => Rtbuddy
  | .readCtrl => U32
  | .readI2a => U32
  | .recv0 => U64
  | .recv1 => U64
  | .send .. => ℤ
  | .wait _ => ℕ
  | .requestIrq => ℤ
  | .dmaAlloc .. => Ptr × U64
  | _ => Unit

structure World where
  rb : Rtbuddy
  cpuCtrl : U32
  /-- The I2A control register without its EMPTY bit. -/
  i2a : U32
  outbox : List (U64 × U64)
  irqRegistered : Bool
  irqBusy : Bool
  /-- The coherent buffers handed out and not freed. -/
  dma : List Shmem

def controlEmpty : U32 := 0x20000#32

/-- The I2A control register, whose EMPTY bit follows the outbox. -/
def World.i2aControl (s : World) : U32 :=
  s.i2a &&& ~~~controlEmpty ||| if s.outbox = [] then controlEmpty else 0#32

def World.setRtkit (s : World) (k : Rtkit) : World := { s with rb := { s.rb with rtkit := k } }

/-- The answers an operation can get. A wait ends with something left only if
its condition held, a new buffer is none of those handed out, and the interrupt
is released only while no handler runs. -/
def World.allows (s : World) : (op : Op) → Res op → Prop
  | .load, r => r = s.rb
  | .readCtrl, r => r = s.cpuCtrl
  | .readI2a, r => r = s.i2aControl
  | .recv0, r => ∀ m ∈ s.outbox.head?, r = m.1
  | .recv1, r => ∀ m ∈ s.outbox.head?, r = m.2
  | .send .., r => r = 0 ∨ r = Status.etimedout
  | .wait stage, r => r = 0 ∨ stage.done s.rb.rtkit ∨ s.rb.rtkit.error ≠ 0
  | .freeIrq, _ => s.irqBusy = false
  | .dmaAlloc .., r => ∀ b ∈ s.dma, b.cpu ≠ r.1
  | .irqEnter, _ => s.irqRegistered ∧ s.irqBusy = false
  | _, _ => True

/-- The world behind an answered operation. -/
def World.after (s : World) : (op : Op) → Res op → World
  | .rtkit u, _ => s.setRtkit (u.apply s.rb.rtkit)
  | .store f, _ => { s with rb := f.apply s.rb }
  | .writeCtrl ctrl, _ => { s with cpuCtrl := ctrl }
  | .writeI2a control, _ => { s with i2a := control }
  | .recv1, _ => { s with outbox := s.outbox.tail }
  | .requestIrq, r => { s with irqRegistered := s.irqRegistered || r == 0 }
  | .freeIrq, _ => { s with irqRegistered := false }
  | .dmaAlloc slot size, r =>
    { s with
      rb := s.rb.setShmem slot ⟨r.1,r.2,(s.rb.shmem slot).size⟩
      dma := if r.1 = 0 then s.dma else ⟨r.1,r.2,size⟩ :: s.dma }
  | .dmaFree buffer, _ => { s with dma := s.dma.erase buffer }
  | .irqEnter, _ => { s with irqBusy := true }
  | .irqExit, _ => { s with irqBusy := false }
  | .push msg0 msg1, _ => { s with outbox := s.outbox ++ [(msg0,msg1)] }
  | _, _ => s

def World.step (s : World) (op : Op) (r : Res op) (t : World) : Prop :=
  s.allows op r ∧ t = s.after op r

/-- The next buffer of an example allocator, or its refusal. -/
def World.newBuffer (s : World) (pick : Bool) : Ptr × U64 :=
  if pick then (s.dma.length+1,BitVec.ofNat 64 (0x10000 * (s.dma.length+1))) else (0,0#64)

/-- An answer for every operation that can be answered, one of two where the
environment chooses. -/
def World.reply (s : World) (pick : Bool) : (op : Op) → Option (Res op)
  | .load => some s.rb
  | .readCtrl => some s.cpuCtrl
  | .readI2a => some s.i2aControl
  | .recv0 => some (s.outbox.headD (0#64,0#64)).1
  | .recv1 => some (s.outbox.headD (0#64,0#64)).2
  | .send .. => some (if pick then 0 else Status.etimedout)
  | .wait stage =>
    if !pick then some 0
    else if stage.done s.rb.rtkit || s.rb.rtkit.error != 0 then some 1
    else none
  | .requestIrq => some (if pick then 0 else Status.enomem)
  | .freeIrq => if s.irqBusy then none else some ()
  | .dmaAlloc .. =>
    if s.dma.all fun b => b.cpu != (s.newBuffer pick).1 then some (s.newBuffer pick) else none
  | .irqEnter => if s.irqRegistered && !s.irqBusy then some () else none
  | .rtkit _ => some ()
  | .store _ => some ()
  | .writeCtrl _ => some ()
  | .writeI2a _ => some ()
  | .dmaFree _ => some ()
  | .notify .. => some ()
  | .wakeUp => some ()
  | .irqExit => some ()
  | .mark _ => some ()
  | .push .. => some ()

def World.answer (pick : Bool) (s : World) (op : Op) : Option (Res op × World) :=
  (s.reply pick op).map fun r => (r,s.after op r)

theorem World.reply_allowed {pick : Bool} {s : World} {op : Op} {r : Res op}
    (h : s.reply pick op = some r) : s.allows op r := by
  cases op
  case wait stage =>
    simp only [reply] at h
    split_ifs at h with h1 h2
    · exact .inl (Option.some.inj h).symm
    · refine .inr ?_
      simpa using h2
  case freeIrq =>
    simp only [reply] at h
    split_ifs at h with h1
    simpa [allows] using h1
  case irqEnter =>
    simp only [reply] at h
    split_ifs at h with h1
    simpa [allows] using h1
  case dmaAlloc slot size =>
    simp only [reply, Option.ite_none_right_eq_some] at h
    obtain ⟨h1,rfl⟩ : _ ∧ s.newBuffer pick = r := ⟨h.1,Option.some.inj h.2⟩
    simpa [allows] using h1
  case recv0 =>
    obtain rfl := Option.some.inj h
    intro m hm
    simp [List.headD_eq_head?_getD, Option.mem_def.mp hm]
  case recv1 =>
    obtain rfl := Option.some.inj h
    intro m hm
    simp [List.headD_eq_head?_getD, Option.mem_def.mp hm]
  case send =>
    obtain rfl := Option.some.inj h
    cases pick
    · exact .inr rfl
    · exact .inl rfl
  case load => exact (Option.some.inj h).symm
  case readCtrl => exact (Option.some.inj h).symm
  case readI2a => exact (Option.some.inj h).symm
  all_goals exact trivial

theorem World.answer_step {pick : Bool} {s t : World} {op : Op} {r : Res op}
    (h : s.answer pick op = some (r,t)) : s.step op r t := by
  obtain ⟨r',hr,he⟩ := Option.map_eq_some_iff.mp h
  obtain ⟨rfl,rfl⟩ := Prod.mk.inj he
  exact ⟨reply_allowed hr,rfl⟩

end Rtbuddy
end AgxOpen
