import AgxOpen.Concurrent
import AgxOpen.Rtbuddy.Driver

/-!
# Sending, one register access at a time

`agx_mailbox_send` with its mutex and its poll of the control register, any
number of threads that call it, and a firmware that takes messages out of the
bounded inbox.
-/
namespace AgxOpen.Mailbox
open Rtbuddy (msg1EndpointMask unpackEndpoint)

/-- What the firmware finds: the endpoint byte of `SEND1` and the word of `SEND0`. -/
abbrev Item := U32 × U64

def controlFullBit : U32 := 0x10000#32

def controlFull (control : U32) : Bool := control &&& controlFullBit != 0#32

/-- The word written to `SEND1`. -/
def packMsg1 (endpoint : U32) : U64 := (endpoint &&& msg1EndpointMask).setWidth 64

/-- Points of the run that the log records without any effect. -/
inductive Mark
  | called (endpoint : U32) (data : U64)
  | returned (ret : ℤ)

inductive Op
  /-- `mutex_lock`, by the thread of that number. -/
  | lock (owner : ℕ)
  | unlock
  /-- How often `readl_poll_timeout` reads before the time is up. -/
  | pollReads
  | readControl
  /-- The time was up behind a read that satisfied the condition. -/
  | pollLate
  | writeSend0 (value : U64)
  | writeSend1 (value : U64)
  | mark (m : Mark)
  /-- The firmware takes the oldest item. -/
  | take

/-- A write of `SEND1` is answered with what the inbox took, which the code
does not see. -/
abbrev Res : Op → Type
  | .pollReads => ℕ
  | .readControl => U32
  | .pollLate => Bool
  | .writeSend1 _ => Option Item
  | .take => Option Item
  | _ => Unit

structure World where
  /-- The thread that has the mutex. -/
  owner : Option ℕ
  send0 : U64
  inbox : List Item
  capacity : ℕ

namespace World

/-- What a write of `SEND1` puts into the inbox, nothing if it is full. -/
def accepts (s : World) (value : U64) : Option Item :=
  if s.inbox.length < s.capacity then some (unpackEndpoint value,s.send0) else none

/-- The answers an operation can get. The mutex is granted to any thread while
nobody has it. -/
def allows (s : World) : (op : Op) → Res op → Prop
  | .lock _, _ => s.owner = none
  | .readControl, r => controlFull r = decide (s.capacity ≤ s.inbox.length)
  | .writeSend1 value, r => r = s.accepts value
  | .take, r => r = s.inbox.head?
  | _, _ => True

/-- The world behind an answered operation. -/
def after (s : World) : (op : Op) → Res op → World
  | .lock owner, _ => { s with owner := some owner }
  | .unlock, _ => { s with owner := none }
  | .writeSend0 value, _ => { s with send0 := value }
  | .writeSend1 _, r => { s with inbox := s.inbox ++ r.toList }
  | .take, _ => { s with inbox := s.inbox.tail }
  | _, _ => s

def step (s : World) (op : Op) (r : Res op) (t : World) : Prop := s.allows op r ∧ t = s.after op r

end World

abbrev Prog := Program Op Res

def ask (op : Op) : Prog (Res op) := Program.request op

/-- `readl_poll_timeout` with so many reads left. It returns 0 only behind a
read that satisfied the condition. -/
def pollNotFull : ℕ → Prog ℤ
  | 0 => return Status.etimedout
  | n+1 => do
    let control ← ask .readControl
    if controlFull control then pollNotFull n
    else do
      let late ← ask .pollLate
      if late then return Status.etimedout else return 0

/-- `agx_mailbox_send` on the thread of that number. -/
def send (owner : ℕ) (endpoint : U32) (data : U64) : Prog ℤ := do
  ask (.lock owner)
  let reads ← ask .pollReads
  let ret ← pollNotFull reads
  if ret ≠ 0 then do
    ask .unlock
    return Status.etimedout
  else do
    ask (.writeSend0 data)
    let _ ← ask (.writeSend1 (packMsg1 endpoint))
    ask .unlock
    return 0

inductive Party
  | sender (n : ℕ)
  | firmware
  deriving DecidableEq

inductive Call
  | send (endpoint : U32) (data : U64)
  | take

def program : Party → Call → Option (Prog Unit)
  | .sender n, .send endpoint data => some do
    ask (.mark (.called endpoint data))
    let ret ← send n endpoint data
    ask (.mark (.returned ret))
  | .firmware, .take => some do
    let _ ← ask .take
    return ()
  | _, _ => none

/-- Behind `agx_mailbox_init`, with any registers and any inbox. -/
def Initialized (s : World) : Prop := s.owner = none

def mailbox : Threads Party Op Res World Call where
  init := Initialized
  step := World.step
  first _ := return ()
  program := program

abbrev Ev := Act Op Res
abbrev Hist := List Ev
abbrev RunLog := Log Party Op Res

/-- The item a write of `SEND1` put into the inbox. -/
def enqueued : Ev → Option Item
  | ⟨.writeSend1 _,r⟩ => r
  | _ => none

/-- The item the firmware took. -/
def dequeued : Ev → Option Item
  | ⟨.take,r⟩ => r
  | _ => none

/-- The items of a history that the function finds, oldest first. -/
def itemsOf (f : Ev → Option Item) (h : Hist) : List Item := (h.filterMap f).reverse

/-- A thread's calls: the one it is in and what those that returned 0 had to send. -/
structure Calls where
  current : Option (U32 × U64)
  succeeded : List Item

/-- What a call has to send. -/
def itemOf (endpoint : U32) (data : U64) : Item := (endpoint &&& 0xff#32,data)

def callsStep (c : Calls) : Ev → Calls
  | ⟨.mark (.called endpoint data),_⟩ => { c with current := some (endpoint,data) }
  | ⟨.mark (.returned ret),_⟩ =>
    { current := none
      succeeded := if ret = 0 then c.succeeded ++ c.current.toList.map fun x => itemOf x.1 x.2
        else c.succeeded }
  | _ => c

def callsOf (h : Hist) : Calls := replay callsStep ⟨none,[]⟩ h

end AgxOpen.Mailbox
