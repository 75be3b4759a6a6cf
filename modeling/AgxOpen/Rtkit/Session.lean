import AgxOpen.Sequential
import AgxOpen.Rtkit.Kinds

/-!
# The core on its own

The core between the callbacks of any driver. A load answers with the core's
structure; what `send` and `buffer` answer is up to the driver.
-/
namespace AgxOpen.Rtkit

inductive Op
  | load
  | store (u : Update)
  | send (endpoint : U32) (message : U64)
  | buffer (endpoint : U32) (size requestedIova : U64)
  | app (endpoint : U32) (message : U64)
  | crashed

abbrev Res : Op → Type
  | .load => Rtkit
  | .send .. => ℤ
  | .buffer .. => ℤ × U64
  | _ => Unit

/-- The answers an operation can get. -/
def allows (s : Rtkit) : (op : Op) → Res op → Prop
  | .load, r => r = s
  | _, _ => True

def after (s : Rtkit) : Op → Rtkit
  | .store u => u.apply s
  | _ => s

def step (s : Rtkit) (op : Op) (r : Res op) (t : Rtkit) : Prop := allows s op r ∧ t = after s op

/-- Which of the optional callbacks the driver has. -/
structure Callbacks where
  buffer : Bool
  app : Bool
  crashed : Bool

/-- The callbacks as operations of their own. -/
def corePort (has : Callbacks) : Port Op Res where
  load := Program.request Op.load
  store u := Program.request (Op.store u)
  send endpoint message := Program.request (Op.send endpoint message)
  buffer := if has.buffer then
    some fun endpoint size iova => Program.request (Op.buffer endpoint size iova) else none
  app := if has.app then some fun endpoint message => Program.request (Op.app endpoint message)
    else none
  crashed := if has.crashed then some (Program.request Op.crashed) else none

theorem getBuffer_none {has : Callbacks} (h : has.buffer = false) (endpoint : U32) (message : U64) :
    getBuffer (corePort has) endpoint message = fail (corePort has)
      (if requestSize endpoint message = 0#64 then Status.einval else Status.enodev) := by
  have hb : (corePort has).buffer = none := if_neg (by simp [h])
  unfold getBuffer
  rw [hb]

theorem getBuffer_some {has : Callbacks} (h : has.buffer = true) {endpoint : U32} {message : U64}
    (hs : requestSize endpoint message ≠ 0#64) :
    getBuffer (corePort has) endpoint message = (do
      let (ret,iova) ← Program.request (Op.buffer endpoint (requestSize endpoint message)
        (requestIova endpoint message))
      if ret ≠ 0 then fail (corePort has) ret
      else do
        (corePort has).store (.orBuffers (bufferBit endpoint))
        let _ ← send (corePort has) endpoint
          (bufferReply endpoint (requestSize endpoint message) iova)
        return ()) := by
  have hb : (corePort has).buffer = some fun endpoint size iova =>
      Program.request (Op.buffer endpoint size iova) := if_pos h
  unfold getBuffer
  rw [hb]
  exact if_neg hs

theorem getBuffer_empty {has : Callbacks} {endpoint : U32} {message : U64}
    (hs : requestSize endpoint message = 0#64) :
    getBuffer (corePort has) endpoint message = fail (corePort has) Status.einval := by
  cases h : has.buffer with
  | false => rw [getBuffer_none h, if_pos hs]
  | true =>
    have hb : (corePort has).buffer = some fun endpoint size iova =>
        Program.request (Op.buffer endpoint size iova) := if_pos h
    unfold getBuffer
    rw [hb]
    exact if_pos hs

section Kinds

variable {has : Callbacks} {P : Op → Prop} {h : Handler} {endpoint : U32} {message : U64}

theorem app_isSome (has : Callbacks) : (corePort has).app.isSome = has.app := by
  cases hb : has.app <;> simp [corePort, hb]

theorem only_bufferOp (hP : ∀ size iova, P (.buffer endpoint size iova)) :
    ∀ buffer ∈ (corePort has).buffer, ∀ size iova, Program.Only P (buffer endpoint size iova) := by
  intro buffer hb size iova
  cases h : has.buffer with
  | false => simp [corePort, h] at hb
  | true =>
    simp only [corePort, h, if_true, Option.mem_def, Option.some.injEq] at hb
    subst hb
    exact Program.only_request.mpr (hP size iova)

theorem only_crashedOp (hP : P .crashed) : ∀ crashed ∈ (corePort has).crashed, Program.Only P crashed := by
  intro crashed hc
  cases h : has.crashed with
  | false => simp [corePort, h] at hc
  | true =>
    simp only [corePort, h, if_true, Option.mem_def, Option.some.injEq] at hc
    subst hc
    exact Program.only_request.mpr hP

theorem only_appOp (hP : P (.app endpoint message)) :
    ∀ app ∈ (corePort has).app, Program.Only P (app endpoint message) := by
  intro app ha
  cases h : has.app with
  | false => simp [corePort, h] at ha
  | true =>
    simp only [corePort, h, if_true, Option.mem_def, Option.some.injEq] at ha
    subst ha
    exact Program.only_request.mpr hP

/-- What a handler is made of, on the core on its own. -/
theorem only_coreHandler (hload : P .load) (hsend : ∀ message, P (.send endpoint message))
    (hbuffer : ∀ size iova, P (.buffer endpoint size iova))
    (hcrashed : endpoint = epCrashlog → P .crashed)
    (hsel : select has.app endpoint message = .handler h)
    (hstore : ∀ u, h.stores u = true → P (.store u)) :
    Program.Only P (h.run (corePort has) endpoint message) :=
  only_handler (Program.only_request.mpr hload) (fun m => Program.only_request.mpr (hsend m))
    (only_bufferOp hbuffer) (fun he => only_crashedOp (hcrashed he)) hsel
    fun u hu => Program.only_request.mpr (hstore u hu)

end Kinds

inductive Call
  | rx (endpoint : U32) (message : U64)
  | setIopPower (state : U32)
  | setApPower (state : U32)
  | startEndpoint (endpoint : U32)

/-- A call and the status it returns, 0 for `agx_rtkit_rx`. -/
def program (has : Callbacks) : Call → Program Op Res ℤ
  | .rx endpoint message => do
    rx (corePort has) endpoint message
    return 0
  | .setIopPower state => setIopPower (corePort has) state
  | .setApPower state => setApPower (corePort has) state
  | .startEndpoint endpoint => startEndpoint (corePort has) endpoint

abbrev CoreAct := Act Op Res
abbrev CoreDone := Done Op Res Call ℤ

/-- A message handed to the send callback, with its answer. -/
def sent : CoreAct → Option (U32 × U64 × ℤ)
  | ⟨.send endpoint message,r⟩ => some (endpoint,message,r)
  | _ => none

theorem mem_sent {acts : List CoreAct} {endpoint : U32} {message : U64} {r : ℤ} :
    (endpoint,message,r) ∈ acts.filterMap sent ↔ (⟨.send endpoint message,r⟩ : CoreAct) ∈ acts := by
  rw [List.mem_filterMap]
  constructor
  · rintro ⟨⟨op,r'⟩,ha,hs⟩
    cases op with
    | send e m =>
      cases hs
      exact ha
    | _ => contradiction
  · exact fun ha => ⟨_,ha,rfl⟩

/-- Calls from `agx_rtkit_init` on. -/
abbrev CoreRun (has : Callbacks) (calls : List CoreDone) (u : Rtkit) : Prop :=
  Session step (program has) init calls u

/-- Callbacks that answer alike every time. -/
structure Answers where
  send : U32 → U64 → ℤ
  buffer : U32 → U64 → U64 → ℤ × U64

/-- Sends are accepted and every buffer lies at the same address. -/
def buffersAt (iova : U64) : Answers where
  send _ _ := 0
  buffer _ _ _ := (0,iova)

def answer (env : Answers) (s : Rtkit) : (op : Op) → Option (Res op × Rtkit)
  | .load => some (s,s)
  | .store u => some ((),u.apply s)
  | .send endpoint message => some (env.send endpoint message,s)
  | .buffer endpoint size iova => some (env.buffer endpoint size iova,s)
  | .app _ _ => some ((),s)
  | .crashed => some ((),s)

theorem answer_step (env : Answers) (s : Rtkit) (op : Op) (r : Res op) (t : Rtkit)
    (h : answer env s op = some (r,t)) : step s op r t := by
  cases op with
  | load =>
    obtain ⟨rfl,rfl⟩ := Prod.mk.inj (Option.some.inj h)
    exact ⟨rfl,rfl⟩
  | _ =>
    obtain ⟨-,rfl⟩ := Prod.mk.inj (Option.some.inj h)
    exact ⟨trivial,rfl⟩

end AgxOpen.Rtkit
