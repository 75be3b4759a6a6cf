import AgxOpen.Rtbuddy.Driver
import AgxOpen.Rtkit.Carried

/-!
# Nothing looks at the crash flag

Whatever the flag says in the structures a thread loads, the thread does the
same. So the flag can be changed at any time, and everybody goes on as before.
-/
namespace AgxOpen
open Program

def Rtkit.withCrashed (s : Rtkit) (value : Bool) : Rtkit := { s with crashed := value }

namespace Rtbuddy
open Rtkit

def withCrashed (s : Rtbuddy) (value : Bool) : Rtbuddy :=
  { s with rtkit := s.rtkit.withCrashed value }

def World.withCrashed (s : World) (value : Bool) : World := { s with rb := s.rb.withCrashed value }

/-- Answers that differ in the crash flag alone. -/
def ButCrashed : (op : Op) → Res op → Res op → Prop
  | .load, s, t => ∃ value, t = s.withCrashed value
  | _, r, r' => r = r'

variable {α : Type} {endpoint : U32} {message : U64}

theorem blind_load {f : Rtbuddy → Prog α} (he : ∀ s value, f s = f (s.withCrashed value))
    (hf : ∀ s, Blind ButCrashed (f s)) : Blind ButCrashed (load >>= f) := by
  refine ⟨?_,hf⟩
  rintro s _ ⟨value,rfl⟩
  exact he s value

theorem blind_store (f : Store) : Blind ButCrashed (store f) := blind_request fun _ _ he => he

theorem blind_mark (m : Mark) : Blind ButCrashed (mark m) := blind_request fun _ _ he => he

theorem blind_opsBuffer (size requestedIova : U64) :
    Blind ButCrashed (opsBuffer endpoint size requestedIova) := by
  unfold opsBuffer
  cases shmemSlot endpoint with
  | none => trivial
  | some slot =>
    refine Blind.ite trivial (Blind.ite trivial (blind_load (fun _ _ => rfl) fun s => ?_))
    refine Blind.ite trivial (Blind.bind (blind_request fun _ _ he => he) fun buffer => ?_)
    exact Blind.ite trivial ((blind_store _).bind fun _ => trivial)

theorem blind_opsApp : Blind ButCrashed (opsApp endpoint message) :=
  Blind.ite (blind_store _) (blind_store _)

/-- The core, as the driver uses it, finds no difference. -/
theorem blind_port : BlindPort ButCrashed (fun s t => ∃ value, t = s.withCrashed value) port where
  load he hf := blind_load (fun s value => he _ _ ⟨value,rfl⟩) fun s => hf s.rtkit
  store _ := blind_request fun _ _ he => he
  send _ _ := blind_request fun _ _ he => he
  buffer _ hb _ _ _ := by
    rw [← Option.some.inj hb]
    exact blind_opsBuffer _ _
  app _ ha _ _ := by
    rw [← Option.some.inj ha]
    exact blind_opsApp
  crashed _ hc := by
    rw [← Option.some.inj hc]
    trivial

theorem sameMaps_of_crashed (s t : Rtkit) (h : ∃ value, t = s.withCrashed value) : SameMaps s t := by
  obtain ⟨value,rfl⟩ := h
  exact ⟨rfl,rfl⟩

theorem sameLevels_of_crashed (s t : Rtkit) (h : ∃ value, t = s.withCrashed value) :
    SameLevels s t := by
  obtain ⟨value,rfl⟩ := h
  exact ⟨rfl,rfl⟩

theorem blind_running : Blind ButCrashed (running port) := blind_port.running sameLevels_of_crashed

theorem blind_startEndpoint : Blind ButCrashed (startEndpoint port endpoint) :=
  blind_port.startEndpoint sameMaps_of_crashed (Blind.ite blind_running trivial)

theorem blind_mailboxRecv : Blind ButCrashed mailboxRecv := by
  refine Blind.bind (Blind.bind (blind_request fun _ _ he => he) fun _ => trivial) fun empty => ?_
  refine Blind.ite trivial (Blind.bind (blind_request fun _ _ he => he) fun msg0 => ?_)
  exact Blind.bind (blind_request fun _ _ he => he) fun msg1 => trivial

theorem blind_drain (n : ℕ) : Blind ButCrashed (drain n) := by
  induction n with
  | zero => trivial
  | succ n ih =>
    refine blind_mailboxRecv.bind fun msg => ?_
    cases msg with
    | none => trivial
    | some x =>
      refine (blind_mark _).bind fun _ => ?_
      refine (blind_port.rx sameMaps_of_crashed _ _).bind fun _ => ?_
      exact (blind_mark _).bind fun _ => ih.bind fun _ => trivial

theorem blind_irqThread : Blind ButCrashed irqThread := by
  refine Blind.bind (blind_request fun _ _ he => he) fun _ => ?_
  refine (blind_drain drainMax).bind fun handled => (blind_store _).bind fun _ => ?_
  exact Blind.bind (blind_request fun _ _ he => he) fun _ => blind_request fun _ _ he => he

theorem blind_sendGpu : Blind ButCrashed (sendGpu endpoint message) := by
  refine Blind.bind (blind_running.bind fun up => Blind.ite trivial ?_) fun up => ?_
  · refine blind_load (fun _ _ => rfl) fun s => Blind.ite trivial ?_
    exact blind_load (fun _ _ => rfl) fun _ => trivial
  · exact Blind.ite trivial (blind_request fun _ _ he => he)

theorem blind_setPower (state : PowerState) : Blind ButCrashed (setPower state) := by
  refine blind_load (fun _ _ => rfl) fun s => Blind.ite trivial ?_
  exact (blind_store _).bind fun _ => Blind.ite (blind_request fun _ _ he => he) trivial

theorem blind_stopCpu : Blind ButCrashed stopCpu := by
  refine blind_load (fun _ _ => rfl) fun s => Blind.ite trivial ?_
  refine Blind.bind (blind_request fun _ _ he => he) fun ctrl => ?_
  exact Blind.bind (blind_request fun _ _ he => he) fun _ => blind_store _

theorem blind_wait (stage : Stage) : Blind ButCrashed (wait stage) := by
  refine Blind.bind (blind_request fun _ _ he => he) fun left => ?_
  exact blind_load (fun _ _ => rfl) fun s => Blind.ite trivial (Blind.ite trivial trivial)

theorem blind_requestIrq : Blind ButCrashed requestIrq := by
  refine blind_load (fun _ _ => rfl) fun s => Blind.ite trivial ?_
  refine Blind.bind (blind_request fun _ _ he => he) fun ret => Blind.ite trivial ?_
  exact (blind_store _).bind fun _ => trivial

theorem blind_bootFail (ret : ℤ) : Blind ButCrashed (bootFail ret) :=
  blind_stopCpu.bind fun _ => (blind_store _).bind fun _ => (blind_store _).bind fun _ => trivial

/-- A stage of boot that answers zero or fails. -/
theorem blind_stage {p rest : Prog ℤ} (hp : Blind ButCrashed p) (hrest : Blind ButCrashed rest) :
    Blind ButCrashed (p >>= fun ret => if ret ≠ 0 then bootFail ret else rest) :=
  hp.bind fun ret => Blind.ite (blind_bootFail ret) hrest

theorem blind_bootEndpoints : Blind ButCrashed bootEndpoints := by
  refine blind_stage blind_startEndpoint ((blind_store _).bind fun _ => ?_)
  refine blind_stage blind_startEndpoint ((blind_store _).bind fun _ => ?_)
  exact (blind_setPower _).bind fun _ => trivial

theorem blind_bootApPower : Blind ButCrashed bootApPower := by
  refine blind_stage (blind_port.setApPower _) (blind_stage (blind_wait _) ?_)
  exact blind_running.bind fun up => Blind.ite (blind_bootFail _) blind_bootEndpoints

theorem blind_bootRollCall : Blind ButCrashed bootRollCall := by
  refine blind_stage (blind_wait _) (blind_stage (blind_wait _) ?_)
  exact blind_load (fun _ _ => rfl) fun s => Blind.ite (blind_bootFail _) blind_bootApPower

theorem blind_boot : Blind ButCrashed boot := by
  refine Blind.bind ?_ fun _ => ?_
  · refine Blind.bind (blind_request fun _ _ he => he) fun control => blind_request fun _ _ he => he
  refine Blind.bind (blind_request fun _ _ he => he) fun ctrl => ?_
  refine Blind.bind (blind_request fun _ _ he => he) fun _ => (blind_store _).bind fun _ => ?_
  exact blind_stage (blind_port.setIopPower _) (blind_stage blind_requestIrq blind_bootRollCall)

theorem blind_waitSent (ret : ℤ) (stage : Stage) : Blind ButCrashed (waitSent ret stage) :=
  Blind.ite ((blind_wait stage).bind fun _ => trivial) trivial

theorem blind_shutdown : Blind ButCrashed shutdown := by
  refine blind_running.bind fun up => Blind.ite trivial ?_
  refine (blind_port.setApPower _).bind fun ret => (blind_waitSent _ _).bind fun _ => ?_
  exact (blind_port.setIopPower _).bind fun ret => blind_waitSent _ _

theorem blind_freeShmem : Blind ButCrashed freeShmem := by
  refine Blind.forRange 4 fun i => blind_load (fun _ _ => rfl) fun s => Blind.ite trivial ?_
  exact Blind.bind (blind_request fun _ _ he => he) fun _ => blind_store _

theorem blind_freeIrq : Blind ButCrashed freeIrq := by
  refine blind_load (fun _ _ => rfl) fun s => Blind.ite trivial ?_
  exact Blind.bind (blind_request fun _ _ he => he) fun _ => blind_store _

theorem blind_remove : Blind ButCrashed remove := by
  refine blind_shutdown.bind fun _ => blind_freeIrq.bind fun _ => blind_stopCpu.bind fun _ => ?_
  refine blind_freeShmem.bind fun _ => (blind_store _).bind fun _ => (blind_store _).bind fun _ => ?_
  exact blind_setPower _

theorem blind_lifecycle : Blind ButCrashed lifecycle :=
  blind_boot.bind fun _ => (blind_mark _).bind fun _ => blind_remove.bind fun _ => blind_mark _

theorem blind_gpuCall {call : Call} {p : Prog ℤ} (hp : gpuCall call = some p) :
    Blind ButCrashed p := by
  cases call with
  | interrupt => contradiction
  | push => contradiction
  | _ =>
    rw [← Option.some.inj hp]
    exact blind_sendGpu

theorem blinded : driver.Blinded ButCrashed where
  first i := Blind.ite blind_lifecycle trivial
  program i call p hp := by
    cases i with
    | main => contradiction
    | irq =>
      cases call with
      | interrupt =>
        rw [← Option.some.inj hp]
        exact blind_irqThread
      | _ => contradiction
    | gpu n =>
      obtain ⟨q,hq,rfl⟩ := Option.map_eq_some_iff.mp hp
      exact (blind_gpuCall hq).bind fun _ => trivial
    | firmware =>
      cases call with
      | push msg0 msg1 =>
        rw [← Option.some.inj hp]
        exact blind_request fun _ _ he => he
      | _ => contradiction

/-- Whatever is answered in a world is answered too where the flag is another. -/
theorem step_withCrashed (s s' : World) (op : Op) (r : Res op) (t : World)
    (hs' : ∃ value, s' = s.withCrashed value) (hs : s.step op r t) :
    ∃ r' t', ButCrashed op r r' ∧ s'.step op r' t' ∧ ∃ value, t' = t.withCrashed value := by
  obtain ⟨value,rfl⟩ := hs'
  obtain ⟨ha,rfl⟩ := hs
  cases op with
  | load =>
    obtain rfl := ha
    exact ⟨_,_,⟨value,rfl⟩,⟨rfl,rfl⟩,value,rfl⟩
  | rtkit u =>
    refine ⟨r,_,rfl,⟨trivial,rfl⟩,?_⟩
    cases u with
    | crashed => exact ⟨true,rfl⟩
    | _ => exact ⟨value,rfl⟩
  | store f =>
    refine ⟨r,_,rfl,⟨trivial,rfl⟩,value,?_⟩
    cases f <;> rfl
  | wait stage =>
    refine ⟨r,_,rfl,⟨?_,rfl⟩,value,rfl⟩
    cases stage <;> exact ha
  | _ => exact ⟨r,_,rfl,⟨ha,rfl⟩,value,rfl⟩

end Rtbuddy
end AgxOpen
