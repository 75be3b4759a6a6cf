import AgxOpen.Rtbuddy.Driver
import AgxOpen.Rtkit.Kinds

/-!
# What the boot thread does while it talks

The calls of the boot thread that only exchange messages, wait for answers, and
request and release the interrupt.
-/
namespace AgxOpen.Rtbuddy
open Rtkit

def talks : Op → Bool
  | .load | .rtkit _ | .send .. | .wait _ | .requestIrq | .freeIrq => true
  | .store (.irqRequested _) => true
  | _ => false

abbrev TalkProg {α : Type} (p : Prog α) : Prop := Program.Only (fun op => talks op = true) p

theorem talk_load : TalkProg port.load := ⟨rfl,fun _ => trivial⟩

theorem talk_send (endpoint : U32) (message : U64) : TalkProg (port.send endpoint message) :=
  Program.only_request.mpr rfl

theorem talk_store (u : Update) : TalkProg (port.store u) :=
  Program.only_request.mpr rfl

theorem talk_running : TalkProg (running port) := only_running talk_load

theorem talk_startEndpoint (endpoint : U32) : TalkProg (startEndpoint port endpoint) :=
  only_startEndpoint talk_load (talk_send _) (fun _ => talk_store _) endpoint

theorem talk_setApPower (state : U32) : TalkProg (setApPower port state) :=
  only_setApPower (talk_send _) (fun _ => talk_store _) (talk_store _) state

theorem talk_setIopPower (state : U32) : TalkProg (setIopPower port state) :=
  only_setIopPower (talk_send _) (fun _ => talk_store _) (talk_store _) state

theorem talk_wait (stage : Stage) : TalkProg (wait stage) :=
  ⟨rfl,fun _ => ⟨rfl,fun _ => Program.only_ite.mpr ⟨fun _ => trivial,fun _ =>
    Program.only_ite.mpr ⟨fun _ => trivial,fun _ => trivial⟩⟩⟩⟩

theorem talk_requestIrq : TalkProg requestIrq := by
  refine ⟨rfl,fun _ => Program.only_ite.mpr ⟨fun _ => trivial,fun _ => ⟨rfl,fun _ => ?_⟩⟩⟩
  exact Program.only_ite.mpr ⟨fun _ => trivial,fun _ => ⟨rfl,fun _ => trivial⟩⟩

theorem talk_waitSent (ret : ℤ) (stage : Stage) : TalkProg (waitSent ret stage) :=
  Program.only_ite.mpr ⟨fun _ => (talk_wait stage).bind fun _ => trivial,fun _ => trivial⟩

theorem talk_shutdown : TalkProg shutdown := by
  refine talk_running.bind fun _ => Program.only_ite.mpr ⟨fun _ => trivial,fun _ => ?_⟩
  refine (talk_setApPower _).bind fun _ => (talk_waitSent _ _).bind fun _ => ?_
  exact (talk_setIopPower _).bind fun _ => talk_waitSent _ _

theorem talk_freeIrq : TalkProg freeIrq :=
  ⟨rfl,fun _ => Program.only_ite.mpr ⟨fun _ => trivial,fun _ => ⟨rfl,fun _ => ⟨rfl,fun _ => trivial⟩⟩⟩⟩

end AgxOpen.Rtbuddy
