import AgxOpen.Rtbuddy.Interrupt
import AgxOpen.Rtbuddy.Lifecycle

/-!
# Every run is lawful

The GPU callers and the firmware obey their laws too, so every operation of
every run was allowed by its own thread's history.
-/
namespace AgxOpen.Rtbuddy
open Rtkit

variable {guard : World → Log Party Op Res → Party → Op → Prop} {h : Hist} {α : Type}

abbrev GpuObeys (guard : World → Log Party Op Res → Party → Op → Prop) (n : ℕ) (p : Prog α)
    (Q : Hist → α → Prop) (h : Hist) : Prop := Obeys gpuLaw (May guard (.gpu n)) p Q h

theorem gpu_started (n : ℕ) :
    GpuObeys guard n started (fun h' up => up = true →
      Read (fun s => s.firmwareUp = true) h' ∧ Read (fun s => s.doorbellUp = true) h') h := by
  refine Obeys.bind (Q := fun _ _ => True) ?_ ?_
  · refine .request trivial fun s _ => ?_
    change GpuObeys guard n (if _ then _ else _) _ _
    split_ifs
    · exact .request trivial fun _ _ => trivial
    · trivial
  intro h1 up _
  split_ifs
  · exact fun hf => absurd hf (by decide)
  refine .request trivial fun s _ => ?_
  cases hf : s.firmwareUp with
  | false => exact fun hn => absurd hn (by decide)
  | true =>
    refine .request trivial fun t _ => fun hd => ⟨?_,t,List.mem_cons_self,hd⟩
    exact Read.cons ⟨s,List.mem_cons_self,hf⟩

theorem gpu_send (n : ℕ) {endpoint : U32} {message : U64}
    (he : endpoint = epFirmware ∨ endpoint = epDoorbell) :
    GpuObeys guard n (sendGpu endpoint message >>= fun _ => return ()) (fun _ _ => True) h := by
  refine Obeys.bind (Q := fun _ _ => True) ?_ fun _ _ _ => trivial
  refine (gpu_started n).bind ?_
  intro h1 up hup
  cases up with
  | false => trivial
  | true => exact ⟨⟨he,hup rfl⟩,fun _ _ => trivial⟩

/-- A GPU call is one guarded send on one of the two endpoints. -/
theorem gpuCall_send {call : Call} {p : Prog ℤ} (hp : gpuCall call = some p) :
    ∃ endpoint message, (endpoint = epFirmware ∨ endpoint = epDoorbell) ∧
      p = sendGpu endpoint message := by
  cases call with
  | sendInitdata addr => exact ⟨_,_,.inl rfl,(Option.some.inj hp).symm⟩
  | doorbell channel => exact ⟨_,_,.inr rfl,(Option.some.inj hp).symm⟩
  | kick index alt => exact ⟨_,_,.inr rfl,(Option.some.inj hp).symm⟩
  | stopFirmware counter => exact ⟨_,_,.inr rfl,(Option.some.inj hp).symm⟩
  | fwctlDoorbell => exact ⟨_,_,.inr rfl,(Option.some.inj hp).symm⟩
  | _ => contradiction

theorem settled_nil : Settled [] :=
  ⟨rfl,rfl,fun slot => by simp [buffersOf, shmemOf]⟩

/-- Every program of every thread obeys the thread's law. -/
theorem disciplined : driver.Disciplined guard law idle where
  first i := by
    cases i with
    | main => exact main_lifecycle
    | irq => exact ⟨rfl,settled_nil⟩
    | _ => trivial
  program i call p h hp hi := by
    cases i with
    | main => contradiction
    | irq =>
      cases call with
      | interrupt =>
        obtain rfl := Option.some.inj hp
        exact irq_thread hi.2
      | _ => contradiction
    | gpu n =>
      obtain ⟨q,hq,rfl⟩ := Option.map_eq_some_iff.mp hp
      obtain ⟨endpoint,message,he,rfl⟩ := gpuCall_send hq
      exact gpu_send n he
    | firmware =>
      cases call with
      | push msg0 msg1 =>
        obtain rfl := Option.some.inj hp
        exact ⟨trivial,fun _ _ => trivial⟩
      | _ => contradiction

theorem reach_lawful {c : Config Party Op Res World} (h : driver.Reach guard c) :
    Lawful law c.log := (h.lawful disciplined).1

abbrev Schedule := List (Threads.Turn Party Call)

/-- The driver behind its probe with an empty outbox and a stopped CPU. -/
def fresh : World where
  rb := probe true
  cpuCtrl := 0#32
  i2a := 0#32
  outbox := []
  irqRegistered := false
  irqBusy := false
  dma := []

def start : Config Party Op Res World := ⟨fresh,driver.first,[]⟩

/-- The firmware appends a message. -/
def delivers (message : U64) (endpoint : U64 := 0#64) : Schedule :=
  [.start .firmware (.push message endpoint),.acts .firmware 1 true]

/-- One invocation of the interrupt thread, over so many operations. -/
def interrupt (n : ℕ) : Schedule := [.start .irq .interrupt,.acts .irq n true]

/-- A schedule that runs through exhibits a configuration reached from there. -/
theorem reach_fresh (guard : World → RunLog → Party → Op → Prop)
    [∀ s log i op, Decidable (guard s log i op)] (schedule : Schedule)
    (check : Config Party Op Res World → Bool)
    (h : (driver.turns guard World.answer start schedule).any check = true) :
    ∃ c, (driver.startingAt fresh).Reach guard c ∧ check c = true :=
  Threads.reach_of_turns (fun _ _ _ _ _ => World.answer_step) h

theorem probed_fresh : Probed fresh := ⟨rfl,rfl,rfl,rfl⟩

theorem reach_of_schedule (guard : World → RunLog → Party → Op → Prop)
    [∀ s log i op, Decidable (guard s log i op)] (schedule : Schedule)
    (check : Config Party Op Res World → Bool)
    (h : (driver.turns guard World.answer start schedule).any check = true) :
    ∃ c, driver.Reach guard c ∧ check c = true := by
  obtain ⟨c,hc,he⟩ := reach_fresh guard schedule check h
  exact ⟨c,hc.of_startingAt probed_fresh,he⟩

end AgxOpen.Rtbuddy
