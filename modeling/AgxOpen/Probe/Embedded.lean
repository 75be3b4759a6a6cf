import AgxOpen.Probe.Device
import AgxOpen.Rtbuddy.Runs

/-!
# The device runs the driver

Without what it does with the platform, a run of the device is a run of the driver.
-/
namespace AgxOpen.Probe
open Rtbuddy Program

/-- What is left of the driver behind a probe that returned `ret`. -/
def Probed (ret : ℤ) (q : Rtbuddy.Prog Unit) : Prop :=
  ret = 0 ∧ q = removal ∨ ret ≠ 0 ∧ (q = .ret () ∨ q = lifecycle)

theorem covers_errPower {ret : ℤ} {q : Rtbuddy.Prog Unit} (h : Probed ret q) :
    Covers Probed (errPower ret) q := covers_own fun _ => .ret h

theorem covers_probeRtbuddy : Covers Probed probeRtbuddy lifecycle := by
  refine covers_own fun _ => ?_
  change Covers Probed (boot.lift >>= _) (boot >>= _)
  refine covers_lift fun ret => ?_
  refine covers_lift fun _ => ?_
  by_cases h0 : ret = 0
  · rw [if_neg (not_not.mpr h0)]
    exact covers_own fun _ => covers_own fun _ => .ret (.inl ⟨rfl,rfl⟩)
  · rw [if_pos h0]
    refine covers_lift fun _ => ?_
    have hend : Covers Probed ((mark .removed).lift >>= fun _ => errPower ret)
        (mark .removed >>= fun _ => .ret ()) :=
      covers_lift fun _ => covers_errPower (.inr ⟨h0,.inl rfl⟩)
    exact hend

/-- A probe that fails before the driver starts. -/
theorem covers_early {ret : ℤ} (h : ret ≠ 0) : Covers Probed (.ret ret : Prog ℤ) lifecycle :=
  .ret (.inr ⟨h,.inr rfl⟩)

theorem covers_probePower : Covers Probed probePower lifecycle := by
  refine covers_own fun ret => ?_
  split_ifs with h
  · exact covers_early h
  · refine covers_own fun ret => ?_
    split_ifs with h
    · exact covers_early h
    · exact covers_probeRtbuddy

theorem covers_agxProbe : Covers Probed agxProbe lifecycle := by
  refine covers_own fun agx => ?_
  split_ifs
  · exact covers_early (by decide)
  · refine covers_own fun base => ?_
    match base with
    | .error e => exact covers_early (Int.ne_of_lt e.2)
    | .ok size =>
      dsimp only
      split_ifs
      · exact covers_early (by decide)
      · refine covers_own fun irq => ?_
        split_ifs with h
        · exact covers_early (Int.ne_of_lt h)
        · exact covers_probePower

theorem covers_deviceLifecycle : Covers (fun _ => remains .main) deviceLifecycle lifecycle := by
  refine covers_agxProbe.bind fun ret q hq => covers_own fun _ => ?_
  rcases hq with ⟨rfl,rfl⟩ | ⟨h0,hq⟩
  · refine covers_own fun _ => covers_own fun agx => ?_
    cases agx with
    | false => exact covers_own fun _ => covers_own fun _ => .ret (.inr ⟨rfl,.inr rfl⟩)
    | true =>
      refine covers_own fun _ => ?_
      have hend : Covers (fun _ => remains .main)
          ((remove.lift >>= fun _ => (mark .removed).lift >>= fun _ => ask .pmRuntimePut) >>=
            fun _ => ask .release) removal := by
        rw [bind_assoc]
        refine covers_lift fun _ => ?_
        rw [bind_assoc]
        exact covers_lift (g := .ret) fun _ => covers_own fun _ => covers_own fun _ => .ret (.inl rfl)
      exact hend
  · rw [if_neg h0]
    refine covers_own fun _ => .ret ?_
    rcases hq with rfl | rfl
    · exact .inl rfl
    · exact .inr ⟨rfl,.inl rfl⟩

theorem embeds : Embeds device driver Device.world remains where
  init s hs := hs.world
  own s o r t hs := by rw [hs.2]
  inner s op r t hs := by
    rw [hs.2]
    exact ⟨hs.1,rfl⟩
  first i := by
    by_cases hi : i = .main
    · subst hi
      exact covers_deviceLifecycle
    · simp only [device, driver, if_neg hi]
      exact .ret (.inl rfl)
  program i call p hp := by
    obtain ⟨q,hq,rfl⟩ := Option.map_eq_some_iff.mp hp
    exact ⟨call,q,hq,covers_self fun _ => .inl rfl⟩
  idle i call p hp q hq := by
    obtain rfl | ⟨rfl,-⟩ := hq
    · rfl
    · contradiction

variable {c : Config Party POp PRes Device}

section Schedule

/-- The answers of a platform on which everything works. -/
def Held.reply (s : Held) : (o : Platform) → Option o.Answer
  | .devmKzalloc => some true
  | .ioremapResource => some (.ok mboxRegionSize)
  | .getIrqByname => some (7 : ℤ)
  | .pmRuntimeEnable => some (0 : ℤ)
  | .pmRuntimeGet => some (0 : ℤ)
  | .getDrvdata => some s.drvdata
  | .removal => if s.bound then some () else none
  | .pmRuntimePut | .displayBrokerInit | .debugfsInit | .debugfsRemove | .setDrvdata => some ()
  | .oops | .probed _ | .release => some ()

def Device.answer (pick : Bool) (s : Device) : (op : POp) → Option (PRes op × Device)
  | .own o => (s.held.reply o).map fun r => (r,{ s with held := s.held.after o r })
  | .inner op => (s.world.answer pick op).map fun x => (x.1,{ s with world := x.2 })

theorem Device.answer_step {pick : Bool} {s t : Device} {op : POp} {r : PRes op}
    (h : s.answer pick op = some (r,t)) : s.step op r t := by
  cases op with
  | own o =>
    obtain ⟨r',hr,he⟩ := Option.map_eq_some_iff.mp h
    obtain ⟨rfl,rfl⟩ := Prod.mk.inj he
    refine ⟨?_,rfl⟩
    cases o with
    | getDrvdata => exact (Option.some.inj hr).symm
    | removal =>
      simp only [Held.reply, Option.ite_none_right_eq_some] at hr
      exact hr.1
    | _ => trivial
  | inner op =>
    obtain ⟨⟨r',w⟩,hr,he⟩ := Option.map_eq_some_iff.mp h
    obtain ⟨rfl,rfl⟩ := Prod.mk.inj he
    obtain ⟨ha,rfl⟩ := World.answer_step hr
    exact ⟨ha,rfl⟩

/-- A device that nobody has probed yet. -/
def unprobed : Config Party POp PRes Device := ⟨⟨fresh,.nothing⟩,device.first,[]⟩

theorem reach_of_turns (schedule : List (Threads.Turn Party Call)) (check : Config Party POp PRes Device → Bool)
    (h : (device.turns (fun _ _ _ _ => True) Device.answer unprobed schedule).any check = true) :
    ∃ c, device.Reachable c ∧ check c = true := by
  obtain ⟨c,hc,he⟩ := Threads.reach_of_turns (fun _ _ _ _ _ => Device.answer_step) h
  have hfresh : device.init unprobed.state := ⟨probed_fresh,rfl,rfl⟩
  exact ⟨c,hc.of_startingAt hfresh,he⟩

end Schedule

theorem shadow_of (h : device.Reachable c) :
    ∃ d, driver.Reachable d ∧ Shadow Device.world remains c d :=
  h.shadow embeds fun _ _ _ _ _ => trivial

/-- What the device does to the driver's world is a run of the driver. -/
theorem device_runs_driver (h : device.Reachable c) : ∃ d, driver.Reachable d ∧
    d.state = c.state.world ∧ d.log = innerLog c.log := by
  obtain ⟨d,hd,hs⟩ := shadow_of h
  exact ⟨d,hd,hs.state,hs.log⟩

/-- A probe whose boot failed, up to the release. -/
theorem device_runs_driver_silent : ∃ c : Config Party POp PRes Device, c.log.length = 41 ∧
    ∃ d, driver.Reachable d ∧ d.state = c.state.world ∧ d.log = innerLog c.log := by
  obtain ⟨c,hc,h⟩ := reach_of_turns [.acts .main 16 true,.acts .main 25 false]
    (fun c => c.log.length == 41) (by decide +kernel)
  exact ⟨c,beq_iff_eq.mp h,device_runs_driver hc⟩

end AgxOpen.Probe
