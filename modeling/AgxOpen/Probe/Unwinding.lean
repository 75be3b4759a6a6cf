import AgxOpen.Probe.Power

/-!
# Power and probe come undone

Power is taken at most once and dropped at most once. The release of the resources is
the last thing that happens, and behind it the device holds nothing.
-/
namespace AgxOpen.Probe
open Rtbuddy

variable {h : PHist} {c d : PConfig}

/-- Power was never taken, is held, or was taken and dropped. -/
def PoweredOnce (moves : List Bool) (s : Held) : Prop :=
  moves = [] ∧ s.usage = 0 ∨ moves = [true] ∧ s.usage = 1 ∨ moves = [false,true] ∧ s.usage = 0

theorem poweredOnce_of (ha : Along deviceLaw h) : PoweredOnce (powerMoves h) (heldOf h) := by
  induction h with
  | nil => exact .inl ⟨rfl,rfl⟩
  | cons a h ih =>
    obtain ⟨op,r⟩ := a
    obtain ⟨hl,ha⟩ := ha
    cases op with
    | inner op => exact ih ha
    | own o =>
      cases o with
      | pmRuntimeGet =>
        obtain ⟨hu,-,hp⟩ : (heldOf h).usage = 0 ∧ (heldOf h).Mapped ∧ powerMoves h = [] := hl
        rw [powerMoves, List.filterMap_cons, powerMove, ← powerMoves, hp]
        by_cases h0 : r = (0 : ℤ)
        · rw [if_pos h0]
          exact .inr (.inl ⟨rfl,(if_pos h0).trans (congrArg (· + 1) hu)⟩)
        · rw [if_neg h0]
          exact .inl ⟨rfl,(if_neg h0).trans hu⟩
      | pmRuntimePut =>
        have hu : (heldOf h).usage = 1 := hl.1.usage
        obtain ⟨-,h0⟩ | ⟨hp,-⟩ | ⟨-,h0⟩ := ih ha
        · exact absurd (hu.symm.trans h0) (by decide)
        · exact .inr (.inr ⟨congrArg (false :: ·) hp,congrArg (· - 1) hu⟩)
        · exact absurd (hu.symm.trans h0) (by decide)
      | ioremapResource => cases r <;> exact ih ha
      | _ => exact ih ha

/-- The moves of the whole log are those of the main thread. -/
theorem powerMoves_own {log : PLog} (hl : Lawful law log) :
    powerMoves (log.map Prod.snd) = powerMoves (own .main log) := by
  induction log with
  | nil => rfl
  | cons e log ih =>
    obtain ⟨i,op,r⟩ := e
    by_cases hi : i = .main
    · subst hi
      rw [own_cons_self, List.map_cons, powerMoves, List.filterMap_cons, ← powerMoves, ih hl.2]
      exact (List.filterMap_cons ..).symm
    · have hinner : ∃ o, op = .inner o := by
        cases i with
        | main => contradiction
        | _ => exact hl.1
      obtain ⟨o,rfl⟩ := hinner
      rw [own_cons_ne hi, ← ih hl.2]
      rfl

def releases : POp → Bool
  | .own .release => true
  | _ => false

def released : PEv := ⟨.own .release,()⟩

def releaseLaw (h : PHist) (_ : POp) : Prop := released ∉ h

theorem obeys_unreleased {α : Type} {p : Prog α}
    (hp : Program.Only (fun op => releases op = false) p) (hh : released ∉ h) :
    Obeys releaseLaw (May .main) p (fun h' _ => released ∉ h') h := by
  refine obeys_only hp (fun h' => released ∉ h') hh (fun _ _ _ hh' => hh') ?_
  intro h' op r hop _ hh' hm
  refine hh' ((List.mem_cons.mp hm).resolve_left fun he => ?_)
  cases he
  contradiction

/-- Nowhere in the program the resources are released. -/
abbrev Unreleased {α : Type} (p : Prog α) : Prop := Program.Only (fun op => releases op = false) p

theorem unreleased_lift {α : Type} (p : Rtbuddy.Prog α) : Unreleased p.lift :=
  (only_lift p).mono fun op ⟨o,ho⟩ => by rw [ho]; rfl

theorem unreleased_ask {o : Platform} (ho : releases (.own o) = false) : Unreleased (ask o) :=
  ⟨ho,fun _ => trivial⟩

theorem Unreleased.ite {α : Type} {b : Prop} [Decidable b] {p q : Prog α} (hp : Unreleased p)
    (hq : Unreleased q) : Unreleased (if b then p else q) :=
  Program.only_ite.mpr ⟨fun _ => hp,fun _ => hq⟩

theorem unreleased_errPower (ret : ℤ) : Unreleased (errPower ret) :=
  (unreleased_ask rfl).bind fun _ => trivial

theorem unreleased_probeRtbuddy : Unreleased probeRtbuddy := by
  refine (unreleased_ask rfl).bind fun _ => ?_
  change Unreleased (boot.lift >>= _)
  refine (unreleased_lift boot).bind fun ret => (unreleased_lift _).bind fun _ => ?_
  refine Unreleased.ite ?_ ?_
  · exact (unreleased_lift _).bind fun _ => (unreleased_lift _).bind fun _ => unreleased_errPower ret
  · exact (unreleased_ask rfl).bind fun _ => (unreleased_ask rfl).bind fun _ => trivial

theorem unreleased_probePower : Unreleased probePower := by
  refine (unreleased_ask rfl).bind fun ret => Unreleased.ite trivial ?_
  exact (unreleased_ask rfl).bind fun ret => Unreleased.ite trivial unreleased_probeRtbuddy

theorem unreleased_agxProbe : Unreleased agxProbe := by
  refine (unreleased_ask rfl).bind fun agx => Unreleased.ite trivial ?_
  refine (unreleased_ask rfl).bind fun base => ?_
  match base with
  | .error e => trivial
  | .ok size =>
    refine Unreleased.ite trivial ((unreleased_ask rfl).bind fun irq => ?_)
    exact Unreleased.ite trivial unreleased_probePower

theorem unreleased_agxTeardown : Unreleased agxTeardown := by
  refine (unreleased_ask rfl).bind fun agx => Unreleased.ite (unreleased_ask rfl) ?_
  refine (unreleased_ask rfl).bind fun _ => (unreleased_lift _).bind fun _ => ?_
  exact (unreleased_lift _).bind fun _ => unreleased_ask (by decide)

/-- The main thread does nothing behind the release. -/
theorem obeys_released : Obeys releaseLaw (May .main) deviceLifecycle (fun _ _ => True) [] := by
  refine (obeys_unreleased unreleased_agxProbe List.not_mem_nil).bind fun h ret hh => ?_
  have hprobed : released ∉ (⟨.own (.probed ret),()⟩ : PEv) :: h :=
    fun hm => hh ((List.mem_cons.mp hm).resolve_left nofun)
  refine .request hh fun _ _ => ?_
  split_ifs with h0
  · refine .request hprobed fun _ _ => ?_
    refine (obeys_unreleased unreleased_agxTeardown ?_).bind fun h' _ hh' => ⟨hh',fun _ _ => trivial⟩
    exact fun hm => hprobed ((List.mem_cons.mp hm).resolve_left nofun)
  · exact ⟨hprobed,fun _ _ => trivial⟩

theorem released_last (hc : device.Reachable c) (hm : (.main,released) ∈ c.log) :
    ∃ h, own .main c.log = released :: h := by
  have ha : Along releaseLaw (own .main c.log) := by
    refine (hc.along disciplined .main (fun _ => True) obeys_released ?_).1
    intro call p h hp _
    contradiction
  have hm := mem_own.mpr hm
  cases hown : own .main c.log with
  | nil =>
    rw [hown] at hm
    contradiction
  | cons a h =>
    rw [hown] at ha hm
    obtain rfl | hm := List.mem_cons.mp hm
    · exact ⟨h,rfl⟩
    · exact absurd hm ha.1

/-- Behind the release the device holds nothing. -/
theorem nothing_of_released (hc : device.Reachable c) (hm : (.main,released) ∈ c.log) :
    c.state.held = .nothing := by
  obtain ⟨h,hh⟩ := released_last hc hm
  have ha := (reach_law hc).along .main
  rw [reach_held hc]
  rw [hh] at ha ⊢
  obtain ⟨hu,hd,hb⟩ : (heldOf h).usage = 0 ∧ (heldOf h).debugfs = false ∧ (heldOf h).bound = false := ha.1
  change (⟨false,none,(heldOf h).usage,(heldOf h).debugfs,false,(heldOf h).bound⟩ : Held) = .nothing
  rw [hu, hd, hb]
  rfl

/-- What holds where the device does something with the platform. -/
def Unwinds (s : Device) : Platform → Prop
  | .pmRuntimeGet => s.held.usage = 0 ∧ s.held.Mapped
  | .pmRuntimePut => s.held.usage = 1 ∧ s.held.debugfs = false ∧ Quiet s.world ∧
    s.world.cpuCtrl &&& cpuCtrlRun = 0#32
  | .probed ret => ProbeEnd ret s.held ∧ (ret ≠ 0 → Quiet s.world)
  | .release => s.held.usage = 0 ∧ s.held.debugfs = false ∧ s.held.bound = false ∧ Quiet s.world
  | .oops => False
  | _ => True

theorem reach_unwinds {i : Party} {o : Platform} {r : o.Answer} (hc : device.Reachable c)
    (hs : device.Step (fun _ _ _ _ => True) c d) (hd : d.log = (i,⟨.own o,r⟩) :: c.log) :
    Unwinds c.state o := by
  have hl := reach_law (hc.step hs)
  rw [hd] at hl
  have ho := hl.1
  obtain rfl := law_own ho
  have heq := reach_held hc
  cases o with
  | pmRuntimeGet =>
    have hlaw : (heldOf (own .main c.log)).usage = 0 ∧ (heldOf (own .main c.log)).Mapped ∧
      powerMoves (own .main c.log) = [] := ho
    rw [← heq] at hlaw
    exact ⟨hlaw.1,hlaw.2.1⟩
  | pmRuntimePut =>
    have hlaw : (heldOf (own .main c.log)).Ready ∧ (heldOf (own .main c.log)).debugfs = false ∧
      RemovedIn (own .main c.log) := ho
    rw [← heq] at hlaw
    obtain ⟨d',hd',hshadow⟩ := shadow_of hc
    have hq := quiet_of_removed hd' (hshadow.log ▸ mem_innerLog (mem_own.mp hlaw.2.2))
    rw [hshadow.state] at hq
    exact ⟨hlaw.1.usage,hlaw.2.1,hq⟩
  | probed ret =>
    have hlaw : ProbeEnd ret (heldOf (own .main c.log)) := ho
    rw [← heq] at hlaw
    refine ⟨hlaw,fun h0 => quiet_of_unpowered hc ?_⟩
    exact (hlaw.resolve_left fun h => h0 h.1).2.1
  | release =>
    have hlaw : (heldOf (own .main c.log)).usage = 0 ∧ (heldOf (own .main c.log)).debugfs = false ∧
      (heldOf (own .main c.log)).bound = false := ho
    rw [← heq] at hlaw
    exact ⟨hlaw.1,hlaw.2.1,hlaw.2.2,quiet_of_unpowered hc hlaw.1⟩
  | oops => exact ho.elim
  | _ => trivial

/-- The platform's side of a run so far, and of its next step. -/
structure Unwinding (c : PConfig) : Prop where
  power : PoweredOnce (powerMoves (c.log.map Prod.snd)) c.state.held
  step : ∀ d i o (r : o.Answer), device.Step (fun _ _ _ _ => True) c d →
    d.log = (i,⟨.own o,r⟩) :: c.log → Unwinds c.state o
  last : (.main,released) ∈ c.log → (∃ h, own .main c.log = released :: h) ∧
    c.state.held = .nothing ∧ Quiet c.state.world

/-- Power and probe come undone in order: power is taken once at most and dropped once at
most, a probe that fails leaves no power, no debugfs and no data, and nothing is held behind
the release. -/
theorem platform_unwinds (hc : device.Reachable c) : Unwinding c where
  power := by
    rw [powerMoves_own (reach_law hc), reach_held hc]
    exact poweredOnce_of ((reach_law hc).along .main)
  step _ _ _ _ hs hd := reach_unwinds hc hs hd
  last hm := by
    have hnothing := nothing_of_released hc hm
    exact ⟨released_last hc hm,hnothing,quiet_of_unpowered hc (by rw [hnothing]; rfl)⟩

section Schedule

/-- The main thread is about to hand over the result. -/
def fails (result : ℤ) (c : PConfig) : Bool :=
  match c.thread .main with
  | .call (.own (.probed r)) _ => r == result
  | _ => false

theorem fails_step {result : ℤ} (h : fails result c = true) : ∃ d,
    device.Step (fun _ _ _ _ => True) c d ∧
      d.log = (.main,⟨.own (.probed result),()⟩) :: c.log := by
  unfold fails at h
  split at h
  · rename_i r next hthread
    obtain rfl := beq_iff_eq.mp h
    exact ⟨_,.act hthread trivial ⟨trivial,rfl⟩,rfl⟩
  · contradiction

theorem released_of_any {log : PLog} (h : (log.any fun e => e.1 == .main && releases e.2.op) = true) :
    (.main,released) ∈ log := by
  obtain ⟨⟨i,op,r⟩,hm,he⟩ := List.any_eq_true.mp h
  obtain ⟨hi,hop⟩ := Bool.and_eq_true_iff.mp he
  obtain rfl : i = .main := beq_iff_eq.mp hi
  cases op with
  | inner op => contradiction
  | own o => cases o <;> first | exact hm | contradiction

end Schedule

/-- The firmware never answers: the probe fails, and later everything is released. -/
theorem platform_unwinds_silent :
    (∃ c d : PConfig, device.Reachable c ∧
      d.log = (.main,⟨.own (.probed Status.etimedout),()⟩) :: c.log ∧ Quiet c.state.world) ∧
    ∃ c : PConfig, device.Reachable c ∧ powerMoves (c.log.map Prod.snd) = [false,true] ∧
      c.state.held = .nothing := by
  obtain ⟨c,hc,h⟩ := reach_of_turns [.acts .main 16 true,.acts .main 23 false]
    (fails Status.etimedout) (by decide +kernel)
  obtain ⟨d,hs,hd⟩ := fails_step h
  refine ⟨⟨c,d,hc,hd,((platform_unwinds hc).step d _ _ _ hs hd).2 (by decide)⟩,?_⟩
  obtain ⟨e,he,hend⟩ := reach_of_turns [.acts .main 16 true,.acts .main 25 false]
    (fun c => c.log.any (fun e => e.1 == .main && releases e.2.op) &&
      powerMoves (c.log.map Prod.snd) == [false,true]) (by decide +kernel)
  rw [Bool.and_eq_true, beq_iff_eq] at hend
  exact ⟨e,he,hend.2,((platform_unwinds he).last (released_of_any hend.1)).2.1⟩

end AgxOpen.Probe
