import AgxOpen.Probe.Embedded
import AgxOpen.Rtbuddy.Buffers
import AgxOpen.Rtbuddy.CleanBoot

/-!
# Power and memory of the device

The driver's own threads use the registers only while the device is powered and they
are mapped, and the driver's structure only while it is allocated. Without power the
driver is at rest.
-/
namespace AgxOpen.Probe
open Rtbuddy

abbrev PEv := Act POp PRes
abbrev PHist := List PEv
abbrev PLog := Log Party POp PRes
abbrev PConfig := Config Party POp PRes Device

def Held.act (s : Held) : PEv → Held
  | ⟨.own o,r⟩ => s.after o r
  | ⟨.inner _,_⟩ => s

/-- What the main thread's history makes of the held. -/
def heldOf (h : PHist) : Held := replay Held.act Held.nothing h

/-- The structure is allocated and the registers are mapped. -/
structure Held.Mapped (s : Held) : Prop where
  agx : s.agx = true
  region : ∃ size, s.region = some size ∧ mboxRegionSize ≤ size

/-- The driver may run. -/
structure Held.Ready (s : Held) : Prop where
  mapped : s.Mapped
  usage : s.usage = 1

/-- Power is taken, unless the platform refuses, or dropped. -/
def powerMove : PEv → Option Bool
  | ⟨.own .pmRuntimeGet,r⟩ => if r = (0 : ℤ) then some true else none
  | ⟨.own .pmRuntimePut,_⟩ => some false
  | _ => none

/-- How power was taken and dropped, newest first. -/
def powerMoves (h : PHist) : List Bool := h.filterMap powerMove

/-- Remove has returned. -/
def RemovedIn (h : PHist) : Prop := (⟨.inner (.mark .removed),()⟩ : PEv) ∈ h

/-- A probe that succeeded left everything in place, one that failed no power, no debugfs and
no data of the device. -/
def ProbeEnd (ret : ℤ) (s : Held) : Prop :=
  ret = 0 ∧ s.Ready ∧ s.debugfs = true ∧ s.drvdata = true ∨
    ret ≠ 0 ∧ s.usage = 0 ∧ s.debugfs = false ∧ s.drvdata = false

def platformLaw (h : PHist) : Platform → Prop
  | .devmKzalloc | .ioremapResource => (heldOf h).usage = 0
  | .pmRuntimeGet => (heldOf h).usage = 0 ∧ (heldOf h).Mapped ∧ powerMoves h = []
  | .pmRuntimePut => (heldOf h).Ready ∧ (heldOf h).debugfs = false ∧ RemovedIn h
  | .probed ret => ProbeEnd ret (heldOf h)
  | .oops => False
  | .release => (heldOf h).usage = 0 ∧ (heldOf h).debugfs = false ∧ (heldOf h).bound = false
  | _ => True

/-- The main thread runs the driver only while the device is ready. -/
def deviceLaw (h : PHist) : POp → Prop
  | .own o => platformLaw h o
  | .inner _ => (heldOf h).Ready

/-- The other threads run the driver alone. -/
def law : Party → PHist → POp → Prop
  | .main, h, op => deviceLaw h op
  | _, _, op => ∃ o, op = .inner o

abbrev May : Party → PHist → (op : POp) → PRes op → Prop := device.May (fun _ _ _ _ => True) law

variable {h h' : PHist} {s : Device} {log : PLog} {c d : PConfig} {α : Type}

theorem held_eq (ht : device.Trace (fun _ _ _ _ => True) s log) (hl : Lawful law log) :
    s.held = heldOf (own .main log) := by
  obtain ⟨s₀,h₀,he⟩ := ht.replay_own .main hl (fun s => s.held) Held.act
    (fun s op r t hs => by cases op <;> rw [hs.2] <;> rfl)
    (fun j hj h op r b hlaw => by
      cases j with
      | main => contradiction
      | _ =>
        obtain ⟨o,rfl⟩ := hlaw
        rfl)
  rw [he, h₀.held]
  rfl

abbrev DeviceObeys (p : Prog α) (Q : PHist → α → Prop) (h : PHist) : Prop :=
  Obeys deviceLaw (May .main) p Q h

theorem only_lift (p : Rtbuddy.Prog α) :
    Program.Only (fun op : POp => ∃ o, op = .inner o) (p.lift : Prog α) := by
  induction p with
  | ret a => trivial
  | call op next ih => exact ⟨⟨op,rfl⟩,ih⟩

/-- The driver's programs change nothing of what the device holds. -/
theorem obeys_lift (p : Rtbuddy.Prog α) (hr : (heldOf h).Ready) :
    DeviceObeys p.lift (fun h' _ => heldOf h' = heldOf h ∧ h <:+ h') h := by
  refine obeys_only (only_lift p) (fun h' => heldOf h' = heldOf h ∧ h <:+ h')
    ⟨rfl,List.suffix_rfl⟩ ?_ ?_
  · rintro h' _ ⟨o,rfl⟩ ⟨he,-⟩
    exact (he.symm ▸ hr : (heldOf h').Ready)
  · rintro h' _ r ⟨o,rfl⟩ - ⟨he,hs⟩
    exact ⟨he,hs.trans (List.suffix_cons ..)⟩

theorem obeys_early {ret : ℤ} (h0 : ret ≠ 0) (hu : (heldOf h).usage = 0)
    (hd : (heldOf h).debugfs = false) (hv : (heldOf h).drvdata = false) :
    DeviceObeys (.ret ret : Prog ℤ) (fun h' ret => ProbeEnd ret (heldOf h')) h :=
  .inr ⟨h0,hu,hd,hv⟩

/-- Remove, its mark, and what is done behind it. -/
theorem obeys_removal {β : Type} {f : Unit → Prog β} {Q : PHist → β → Prop}
    (hh : (heldOf h).Ready)
    (hf : ∀ h', heldOf h' = heldOf h → RemovedIn h' → DeviceObeys (f ()) Q h') :
    DeviceObeys (remove.lift >>= fun _ => (mark .removed).lift >>= f) Q h := by
  refine (obeys_lift remove hh).bind ?_
  rintro h₁ - ⟨he₁,-⟩
  have hh₁ : (heldOf h₁).Ready := he₁.symm ▸ hh
  exact ⟨hh₁,fun _ _ => hf _ he₁ List.mem_cons_self⟩

/-- From the start of the driver on. -/
theorem obeys_probeRtbuddy (hh : (heldOf h).Ready) (hd : (heldOf h).debugfs = false)
    (hv : (heldOf h).drvdata = false) :
    DeviceObeys probeRtbuddy (fun h' ret => ProbeEnd ret (heldOf h')) h := by
  refine .request trivial fun u _ => ?_
  change DeviceObeys (boot.lift >>= _) _ _
  have hh₀ : (heldOf (⟨.own .displayBrokerInit,u⟩ :: h)).Ready := hh
  refine (obeys_lift boot hh₀).bind ?_
  rintro h₁ ret ⟨he₁,-⟩
  have hh₁ : (heldOf h₁).Ready := he₁.symm ▸ hh₀
  refine ⟨hh₁,fun u _ => ?_⟩
  change DeviceObeys (if _ then _ else _) _ _
  split_ifs with h0
  · refine obeys_removal hh₁ fun h₂ he₂ hr₂ => ?_
    have hheld : heldOf h₂ = heldOf h := he₂.trans he₁
    refine .request ⟨hheld.symm ▸ hh,hheld.symm ▸ hd,hr₂⟩ fun _ _ => .inr ⟨h0,?_⟩
    have hu : (heldOf h₂).usage = 1 := hheld.symm ▸ hh.usage
    change (heldOf h₂).usage-1 = 0 ∧ (heldOf h₂).debugfs = false ∧ (heldOf h₂).drvdata = false
    exact ⟨by omega,hheld.symm ▸ hd,hheld.symm ▸ hv⟩
  · refine .request trivial fun _ _ => .request trivial fun _ _ => .inl ⟨rfl,?_,rfl,rfl⟩
    exact ⟨⟨hh₁.mapped.agx,hh₁.mapped.region⟩,hh₁.usage⟩

theorem obeys_probePower (hm : (heldOf h).Mapped) (hu : (heldOf h).usage = 0)
    (hd : (heldOf h).debugfs = false) (hv : (heldOf h).drvdata = false) (hp : powerMoves h = []) :
    DeviceObeys probePower (fun h' ret => ProbeEnd ret (heldOf h')) h := by
  refine .request trivial fun ret _ => ?_
  split_ifs with h0
  · exact obeys_early h0 hu hd hv
  · refine .request ⟨hu,hm,hp⟩ fun ret _ => ?_
    split_ifs with h1
    · exact obeys_early h1 ((if_neg h1).trans hu) hd hv
    · refine obeys_probeRtbuddy ⟨⟨hm.agx,hm.region⟩,?_⟩ hd hv
      exact (if_pos (not_not.mp h1)).trans (congrArg (· + 1) hu)

theorem obeys_agxProbe : DeviceObeys agxProbe (fun h ret => ProbeEnd ret (heldOf h)) [] := by
  refine .request rfl fun agx _ => ?_
  cases agx with
  | false => exact obeys_early (by decide) rfl rfl rfl
  | true =>
    refine .request rfl fun base _ => ?_
    match base with
    | .error e => exact obeys_early (Int.ne_of_lt e.2) rfl rfl rfl
    | .ok size =>
      change DeviceObeys (if _ then _ else _) _ _
      split_ifs with hsize
      · exact obeys_early (by decide) rfl rfl rfl
      · refine .request trivial fun irq _ => ?_
        split_ifs with hirq
        · exact obeys_early (Int.ne_of_lt hirq) rfl rfl rfl
        · exact obeys_probePower ⟨rfl,size,rfl,not_lt.mp hsize⟩ rfl rfl rfl rfl

theorem obeys_agxTeardown (hh : (heldOf h).Ready) (hv : (heldOf h).drvdata = true) :
    DeviceObeys agxTeardown (fun h' _ => (heldOf h').usage = 0 ∧ (heldOf h').debugfs = false ∧
      (heldOf h').bound = (heldOf h).bound) h := by
  refine .request trivial fun agx hagx => ?_
  obtain ⟨s,log,t,ht,hl,rfl,-,hr,-⟩ := hagx
  obtain rfl : agx = true := by
    have heq : agx = s.held.drvdata := hr
    rw [heq, held_eq ht hl, hv]
  refine .request trivial fun u _ => ?_
  have hh₁ : (heldOf (⟨.own .debugfsRemove,u⟩ :: ⟨.own .getDrvdata,true⟩ :: own .main log)).Ready :=
    ⟨⟨hh.mapped.agx,hh.mapped.region⟩,hh.usage⟩
  refine obeys_removal hh₁ fun h₂ he₂ hr₂ => ?_
  refine ⟨⟨he₂.symm ▸ hh₁,he₂.symm ▸ rfl,hr₂⟩,fun _ _ => ?_⟩
  have hu : (heldOf h₂).usage = 1 := he₂.symm ▸ hh₁.usage
  change (heldOf h₂).usage-1 = 0 ∧ (heldOf h₂).debugfs = false ∧ (heldOf h₂).bound = _
  exact ⟨by omega,he₂.symm ▸ rfl,he₂.symm ▸ rfl⟩

theorem obeys_deviceLifecycle : DeviceObeys deviceLifecycle (fun _ _ => True) [] := by
  refine obeys_agxProbe.bind ?_
  intro h ret hend
  refine .request hend fun _ _ => ?_
  split_ifs with h0
  · subst h0
    obtain ⟨-,hh,-,hv⟩ | ⟨h0,-⟩ := hend
    · refine .request trivial fun u _ => ?_
      have hh₁ : (heldOf (⟨.own .removal,u⟩ :: ⟨.own (.probed 0),()⟩ :: h)).Ready :=
        ⟨⟨hh.mapped.agx,hh.mapped.region⟩,hh.usage⟩
      refine (obeys_agxTeardown hh₁ hv).bind ?_
      rintro h' - ⟨hu,hd,hb⟩
      exact ⟨⟨hu,hd,hb.trans rfl⟩,fun _ _ => trivial⟩
    · contradiction
  · obtain ⟨h1,-⟩ | ⟨-,hu,hd,-⟩ := hend
    · contradiction
    · exact ⟨⟨hu,hd,beq_eq_false_iff_ne.mpr h0⟩,fun _ _ => trivial⟩

theorem disciplined : device.Disciplined (fun _ _ _ _ => True) law (fun _ _ => True) where
  first i := by
    cases i with
    | main => exact obeys_deviceLifecycle
    | _ => trivial
  program i call p h hp _ := by
    obtain ⟨q,hq,rfl⟩ := Option.map_eq_some_iff.mp hp
    cases i with
    | main => contradiction
    | _ =>
      exact obeys_only (only_lift q) (fun _ => True) trivial (fun _ _ ho _ => ho)
        fun _ _ _ _ _ _ => trivial

theorem reach_law (hc : device.Reachable c) : Lawful law c.log := (hc.lawful disciplined).1

theorem reach_held (hc : device.Reachable c) : c.state.held = heldOf (own .main c.log) :=
  held_eq hc.trace (reach_law hc)

/-- A device with a usage count is ready. -/
theorem ready_of (ha : Along deviceLaw h) : (heldOf h).usage = 0 ∨ (heldOf h).Ready := by
  induction h with
  | nil => exact .inl rfl
  | cons a h ih =>
    obtain ⟨op,r⟩ := a
    obtain ⟨hl,ha⟩ := ha
    cases op with
    | inner op => exact ih ha
    | own o =>
      cases o with
      | devmKzalloc => exact .inl hl
      | ioremapResource => cases r <;> exact .inl hl
      | pmRuntimeGet =>
        by_cases h0 : r = (0 : ℤ)
        · exact .inr ⟨⟨hl.2.1.agx,hl.2.1.region⟩,(if_pos h0).trans (congrArg (· + 1) hl.1)⟩
        · exact .inl ((if_neg h0).trans hl.1)
      | pmRuntimePut => exact .inl (congrArg (· - 1) hl.1.usage)
      | release => exact .inl hl.1
      | _ => exact (ih ha).imp id fun hr => ⟨⟨hr.mapped.agx,hr.mapped.region⟩,hr.usage⟩

theorem reach_ready (hc : device.Reachable c) : c.state.held.usage = 0 ∨ c.state.held.Ready := by
  rw [reach_held hc]
  exact ready_of ((reach_law hc).along .main)

/-- No interrupt, no shared buffer, and the power state is OFF. -/
structure Quiet (s : World) : Prop where
  irqRegistered : s.irqRegistered = false
  irqBusy : s.irqBusy = false
  dma : s.dma = []
  power : s.rb.power = .off

theorem quiet_of_probed {s : World} (hs : Rtbuddy.Probed s) : Quiet s :=
  ⟨hs.irqRegistered,hs.irqBusy,hs.dma,by rw [hs.rb]; rfl⟩

/-- What remove leaves, and the CPU stopped. -/
theorem quiet_of_removed {d : Config Party Op Res World} (hd : driver.Reachable d)
    (hm : (.main,(⟨.mark .removed,()⟩ : Ev)) ∈ d.log) :
    Quiet d.state ∧ d.state.cpuCtrl &&& cpuCtrlRun = 0#32 := by
  have ht := hd.trace
  have hl := reach_lawful hd
  obtain ⟨later,earlier,hlog,hlaw⟩ := hl.mem hm
  have hsuffix : own .main earlier <:+ own .main d.log := by
    rw [hlog, own_append, own_cons_self]
    exact ⟨own .main later ++ [⟨.mark .removed,()⟩],by simp⟩
  have hreleased : Released (own .main d.log) :=
    ((hlaw 0).mono hsuffix).released (hl.along .main)
  have hrest := atRest_of ht hl hreleased
  have hcust := custody_of ht hl (reach_strike hd)
  obtain ⟨h',he,hgone⟩ := gone_of_removed (reach_unwind hd) fun hn => hn (mem_own.mpr hm)
  refine ⟨⟨hrest.irq,hrest.handler,?_,?_⟩,hrest.cpu⟩
  · refine hcust.tallies.eq_nil fun b hb => ?_
    obtain ⟨hcpu,-,k,rfl⟩ := hb
    rw [sized_cpu] at hcpu
    exact hcpu (emptied_cpu ht hl ((hlaw k).mono hsuffix))
  · rw [power_eq ht hl, he]
    exact hgone.power

theorem mem_innerLog {i : Party} {op : Op} {r : Res op}
    (hm : (i,(⟨.inner op,r⟩ : PEv)) ∈ log) : (i,(⟨op,r⟩ : Ev)) ∈ innerLog log :=
  List.mem_filterMap.mpr ⟨_,hm,rfl⟩

section Steps

variable {i : Party} {op : Op} {r : Res op}

/-- A step of the driver obeys the driver's law. -/
theorem inner_law (hc : device.Reachable c) (hs : device.Step (fun _ _ _ _ => True) c d)
    (hd : d.log = (i,⟨.inner op,r⟩) :: c.log) : Rtbuddy.law i (own i (innerLog c.log)) op := by
  obtain ⟨d',hd',hshadow⟩ := shadow_of (hc.step hs)
  have hl := reach_lawful hd'
  rw [hshadow.log, hd, innerLog_inner] at hl
  exact hl.1

/-- The interrupt thread does nothing but enter while the handler does not run. -/
theorem irq_outside (hc : device.Reachable c)
    (hl : Rtbuddy.law .irq (own .irq (innerLog c.log)) op) (hb : c.state.world.irqBusy = false) :
    op = .irqEnter := by
  obtain ⟨d,hd,hs⟩ := shadow_of hc
  refine hl.resolve_right fun hi => ?_
  rw [← hs.log, ← irqBusy_eq hd.trace (reach_lawful hd), hs.state, hb] at hi
  exact absurd hi.1 (by decide)

theorem law_own {o : Platform} {h : PHist} (hl : law i h (.own o)) : i = .main := by
  cases i with
  | main => rfl
  | _ => exact nomatch hl

end Steps

/-- Without power the driver is at rest. -/
theorem quiet_of_unpowered (hc : device.Reachable c) (hu : c.state.held.usage = 0) :
    Quiet c.state.world := by
  induction hc with
  | init h => exact quiet_of_probed h.world
  | @step c d hc hs ih =>
    cases hs with
    | start => exact ih hu
    | @act i op next r t hi hg hs =>
      have hl : law i (own i c.log) op := (reach_law (hc.step (.act hi hg hs))).1
      cases op with
      | own o =>
        obtain ⟨-,rfl⟩ := hs
        obtain rfl := law_own hl
        cases o with
        | pmRuntimePut =>
          obtain ⟨d,hd,hshadow⟩ := shadow_of hc
          have hm : (.main,(⟨.mark .removed,()⟩ : Ev)) ∈ d.log :=
            hshadow.log ▸ mem_innerLog (mem_own.mp hl.2.2)
          exact hshadow.state ▸ (quiet_of_removed hd hm).1
        | pmRuntimeGet =>
          have hu' : (heldOf (own .main c.log)).usage = 0 := hl.1
          rw [← reach_held hc] at hu'
          exact ih hu'
        | ioremapResource => cases r <;> exact ih hu
        | _ => exact ih hu
      | inner op =>
        have hinner := inner_law hc (.act hi hg hs) rfl
        obtain ⟨ha,rfl⟩ := hs
        have hq := ih hu
        cases i with
        | main =>
          have hr : (heldOf (own .main c.log)).Ready := hl
          rw [← reach_held hc] at hr
          exact absurd (hr.usage.symm.trans hu) (by decide)
        | irq =>
          obtain rfl := irq_outside hc hinner hq.irqBusy
          exact absurd (ha.1.symm.trans hq.irqRegistered) (by decide)
        | gpu n => cases op <;> first | exact hq | exact hinner.elim
        | firmware =>
          cases op with
          | push msg0 msg1 => exact ⟨hq.irqRegistered,hq.irqBusy,hq.dma,hq.power⟩
          | _ => exact hinner.elim

section Schedule

/-- The thread is about to look at the outbox control. -/
def readsControl (i : Party) (c : PConfig) : Bool :=
  match c.thread i with
  | .call (.inner .readI2a) _ => true
  | _ => false

theorem readsControl_step {i : Party} (h : readsControl i c = true) : ∃ d,
    device.Step (fun _ _ _ _ => True) c d ∧
      d.log = (i,⟨.inner .readI2a,c.state.world.i2aControl⟩) :: c.log := by
  unfold readsControl at h
  split at h
  · rename_i next hthread
    exact ⟨_,.act hthread trivial ⟨rfl,rfl⟩,rfl⟩
  · contradiction

end Schedule

/-- The registers an operation uses, with their widths in bytes. -/
def registers : Op → List (ℕ × ℕ)
  | .readCtrl | .writeCtrl _ => [(0x44,4)]
  | .readI2a | .writeI2a _ => [(0x8114,4)]
  | .recv0 => [(0x8830,8)]
  | .recv1 => [(0x8838,8)]
  | .send .. => [(0x8110,4),(0x8800,8),(0x8808,8)]
  | _ => []

theorem registers_fit (op : Op) : ∀ reg ∈ registers op, reg.1+reg.2 ≤ mboxRegionSize := by
  cases op <;> simp [registers, mboxRegionSize]

/-- The operation is on an allocated structure and mapped registers that are powered. -/
structure Backed (s : Device) (op : Op) : Prop where
  agx : s.held.agx = true
  usage : s.held.usage = 1
  region : ∃ size, s.held.region = some size ∧ ∀ reg ∈ registers op, reg.1+reg.2 ≤ size

theorem Held.Ready.backed {s : Device} (hs : s.held.Ready) (op : Op) : Backed s op := by
  obtain ⟨size,hsize,hle⟩ := hs.mapped.region
  exact ⟨hs.mapped.agx,hs.usage,size,hsize,fun reg hreg => (registers_fit op reg hreg).trans hle⟩

section Steps

variable {i : Party}

/-- Whatever the platform and the firmware do, the driver's own threads never use memory,
registers or power that the device does not hold. -/
theorem own_threads_backed {op : Op} {r : Res op} (hc : device.Reachable c)
    (hs : device.Step (fun _ _ _ _ => True) c d) (hd : d.log = (i,⟨.inner op,r⟩) :: c.log)
    (hi : i = .main ∨ i = .irq) : Backed c.state op := by
  rcases reach_ready hc with hu | hr
  · have hq := quiet_of_unpowered hc hu
    have hl := reach_law (hc.step hs)
    rw [hd] at hl
    rcases hi with rfl | rfl
    · have hr : (heldOf (own .main c.log)).Ready := hl.1
      rw [← reach_held hc] at hr
      exact hr.backed op
    · obtain rfl := irq_outside hc (inner_law hc hs hd) hq.irqBusy
      cases hs with
      | start => exact absurd hd.symm (List.cons_ne_self _ _)
      | act _ _ hstep =>
        cases (List.cons.inj hd).1
        exact absurd (hstep.1.1.symm.trans hq.irqRegistered) (by decide)
  · exact hr.backed op

/-- Boot's first look at the outbox control, and that of the first interrupt. -/
theorem own_threads_backed_first :
    (∃ c d : PConfig, device.Reachable c ∧
      d.log = (.main,⟨.inner .readI2a,c.state.world.i2aControl⟩) :: c.log ∧
        Backed c.state .readI2a) ∧
    ∃ c d : PConfig, device.Reachable c ∧
      d.log = (.irq,⟨.inner .readI2a,c.state.world.i2aControl⟩) :: c.log ∧
        Backed c.state .readI2a := by
  obtain ⟨c,hc,h⟩ := reach_of_turns [.acts .main 6 true] (readsControl .main) (by decide +kernel)
  obtain ⟨d,hs,hd⟩ := readsControl_step h
  refine ⟨⟨c,d,hc,hd,own_threads_backed hc hs hd (.inl rfl)⟩,?_⟩
  obtain ⟨c,hc,h⟩ := reach_of_turns
    [.acts .main 15 true,.start .irq .interrupt,.acts .irq 1 true] (readsControl .irq)
    (by decide +kernel)
  obtain ⟨d,hs,hd⟩ := readsControl_step h
  exact ⟨c,d,hc,hd,own_threads_backed hc hs hd (.inr rfl)⟩

end Steps

end AgxOpen.Probe
