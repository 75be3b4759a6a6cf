import AgxOpen.Rtbuddy.Negotiation
import AgxOpen.Rtbuddy.Unwind

/-!
# The state behind a failed boot and behind remove

A failed boot leaves the CPU stopped, no GPU caller served and no listener
called. Remove leaves the same, whatever boot returned.
-/
namespace AgxOpen.Rtbuddy
open Rtkit

variable {guard : World → Log Party Op Res → Party → Op → Prop} {s : World} {log : RunLog}
  {c : Config Party Op Res World} {h : Hist}

section Flags

variable (ht : Ran guard s log) (hl : Lawful law log)
include ht hl

theorem firmwareUp_eq : s.rb.firmwareUp = latest firmwareStore false (own .main log) := by
  refine main_own ht hl (?_ : OwnField (fun s => s.firmwareUp) _) (fun f hf => ?_) fun _ => rfl
  · exact ⟨fun _ f => by cases f <;> rfl,fun _ _ => rfl,fun _ _ _ => rfl⟩
  · cases f <;> first | rfl | contradiction

theorem doorbellUp_eq : s.rb.doorbellUp = latest doorbellStore false (own .main log) :=
  main_own ht hl doorbellUp_field (fun f hf => by cases f <;> first | rfl | contradiction)
    fun _ => rfl

/-- Where the doorbell was never stored as up it never was up. -/
theorem doorbellUp_false (hd : (⟨.store (.doorbellUp true),()⟩ : Ev) ∉ own .main log) :
    s.rb.doorbellUp = false := by
  rw [doorbellUp_eq ht hl]
  by_contra hne
  obtain ⟨later,⟨op,r⟩,earlier,he,ha,-⟩ := latest_split rfl hne
  rw [(Bool.not_eq_false _).mp hne] at ha
  refine hd (he ▸ List.mem_append_right _ ?_)
  cases op with
  | store f =>
    cases f with
    | doorbellUp value =>
      cases ha
      exact List.mem_cons_self
    | _ => contradiction
  | _ => contradiction

/-- A GPU caller puts nothing into the inbox while the doorbell never was up. -/
theorem gpu_silent (hd : (⟨.store (.doorbellUp true),()⟩ : Ev) ∉ own .main log) {n : ℕ}
    {endpoint : U32} {message : U64} {r : ℤ} :
    (.gpu n,(⟨.send endpoint message,r⟩ : Ev)) ∉ log := by
  intro hm
  obtain ⟨later,earlier,rfl,hlaw⟩ := hl.mem hm
  obtain ⟨u,v,ht',-,-⟩ := ht.split
  obtain ⟨t,before,hb,hlb,hsuf,hup⟩ := Read.state ht' hl.of_append.2 hlaw.2.2
  rw [doorbellUp_false hb hlb fun hs => hd (mem_own.mpr ?_)] at hup
  · contradiction
  · exact List.mem_append_right _ (List.mem_cons_of_mem _ (hsuf.subset (mem_own.mp hs)))

end Flags

/-- The transitions the broker was told, oldest first. -/
def transitions (log : RunLog) : List (PowerState × PowerState) :=
  (log.filterMap fun x => notified x.2).reverse

theorem notified_foreign {op : Op} {r : Res op} (hop : mains op = false) : notified ⟨op,r⟩ = none := by
  cases op <;> first | rfl | contradiction

theorem transitions_eq (hl : Lawful law log) : transitions log = (notifies (own .main log)).reverse := by
  refine congrArg List.reverse ?_
  induction log with
  | nil => rfl
  | cons e log ih =>
    obtain ⟨j,op,r⟩ := e
    by_cases hj : j = .main
    · subst hj
      rw [own_cons_self, notifies, List.filterMap_cons, List.filterMap_cons, ih hl.2]
      rfl
    · rw [own_cons_ne hj, ← ih hl.2]
      exact List.filterMap_cons_none (notified_foreign (mains_other hj hl.1))

/-- A listener that was registered throughout, whatever others did to the broker
in between, saw exactly the transitions. -/
def Saw (log : RunLog) (seen : List (PowerState × PowerState)) : Prop :=
  ∀ (L : Type) [DecidableEq L] (b b' : Display.Broker L) ops calls listener,
    b.run ops = some (b',calls) → listener ∈ b.listeners → .unregister listener ∉ ops →
    ops.filterMap Display.transition = transitions log → Display.seen listener calls = seen

theorem saw_transitions (log : RunLog) : Saw log (transitions log) :=
  fun _ _ _ _ _ _ _ hrun hl hstay hops => (Display.run_seen hrun hl hstay).trans hops

/-- `agx_rtbuddy_started` of one moment. -/
def isStarted (s : Rtbuddy) : Bool :=
  levelOn s.rtkit.iopPower && levelOn s.rtkit.apPower && s.firmwareUp && s.doorbellUp

/-- The CPU control register is as it was last read, without the run bit. -/
def CpuStopped (c : Config Party Op Res World) : Prop := ∃ later ctrl earlier,
  own .main c.log = later ++ ⟨.writeCtrl (ctrl &&& ~~~cpuCtrlRun),()⟩ :: ⟨.readCtrl,ctrl⟩ :: earlier ∧
    c.state.cpuCtrl = ctrl &&& ~~~cpuCtrlRun

/-- What holds from the return of a failed boot on. -/
structure FailedBoot (c : Config Party Op Res World) : Prop where
  stopped : CpuStopped c
  cpuRunning : c.state.rb.cpuRunning = false
  firmwareUp : c.state.rb.firmwareUp = false
  doorbellUp : c.state.rb.doorbellUp = false
  started : isStarted c.state.rb = false
  unserved : ∀ n endpoint message (r : ℤ), (.gpu n,⟨.send endpoint message,r⟩) ∉ c.log
  power : c.state.rb.power = .off
  saw : transitions c.log = [] ∧ Saw c.log []

/-- The transitions of a whole run in which boot returned `ret`. -/
def powerCycle (display : Bool) (ret : ℤ) : List (PowerState × PowerState) :=
  if display = true ∧ ret = 0 then [(.off,.on),(.on,.off)] else []

/-- What holds behind remove. -/
structure RemovedClean (ret : ℤ) (c : Config Party Op Res World) : Prop where
  released : c.state.irqRegistered = false ∧ c.state.irqBusy = false
  stopped : CpuStopped c
  power : c.state.rb.power = .off
  saw : transitions c.log = powerCycle c.state.rb.display ret ∧
    Saw c.log (powerCycle c.state.rb.display ret)

section Ends

variable (hc : driver.Reach guard c)
include hc

theorem cpuStopped_of (hr : RunCleared (own .main c.log)) : CpuStopped c := by
  obtain ⟨later,ctrl,earlier,he,hlater⟩ := hr
  refine ⟨later,ctrl,earlier,he,cpuCtrl_eq hc.trace (reach_lawful hc) ?_⟩
  rw [he, List.findSome?_append, List.findSome?_eq_none_iff.mpr hlater]
  rfl

theorem failedBoot_of (hf : BootFailed (own .main c.log)) : FailedBoot c := by
  have hs := stopped_of_failed (reach_unwind hc) hf
  have ht := hc.trace
  have hl := reach_lawful hc
  have hd := doorbellUp_false ht hl hs.doorbell
  have hq : transitions c.log = [] := by rw [transitions_eq hl, hs.quiet]; rfl
  exact {
    stopped := cpuStopped_of hc hs.ctrl
    cpuRunning := (cpuRunning_eq ht hl).trans hs.run
    firmwareUp := (firmwareUp_eq ht hl).trans hs.firmware
    doorbellUp := hd
    started := by rw [isStarted, hd, Bool.and_false]
    unserved := fun n e m r => gpu_silent ht hl hs.doorbell
    power := (power_eq ht hl).trans hs.power
    saw := ⟨hq,hq ▸ saw_transitions c.log⟩ }

theorem removedClean_of {ret : ℤ} (hb : Booted ret (own .main c.log))
    (hr : ¬ Present (own .main c.log)) : RemovedClean ret c := by
  obtain ⟨h',he,hg⟩ := gone_of_removed (reach_unwind hc) hr
  have ht := hc.trace
  have hl := reach_lawful hc
  have hal : Along mainLaw (⟨.mark .removed,()⟩ :: h') := he ▸ hl.along .main
  have hrel : Released (own .main c.log) := by
    obtain ⟨later,earlier,hre,hsplit⟩ := hal.1 0
    rw [he]
    refine Released.cons ?_ hal.1
    have hal' := hal.2
    obtain rfl | ⟨x,rfl,-⟩ := hsplit
    · exact (hre.cons hal'.of_append.1).append hal'
    · exact (hre.cons hal'.of_append.1).append hal'
  have hb' : Booted ret h' := by
    rw [he] at hb
    exact (List.mem_cons.mp hb).resolve_left nofun
  have hctrl : RunCleared (own .main c.log) := he ▸ hg.ctrl.cons rfl
  have hpow : powerOf (own .main c.log) = .off := he ▸ hg.power
  have hq : transitions c.log = powerCycle c.state.rb.display ret := by
    rw [transitions_eq hl, he]
    change (notifies h').reverse = _
    by_cases h0 : ret = 0
    · obtain ⟨x,hx,hn⟩ := hg.good (h0 ▸ hb')
      have hdisp : x.display = c.state.rb.display := by
        refine load_display ht (i := .main) (mem_own.mp ?_)
        rw [he]
        exact List.mem_cons_of_mem _ hx
      rw [hn, hdisp, powerCycle]
      cases c.state.rb.display <;> simp [h0]
    · rw [hg.failed ⟨ret,h0,hb'⟩, powerCycle, if_neg fun hp => h0 hp.2]
      rfl
  exact ⟨⟨hrel.irqRegistered ht hl,hrel.irqBusy ht hl⟩,cpuStopped_of hc hctrl,
    (power_eq ht hl).trans hpow,hq,hq ▸ saw_transitions c.log⟩

end Ends

/-- A failed boot is clean, and so is remove behind any boot. -/
theorem boot_unwinds (h : driver.Reachable c) {ret : ℤ}
    (hb : (.main,(⟨.mark (.booted ret),()⟩ : Ev)) ∈ c.log) :
    (ret ≠ 0 → FailedBoot c) ∧
      ((.main,(⟨.mark .removed,()⟩ : Ev)) ∈ c.log → RemovedClean ret c) :=
  ⟨fun h0 => failedBoot_of h ⟨ret,h0,mem_own.mpr hb⟩,
    fun hr => removedClean_of h (mem_own.mpr hb) fun hn => hn (mem_own.mpr hr)⟩

/-- The boot thread returned from boot with `ret` and then from remove. -/
def returned (ret : ℤ) : RunLog → Bool
  | (.main,⟨.mark .removed,_⟩) :: rest => rest.any fun x =>
    match x with
    | (.main,⟨.mark (.booted r),_⟩) => r == ret
    | _ => false
  | _ => false

theorem returned_mem {ret : ℤ} (hr : returned ret log = true) :
    (.main,(⟨.mark (.booted ret),()⟩ : Ev)) ∈ log ∧ (.main,(⟨.mark .removed,()⟩ : Ev)) ∈ log := by
  unfold returned at hr
  split at hr
  · obtain ⟨x,hx,hm⟩ := List.any_eq_true.mp hr
    refine ⟨List.mem_cons_of_mem _ ?_,List.mem_cons_self⟩
    split at hm
    · obtain rfl := beq_iff_eq.mp hm
      exact hx
    · contradiction
  · contradiction

/-- A boot with a firmware that never answers, and the remove behind it. -/
def silentBoot : Schedule := [.acts .main 10 true,.acts .main 22 false]

theorem boot_unwinds_silent : ∃ c : Config Party Op Res World,
    returned Status.etimedout c.log = true ∧ FailedBoot c ∧ RemovedClean Status.etimedout c := by
  obtain ⟨c,hc,hr⟩ := reach_of_schedule (fun _ _ _ _ => True) silentBoot
    (fun c => returned Status.etimedout c.log) (by decide +kernel)
  obtain ⟨hb,hrem⟩ := returned_mem hr
  exact ⟨c,hr,(boot_unwinds hc hb).1 (by decide),(boot_unwinds hc hb).2 hrem⟩

end AgxOpen.Rtbuddy
