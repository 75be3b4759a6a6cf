import AgxOpen.Rtbuddy.Negotiation
import AgxOpen.Rtbuddy.Unwind

/-!
# Messages for a stopped coprocessor

Remove asks the last power acknowledgements whether to talk to the firmware.
Behind a boot that failed they can still say ON with the CPU stopped.
-/
namespace AgxOpen.Rtbuddy
open Rtkit

variable {c d : Config Party Op Res World} {h : Hist}

/-- A message that the step leaves in the inbox for boot or remove finds the run
bit set. -/
def SentRunning (c d : Config Party Op Res World) : Prop :=
  ∀ endpoint m, d.log = (.main,⟨.send endpoint m,(0 : ℤ)⟩) :: c.log → c.state.cpuCtrl &&& cpuCtrlRun ≠ 0#32

/-- The second load of `agx_rtkit_running` in remove finds both power levels on
although `cpu_running` is clear. -/
def misled (s : World) (log : RunLog) : Party → Op → Bool
  | .main, .load =>
    match own .main log with
    | ⟨.load,s₀⟩ :: ⟨.mark (.booted _),_⟩ :: _ =>
      !s.rb.cpuRunning && levelOn s₀.rtkit.iopPower && levelOn s.rb.rtkit.apPower
    | _ => false
  | _, _ => false

/-- Remove is not misled. -/
abbrev Careful (s : World) (log : RunLog) (i : Party) (op : Op) : Prop := misled s log i op = false

/-- Without being misled remove goes on only behind a boot that succeeded. -/
theorem booted_of_found (hc : driver.Reach Careful c) {ret : ℤ}
    (hr : FoundRunning ret (own .main c.log)) : ret = 0 := by
  by_contra hret
  obtain ⟨later,earlier,s₁,s₀,he,hiop,hap⟩ := hr
  obtain ⟨after,before,hlog,-,hown⟩ := own_split he
  have halong := reach_unwind hc
  have htrace := hc.trace
  have hl := reach_lawful hc
  rw [he] at halong
  rw [hlog] at htrace hl
  obtain ⟨t,_,ht,hcareful,hload,-⟩ := htrace.split
  obtain rfl : s₁ = t.rb := hload
  have hfailed : BootFailed (own .main before) := by
    rw [hown]
    exact ⟨ret,hret,List.mem_cons_of_mem _ List.mem_cons_self⟩
  have hstopped : Stopped (own .main before) :=
    stopped_of_failed (by rw [hown]; exact halong.of_append.2) hfailed
  have hrun : t.rb.cpuRunning = false := (cpuRunning_eq ht hl.of_append.2).trans hstopped.run
  have hm : misled t before .main .load = false := hcareful
  simp [misled, hown, hrun, hiop, hap] at hm

theorem runs_of_ctrl {guard : World → RunLog → Party → Op → Prop} (hc : driver.Reach guard c)
    (hr : CtrlRuns (own .main c.log)) : c.state.cpuCtrl &&& cpuCtrlRun ≠ 0#32 := by
  obtain ⟨ctrl,hctrl,hne⟩ := hr
  rwa [cpuCtrl_eq hc.trace (reach_lawful hc) hctrl]

/-- Boot and remove talk to a coprocessor that runs, in every run in which
remove is not misled. -/
theorem sends_running (hc : driver.Reach Careful c) (hs : driver.Step Careful c d) :
    SentRunning c d := by
  intro endpoint m hd
  have hl := reach_lawful (hc.step hs)
  rw [hd] at hl
  have hlaw : mainLaw (own .main c.log) (.send endpoint m) := hl.1
  obtain ⟨-,hsend⟩ := hlaw
  refine runs_of_ctrl hc ?_
  cases hsend with
  | iopInit hctrl => exact hctrl
  | apOn hctrl => exact hctrl
  | startep hctrl => exact hctrl
  | quiesce hr hctrl => exact hctrl (booted_of_found hc hr)
  | sleep hr hctrl => exact hctrl (booted_of_found hc hr)

/-- The boot thread is about to send the message. -/
def aboutToSend (m : U64) (c : Config Party Op Res World) : Bool :=
  match c.thread .main with
  | .call (.send endpoint m') _ => endpoint == epMgmt && m' == m
  | _ => false

theorem aboutToSend_step (guard : World → RunLog → Party → Op → Prop) {m : U64}
    (ha : aboutToSend m c = true) (hg : guard c.state c.log .main (.send epMgmt m)) :
    ∃ d, driver.Step guard c d ∧ d.log = (.main,⟨.send epMgmt m,(0 : ℤ)⟩) :: c.log := by
  unfold aboutToSend at ha
  split at ha
  · rename_i endpoint m' next hthread
    simp only [Bool.and_eq_true, beq_iff_eq] at ha
    obtain ⟨rfl,rfl⟩ := ha
    exact ⟨_,.act hthread hg ⟨.inl rfl,rfl⟩,rfl⟩
  · contradiction

theorem sends_running_quiesce : ∃ c d : Config Party Op Res World, driver.Reach Careful c ∧
    d.log = (.main,⟨.send epMgmt (apPowerMsg pwrQuiesced),(0 : ℤ)⟩) :: c.log ∧ SentRunning c d := by
  obtain ⟨c,hc,ha⟩ := reach_of_schedule Careful (goodBoot ++ [.acts .main 3 true])
    (aboutToSend (apPowerMsg pwrQuiesced)) (by decide +kernel)
  obtain ⟨d,hs,hd⟩ := aboutToSend_step Careful ha rfl
  exact ⟨c,d,hc,hd,sends_running hc hs⟩

/-- The roll call names the doorbell endpoint but not the firmware's, so boot
fails with both power levels on. -/
def doorbellOnly : Schedule :=
  [.acts .main 10 true] ++ delivers helloMsg ++ delivers (epmapMsg 0 0x11e false) ++
    delivers (epmapMsg 1 0x2 true) ++ delivers (iopAckMsg pwrOn) ++ interrupt 84 ++ [.acts .main 7 true] ++
    delivers (apAckMsg pwrOn) ++ interrupt 14 ++ [.acts .main 15 true]

/-- QUIESCED goes to a stopped coprocessor. -/
theorem sends_stopped : ∃ c d : Config Party Op Res World, driver.Reachable c ∧
    driver.Step (fun _ _ _ _ => True) c d ∧ bootResults c.log = [Status.einval] ∧
      d.log = (.main,⟨.send epMgmt (apPowerMsg pwrQuiesced),(0 : ℤ)⟩) :: c.log ∧ ¬ SentRunning c d := by
  obtain ⟨c,hc,he⟩ := reach_of_schedule (fun _ _ _ _ => True) doorbellOnly
    (fun c => aboutToSend (apPowerMsg pwrQuiesced) c && bootResults c.log == [Status.einval] &&
      c.state.cpuCtrl == 0#32) (by decide +kernel)
  simp only [Bool.and_eq_true, beq_iff_eq] at he
  obtain ⟨⟨ha,hb⟩,hctrl⟩ := he
  obtain ⟨d,hs,hd⟩ := aboutToSend_step (fun _ _ _ _ => True) ha trivial
  refine ⟨c,d,hc,hs,hb,hd,fun hr => hr _ _ hd ?_⟩
  rw [hctrl]
  rfl

end AgxOpen.Rtbuddy
