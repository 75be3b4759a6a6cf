import AgxOpen.Rtbuddy.Evidence

/-!
# The order of messages in the inbox

Whatever the firmware sends, whichever sends fail and whichever waits time out,
a message enters the inbox only behind what calls for it.
-/
namespace AgxOpen.Rtbuddy
open Rtkit

variable {guard : World → RunLog → Party → Op → Prop} {s : World} {log earlier : RunLog}

/-- The message a send puts into the inbox. -/
def entered : Ev → Option (U32 × U64)
  | ⟨.send endpoint message,r⟩ => if r = (0 : ℤ) then some (packMsg1 endpoint,message) else none
  | _ => none

/-- Everything that entered the inbox, newest first. -/
def inbox (log : RunLog) : List (U32 × U64) := log.filterMap fun x => entered x.2

/-- What lies behind a message that enters the inbox. -/
structure OrderLaw (earlier : RunLog) (endpoint : U32) (message : U64) : Prop where
  first : inbox earlier = [] → endpoint = epMgmt ∧ message = iopPowerMsg pwrInit
  apOn : endpoint = epMgmt → message = apPowerMsg pwrOn → RollCalled earlier ∧ IopOn earlier
  startep : endpoint = epMgmt → msgType message = mgmtStartep →
    startepEndpoint message ≥ epAppStart →
      Announced earlier (startepEndpoint message) ∧ IopOn earlier ∧ ApOn earlier ∧
        (startepEndpoint message = epDoorbell → Entered earlier (startepMsg epFirmware))
  gpu : endpoint = epFirmware ∨ endpoint = epDoorbell →
    Entered earlier (startepMsg epFirmware) ∧ Entered earlier (startepMsg epDoorbell)

def WireOrder (log : RunLog) : Prop :=
  ∀ later i a earlier endpoint message, log = later ++ (i,a) :: earlier →
    entered a = some (endpoint,message) → OrderLaw earlier endpoint message

theorem Entered.inbox_ne {m : U64} (he : Entered earlier m) : inbox earlier ≠ [] := by
  obtain ⟨i,hm⟩ := he
  exact List.ne_nil_of_mem (List.mem_filterMap.mpr ⟨_,hm,rfl⟩)

/-- The interrupt thread does nothing before INIT is in the inbox. -/
theorem init_of_irq (ht : Ran guard s log) (hl : Lawful law log) {op : Op} {r : Res op}
    (hm : (.irq,⟨op,r⟩) ∈ log) (hop : op ≠ .irqEnter) : Entered log (iopPowerMsg pwrInit) := by
  obtain ⟨later,earlier,rfl⟩ := List.append_of_mem hm
  obtain ⟨t,-,ht',-⟩ := ht.split
  have hi := (hl.split.resolve_left hop).1
  exact (init_of_inside ht' hl.of_append.2 hi).mono
    ((List.suffix_cons _ _).trans (List.suffix_append _ _))

theorem init_of_iopOn (ht : Ran guard s log) (hl : Lawful law log) (hon : IopOn log) :
    Entered log (iopPowerMsg pwrInit) := by
  obtain ⟨m,-,-,later,earlier,rfl,hu⟩ := hon
  exact init_of_irq ht hl (List.mem_append_left _ hu) (by simp)

section Loads

variable (ht : Ran guard s log) (hl : Lawful law log)
include ht hl

theorem Read.levelOn (p : Power)
    (hr : Read (fun s => Rtkit.levelOn (p.level s.rtkit) = true) (own .main log)) :
    LevelOn p.ackType p.setLevel log := by
  obtain ⟨t,earlier,ht',hl',hsuf,hon⟩ := hr.state ht hl
  exact (levelOn_of ht' hl' p hon).mono hsuf

theorem Read.announced {endpoint : U32} (hne : endpoint ≠ epMgmt)
    (hr : Read (fun s => s.rtkit.announced endpoint = true) (own .main log)) :
    Announced log endpoint := by
  obtain ⟨t,earlier,ht',hl',hsuf,hon⟩ := hr.state ht hl
  refine (announced_of hl' ?_ hne).mono hsuf
  rwa [announcedIn, ← endpoints_eq ht' hl']

theorem FoundRunning.iopOn {ret : ℤ} (hr : FoundRunning ret (own .main log)) : IopOn log := by
  obtain ⟨later,earlier,s₁,s₀,he,hiop,-⟩ := hr
  refine Read.levelOn ht hl .iop ⟨s₀,?_,hiop⟩
  rw [he]
  exact List.mem_append_right _ (List.mem_cons_of_mem _ List.mem_cons_self)

theorem orderLaw_main {m : U64} (hs : MainSend (own .main log) m) : OrderLaw log epMgmt m := by
  have hgpu : ¬ (epMgmt = epFirmware ∨ epMgmt = epDoorbell) := by decide
  cases hs with
  | iopInit hc =>
    exact ⟨fun _ => ⟨rfl,rfl⟩,fun _ he => absurd he (by decide),
      fun _ ht => absurd ht (by decide),fun hg => absurd hg hgpu⟩
  | apOn hc hi hp hon =>
    refine ⟨fun h0 => absurd h0 hi.entered.inbox_ne,fun _ _ => ?_,fun _ ht => absurd ht (by decide),
      fun hg => absurd hg hgpu⟩
    exact ⟨hp.rollCalled ht hl,Read.levelOn ht hl .iop hon⟩
  | @startep endpoint hc hi he ha hiop hap =>
    have hep : startepEndpoint (startepMsg endpoint) = endpoint ∧ endpoint ≠ epMgmt := by
      obtain rfl | ⟨rfl,-⟩ := he
      · exact ⟨startepEndpoint_startepMsg (by decide),by decide⟩
      · exact ⟨startepEndpoint_startepMsg (by decide),by decide⟩
    refine ⟨fun h0 => absurd h0 hi.entered.inbox_ne,fun _ heq => ?_,fun _ _ _ => ?_,
      fun hg => absurd hg hgpu⟩
    · have htype := congrArg msgType heq
      rw [msgType_startepMsg, msgType_apPowerMsg] at htype
      exact absurd htype (by decide)
    · rw [hep.1]
      refine ⟨ha.announced ht hl hep.2,Read.levelOn ht hl .iop hiop,Read.levelOn ht hl .ap hap,fun hd => ?_⟩
      exact (he.resolve_left (hd ▸ by decide)).2.entered
  | quiesce hr hc =>
    exact ⟨fun h0 => absurd h0 (init_of_iopOn ht hl (hr.iopOn ht hl)).inbox_ne,
      fun _ he => absurd he (by decide),fun _ ht => absurd ht (by decide),
      fun hg => absurd hg hgpu⟩
  | sleep hr hc hw =>
    exact ⟨fun h0 => absurd h0 (init_of_iopOn ht hl (hr.iopOn ht hl)).inbox_ne,
      fun _ he => absurd he (by decide),fun _ ht => absurd ht (by decide),
      fun hg => absurd hg hgpu⟩

theorem orderLaw_irq {endpoint : U32} {m : U64} (hi : inside (own .irq log) = true)
    (hs : IrqSend endpoint m) : OrderLaw log (packMsg1 endpoint) m := by
  have hgpu : ¬ (epMgmt = epFirmware ∨ epMgmt = epDoorbell) := by decide
  have hfirst : inbox log ≠ [] := (init_of_inside ht hl hi).inbox_ne
  have hmgmt : ∀ m, msgType m ≠ mgmtApPwr →
      (msgType m = mgmtStartep → ¬ startepEndpoint m ≥ epAppStart) → OrderLaw log epMgmt m := by
    intro m hap hstart
    refine ⟨fun h0 => absurd h0 hfirst,fun _ he => ?_,fun _ ht he => absurd he (hstart ht),
      fun hg => absurd hg hgpu⟩
    subst he
    exact absurd (msgType_apPowerMsg _) hap
  cases hs with
  | helloReply version =>
    refine hmgmt _ ?_ fun ht => ?_
    · rw [msgType_helloReplyMsg]
      decide
    · rw [msgType_helloReplyMsg] at ht
      exact absurd ht (by decide)
  | epmapReply base last =>
    refine hmgmt _ ?_ fun ht => ?_
    · rw [msgType_epmapReplyMsg]
      decide
    · rw [msgType_epmapReplyMsg] at ht
      exact absurd ht (by decide)
  | startep he =>
    refine hmgmt _ ?_ fun _ => ?_
    · rw [msgType_startepMsg]
      decide
    · have hlt := isSystem_small he
      rw [startepEndpoint_startepMsg (lt_trans (BitVec.lt_def.mp hlt) (by decide))]
      exact BitVec.not_le.mpr hlt
  | system m he =>
    have hne : packMsg1 endpoint ≠ epMgmt ∧ packMsg1 endpoint ≠ epFirmware ∧
        packMsg1 endpoint ≠ epDoorbell := by
      obtain rfl | rfl | rfl | rfl | rfl := isSystem_cases he <;> decide
    exact ⟨fun h0 => absurd h0 hfirst,fun h0 => absurd h0 hne.1,fun h0 => absurd h0 hne.1,
      fun hg => hg.elim (fun h0 => absurd h0 hne.2.1) fun h0 => absurd h0 hne.2.2⟩

theorem orderLaw_gpu {n : ℕ} {endpoint : U32} {m : U64}
    (hs : gpuLaw (own (.gpu n) log) (.send endpoint m)) : OrderLaw log (packMsg1 endpoint) m := by
  obtain ⟨he,-,hd⟩ := hs
  obtain ⟨t,earlier,ht',hl',hsuf,hup⟩ := hd.state ht hl
  obtain ⟨hfw,hdb⟩ := doorbellStarted_of ht' hl' hup
  have hne : packMsg1 endpoint ≠ epMgmt := by
    obtain rfl | rfl := he <;> decide
  exact ⟨fun h0 => absurd h0 (hfw.mono hsuf).inbox_ne,fun h0 => absurd h0 hne,
    fun h0 => absurd h0 hne,fun _ => ⟨hfw.mono hsuf,hdb.mono hsuf⟩⟩

end Loads

/-- Boot order: in every run of the driver every message enters the inbox only
behind the messages and the processed answers that call for it. -/
theorem boot_order {c : Config Party Op Res World} (h : driver.Reachable c) : WireOrder c.log := by
  intro later i a earlier endpoint message hlog he
  have hl := reach_lawful h
  have ht := h.trace
  rw [hlog] at hl ht
  obtain ⟨t,-,ht',-⟩ := ht.split
  have hl' := hl.of_append.2
  obtain ⟨op,r⟩ := a
  cases op with
  | send e m =>
    obtain ⟨-,rfl,rfl⟩ : r = (0 : ℤ) ∧ packMsg1 e = endpoint ∧ m = message := by
      simpa [entered] using he
    cases i with
    | main =>
      obtain ⟨rfl,hs⟩ := hl.split
      exact orderLaw_main ht' hl' hs
    | irq =>
      obtain ⟨hi,hs⟩ := hl.split.resolve_left (by simp)
      exact orderLaw_irq ht' hl' hi hs
    | gpu n => exact orderLaw_gpu ht' hl' hl.split
    | firmware => exact hl.split.elim
  | _ => contradiction

/-- A boot with a well-behaved firmware. -/
def goodBoot : Schedule :=
  [.acts .main 10 true] ++ delivers helloMsg ++ delivers (epmapMsg 0 0x11e false) ++
    delivers (epmapMsg 1 0x3 true) ++ delivers (iopAckMsg pwrOn) ++ interrupt 84 ++ [.acts .main 7 true] ++
    delivers (apAckMsg pwrOn) ++ interrupt 14 ++ [.acts .main 18 true]

/-- What such a boot leaves in the inbox, oldest first. -/
def goodInbox : List (U32 × U64) :=
  [(epMgmt,iopPowerMsg pwrInit),
   (epMgmt,helloReplyMsg 12#32),
   (epMgmt,epmapReplyMsg 0#32 false),
   (epMgmt,epmapReplyMsg 1#32 true),
   (epMgmt,startepMsg epCrashlog),
   (epMgmt,startepMsg epSyslog),
   (epMgmt,startepMsg epDebug),
   (epMgmt,startepMsg epIoreport),
   (epMgmt,startepMsg epOslog),
   (epMgmt,apPowerMsg pwrOn),
   (epMgmt,startepMsg epFirmware),
   (epMgmt,startepMsg epDoorbell)]

theorem boot_order_good :
    ∃ c : Config Party Op Res World, WireOrder c.log ∧ (inbox c.log).reverse = goodInbox := by
  obtain ⟨c,hc,he⟩ := reach_of_schedule (fun _ _ _ _ => True) goodBoot
    (fun c => (inbox c.log).reverse == goodInbox) (by decide +kernel)
  exact ⟨c,boot_order hc,beq_iff_eq.mp he⟩

end AgxOpen.Rtbuddy
