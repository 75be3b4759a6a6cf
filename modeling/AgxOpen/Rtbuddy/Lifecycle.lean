import AgxOpen.Rtbuddy.Fields

/-!
# Boot and remove obey their law

The boot thread knows which of its own stores came last, and remembers what it
sent and what it read.
-/
namespace AgxOpen.Rtbuddy
open Rtkit

variable {guard : World → Log Party Op Res → Party → Op → Prop} {h h' h'' : Hist} {α β : Type}

/-- A program of the boot thread, checked against its history. -/
abbrev MainObeys (guard : World → Log Party Op Res → Party → Op → Prop) (p : Prog α)
    (Q : Hist → α → Prop) (h : Hist) : Prop := Obeys mainLaw (May guard .main) p Q h

theorem Sent.mono {m : U64} (hs : Sent m h) (hh : h <:+ h') : Sent m h' := hh.subset hs

theorem Read.mono {P : Rtbuddy → Prop} (hr : Read P h) (hh : h <:+ h') : Read P h' := by
  obtain ⟨s,hs,hP⟩ := hr
  exact ⟨s,hh.subset hs,hP⟩

theorem Passed.mono {stage : Stage} (hp : Passed stage h) (hh : h <:+ h') : Passed stage h' := by
  obtain ⟨later,r,earlier,s,rfl,hr,hs⟩ := hp
  obtain ⟨l,rfl⟩ := hh
  exact ⟨l ++ later,r,earlier,s,(List.append_assoc ..).symm,hr,hs⟩

theorem FoundRunning.mono {ret : ℤ} (hr : FoundRunning ret h) (hh : h <:+ h') :
    FoundRunning ret h' := by
  obtain ⟨later,earlier,s₁,s₀,rfl,h0,h1⟩ := hr
  obtain ⟨l,rfl⟩ := hh
  exact ⟨l ++ later,earlier,s₁,s₀,(List.append_assoc ..).symm,h0,h1⟩

/-- The requests of the shutdown. -/
def powersDown (m : U64) : Bool := m == apPowerMsg pwrQuiesced || m == iopPowerMsg pwrSleep

/-- Operations on which none of the thread's records depends. -/
def steady : Op → Bool
  | .load | .readCtrl | .readI2a | .writeI2a _ | .wait _ | .notify .. | .rtkit _ => true
  | .store (.firmwareUp _) | .store (.doorbellUp _) | .store (.power _) => true
  | .send _ m => !powersDown m
  | _ => false

/-- The thread's records are the same, and more was done. -/
structure Steady (h h' : Hist) : Prop where
  run : runFlag h' = runFlag h
  ctrl : h'.findSome? ctrlWrite = h.findSome? ctrlWrite
  flag : irqFlag h' = irqFlag h
  armed : irqArmed h' = irqArmed h
  booted : ∀ ret, Booted ret h' → Booted ret h
  down : ∀ m, powersDown m = true → Sent m h' → Sent m h
  suffix : h <:+ h'

theorem Steady.refl (h : Hist) : Steady h h :=
  ⟨rfl,rfl,rfl,rfl,fun _ hb => hb,fun _ _ hs => hs,List.suffix_rfl⟩

theorem Steady.trans (h1 : Steady h h') (h2 : Steady h' h'') : Steady h h'' where
  run := h2.run.trans h1.run
  ctrl := h2.ctrl.trans h1.ctrl
  flag := h2.flag.trans h1.flag
  armed := h2.armed.trans h1.armed
  booted ret hb := h1.booted ret (h2.booted ret hb)
  down m hm hs := h1.down m hm (h2.down m hm hs)
  suffix := h1.suffix.trans h2.suffix

theorem Steady.cons {o : Op} {r : Res o} (hop : steady o = true) (hk : Steady h h') :
    Steady h (⟨o,r⟩ :: h') := by
  refine hk.trans ?_
  constructor
  case suffix => exact List.suffix_cons _ _
  case booted =>
    intro ret hb
    refine (List.mem_cons.mp hb).resolve_left fun he => ?_
    cases he
    simp [steady] at hop
  case down =>
    intro m hm hs
    refine (List.mem_cons.mp hs).resolve_left fun he => ?_
    cases he
    simp [steady, hm] at hop
  all_goals
    cases o with
    | store f => cases f <;> first | rfl | simp [steady] at hop
    | _ => first | rfl | simp [steady] at hop

/-- A management message is in the inbox, or the failure is recorded. -/
theorem main_mgmtSend {type : U32} {payload m : U64} (hm : m = mgmtMsg type payload)
    (hl : MainSend h m) :
    MainObeys guard (mgmtSend port type payload) (fun h' ret =>
      ret = 0 ∧ h' = ⟨.send epMgmt m,(0 : ℤ)⟩ :: h ∨
        ret ≠ 0 ∧ h' = ⟨.rtkit (.fail ret),()⟩ :: ⟨.send epMgmt m,ret⟩ :: h) h := by
  subst hm
  refine .request ⟨rfl,hl⟩ fun ret _ => ?_
  by_cases h0 : ret = (0 : ℤ)
  · subst h0
    exact .inl ⟨rfl,rfl⟩
  · rw [if_pos h0]
    exact .request trivial fun _ _ => .inr ⟨h0,rfl⟩

theorem main_send {type : U32} {payload m : U64} (hm : m = mgmtMsg type payload)
    (hl : MainSend h m) (hne : powersDown m = false) :
    MainObeys guard (mgmtSend port type payload)
      (fun h' ret => Steady h h' ∧ (ret = 0 → Sent m h')) h := by
  refine (main_mgmtSend hm hl).mono ?_
  intro h' ret hs
  have hop : steady (.send epMgmt m) = true := by rw [steady, hne, Bool.not_false]
  obtain ⟨rfl,rfl⟩ | ⟨h0,rfl⟩ := hs
  · exact ⟨(Steady.refl h).cons hop,fun _ => List.mem_cons_self⟩
  · exact ⟨((Steady.refl h).cons hop).cons rfl,fun h0' => absurd h0' h0⟩

theorem main_hasEndpoint {endpoint : U32} (he : ¬ endpoint ≥ epCount) :
    MainObeys guard (hasEndpoint port endpoint) (fun h' known => Steady h h' ∧
      (known = true → Read (fun s => s.rtkit.announced endpoint = true) h')) h := by
  rw [hasEndpoint, if_neg he]
  refine .request trivial fun s _ => ?_
  exact ⟨(Steady.refl h).cons rfl,fun hk => ⟨s,List.mem_cons_self,hk⟩⟩

theorem main_running :
    MainObeys guard (running port) (fun h' up => Steady h h' ∧
      (up = true → Read (fun s => levelOn s.rtkit.iopPower = true) h' ∧
        Read (fun s => levelOn s.rtkit.apPower = true) h')) h := by
  refine .request trivial fun s _ => ?_
  have hk := (Steady.refl h).cons (o := .load) (r := s) rfl
  change MainObeys guard (if _ then _ else _) _ _
  split_ifs with hiop
  · refine .request trivial fun t _ => ?_
    refine ⟨hk.cons rfl,fun hap => ⟨?_,t,List.mem_cons_self,hap⟩⟩
    exact Read.cons ⟨s,List.mem_cons_self,hiop⟩
  · exact ⟨hk,fun hf => absurd hf (by decide)⟩

theorem main_wait (stage : Stage) :
    MainObeys guard (wait stage) (fun h' ret => Steady h h' ∧ (ret = 0 → Passed stage h') ∧
      Awaited stage h') h := by
  refine .request trivial fun left _ => ?_
  refine .request trivial fun s _ => ?_
  generalize hh : (⟨.load,s⟩ :: ⟨.wait stage,left⟩ :: h : Hist) = h1
  have hk : Steady h h1 := by
    subst hh
    exact ((Steady.refl h).cons rfl).cons rfl
  have hw : Awaited stage h1 := by
    subst hh
    refine ⟨[⟨.load,s⟩],left,h,rfl,?_⟩
    simp only [List.mem_singleton, forall_eq]
    cases stage <;> simp [Clears]
  split_ifs with herr hleft
  · exact ⟨hk,fun h0 => absurd h0 herr,hw⟩
  · exact ⟨hk,fun h0 => absurd h0 (by decide),hw⟩
  · refine ⟨hk,fun _ => ?_,hw⟩
    exact ⟨[],left,h,s,hh.symm,hleft,not_not.mp herr⟩

/-- Between the start of the CPU and the end of boot. -/
structure Booting (h : Hist) : Prop where
  run : runFlag h = true
  ctrl : CtrlRuns h
  flag : irqFlag h = irqArmed h
  fresh : ∀ ret, ¬ Booted ret h
  down : ∀ m, powersDown m = true → ¬ Sent m h

theorem Steady.ctrlRuns (hk : Steady h h') (hc : CtrlRuns h) : CtrlRuns h' := by
  rwa [CtrlRuns, hk.ctrl]

theorem Steady.booting (hk : Steady h h') (hb : Booting h) : Booting h' where
  run := hk.run.trans hb.run
  ctrl := hk.ctrlRuns hb.ctrl
  flag := by rw [hk.flag, hk.armed, hb.flag]
  fresh ret hr := hb.fresh ret (hk.booted ret hr)
  down m hm hs := hb.down m hm (hk.down m hm hs)

/-- Boot returned. Its result tells whether the CPU runs. -/
structure BootEnd (ret : ℤ) (h : Hist) : Prop where
  flag : irqFlag h = irqArmed h
  fresh : ∀ ret, ¬ Booted ret h
  down : ∀ m, powersDown m = true → ¬ Sent m h
  good : ret = 0 → runFlag h = true ∧ CtrlRuns h ∧ Sent (apPowerMsg pwrOn) h
  bad : ret ≠ 0 → runFlag h = false ∧ CtrlStopped h

/-- The CPU is stopped, the other records are the same. -/
structure Halted (h h' : Hist) : Prop where
  run : runFlag h' = false
  ctrl : CtrlStopped h'
  flag : irqFlag h' = irqFlag h
  armed : irqArmed h' = irqArmed h
  booted : ∀ ret, Booted ret h' → Booted ret h
  down : ∀ m, powersDown m = true → Sent m h' → Sent m h
  suffix : h <:+ h'

theorem main_stopCpu (hc : runFlag h = false → CtrlStopped h) (hs : SleepDone h) :
    MainObeys guard stopCpu (fun h' _ => Halted h h') h := by
  refine .request trivial fun s hload => ?_
  have hk := (Steady.refl h).cons (o := .load) (r := s) rfl
  rw [hload.main_load.1]
  cases hrun : runFlag h with
  | false =>
    refine ⟨hk.run.trans hrun,?_,hk.flag,hk.armed,hk.booted,hk.down,hk.suffix⟩
    rw [CtrlStopped, hk.ctrl]
    exact hc hrun
  | true =>
    refine .request trivial fun ctrl _ => ?_
    have hk2 := hk.cons (o := .readCtrl) (r := ctrl) rfl
    have h0 : (ctrl : U32) &&& ~~~cpuCtrlRun &&& cpuCtrlRun = 0#32 := by
      ext i hi
      simp
    refine .request ⟨fun _ => ?_,fun hne => absurd h0 hne⟩ fun _ _ => ?_
    · intro hsl
      exact (hs (hk2.down _ rfl hsl)).cons (by simp [Clears]) |>.cons (by simp [Clears])
    · refine ⟨trivial,fun _ _ => ?_⟩
      refine ⟨rfl,⟨_,rfl,h0⟩,hk2.flag,hk2.armed,fun ret hb => ?_,fun m hm hsl => ?_,?_⟩
      · exact hk2.booted ret (by simpa [Booted] using hb)
      · exact hk2.down m hm (by simpa [Sent] using hsl)
      · exact hk2.suffix.trans ((List.suffix_cons _ _).trans (List.suffix_cons _ _))

theorem main_bootFail {ret : ℤ} (hb : Booting h) (hret : ret ≠ 0) :
    MainObeys guard (bootFail ret) (fun h' ret' => BootEnd ret' h') h := by
  refine (main_stopCpu (fun hf => ?_) fun hs => absurd hs (hb.down _ rfl)).bind ?_
  · rw [hb.run] at hf
    contradiction
  · intro h1 _ hh
    refine .request (fun hf => absurd hf (by decide)) fun _ _ => ?_
    refine .request (fun hf => absurd hf (by decide)) fun _ _ => ?_
    have hk : Steady h1 (⟨.store (.doorbellUp false),()⟩ :: ⟨.store (.firmwareUp false),()⟩ :: h1) :=
      ((Steady.refl h1).cons rfl).cons rfl
    refine ⟨?_,fun r hr => ?_,fun m hm hs => ?_,fun h0 => absurd h0 hret,fun _ => ⟨?_,?_⟩⟩
    · exact (hh.flag.trans hb.flag).trans hh.armed.symm
    · exact hb.fresh r (hh.booted r (hk.booted r hr))
    · exact hb.down m hm (hh.down m hm (hk.down m hm hs))
    · exact hh.run
    · exact hh.ctrl

theorem main_startEndpoint {endpoint : U32} (hb : Booting h)
    (hi : Sent (iopPowerMsg pwrInit) h)
    (he : endpoint = epFirmware ∨ endpoint = epDoorbell ∧ Sent (startepMsg epFirmware) h) :
    MainObeys guard (startEndpoint port endpoint)
      (fun h' ret => Steady h h' ∧ (ret = 0 → Sent (startepMsg endpoint) h')) h := by
  obtain ⟨hc,hstart,hne⟩ : ¬ endpoint ≥ epCount ∧ endpoint ≥ epAppStart ∧
      powersDown (startepMsg endpoint) = false := by
    obtain rfl | ⟨rfl,-⟩ := he
    · exact ⟨by decide,by decide,by decide⟩
    · exact ⟨by decide,by decide,by decide⟩
  rw [startEndpoint, if_neg hc]
  refine (main_hasEndpoint hc).bind ?_
  intro h1 known hk1
  cases known with
  | false => exact ⟨hk1.1,fun h0 => absurd h0 (by decide)⟩
  | true =>
    simp only [Bool.not_true, Bool.false_eq_true, if_false, mayStart, hstart, if_true]
    refine main_running.bind ?_
    intro h2 up hk2
    have hk := hk1.1.trans hk2.1
    cases up with
    | false => exact ⟨hk,fun h0 => absurd h0 (by decide)⟩
    | true =>
      refine (main_send rfl ?_ hne).mono fun h3 ret hs => ⟨hk.trans hs.1,hs.2⟩
      obtain ⟨hiop,hap⟩ := hk2.2 rfl
      refine .startep (hk.ctrlRuns hb.ctrl) (hi.mono hk.suffix) ?_
        ((hk1.2 rfl).mono hk2.1.suffix) hiop hap
      exact he.imp_right fun hd => ⟨hd.1,hd.2.mono hk.suffix⟩

theorem main_setPower (state : PowerState) :
    MainObeys guard (setPower state) (fun h' _ => Steady h h') h := by
  refine .request trivial fun s _ => ?_
  have hk := (Steady.refl h).cons (o := .load) (r := s) rfl
  change MainObeys guard (if _ then _ else _) _ _
  split_ifs
  · exact hk
  · refine .request trivial fun _ _ => ?_
    exact ⟨trivial,fun _ _ => (hk.cons rfl).cons rfl⟩
  · exact .request trivial fun _ _ => hk.cons rfl

section Stages

variable (hb : Booting h) (hi : Sent (iopPowerMsg pwrInit) h)
include hb hi

theorem main_bootEndpoints (ha : Sent (apPowerMsg pwrOn) h) :
    MainObeys guard bootEndpoints (fun h' ret => BootEnd ret h') h := by
  refine (main_startEndpoint hb hi (.inl rfl)).bind ?_
  intro h1 ret hk1
  split_ifs with hret
  · exact main_bootFail (hk1.1.booting hb) hret
  have hf := hk1.2 (not_not.mp hret)
  refine .request (fun _ => hf) fun _ _ => ?_
  have hk2 := hk1.1.cons (o := .store (.firmwareUp true)) (r := ()) rfl
  refine (main_startEndpoint (hk2.booting hb) (hi.mono hk2.suffix) (.inr ⟨rfl,hf.cons⟩)).bind ?_
  intro h3 ret hk3
  have hb3 := hk3.1.booting (hk2.booting hb)
  split_ifs with hret
  · exact main_bootFail hb3 hret
  refine .request (fun _ => ⟨hf.cons.mono hk3.1.suffix,hk3.2 (not_not.mp hret)⟩) fun _ _ => ?_
  have hk4 := (hk2.trans hk3.1).cons (o := .store (.doorbellUp true)) (r := ()) rfl
  refine (main_setPower .on).bind ?_
  intro h5 _ hk5
  have hk := hk4.trans hk5
  have hb5 := hk.booting hb
  exact ⟨hb5.flag,hb5.fresh,hb5.down,fun _ => ⟨hb5.run,hb5.ctrl,ha.mono hk.suffix⟩,
    fun h0 => absurd rfl h0⟩

theorem main_bootApPower (hp : Passed .epmap h)
    (hon : Read (fun s => levelOn s.rtkit.iopPower = true) h) :
    MainObeys guard bootApPower (fun h' ret => BootEnd ret h') h := by
  refine .request rfl fun _ _ => ?_
  have hk1 := (Steady.refl h).cons (o := .rtkit (.apAcked false)) (r := ()) rfl
  refine (main_send (m := apPowerMsg pwrOn) rfl ?_ (by decide)).bind ?_
  · exact .apOn (hk1.ctrlRuns hb.ctrl) hi.cons hp.cons hon.cons
  intro h2 ret hk2
  have hk := hk1.trans hk2.1
  split_ifs with hret
  · exact main_bootFail (hk.booting hb) hret
  have ha := hk2.2 (not_not.mp hret)
  refine (main_wait .apAck).bind ?_
  intro h3 ret hk3
  have hk := hk.trans hk3.1
  split_ifs with hret
  · exact main_bootFail (hk.booting hb) hret
  refine main_running.bind ?_
  intro h4 up hk4
  have hk := hk.trans hk4.1
  split_ifs with hup
  · exact main_bootFail (hk.booting hb) (by decide)
  · refine main_bootEndpoints (hk.booting hb) (hi.mono hk.suffix) ?_
    exact ha.mono (hk3.1.suffix.trans hk4.1.suffix)

theorem main_bootRollCall : MainObeys guard bootRollCall (fun h' ret => BootEnd ret h') h := by
  refine (main_wait .epmap).bind ?_
  intro h1 ret hk1
  split_ifs with hret
  · exact main_bootFail (hk1.1.booting hb) hret
  have hp := hk1.2.1 (not_not.mp hret)
  refine (main_wait .iopAck).bind ?_
  intro h2 ret hk2
  have hk := hk1.1.trans hk2.1
  split_ifs with hret
  · exact main_bootFail (hk.booting hb) hret
  refine .request trivial fun s _ => ?_
  have hk3 := hk.cons (o := .load) (r := s) rfl
  cases hon : levelOn s.rtkit.iopPower with
  | false => exact main_bootFail (hk3.booting hb) (by decide)
  | true =>
    refine main_bootApPower (hk3.booting hb) (hi.mono hk3.suffix) ?_ ⟨s,List.mem_cons_self,hon⟩
    exact (hp.mono hk2.1.suffix).cons

theorem main_requestIrq :
    MainObeys guard requestIrq (fun h' _ => Booting h' ∧ Sent (iopPowerMsg pwrInit) h') h := by
  refine .request trivial fun s hload => ?_
  have hk := (Steady.refl h).cons (o := .load) (r := s) rfl
  rw [hload.main_load.2]
  have hb1 := hk.booting hb
  cases hflag : irqFlag h with
  | true => exact ⟨hb1,hi.cons⟩
  | false =>
    refine .request ⟨hi.cons,hb1.fresh⟩ fun ret _ => ?_
    have hfresh : ∀ r, ¬ Booted r (⟨.requestIrq,ret⟩ :: ⟨.load,s⟩ :: h) := fun r hr =>
      hb1.fresh r (by simpa [Booted] using hr)
    have hdown : ∀ m, powersDown m = true → ¬ Sent m (⟨.requestIrq,ret⟩ :: ⟨.load,s⟩ :: h) :=
      fun m hm hs => hb1.down m hm (by simpa [Sent] using hs)
    change MainObeys guard (if _ then _ else _) _ _
    split_ifs with hret
    · refine ⟨⟨hb1.run,hb1.ctrl,?_,hfresh,hdown⟩,hi.cons.cons⟩
      have hflag1 : irqArmed (⟨.requestIrq,ret⟩ :: ⟨.load,s⟩ :: h) = irqArmed (⟨.load,s⟩ :: h) := by
        simp [irqArmed, armsIrq, hret]
      exact hb1.flag.trans hflag1.symm
    · refine .request trivial fun _ _ => ?_
      refine ⟨⟨hb1.run,hb1.ctrl,?_,fun r hr => ?_,fun m hm hs => ?_⟩,hi.cons.cons.cons⟩
      · simp [irqFlag, irqStore, ownStore, irqArmed, armsIrq, not_not.mp hret]
      · exact hfresh r (by simpa [Booted] using hr)
      · exact hdown m hm (by simpa [Sent] using hs)

end Stages

theorem main_boot : MainObeys guard boot (fun h' ret => BootEnd ret h') [] := by
  refine Obeys.bind (Q := fun h' _ => Steady [] h') ?_ ?_
  · refine .request trivial fun control _ => ?_
    exact ⟨trivial,fun _ _ => ((Steady.refl []).cons rfl).cons rfl⟩
  intro h1 _ hk1
  refine .request trivial fun ctrl _ => ?_
  have hk2 := hk1.cons (o := .readCtrl) (r := ctrl) rfl
  have hfresh : ∀ ret, ¬ Booted ret (⟨.readCtrl,ctrl⟩ :: h1) := fun ret hr =>
    List.not_mem_nil (hk2.booted ret hr)
  have hdown : ∀ m, powersDown m = true → ¬ Sent m (⟨.readCtrl,ctrl⟩ :: h1) := fun m hm hs =>
    List.not_mem_nil (hk2.down m hm hs)
  have hrun : ((ctrl : U32) ||| cpuCtrlRun) &&& cpuCtrlRun ≠ 0#32 := by
    intro h0
    have hbit := congrArg (fun x : U32 => x[4]) h0
    simp [cpuCtrlRun] at hbit
  refine .request ⟨fun _ hs => absurd hs (hdown _ rfl),fun _ => hfresh⟩ fun _ _ => ?_
  refine .request trivial fun _ _ => ?_
  generalize hh : (⟨.store (.cpuRunning true),_⟩ :: _ : Hist) = h3
  have hb : Booting h3 := by
    subst hh
    refine ⟨rfl,⟨_,rfl,hrun⟩,?_,fun r hr => ?_,fun m hm hs => ?_⟩
    · exact (hk2.flag.trans (rfl : irqFlag [] = irqArmed [])).trans hk2.armed.symm
    · exact hfresh r (by simpa [Booted] using hr)
    · exact hdown m hm (by simpa [Sent] using hs)
  refine .request rfl fun _ _ => ?_
  have hk4 := (Steady.refl h3).cons (o := .rtkit (.iopAcked false)) (r := ()) rfl
  refine (main_send (m := iopPowerMsg pwrInit) rfl (.iopInit (hk4.ctrlRuns hb.ctrl)) (by decide)).bind ?_
  intro h5 ret hk5
  have hb5 := hk5.1.booting (hk4.booting hb)
  split_ifs with hret
  · exact main_bootFail hb5 hret
  refine (main_requestIrq hb5 (hk5.2 (not_not.mp hret))).bind ?_
  intro h6 ret hk6
  split_ifs with hret
  · exact main_bootFail hk6.1 hret
  · exact main_bootRollCall hk6.1 hk6.2

/-- From the return of boot on, while the slots may still be in use. -/
structure Removing (ret : ℤ) (h : Hist) : Prop where
  booted : Booted ret h
  flag : irqFlag h = irqArmed h
  run : runFlag h = false → CtrlStopped h
  good : ret = 0 → CtrlRuns h

theorem Steady.removing {ret : ℤ} (hk : Steady h h') (hr : Removing ret h) : Removing ret h' where
  booted := hk.suffix.subset hr.booted
  flag := by rw [hk.flag, hk.armed, hr.flag]
  run hf := by
    rw [CtrlStopped, hk.ctrl]
    exact hr.run (hk.run.symm.trans hf)
  good h0 := hk.ctrlRuns (hr.good h0)

/-- A send changes none of the records. -/
theorem Removing.send {ret r : ℤ} {m : U64} (hr : Removing ret h) :
    Removing ret (⟨.send epMgmt m,r⟩ :: h) :=
  ⟨List.mem_cons_of_mem _ hr.booted,hr.flag,hr.run,hr.good⟩

theorem Sent.of_send {m m' : U64} {r : ℤ} (hs : Sent m' (⟨.send epMgmt m,r⟩ :: h)) :
    m' = m ∧ r = 0 ∨ Sent m' h := by
  refine (List.mem_cons.mp hs).imp_left fun he => ?_
  cases he
  exact ⟨rfl,rfl⟩

/-- The wait for the acknowledgement of a request to power down, if it was sent. -/
theorem main_waitSent {ret r : ℤ} {m : U64} (stage : Stage) (hr : Removing ret h)
    (hf : FoundRunning ret h) (hnew : ¬ Sent m h)
    (hs : r = 0 ∧ h' = ⟨.send epMgmt m,(0 : ℤ)⟩ :: h ∨
      r ≠ 0 ∧ h' = ⟨.rtkit (.fail r),()⟩ :: ⟨.send epMgmt m,r⟩ :: h) :
    MainObeys guard (waitSent r stage)
      (fun h' _ => Removing ret h' ∧ FoundRunning ret h' ∧ (Sent m h' → Awaited stage h') ∧
        ∀ m', powersDown m' = true → m' ≠ m → Sent m' h' → Sent m' h) h' := by
  obtain ⟨rfl,rfl⟩ | ⟨h0,rfl⟩ := hs
  · rw [waitSent, if_pos rfl]
    refine (main_wait stage).bind ?_
    intro h2 _ hk
    have hsuf := (List.suffix_cons _ _).trans hk.1.suffix
    refine ⟨hk.1.removing hr.send,hf.mono hsuf,fun _ => hk.2.2,fun m' hm' hne hs => ?_⟩
    exact (hk.1.down m' hm' hs).of_send.resolve_left fun he => hne he.1
  · rw [waitSent, if_neg h0]
    have hk := (Steady.refl (⟨.send epMgmt m,r⟩ :: h)).cons (o := .rtkit (.fail r)) (r := ()) rfl
    have hsent : ∀ m', Sent m' (⟨.rtkit (.fail r),()⟩ :: ⟨.send epMgmt m,r⟩ :: h) → Sent m' h := by
      intro m' hs
      have hs' : Sent m' (⟨.send epMgmt m,r⟩ :: h) := by simpa [Sent] using hs
      exact hs'.of_send.resolve_left fun he => h0 he.2
    refine ⟨hk.removing hr.send,hf.mono ((List.suffix_cons _ _).trans hk.suffix),?_,?_⟩
    · exact fun hs => absurd (hsent m hs) hnew
    · exact fun m' _ _ hs => hsent m' hs

theorem main_shutdown {ret : ℤ} {hb : Hist} (hh : h = ⟨.mark (.booted ret),()⟩ :: hb)
    (hr : Removing ret h) (hdown : ∀ m, powersDown m = true → ¬ Sent m h) :
    MainObeys guard shutdown (fun h' _ => Removing ret h' ∧ SleepDone h') h := by
  have hquiet : ∀ h', Steady h h' → Removing ret h' ∧ SleepDone h' := fun h' hk =>
    ⟨hk.removing hr,fun hs => absurd (hk.down _ rfl hs) (hdown _ rfl)⟩
  refine Obeys.bind (Q := fun h' up => Steady h h' ∧ (up = true → FoundRunning ret h')) ?_ ?_
  · refine .request trivial fun s₀ _ => ?_
    have hk := (Steady.refl h).cons (o := .load) (r := s₀) rfl
    change MainObeys guard (if _ then _ else _) _ _
    split_ifs with hiop
    · refine .request trivial fun s₁ _ => ?_
      exact ⟨hk.cons rfl,fun hap => ⟨[],hb,s₁,s₀,hh ▸ rfl,hiop,hap⟩⟩
    · exact ⟨hk,fun hf => absurd hf (by decide)⟩
  intro h1 up hup
  cases up with
  | false => exact hquiet h1 hup.1
  | true =>
    have hf := hup.2 rfl
    have hk1 := hup.1.cons (o := .rtkit (.apAcked false)) (r := ()) rfl
    have hr1 := hk1.removing hr
    have hf1 := hf.mono (List.suffix_cons ⟨.rtkit (.apAcked false),()⟩ h1)
    refine Obeys.bind (.request rfl fun _ _ => main_mgmtSend (m := apPowerMsg pwrQuiesced) rfl
      (.quiesce hf1 hr1.good)) ?_
    intro h2 r hs2
    refine (main_waitSent .apAck hr1 hf1 (fun hs => hdown _ rfl (hk1.down _ rfl hs)) hs2).bind ?_
    intro h3 _ ⟨hr3,hf3,hw3,hd3⟩
    have hk4 := (Steady.refl h3).cons (o := .rtkit (.iopAcked false)) (r := ()) rfl
    have hr4 := hk4.removing hr3
    have hf4 := hf3.mono hk4.suffix
    refine Obeys.bind (.request rfl fun _ _ => main_mgmtSend (m := iopPowerMsg pwrSleep) rfl
      (.sleep hf4 hr4.good fun hs => ?_)) ?_
    · exact (hw3 (hk4.down _ rfl hs)).cons (by simp [Clears])
    intro h5 r hs5
    refine (main_waitSent .iopAck hr4 hf4 (fun hs => ?_) hs5).mono fun h6 _ ⟨hr6,_,hw6,_⟩ => ⟨hr6,hw6⟩
    exact hdown _ rfl (hk1.down _ rfl (hd3 _ rfl (by decide) (hk4.down _ rfl hs)))

theorem SleepDone.cons {a : Ev} (hs : SleepDone h) (ha : ∀ m, a ≠ ⟨.send epMgmt m,(0 : ℤ)⟩)
    (hc : ¬ Clears .iopAck a.op) : SleepDone (a :: h) := by
  intro hsent
  refine (hs ((List.mem_cons.mp hsent).resolve_left fun he => ?_)).cons hc
  exact ha _ he.symm

theorem main_freeIrq {ret : ℤ} (hr : Removing ret h) (hs : SleepDone h) :
    MainObeys guard freeIrq
      (fun h' _ => Removing ret h' ∧ SleepDone h' ∧ irqArmed h' = false) h := by
  refine .request trivial fun s hload => ?_
  have hr1 := ((Steady.refl h).cons (o := .load) (r := s) rfl).removing hr
  have hs1 := hs.cons (a := ⟨.load,s⟩) (by simp) (by simp [Clears])
  rw [hload.main_load.2]
  cases hflag : irqFlag h with
  | false => exact ⟨hr1,hs1,hr.flag.symm.trans hflag⟩
  | true =>
    refine .request hs1 fun _ _ => ?_
    refine ⟨trivial,fun _ _ => ⟨⟨?_,rfl,hr1.run,hr1.good⟩,?_,rfl⟩⟩
    · exact List.mem_cons_of_mem _ (List.mem_cons_of_mem _ hr1.booted)
    · exact (hs1.cons (by simp) (by simp [Clears])).cons (by simp) (by simp [Clears])

/-- The loop over the slots. Behind it every slot was found empty or emptied. -/
theorem main_freeShmem (hr : Released h) :
    MainObeys guard freeShmem (fun h' _ => ∀ slot, Emptied slot h') h := by
  refine (obeys_forRange (fun k h' => Released h' ∧ ∀ slot : Fin 4, slot.val < k → Emptied slot h')
    4 ⟨hr,fun slot hlt => absurd hlt (Nat.not_lt_zero _)⟩ ?_).mono
    fun h' _ hI slot => hI.2 slot slot.isLt
  intro k hk h1 ⟨hr1,he1⟩
  have hslot : ∀ slot : Fin 4, slot.val < k+1 → slot.val < k ∨ slot = Fin.ofNat 4 k := by
    intro slot hlt
    by_cases hlt' : slot.val < k
    · exact .inl hlt'
    · refine .inr (Fin.ext ?_)
      have hmod : k % 4 = k := Nat.mod_eq_of_lt hk
      simp only [Fin.ofNat, hmod]
      omega
  refine .request trivial fun s _ => ?_
  have hr2 := hr1.cons (a := ⟨.load,s⟩) trivial
  change MainObeys guard (if _ then _ else _) _ _
  split_ifs with hcpu
  · refine ⟨hr2,fun slot hlt => ?_⟩
    obtain hlt | rfl := hslot slot hlt
    · exact (he1 slot hlt).cons
    · exact ⟨[],h1,hr1,.inr ⟨s,rfl,hcpu⟩⟩
  · have hl : mainLaw (⟨.load,s⟩ :: h1) (.dmaFree (s.shmem (Fin.ofNat 4 k))) :=
      ⟨hr2,_,h1,s,rfl,rfl,hcpu⟩
    have hr3 := hr2.cons (a := ⟨.dmaFree (s.shmem (Fin.ofNat 4 k)),()⟩) hl
    have hl3 : mainLaw (⟨.dmaFree (s.shmem (Fin.ofNat 4 k)),()⟩ :: ⟨.load,s⟩ :: h1)
        (.store (.clearShmem (Fin.ofNat 4 k))) := ⟨hr3,h1,s,rfl⟩
    refine .request hl fun _ _ => ⟨hl3,fun _ _ => ?_⟩
    refine ⟨hr3.cons (a := ⟨.store (.clearShmem (Fin.ofNat 4 k)),()⟩) hl3,fun slot hlt => ?_⟩
    obtain hlt | rfl := hslot slot hlt
    · exact (he1 slot hlt).cons.cons.cons
    · exact ⟨[],_,hr3,.inl rfl⟩

theorem Emptied.mono {slot : Fin 4} (he : Emptied slot h) (hh : h <:+ h') : Emptied slot h' := by
  obtain ⟨l,rfl⟩ := hh
  induction l with
  | nil => exact he
  | cons a l ih => exact ih.cons

theorem main_remove {ret : ℤ} {hb : Hist} (hh : h = ⟨.mark (.booted ret),()⟩ :: hb)
    (hr : Removing ret h) (hdown : ∀ m, powersDown m = true → ¬ Sent m h) :
    MainObeys guard remove (fun h' _ => ∀ slot, Emptied slot h') h := by
  refine (main_shutdown hh hr hdown).bind ?_
  intro h1 _ ⟨hr1,hs1⟩
  refine (main_freeIrq hr1 hs1).bind ?_
  intro h2 _ ⟨hr2,hs2,harm⟩
  refine (main_stopCpu hr2.run hs2).bind ?_
  intro h3 _ hk
  have hrel : Released h3 := ⟨⟨ret,hk.suffix.subset hr2.booted⟩,hk.armed.trans harm,hk.ctrl⟩
  refine (main_freeShmem hrel).bind ?_
  intro h4 _ he
  refine .request (fun hf => absurd hf (by decide)) fun _ _ => ?_
  refine .request (fun hf => absurd hf (by decide)) fun _ _ => ?_
  refine (main_setPower .off).mono fun h5 _ hk5 slot => ?_
  exact (he slot).cons.cons.mono hk5.suffix

theorem main_lifecycle : MainObeys guard lifecycle (fun _ _ => True) [] := by
  refine main_boot.bind ?_
  intro h1 ret hb
  refine .request (fun h0 => (hb.good h0).2.2) fun _ _ => ?_
  have hh : (⟨.mark (.booted ret),()⟩ :: h1 : Hist) = ⟨.mark (.booted ret),()⟩ :: h1 := rfl
  refine (main_remove hh ⟨List.mem_cons_self,hb.flag,?_,?_⟩ ?_).bind ?_
  · intro hrun
    by_cases h0 : ret = 0
    · exact absurd ((hb.good h0).1.symm.trans hrun) (by decide)
    · exact (hb.bad h0).2
  · exact fun h0 => (hb.good h0).2.1
  · intro m hm hs
    exact hb.down m hm (by simpa [Sent] using hs)
  · exact fun h2 _ he => ⟨he,fun _ _ => trivial⟩

end AgxOpen.Rtbuddy
