import AgxOpen.Rtbuddy.BootOrder
import AgxOpen.Rtbuddy.CrashFlag
import AgxOpen.Sequential

/-!
# What a crash changes

The core records a crash and no program of the driver depends on the record.
Whether the coprocessor is driven hangs on the two power levels and the two
endpoint flags.
-/
namespace AgxOpen.Rtbuddy
open Rtkit

variable {guard : World → RunLog → Party → Op → Prop} {c : Config Party Op Res World} {h : Hist}
  {acts : List Ev} {up : Bool} {ret : ℤ}

def crashWrite : Update → Option Bool
  | .crashed => some true
  | _ => none

theorem crashed_field : CoreField (fun k => k.crashed) crashWrite := fun _ u => by cases u <;> rfl

/-- The flag is set exactly when a crash was recorded, so it stays set. -/
theorem crashed_iff {s : World} {log : RunLog} (ht : Ran guard s log) :
    s.rb.rtkit.crashed = true ↔ ∃ i, (i,(⟨.rtkit .crashed,()⟩ : Ev)) ∈ log := by
  constructor
  · intro hc
    have hne : s.rb.rtkit.crashed ≠ false := by simp [hc]
    obtain ⟨later,i,u,earlier,rfl,hu,-⟩ := core_stored ht crashed_field rfl hne
    obtain rfl : u = .crashed := by cases u <;> first | rfl | contradiction
    exact ⟨i,List.mem_append_right _ List.mem_cons_self⟩
  · rintro ⟨i,hm⟩
    obtain ⟨j,u,-,hu⟩ := core_written ht crashed_field hm (Option.some_ne_none _)
    cases u <;> first | exact (Option.some.inj hu).symm | contradiction

/-- A run with any answers, as other threads can cause them. -/
abbrev Traces {α : Type} (p : Prog α) (acts : List Ev) (a : α) : Prop :=
  p.Runs (fun (_ : Unit) _ _ _ => True) () acts a ()

/-- Both power levels were loaded as on. -/
def FoundOn (acts : List Ev) : Prop := ∃ s₁ s₂ : Rtbuddy,
  acts = [⟨.load,s₁⟩,⟨.load,s₂⟩] ∧ levelOn s₁.rtkit.iopPower = true ∧
    levelOn s₂.rtkit.apPower = true

/-- And both endpoint flags as set. -/
def FoundUp (acts : List Ev) : Prop := ∃ levels, ∃ s₃ s₄ : Rtbuddy,
  FoundOn levels ∧ acts = levels ++ [⟨.load,s₃⟩,⟨.load,s₄⟩] ∧ s₃.firmwareUp = true ∧ s₄.doorbellUp = true

def Sends (acts : List Ev) : Prop :=
  ∃ endpoint message r, (⟨.send endpoint message,r⟩ : Ev) ∈ acts

abbrev Meets {α : Type} (p : Prog α) (Q : List Ev → α → Prop) : Prop :=
  p.Meets (fun (_ : Unit) _ _ _ => True) (fun acts a _ => Q acts a) ()

theorem not_sends_load {s : Rtbuddy} (hs : ¬ Sends acts) : ¬ Sends (⟨.load,s⟩ :: acts) := by
  rintro ⟨endpoint,message,r,hm⟩
  exact hs ⟨endpoint,message,r,(List.mem_cons.mp hm).resolve_left nofun⟩

theorem not_sends_nil : ¬ Sends [] := fun ⟨_,_,_,hm⟩ => List.not_mem_nil hm

/-- The flag stays set whatever happens next. -/
theorem crashed_step {d : Config Party Op Res World} (hs : driver.Step guard c d)
    (hc : c.state.rb.rtkit.crashed = true) : d.state.rb.rtkit.crashed = true := by
  cases hs with
  | start => exact hc
  | @act i op next r t hp hg hs =>
    obtain ⟨-,rfl⟩ := hs
    rw [crashed_field.after, hc]
    cases op with
    | rtkit u => cases u <;> rfl
    | _ => rfl

theorem FoundOn.length (hf : FoundOn acts) : acts.length = 2 := by
  obtain ⟨s₁,s₂,rfl,-,-⟩ := hf
  rfl

theorem FoundUp.length (hf : FoundUp acts) : acts.length = 4 := by
  obtain ⟨levels,s₃,s₄,hon,rfl,-,-⟩ := hf
  rw [List.length_append, hon.length]
  rfl

theorem foundUp_append {levels : List Ev} (hon : FoundOn levels) (s₃ s₄ : Rtbuddy) :
    FoundUp (levels ++ [⟨.load,s₃⟩,⟨.load,s₄⟩]) ↔ s₃.firmwareUp = true ∧ s₄.doorbellUp = true := by
  constructor
  · rintro ⟨levels',t₃,t₄,hon',he,h3,h4⟩
    obtain ⟨-,he⟩ := List.append_inj he (hon.length.trans hon'.length.symm)
    cases he
    exact ⟨h3,h4⟩
  · exact fun ⟨h3,h4⟩ => ⟨levels,s₃,s₄,hon,rfl,h3,h4⟩

theorem not_sends_append {acts' : List Ev} (h : ¬ Sends acts) (h' : ¬ Sends acts') :
    ¬ Sends (acts ++ acts') := by
  rintro ⟨endpoint,message,r,hm⟩
  obtain hm | hm := List.mem_append.mp hm
  · exact h ⟨endpoint,message,r,hm⟩
  · exact h' ⟨endpoint,message,r,hm⟩

theorem meets_running : Meets (running port) (fun acts up =>
    (up = true ↔ FoundOn acts) ∧ acts.length ≤ 2 ∧ ¬ Sends acts) := by
  rintro s₁ - -
  change Program.Meets _ (if _ then _ else _) _ _
  split_ifs with h1
  · rintro s₂ - -
    refine ⟨⟨fun h2 => ⟨s₁,s₂,rfl,h1,h2⟩,?_⟩,le_rfl,not_sends_load (not_sends_load not_sends_nil)⟩
    rintro ⟨t₁,t₂,he,-,h2⟩
    cases he
    exact h2
  · refine ⟨iff_of_false (by decide) ?_,Nat.le_succ 1,not_sends_load not_sends_nil⟩
    rintro ⟨t₁,t₂,he,-,-⟩
    cases he

theorem meets_started : Meets started (fun acts up => (up = true ↔ FoundUp acts) ∧ ¬ Sends acts) := by
  refine Program.Meets.bind (meets_running.mono fun acts up _ ⟨hup,hlen,hsend⟩ => ?_)
  cases up with
  | false =>
    refine ⟨iff_of_false (by decide) fun hf => ?_,by simpa using hsend⟩
    have := hf.length
    simp at this
    omega
  | true =>
    have hon := hup.mp rfl
    rintro s₃ - -
    have hsend3 : ¬ Sends (acts ++ [⟨.load,s₃⟩]) :=
      not_sends_append hsend (not_sends_load not_sends_nil)
    change Program.Meets _ (if _ then _ else _) _ _
    split_ifs with h3
    · refine ⟨iff_of_false (by decide) fun hf => ?_,hsend3⟩
      have := hf.length
      simp [hon.length] at this
    · rintro s₄ - -
      refine ⟨?_,not_sends_append hsend (not_sends_load (not_sends_load not_sends_nil))⟩
      rw [foundUp_append hon]
      exact (and_iff_right (by simpa using h3)).symm

/-- A GPU call sends once, behind loads that found everything up, or fails without a send. -/
theorem meets_sendGpu (endpoint : U32) (message : U64) :
    Meets (sendGpu endpoint message) (fun acts ret =>
      ret = Status.enodev ∧ ¬ FoundUp acts ∧ ¬ Sends acts ∨
        ∃ up, FoundUp up ∧ acts = up ++ [⟨.send endpoint message,ret⟩]) := by
  refine Program.Meets.bind (meets_started.mono fun acts up _ ⟨hup,hsend⟩ => ?_)
  cases up with
  | false =>
    refine .inl ⟨rfl,?_,by simpa using hsend⟩
    rw [List.append_nil, ← hup]
    decide
  | true => exact fun r _ _ => .inr ⟨acts,hup.mp rfl,rfl⟩

/-- An application endpoint is started only behind loads that found both levels on. -/
theorem meets_startEndpoint {endpoint : U32} (he : endpoint ≥ epAppStart) :
    Meets (startEndpoint port endpoint) (fun acts ret =>
      ret = Status.einval ∧ ¬ Sends acts ∨
        ∃ s levels rest, FoundOn levels ∧ acts = ⟨.load,s⟩ :: (levels ++ rest)) := by
  unfold startEndpoint
  split_ifs with hcount
  · exact .inl ⟨rfl,not_sends_nil⟩
  rw [hasEndpoint, if_neg hcount]
  rintro s - -
  change Program.Meets _ (if _ then _ else _) _ _
  split_ifs with hknown
  · exact .inl ⟨rfl,not_sends_load not_sends_nil⟩
  rw [mayStart, if_pos he]
  refine Program.Meets.bind (meets_running.mono ?_)
  intro acts up _ hrun
  obtain ⟨hup,-,hsend⟩ := hrun
  cases up with
  | false => exact .inl ⟨rfl,not_sends_load (by simpa using hsend)⟩
  | true =>
    refine Program.meets_of_forall fun rest ret _ => .inr ⟨s,acts,rest,hup.mp rfl,rfl⟩

/-- The thread has just found everything up. -/
def JustUp (h : Hist) : Prop := ∃ acts rest, FoundUp acts ∧ h = acts.reverse ++ rest

def gateLaw (h : Hist) : Op → Prop
  | .load => True
  | .send .. => JustUp h
  | _ => False

theorem gate_running (n : ℕ) : Obeys gateLaw (May guard (.gpu n)) (running port)
    (fun h' up => up = true → ∃ acts, FoundOn acts ∧ h' = acts.reverse ++ h) h := by
  refine .request trivial fun s₁ _ => ?_
  change Obeys _ _ (if _ then _ else _) _ _
  split_ifs with h1
  · refine .request trivial fun s₂ _ => fun h2 => ⟨[⟨.load,s₁⟩,⟨.load,s₂⟩],⟨s₁,s₂,rfl,h1,h2⟩,rfl⟩
  · exact fun hf => absurd hf (by decide)

theorem gate_sendGpu (n : ℕ) (endpoint : U32) (message : U64) :
    Obeys gateLaw (May guard (.gpu n)) (sendGpu endpoint message) (fun _ _ => True) h := by
  refine Obeys.bind (Q := fun h' up => up = true → JustUp h') ?_ fun h' up hup => ?_
  · refine (gate_running n).bind fun h1 up hup => ?_
    cases up with
    | false => exact fun hf => absurd hf (by decide)
    | true =>
      obtain ⟨levels,hon,rfl⟩ := hup rfl
      refine .request trivial fun s₃ _ => ?_
      change Obeys _ _ (if _ then _ else _) _ _
      split_ifs with h3
      · exact fun hf => absurd hf (by decide)
      · refine .request trivial fun s₄ _ => fun h4 => ?_
        refine ⟨levels ++ [⟨.load,s₃⟩,⟨.load,s₄⟩],h,?_,by simp⟩
        exact (foundUp_append hon s₃ s₄).mpr ⟨by simpa using h3,h4⟩
  · cases up with
    | false => trivial
    | true => exact ⟨hup rfl,fun _ _ => trivial⟩

theorem reach_gate (hc : driver.Reach guard c) (n : ℕ) : Along gateLaw (own (.gpu n) c.log) := by
  refine (hc.along disciplined (.gpu n) (fun _ => True) trivial ?_).1
  intro call p h hp _
  obtain ⟨q,hq,rfl⟩ := Option.map_eq_some_iff.mp hp
  obtain ⟨endpoint,message,-,rfl⟩ := gpuCall_send hq
  exact (gate_sendGpu n endpoint message).bind fun _ _ _ => trivial

theorem gpu_justUp (hc : driver.Reach guard c) {n : ℕ} {endpoint : U32} {message : U64} {r : ℤ}
    {later earlier : RunLog} (hl : c.log = later ++ (.gpu n,⟨.send endpoint message,r⟩) :: earlier) :
    JustUp (own (.gpu n) earlier) := by
  have ha := reach_gate hc n
  rw [hl, own_append, own_cons_self] at ha
  exact ha.of_append.1

/-- The same run but for the flag. -/
abbrev CrashTwins : Config Party Op Res World → Config Party Op Res World → Prop :=
  Threads.Twins ButCrashed fun s s' => ∃ value, s' = World.withCrashed s value

/-- How the crash flag and the doors to the mailbox behave. -/
structure CrashRecorded : Prop where
  flag : ∀ c, driver.Reachable c →
    (c.state.rb.rtkit.crashed = true ↔ ∃ i, (i,(⟨.rtkit .crashed,()⟩ : Ev)) ∈ c.log)
  stays : ∀ c d, driver.Step (fun _ _ _ _ => True) c d → c.state.rb.rtkit.crashed = true →
    d.state.rb.rtkit.crashed = true
  /-- No program of a thread changes with the flag in what it loads. -/
  unread : driver.Blinded ButCrashed ∧
    ∀ call p, gpuCall call = some p → Program.Blind ButCrashed p
  /-- With the flag changed at any point, every way to go on stays the same. -/
  unmoved : ∀ c c' d, driver.Reachable c → CrashTwins c c' →
    driver.Leads (fun _ _ _ _ => True) c d →
      ∃ d', driver.Leads (fun _ _ _ _ => True) c' d' ∧ CrashTwins d d'
  running : ∀ acts up, Traces (Rtkit.running port) acts up → (up = true ↔ FoundOn acts)
  started : ∀ acts up, Traces started acts up → (up = true ↔ FoundUp acts)
  startEndpoint : ∀ endpoint acts ret, endpoint ≥ epAppStart →
    Traces (Rtkit.startEndpoint port endpoint) acts ret →
      ret = Status.einval ∧ ¬ Sends acts ∨
        ∃ s levels rest, FoundOn levels ∧ acts = ⟨.load,s⟩ :: (levels ++ rest)
  gpuCall : ∀ call p acts ret, gpuCall call = some p → Traces p acts ret →
    ret = Status.enodev ∧ ¬ FoundUp acts ∧ ¬ Sends acts ∨
      ∃ up endpoint message, FoundUp up ∧ acts = up ++ [⟨.send endpoint message,ret⟩]
  sent : ∀ c, driver.Reachable c → ∀ n endpoint message (r : ℤ) later earlier,
    c.log = later ++ (.gpu n,⟨.send endpoint message,r⟩) :: earlier → JustUp (own (.gpu n) earlier)

/-- A crash is recorded for good and has no effect; the doors depend on the levels and the
endpoint flags alone. -/
theorem crash_recorded : CrashRecorded where
  flag _ hc := crashed_iff hc.trace
  stays _ _ := crashed_step
  unread := ⟨blinded,fun _ _ => blind_gpuCall⟩
  unmoved _ _ _ hc ht hl := ht.leads blinded step_withCrashed hc hl
  running _ _ ht := (ht.post meets_running).1
  started _ _ ht := (ht.post meets_started).1
  startEndpoint _ _ _ he ht := ht.post (meets_startEndpoint he)
  gpuCall call p acts ret hp ht := by
    obtain ⟨endpoint,message,-,rfl⟩ := gpuCall_send hp
    refine (ht.post (meets_sendGpu endpoint message)).imp_right fun ⟨up,hup,he⟩ => ?_
    exact ⟨up,endpoint,message,hup,he⟩
  sent _ hc _ _ _ _ _ _ hl := gpu_justUp hc hl

/-- The firmware asks for the crash log buffer, reports a crash, and a caller rings. -/
def crashThenDoorbell : Schedule :=
  goodBoot ++ delivers (bufferMsg 1#64) 1#64 ++ interrupt 18 ++ delivers (bufferMsg 1#64) 1#64 ++
    interrupt 14 ++ [.start (.gpu 0) (.doorbell 0#32),.acts (.gpu 0) 5 true]

/-- The newest act is the doorbell in the inbox, behind a crash. -/
def ringsCrashed : RunLog → Bool
  | (.gpu 0,⟨.send endpoint message,r⟩) :: earlier =>
    endpoint == epDoorbell && message == gpuMsgDoorbell 0#32 && r == (0 : ℤ) &&
      earlier.any fun x => coreStore crashWrite x.2 == some true
  | _ => false

theorem ringsCrashed_split {log : RunLog} (h : ringsCrashed log = true) : ∃ earlier i,
    log = (.gpu 0,⟨.send epDoorbell (gpuMsgDoorbell 0#32),(0 : ℤ)⟩) :: earlier ∧
      (i,(⟨.rtkit .crashed,()⟩ : Ev)) ∈ earlier := by
  unfold ringsCrashed at h
  split at h
  · simp only [Bool.and_eq_true, beq_iff_eq, List.any_eq_true] at h
    obtain ⟨⟨⟨rfl,rfl⟩,rfl⟩,⟨i,op,r⟩,hm,hop⟩ := h
    obtain ⟨u,rfl,hu⟩ := of_coreStore hop
    obtain rfl : u = .crashed := by cases u <;> first | rfl | contradiction
    exact ⟨_,i,rfl,hm⟩
  · contradiction

/-- The schedule runs through. -/
theorem rings_behind_crash : ∃ c : Config Party Op Res World,
    (driver.startingAt fresh).Reach (fun _ _ _ _ => True) c ∧
    c.state.rb.rtkit.crashed = true ∧ levelOn c.state.rb.rtkit.iopPower = true ∧
    levelOn c.state.rb.rtkit.apPower = true ∧
    ∃ earlier i, c.log = (.gpu 0,⟨.send epDoorbell (gpuMsgDoorbell 0#32),(0 : ℤ)⟩) :: earlier ∧
      (i,(⟨.rtkit .crashed,()⟩ : Ev)) ∈ earlier := by
  obtain ⟨c,hc,he⟩ := reach_fresh (fun _ _ _ _ => True) crashThenDoorbell
    (fun c => ringsCrashed c.log && c.state.rb.rtkit.crashed &&
      levelOn c.state.rb.rtkit.iopPower && levelOn c.state.rb.rtkit.apPower) (by decide +kernel)
  simp only [Bool.and_eq_true] at he
  obtain ⟨⟨⟨hr,hcr⟩,hi⟩,ha⟩ := he
  exact ⟨c,hc,hcr,hi,ha,ringsCrashed_split hr⟩

/-- A crashed coprocessor counts as running, and its doorbell is rung. -/
theorem crashed_driven : ∃ c : Config Party Op Res World, driver.Reachable c ∧
    c.state.rb.rtkit.crashed = true ∧ levelOn c.state.rb.rtkit.iopPower = true ∧
    levelOn c.state.rb.rtkit.apPower = true ∧
    ∃ earlier i, c.log = (.gpu 0,⟨.send epDoorbell (gpuMsgDoorbell 0#32),(0 : ℤ)⟩) :: earlier ∧
      (i,(⟨.rtkit .crashed,()⟩ : Ev)) ∈ earlier := by
  obtain ⟨c,hc,h⟩ := rings_behind_crash
  exact ⟨c,hc.of_startingAt probed_fresh,h⟩

/-- That doorbell found everything up, and is rung just so where the flag is set from the
start. -/
theorem crash_recorded_doorbell : ∃ c d : Config Party Op Res World, driver.Reachable c ∧
    (∃ i, (i,(⟨.rtkit .crashed,()⟩ : Ev)) ∈ c.log) ∧
    (∃ earlier, c.log = (.gpu 0,⟨.send epDoorbell (gpuMsgDoorbell 0#32),(0 : ℤ)⟩) :: earlier ∧
      JustUp (own (.gpu 0) earlier)) ∧
    driver.Leads (fun _ _ _ _ => True) ⟨fresh.withCrashed true,driver.first,[]⟩ d ∧
    CrashTwins c d := by
  obtain ⟨c,hc,hcr,-,-,earlier,i,hl,-⟩ := rings_behind_crash
  have hreach := hc.of_startingAt probed_fresh
  obtain ⟨d,hd,ht⟩ := crash_recorded.unmoved start ⟨fresh.withCrashed true,driver.first,[]⟩ c
    (.init probed_fresh) ⟨⟨true,rfl⟩,rfl,.nil⟩ hc.leads_from
  refine ⟨c,d,hreach,(crash_recorded.flag c hreach).mp hcr,⟨earlier,hl,?_⟩,hd,ht⟩
  exact crash_recorded.sent c hreach 0 _ _ _ [] earlier hl

end AgxOpen.Rtbuddy
