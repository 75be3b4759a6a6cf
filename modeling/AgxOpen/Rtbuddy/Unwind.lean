import AgxOpen.Display
import AgxOpen.Rtbuddy.Evidence
import AgxOpen.Rtbuddy.Kinds

/-!
# How boot fails and how remove ends

Every failure of boot leaves the same state behind, and remove ends in one.
-/
namespace AgxOpen.Rtbuddy
open Rtkit

variable {guard : World → Log Party Op Res → Party → Op → Prop} {h h' : Hist} {α β : Type}

def powerStore : Ev → Option PowerState := ownStore fun
  | .power state => some state
  | _ => none

/-- The value of `power`. -/
def powerOf (h : Hist) : PowerState := latest powerStore .off h

def notified : Ev → Option (PowerState × PowerState)
  | ⟨.notify old new,_⟩ => some (old,new)
  | _ => none

/-- The transitions the broker was told, newest first. -/
def notifies (h : Hist) : List (PowerState × PowerState) := h.filterMap notified

theorem notifies_cons (old new : PowerState) (r : Unit) :
    notifies (⟨.notify old new,r⟩ :: h) = (old,new) :: notifies h := rfl

/-- The last write of the CPU control register put back what was read, without the run bit. -/
def RunCleared (h : Hist) : Prop := ∃ later ctrl earlier,
  h = later ++ ⟨.writeCtrl (ctrl &&& ~~~cpuCtrlRun),()⟩ :: ⟨.readCtrl,ctrl⟩ :: earlier ∧
    ∀ a ∈ later, ctrlWrite a = none

/-- Boot returned an error. -/
def BootFailed (h : Hist) : Prop := ∃ ret, ret ≠ 0 ∧ Booted ret h

/-- What a failed boot leaves behind. -/
structure Stopped (h : Hist) : Prop where
  ctrl : RunCleared h
  run : runFlag h = false
  firmware : latest firmwareStore false h = false
  doorbell : (⟨.store (.doorbellUp true),()⟩ : Ev) ∉ h
  power : powerOf h = .off
  quiet : notifies h = []

/-- The transitions of a successful boot, if there is a broker to tell. -/
def Told (transitions : List (PowerState × PowerState)) (h : Hist) : Prop :=
  ∃ s : Rtbuddy, (⟨.load,s⟩ : Ev) ∈ h ∧ notifies h = if s.display then transitions else []

/-- What remove leaves behind. -/
structure Gone (h : Hist) : Prop where
  ctrl : RunCleared h
  power : powerOf h = .off
  failed : BootFailed h → notifies h = []
  good : Booted 0 h → Told [(.on,.off),(.off,.on)] h

/-- Operations that touch none of these records. -/
def calm : Op → Bool
  | .writeCtrl _ | .notify .. | .mark _ => false
  | .store (.cpuRunning _) | .store (.power _) => false
  | .store (.firmwareUp value) | .store (.doorbellUp value) => !value
  | _ => true

def unwindMark (h : Hist) : Mark → Prop
  | .booted ret => (∀ r, ¬ Booted r h) ∧ (ret ≠ 0 → Stopped h)
  | .removed => Gone h
  | _ => True

/-- Remove is not over. -/
def Present (h : Hist) : Prop := (⟨.mark .removed,()⟩ : Ev) ∉ h

/-- Behind a failed boot nothing is undone a second time, and behind remove
nothing happens. -/
structure UnwindLaw (h : Hist) (op : Op) : Prop where
  present : Present h
  failed : BootFailed h → calm op = true ∨ op = .mark .removed
  mark : ∀ m, op = .mark m → unwindMark h m

abbrev UnwindObeys (guard : World → Log Party Op Res → Party → Op → Prop) (p : Prog α)
    (Q : Hist → α → Prop) (h : Hist) : Prop := Obeys UnwindLaw (May guard .main) p Q h

theorem RunCleared.cons {a : Ev} (hr : RunCleared h) (ha : ctrlWrite a = none) :
    RunCleared (a :: h) := by
  obtain ⟨later,ctrl,earlier,rfl,hl⟩ := hr
  exact ⟨a :: later,ctrl,earlier,rfl,List.forall_mem_cons.mpr ⟨ha,hl⟩⟩

theorem booted_cons {o : Op} {r : Res o} {ret : ℤ} (hm : ∀ m, o ≠ .mark m) :
    Booted ret (⟨o,r⟩ :: h) ↔ Booted ret h := by
  refine ⟨fun hb => (List.mem_cons.mp hb).resolve_left fun he => ?_,List.mem_cons_of_mem _⟩
  cases he
  exact hm _ rfl

/-- Boot has not returned. -/
def Fresh (h : Hist) : Prop := ∀ ret, ¬ Booted ret h

theorem Fresh.cons {o : Op} {r : Res o} (hf : Fresh h) (hm : ∀ m, o ≠ .mark m) :
    Fresh (⟨o,r⟩ :: h) := fun ret hb => hf ret ((booted_cons hm).mp hb)

theorem Present.cons {o : Op} {r : Res o} (hn : Present h) (hm : ∀ m, o ≠ .mark m) :
    Present (⟨o,r⟩ :: h) := by
  intro hb
  refine hn ((List.mem_cons.mp hb).resolve_left fun he => ?_)
  cases he
  exact hm _ rfl

section Calm

variable {o : Op} {r : Res o} (hop : calm o = true)
include hop

theorem calm_mark (m : Mark) : o ≠ .mark m := by
  rintro rfl
  contradiction

theorem calm_ctrl : ctrlWrite ⟨o,r⟩ = none := by
  cases o <;> first | rfl | contradiction

theorem calm_run : runFlag (⟨o,r⟩ :: h) = runFlag h := by
  cases o with
  | store f => cases f <;> first | rfl | contradiction
  | _ => rfl

theorem calm_power : powerOf (⟨o,r⟩ :: h) = powerOf h := by
  cases o with
  | store f => cases f <;> first | rfl | contradiction
  | _ => rfl

theorem calm_notifies : notifies (⟨o,r⟩ :: h) = notifies h := by
  cases o <;> first | rfl | contradiction

theorem calm_firmware (hf : latest firmwareStore false h = false) :
    latest firmwareStore false (⟨o,r⟩ :: h) = false := by
  cases o with
  | store f =>
    cases f with
    | firmwareUp value =>
      cases value with
      | false => rfl
      | true => contradiction
    | _ => exact hf
  | _ => exact hf

theorem calm_doorbell (hd : (⟨.store (.doorbellUp true),()⟩ : Ev) ∉ h) :
    (⟨.store (.doorbellUp true),()⟩ : Ev) ∉ (⟨o,r⟩ :: h : Hist) := by
  intro hm
  refine hd ((List.mem_cons.mp hm).resolve_left fun he => ?_)
  cases he
  contradiction

theorem Stopped.calm (hs : Stopped h) : Stopped (⟨o,r⟩ :: h) where
  ctrl := hs.ctrl.cons (calm_ctrl hop)
  run := (calm_run hop).trans hs.run
  firmware := calm_firmware hop hs.firmware
  doorbell := calm_doorbell hop hs.doorbell
  power := (calm_power hop).trans hs.power
  quiet := (calm_notifies hop).trans hs.quiet

end Calm

theorem law_calm {o : Op} (hop : calm o = true) (hn : Present h) :
    UnwindLaw h o :=
  ⟨hn,fun _ => .inl hop,fun m he => (calm_mark hop m he).elim⟩

abbrev CalmProg (p : Prog α) : Prop := Program.Only (fun op => calm op = true) p

theorem calm_of_talk {p : Prog α} (hp : TalkProg p) : CalmProg p := by
  refine hp.mono fun op hop => ?_
  cases op with
  | store f => cases f <;> first | rfl | contradiction
  | _ => first | rfl | contradiction

theorem calm_freeShmem : CalmProg freeShmem := by
  refine Program.Only.forRange 4 fun i => ⟨rfl,fun _ => ?_⟩
  exact Program.only_ite.mpr ⟨fun _ => trivial,fun _ => ⟨rfl,fun _ => ⟨rfl,fun _ => trivial⟩⟩⟩

theorem after_display {s : World} {op : Op} {r : Res op} :
    (s.after op r).rb.display = s.rb.display := by
  cases op with
  | store f => cases f <;> rfl
  | _ => rfl

theorem load_display {s : World} {log : RunLog} (ht : Ran guard s log) {i : Party} {x : Rtbuddy}
    (hx : (i,(⟨.load,x⟩ : Ev)) ∈ log) : x.display = s.rb.display := by
  induction ht with
  | init h₀ => contradiction
  | @act s log j op r t _ _ hs ih =>
    obtain ⟨ha,rfl⟩ := hs
    rw [after_display]
    obtain he | hm := List.mem_cons.mp hx
    · cases he
      obtain rfl : x = s.rb := ha
      rfl
    · exact ih hm

theorem power_eq {s : World} {log : RunLog} (ht : Ran guard s log) (hl : Lawful law log) :
    s.rb.power = powerOf (own .main log) := by
  refine main_own ht hl (?_ : OwnField (fun s => s.power) _) (fun f hf => ?_) fun _ => rfl
  · exact ⟨fun _ f => by cases f <;> rfl,fun _ _ => rfl,fun _ _ _ => rfl⟩
  · cases f <;> first | rfl | contradiction

theorem May.main_power {x : Rtbuddy} (hm : May guard .main h .load x) : x.power = powerOf h := by
  obtain ⟨s,log,t,ht,hl,rfl,-,hr,-⟩ := hm
  obtain rfl : x = s.rb := hr
  exact power_eq ht hl

theorem May.main_display {x y : Rtbuddy} (hm : May guard .main h .load x)
    (hy : (⟨.load,y⟩ : Ev) ∈ h) : x.display = y.display := by
  obtain ⟨s,log,t,ht,-,rfl,-,hr,-⟩ := hm
  obtain rfl : x = s.rb := hr
  exact (load_display ht (mem_own.mp hy)).symm

/-- Boot has not come to its end. -/
structure Early (h : Hist) : Prop where
  fresh : Fresh h
  present : Present h
  doorbell : (⟨.store (.doorbellUp true),()⟩ : Ev) ∉ h
  power : powerOf h = .off
  quiet : notifies h = []

theorem law_fresh {op : Op} (hf : Fresh h) (hn : Present h)
    (hop : ∀ m, op ≠ .mark m) : UnwindLaw h op :=
  ⟨hn,fun ⟨_,_,hb⟩ => (hf _ hb).elim,fun m hm => (hop m hm).elim⟩

theorem Early.law (he : Early h) {op : Op} (hop : ∀ m, op ≠ .mark m) : UnwindLaw h op :=
  law_fresh he.fresh he.present hop

theorem Early.calm {o : Op} {r : Res o} (hop : calm o = true) (he : Early h) :
    Early (⟨o,r⟩ :: h) where
  fresh := he.fresh.cons (calm_mark hop)
  present := he.present.cons (calm_mark hop)
  doorbell := calm_doorbell hop he.doorbell
  power := (calm_power hop).trans he.power
  quiet := (calm_notifies hop).trans he.quiet

/-- The other operations of boot up to the doorbell keep it too. -/
theorem Early.cons {o : Op} {r : Res o} (he : Early h) (hm : ∀ m, o ≠ .mark m)
    (hd : o ≠ .store (.doorbellUp true)) (hp : powerStore ⟨o,r⟩ = none)
    (hn : notified ⟨o,r⟩ = none) : Early (⟨o,r⟩ :: h) where
  fresh := he.fresh.cons hm
  present := he.present.cons hm
  doorbell hb := by
    refine he.doorbell ((List.mem_cons.mp hb).resolve_left fun heq => ?_)
    cases heq
    exact hd rfl
  power := by rw [powerOf, latest_cons, hp]; exact he.power
  quiet := by rw [notifies, List.filterMap_cons_none hn]; exact he.quiet

/-- The CPU runs. -/
structure Waking (h : Hist) : Prop extends Early h where
  run : runFlag h = true

theorem Waking.calm {o : Op} {r : Res o} (hop : calm o = true) (hw : Waking h) :
    Waking (⟨o,r⟩ :: h) :=
  ⟨hw.toEarly.calm hop,(calm_run hop).trans hw.run⟩

theorem unwind_waking {p : Prog α} (hp : CalmProg p) (hw : Waking h) :
    UnwindObeys guard p (fun h' _ => Waking h') h :=
  obeys_only hp Waking hw (fun _ _ hop hw => law_calm hop hw.present) fun _ _ _ hop _ hw => hw.calm hop

/-- The return of boot. -/
structure BootDone (ret : ℤ) (h : Hist) : Prop where
  fresh : Fresh h
  present : Present h
  bad : ret ≠ 0 → Stopped h
  good : ret = 0 → runFlag h = true ∧ powerOf h = .on ∧ Told [(.off,.on)] h

theorem unwind_bootFail {ret : ℤ} (hw : Waking h) (hret : ret ≠ 0) :
    UnwindObeys guard (bootFail ret) (fun h' ret' => BootDone ret' h') h := by
  have hstop : UnwindObeys guard stopCpu
      (fun h' _ => Early h' ∧ runFlag h' = false ∧ RunCleared h') h := by
    refine .request (law_calm rfl hw.present) fun s hload => ?_
    have hw1 := hw.calm (o := .load) (r := s) rfl
    rw [hload.main_load.1, hw.run]
    refine .request (law_calm rfl hw1.present) fun ctrl _ => ?_
    have hw2 := hw1.calm (o := .readCtrl) (r := ctrl) rfl
    refine .request (hw2.law (by simp)) fun _ _ => ?_
    have he3 := hw2.toEarly.cons (o := .writeCtrl (ctrl &&& ~~~cpuCtrlRun)) (r := ()) (by simp) (by simp) rfl rfl
    refine ⟨he3.law (by simp),fun _ _ => ?_⟩
    exact ⟨he3.cons (by simp) (by simp) rfl rfl,rfl,[⟨.store (.cpuRunning false),()⟩],ctrl,_,rfl,by simp [ctrlWrite]⟩
  refine hstop.bind ?_
  intro h1 _ hp1
  obtain ⟨he1,hr1,hc1⟩ := hp1
  refine .request (law_calm rfl he1.present) fun _ _ => ?_
  have he2 := he1.calm (o := .store (.firmwareUp false)) (r := ()) rfl
  refine .request (law_calm rfl he2.present) fun _ _ => ?_
  have he3 := he2.calm (o := .store (.doorbellUp false)) (r := ()) rfl
  refine ⟨he3.fresh,he3.present,fun _ => ⟨(hc1.cons rfl).cons rfl,hr1,rfl,he3.doorbell,he3.power,
    he3.quiet⟩,fun h0 => (hret h0).elim⟩

theorem unwind_setPowerOn (hf : Fresh h) (hn : Present h) (hr : runFlag h = true)
    (hp : powerOf h = .off) (hq : notifies h = []) :
    UnwindObeys guard (setPower .on >>= fun _ => (return 0 : Prog ℤ))
      (fun h' ret' => BootDone ret' h') h := by
  refine .request (law_calm rfl hn) fun s hload => ?_
  have hpow : s.power = .off := hload.main_power.trans hp
  change UnwindObeys guard ((if _ then _ else _) >>= _) _ _
  rw [if_neg (by rw [hpow]; decide), hpow]
  have hf1 : Fresh (⟨.load,s⟩ :: h) := hf.cons nofun
  have hn1 : Present (⟨.load,s⟩ :: h) := hn.cons nofun
  refine .request (law_fresh hf1 hn1 nofun) fun _ _ => ?_
  generalize hh : (⟨.store (.power .on),_⟩ :: _ : Hist) = h2
  have hf2 : Fresh h2 := hh ▸ hf1.cons nofun
  have hn2 : Present h2 := hh ▸ hn1.cons nofun
  have hs2 : (⟨.load,s⟩ : Ev) ∈ h2 := hh ▸ List.mem_cons_of_mem _ List.mem_cons_self
  have hr2 : runFlag h2 = true := by rw [← hh]; exact hr
  have hp2 : powerOf h2 = .on := by rw [← hh]; rfl
  have hq2 : notifies h2 = [] := by rw [← hh]; exact hq
  by_cases hd : s.display = true
  · rw [if_pos hd]
    refine .request (law_fresh hf2 hn2 nofun) fun _ _ => ?_
    refine ⟨hf2.cons nofun,hn2.cons nofun,fun h0 => (h0 rfl).elim,
      fun _ => ⟨hr2,hp2,s,List.mem_cons_of_mem _ hs2,?_⟩⟩
    rw [if_pos hd, notifies_cons, hq2]
  · rw [if_neg hd]
    refine ⟨hf2,hn2,fun h0 => (h0 rfl).elim,fun _ => ⟨hr2,hp2,s,hs2,?_⟩⟩
    rw [if_neg hd]
    exact hq2

theorem unwind_bootEndpoints (hw : Waking h) :
    UnwindObeys guard bootEndpoints (fun h' ret => BootDone ret h') h := by
  refine (unwind_waking (calm_of_talk (talk_startEndpoint _)) hw).bind fun h1 ret hw1 => ?_
  split_ifs with hret
  · exact unwind_bootFail hw1 hret
  refine .request (hw1.law nofun) fun _ _ => ?_
  have hw2 : Waking (⟨.store (.firmwareUp true),()⟩ :: h1) :=
    ⟨hw1.toEarly.cons nofun nofun rfl rfl,hw1.run⟩
  refine (unwind_waking (calm_of_talk (talk_startEndpoint _)) hw2).bind fun h3 ret hw3 => ?_
  split_ifs with hret
  · exact unwind_bootFail hw3 hret
  refine .request (hw3.law nofun) fun _ _ => ?_
  exact unwind_setPowerOn (hw3.fresh.cons nofun) (hw3.present.cons nofun) hw3.run hw3.power hw3.quiet

theorem unwind_bootApPower (hw : Waking h) :
    UnwindObeys guard bootApPower (fun h' ret => BootDone ret h') h := by
  refine (unwind_waking (calm_of_talk (talk_setApPower _)) hw).bind fun h1 ret hw1 => ?_
  split_ifs with hret
  · exact unwind_bootFail hw1 hret
  refine (unwind_waking (calm_of_talk (talk_wait .apAck)) hw1).bind fun h2 ret hw2 => ?_
  split_ifs with hret
  · exact unwind_bootFail hw2 hret
  refine (unwind_waking (calm_of_talk talk_running) hw2).bind fun h3 up hw3 => ?_
  split_ifs
  · exact unwind_bootFail hw3 (by decide)
  · exact unwind_bootEndpoints hw3

theorem unwind_bootRollCall (hw : Waking h) :
    UnwindObeys guard bootRollCall (fun h' ret => BootDone ret h') h := by
  refine (unwind_waking (calm_of_talk (talk_wait .epmap)) hw).bind fun h1 ret hw1 => ?_
  split_ifs with hret
  · exact unwind_bootFail hw1 hret
  refine (unwind_waking (calm_of_talk (talk_wait .iopAck)) hw1).bind fun h2 ret hw2 => ?_
  split_ifs with hret
  · exact unwind_bootFail hw2 hret
  refine .request (law_calm rfl hw2.present) fun s _ => ?_
  have hw3 := hw2.calm (o := .load) (r := s) rfl
  split_ifs
  · exact unwind_bootFail hw3 (by decide)
  · exact unwind_bootApPower hw3

theorem unwind_boot : UnwindObeys guard boot (fun h' ret => BootDone ret h') [] := by
  have he : Early [] := ⟨fun _ => List.not_mem_nil,List.not_mem_nil,List.not_mem_nil,rfl,rfl⟩
  have henable : CalmProg (setOutboxEnable true) := ⟨rfl,fun _ => Program.only_request.mpr rfl⟩
  refine (obeys_only henable Early he (fun _ _ hop he => law_calm hop he.present)
    fun _ _ _ hop _ he => he.calm hop).bind fun h1 _ he1 => ?_
  refine .request (law_calm rfl he1.present) fun ctrl _ => ?_
  have he2 := he1.calm (o := .readCtrl) (r := ctrl) rfl
  refine .request (he2.law nofun) fun _ _ => ?_
  have he3 := he2.cons (o := .writeCtrl (ctrl ||| cpuCtrlRun)) (r := ()) nofun nofun rfl rfl
  refine .request (he3.law nofun) fun _ _ => ?_
  have hw4 : Waking (⟨.store (.cpuRunning true),()⟩ :: _) := ⟨he3.cons nofun nofun rfl rfl,rfl⟩
  refine (unwind_waking (calm_of_talk (talk_setIopPower _)) hw4).bind fun h5 ret hw5 => ?_
  split_ifs with hret
  · exact unwind_bootFail hw5 hret
  refine (unwind_waking (calm_of_talk talk_requestIrq) hw5).bind fun h6 ret hw6 => ?_
  split_ifs with hret
  · exact unwind_bootFail hw6 hret
  · exact unwind_bootRollCall hw6

/-- Remove runs and boot failed. -/
structure Failing (h : Hist) : Prop where
  stopped : Stopped h
  present : Present h
  bad : ¬ Booted 0 h

theorem Failing.calm {o : Op} {r : Res o} (hop : calm o = true) (hf : Failing h) :
    Failing (⟨o,r⟩ :: h) :=
  ⟨hf.stopped.calm hop,hf.present.cons (calm_mark hop),
    fun hb => hf.bad ((booted_cons (calm_mark hop)).mp hb)⟩

theorem unwind_failing {p : Prog α} (hp : CalmProg p) (hf : Failing h) :
    UnwindObeys guard p (fun h' _ => Failing h') h :=
  obeys_only hp Failing hf (fun _ _ hop hf => law_calm hop hf.present)
    fun _ _ _ hop _ hf => hf.calm hop

theorem unwind_removeFailed (hf : Failing h) :
    UnwindObeys guard remove (fun h' _ => Present h' ∧ Gone h') h := by
  refine (unwind_failing (calm_of_talk talk_shutdown) hf).bind fun h1 _ hf1 => ?_
  refine (unwind_failing (calm_of_talk talk_freeIrq) hf1).bind fun h2 _ hf2 => ?_
  refine Obeys.bind (Q := fun h' _ => Failing h') ?_ fun h3 _ hf3 => ?_
  · refine .request (law_calm rfl hf2.present) fun s hload => ?_
    rw [hload.main_load.1, hf2.stopped.run]
    exact hf2.calm rfl
  refine (unwind_failing calm_freeShmem hf3).bind fun h4 _ hf4 => ?_
  refine .request (law_calm rfl hf4.present) fun _ _ => ?_
  have hf5 := hf4.calm (o := .store (.firmwareUp false)) (r := ()) rfl
  refine .request (law_calm rfl hf5.present) fun _ _ => ?_
  have hf6 := hf5.calm (o := .store (.doorbellUp false)) (r := ()) rfl
  refine .request (law_calm rfl hf6.present) fun s hload => ?_
  have hf7 := hf6.calm (o := .load) (r := s) rfl
  have hpow : s.power = .off := hload.main_power.trans hf6.stopped.power
  change UnwindObeys guard (if _ then _ else _) _ _
  rw [if_pos hpow]
  exact ⟨hf7.present,hf7.stopped.ctrl,hf7.stopped.power,fun _ => hf7.stopped.quiet,
    fun hb => (hf7.bad hb).elim⟩

/-- Remove runs and the driver is up. -/
structure Up (h : Hist) : Prop where
  present : Present h
  good : ¬ BootFailed h
  power : powerOf h = .on
  told : Told [(.off,.on)] h

theorem not_failed_cons {o : Op} {r : Res o} (hn : ¬ BootFailed h) (hm : ∀ m, o ≠ .mark m) :
    ¬ BootFailed (⟨o,r⟩ :: h) := fun ⟨ret,h0,hb⟩ => hn ⟨ret,h0,(booted_cons hm).mp hb⟩

theorem Up.law (hu : Up h) {op : Op} (hop : ∀ m, op ≠ .mark m) : UnwindLaw h op :=
  ⟨hu.present,fun hf => (hu.good hf).elim,fun m hm => (hop m hm).elim⟩

theorem Up.cons {o : Op} {r : Res o} (hu : Up h) (hm : ∀ m, o ≠ .mark m)
    (hp : powerStore ⟨o,r⟩ = none) (hn : notified ⟨o,r⟩ = none) : Up (⟨o,r⟩ :: h) where
  present := hu.present.cons hm
  good := not_failed_cons hu.good hm
  power := by rw [powerOf, latest_cons, hp]; exact hu.power
  told := by
    obtain ⟨s,hs,he⟩ := hu.told
    exact ⟨s,List.mem_cons_of_mem _ hs,by rw [notifies, List.filterMap_cons_none hn]; exact he⟩

theorem calm_powerStore {o : Op} {r : Res o} (hop : calm o = true) : powerStore ⟨o,r⟩ = none := by
  cases o with
  | store f => cases f <;> first | rfl | contradiction
  | _ => rfl

theorem calm_notified {o : Op} {r : Res o} (hop : calm o = true) : notified ⟨o,r⟩ = none := by
  cases o <;> first | rfl | contradiction

theorem Up.calm {o : Op} {r : Res o} (hop : calm o = true) (hu : Up h) : Up (⟨o,r⟩ :: h) :=
  hu.cons (calm_mark hop) (calm_powerStore hop) (calm_notified hop)

theorem unwind_up {p : Prog α} (hp : CalmProg p) (I : Hist → Prop)
    (hI : ∀ h o (r : Res o), calm o = true → I h → I (⟨o,r⟩ :: h)) (hu : Up h) (h0 : I h) :
    UnwindObeys guard p (fun h' _ => Up h' ∧ I h') h :=
  obeys_only hp (fun h => Up h ∧ I h) ⟨hu,h0⟩ (fun _ _ hop hu => law_calm hop hu.1.present)
    fun _ _ _ hop _ hu => ⟨hu.1.calm hop,hI _ _ _ hop hu.2⟩

theorem unwind_removeUp (hu : Up h) (hr : runFlag h = true) :
    UnwindObeys guard remove (fun h' _ => Present h' ∧ Gone h') h := by
  have hrun : ∀ h o (r : Res o), calm o = true → runFlag h = true → runFlag (⟨o,r⟩ :: h) = true :=
    fun _ _ _ hop hr => (calm_run hop).trans hr
  refine (unwind_up (calm_of_talk talk_shutdown) _ hrun hu hr).bind ?_
  intro h1 _ hp1
  obtain ⟨hu1,hr1⟩ := hp1
  refine (unwind_up (calm_of_talk talk_freeIrq) _ hrun hu1 hr1).bind ?_
  intro h2 _ hp2
  obtain ⟨hu2,hr2⟩ := hp2
  refine Obeys.bind (Q := fun h' _ => Up h' ∧ RunCleared h') ?_ ?_
  · refine .request (law_calm rfl hu2.present) fun s hload => ?_
    have hu3 := hu2.calm (o := .load) (r := s) rfl
    rw [hload.main_load.1, hr2]
    refine .request (law_calm rfl hu3.present) fun ctrl _ => ?_
    have hu4 := hu3.calm (o := .readCtrl) (r := ctrl) rfl
    refine .request (hu4.law (by simp)) fun _ _ => ?_
    have hu5 := hu4.cons (o := .writeCtrl (ctrl &&& ~~~cpuCtrlRun)) (r := ()) (by simp) rfl rfl
    refine ⟨hu5.law (by simp),fun _ _ => ⟨hu5.cons (by simp) rfl rfl,?_⟩⟩
    exact ⟨[⟨.store (.cpuRunning false),()⟩],ctrl,_,rfl,by simp [ctrlWrite]⟩
  intro h3 _ hp3
  obtain ⟨hu3,hc3⟩ := hp3
  have hctrl : ∀ h o (r : Res o), calm o = true → RunCleared h → RunCleared (⟨o,r⟩ :: h) :=
    fun _ _ _ hop hc => hc.cons (calm_ctrl hop)
  refine (unwind_up calm_freeShmem _ hctrl hu3 hc3).bind ?_
  intro h4 _ hp4
  obtain ⟨hu4,hc4⟩ := hp4
  refine .request (law_calm rfl hu4.present) fun _ _ => ?_
  have hu5 := hu4.calm (o := .store (.firmwareUp false)) (r := ()) rfl
  refine .request (law_calm rfl hu5.present) fun _ _ => ?_
  have hu6 := hu5.calm (o := .store (.doorbellUp false)) (r := ()) rfl
  refine .request (law_calm rfl hu6.present) fun s hload => ?_
  have hu7 := hu6.calm (o := .load) (r := s) rfl
  have hc5 := hctrl _ (.store (.firmwareUp false)) () rfl hc4
  have hc7 := hctrl _ .load s rfl (hctrl _ (.store (.doorbellUp false)) () rfl hc5)
  have hpow : s.power = .on := hload.main_power.trans hu6.power
  obtain ⟨x,hx,hq⟩ := hu6.told
  have hdisp : s.display = x.display := hload.main_display hx
  change UnwindObeys guard (if _ then _ else _) _ _
  rw [if_neg (by rw [hpow]; decide), hpow]
  refine .request (hu7.law (by simp)) fun _ _ => ?_
  generalize hh : (⟨.store (.power .off),_⟩ :: _ : Hist) = h8
  have hn8 : Present h8 := hh ▸ hu7.present.cons (by simp)
  have hg8 : ¬ BootFailed h8 := hh ▸ not_failed_cons hu7.good (by simp)
  have hc8 : RunCleared h8 := hh ▸ hc7.cons rfl
  have hp8 : powerOf h8 = .off := by rw [← hh]; rfl
  have hx8 : (⟨.load,s⟩ : Ev) ∈ h8 := hh ▸ List.mem_cons_of_mem _ List.mem_cons_self
  have hq8 : notifies h8 = if s.display then [(.off,.on)] else [] := by
    rw [← hh, hdisp]
    exact hq
  by_cases hd : s.display = true
  · rw [if_pos hd] at hq8 ⊢
    refine ⟨⟨hn8,fun hf => (hg8 hf).elim,fun m hm => by cases hm⟩,fun _ _ => ?_⟩
    refine ⟨hn8.cons (by simp),hc8.cons rfl,hp8,fun hf => ?_,fun _ => ?_⟩
    · have hg9 : ¬ BootFailed (⟨.notify .on .off,()⟩ :: h8) := not_failed_cons hg8 (by simp)
      exact (hg9 hf).elim
    · refine ⟨s,List.mem_cons_of_mem _ hx8,?_⟩
      rw [if_pos hd, notifies_cons, hq8]
  · rw [if_neg hd] at hq8 ⊢
    exact ⟨hn8,hc8,hp8,fun hf => (hg8 hf).elim,fun _ => ⟨s,hx8,by rw [if_neg hd, hq8]⟩⟩

theorem unwind_lifecycle : UnwindObeys guard lifecycle (fun _ _ => True) [] := by
  refine unwind_boot.bind fun h1 ret hd => ?_
  have hmark : UnwindLaw h1 (.mark (.booted ret)) :=
    ⟨hd.present,fun ⟨_,_,hb⟩ => (hd.fresh _ hb).elim,fun m hm => by
      cases hm
      exact ⟨hd.fresh,hd.bad⟩⟩
  refine .request hmark fun _ _ => ?_
  generalize hh : (⟨.mark (.booted ret),_⟩ :: h1 : Hist) = h2
  have hn2 : Present h2 := by
    rw [← hh]
    exact fun hm => hd.present ((List.mem_cons.mp hm).resolve_left nofun)
  have honly : ∀ r, Booted r h2 → r = ret := by
    intro r hb
    rw [← hh] at hb
    obtain he | hb := List.mem_cons.mp hb
    · cases he
      rfl
    · exact (hd.fresh r hb).elim
  have hremove : UnwindObeys guard remove (fun h' _ => Present h' ∧ Gone h') h2 := by
    by_cases h0 : ret = 0
    · obtain ⟨hr,hp,x,hx,hq⟩ := hd.good h0
      subst hh
      refine unwind_removeUp ⟨hn2,fun ⟨r,hr0,hb⟩ => hr0 ((honly r hb).trans h0),hp,x,?_,hq⟩ hr
      exact List.mem_cons_of_mem _ hx
    · have hs := hd.bad h0
      subst hh
      refine unwind_removeFailed ⟨⟨hs.ctrl.cons rfl,hs.run,hs.firmware,?_,hs.power,hs.quiet⟩,hn2,
        fun hb => h0 (honly 0 hb).symm⟩
      exact fun hm => hs.doorbell ((List.mem_cons.mp hm).resolve_left nofun)
  refine hremove.bind fun h3 _ ⟨hn3,hg3⟩ => ⟨⟨hn3,fun _ => .inr rfl,fun m hm => ?_⟩,fun _ _ => trivial⟩
  cases hm
  exact hg3

theorem reach_unwind {c : Config Party Op Res World} (h : driver.Reach guard c) :
    Along UnwindLaw (own .main c.log) :=
  (h.along disciplined .main (fun _ => True) unwind_lifecycle nofun).1

theorem Stopped.mark {m : Mark} {r : Unit} (hs : Stopped h) : Stopped (⟨.mark m,r⟩ :: h) :=
  ⟨hs.ctrl.cons rfl,hs.run,hs.firmware,
    fun hm => hs.doorbell ((List.mem_cons.mp hm).resolve_left nofun),hs.power,hs.quiet⟩

/-- From the return of a failed boot on nothing changes. -/
theorem stopped_of_failed (ha : Along UnwindLaw h) (hf : BootFailed h) : Stopped h := by
  induction h with
  | nil =>
    obtain ⟨ret,-,hb⟩ := hf
    exact (List.not_mem_nil hb).elim
  | cons a h ih =>
    obtain ⟨op,r⟩ := a
    obtain ⟨hlaw,ha⟩ := ha
    by_cases hf' : BootFailed h
    · obtain hop | rfl := hlaw.failed hf'
      · exact (ih ha hf').calm hop
      · exact (ih ha hf').mark
    · obtain ⟨ret,h0,hb⟩ := hf
      obtain he | hb := List.mem_cons.mp hb
      · cases he
        exact ((hlaw.mark _ rfl).2 h0).mark
      · exact (hf' ⟨ret,h0,hb⟩).elim

/-- Nothing follows the return of remove. -/
theorem gone_of_removed (ha : Along UnwindLaw h) (hr : ¬ Present h) :
    ∃ h', h = ⟨.mark .removed,()⟩ :: h' ∧ Gone h' := by
  cases h with
  | nil => exact (hr List.not_mem_nil).elim
  | cons a h =>
    obtain he | hm := List.mem_cons.mp (not_not.mp hr)
    · subst he
      exact ⟨h,rfl,ha.1.mark _ rfl⟩
    · exact (ha.1.present hm).elim

end AgxOpen.Rtbuddy
