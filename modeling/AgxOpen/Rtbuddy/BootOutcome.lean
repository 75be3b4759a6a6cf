import AgxOpen.Rtbuddy.BootEvidence

/-!
# How boot ends against the firmware of the tests

Nothing is refused and no wait times out. Then boot comes up if there is a common
version, and reports the version otherwise, whatever the order of the steps.
-/
namespace AgxOpen.Rtbuddy
open Rtkit

/-- What the boot thread has switched on. -/
structure Flags where
  firmware : Bool
  doorbell : Bool
  power : PowerState
  requested : Bool
  armed : Bool

/-- What a store switches. -/
def Flags.store (flags : Flags) : Store → Flags
  | .firmwareUp value => { flags with firmware := value }
  | .doorbellUp value => { flags with doorbell := value }
  | .power state => { flags with power := state }
  | .irqRequested value => { flags with requested := value }
  | _ => flags

variable {f : FakeFirmware} {s₀ : World} {h h' : Hist} {c : Config Party Op Res World}
  {sent : List Msg} {stages : List Stage} {flags : Flags} {stage : Stage} {m : U64} {α : Type}

def flagsOf (h : Hist) : Flags :=
  ⟨latest firmwareStore false h,latest doorbellStore false h,powerOf h,irqFlag h,irqArmed h⟩

/-- What the thread put into the inbox, oldest first. -/
def sends (h : Hist) : List Msg := (h.filterMap entered).reverse

theorem sends_cons (a : Ev) (h : Hist) : sends (a :: h) = sends h ++ (entered a).toList := by
  rw [sends, List.filterMap_cons]
  cases entered a with
  | none => exact (List.append_nil _).symm
  | some x => exact List.reverse_cons

/-- The request that a stage waits for an answer to. -/
def asksFor : Stage → Msg
  | .epmap | .iopAck => iopInit
  | .apAck => apOn

/-- What boot has done once it returns. -/
def Outcome (f : FakeFirmware) (h : Hist) (ret : ℤ) : Prop :=
  if acceptable f.hello = true then
    ret = 0 ∧ sends h = asks ∧ (∀ stage, Waited stage h) ∧ flagsOf h = ⟨true,true,.on,true,true⟩
  else ret = Status.einval ∧ sends h = [iopInit] ∧ Waited .epmap h

/-- Boot records no failure, takes no acknowledgement back once it has asked for it, waits
only for what it asked for, with the interrupt requested, and does not release it. -/
def bootLaw (f : FakeFirmware) (h : Hist) : Op → Prop
  | .rtkit (.fail _) => ¬ Fresh h
  | .rtkit (.iopAcked _) => Fresh h → iopInit ∉ sends h
  | .rtkit (.apAcked _) => Fresh h → apOn ∉ sends h
  | .wait stage => Fresh h → asksFor stage ∈ sends h ∧ irqArmed h = true
  | .freeIrq => ¬ Fresh h
  | .mark (.booted ret) => Fresh h → Outcome f h ret
  | _ => True

/-- What the thread can be answered where nothing is refused. -/
def bootMay (f : FakeFirmware) (h : Hist) : (op : Op) → Res op → Prop
  | .load, s => Fresh h → Sees f h s
  | op, r => Succeeds ⟨op,r⟩

abbrev BootObeys (f : FakeFirmware) (p : Prog α) (Q : Hist → α → Prop) (h : Hist) : Prop :=
  Obeys (bootLaw f) (bootMay f) p Q h

/-- Behind boot nothing is left to check. -/
theorem boot_over {p : Prog α} (hb : ¬ Fresh h) : BootObeys f p (fun h' _ => ¬ Fresh h') h := by
  induction p generalizing h with
  | ret a => exact hb
  | call op next ih =>
    refine ⟨?_,fun r _ => ih r fun hf => hb fun ret hr => hf ret (List.mem_cons_of_mem _ hr)⟩
    cases op with
    | rtkit u => cases u <;> first | exact hb | exact fun hf => absurd hf hb | trivial
    | mark k => cases k <;> first | exact fun hf => absurd hf hb | trivial
    | wait => exact fun hf => absurd hf hb
    | freeIrq => exact hb
    | _ => trivial

structure At (h : Hist) (sent : List Msg) (stages : List Stage) (flags : Flags) : Prop where
  fresh : Fresh h
  sends : sends h = sent
  waited : ∀ stage ∈ stages, Waited stage h
  flags : flagsOf h = flags

theorem Waited.cons {a : Ev} (hw : Waited stage h) : Waited stage (a :: h) := by
  obtain ⟨r,hm⟩ := hw
  exact ⟨r,List.mem_cons_of_mem _ hm⟩

/-- An operation that puts nothing into the inbox. -/
theorem At.cons {op : Op} {r : Res op} (ha : At h sent stages flags) (hm : ∀ k, op ≠ .mark k)
    (he : entered ⟨op,r⟩ = none) : At (⟨op,r⟩ :: h) sent stages (flagsOf (⟨op,r⟩ :: h)) where
  fresh := ha.fresh.cons hm
  sends := by
    rw [sends_cons, he, ha.sends]
    exact List.append_nil _
  waited stage hs := (ha.waited stage hs).cons
  flags := rfl

theorem At.store (ha : At h sent stages flags) (v : Store) :
    At (⟨.store v,()⟩ :: h) sent stages (flags.store v) := by
  obtain rfl := ha.flags
  have hflags : flagsOf (⟨.store v,()⟩ :: h) = (flagsOf h).store v := by cases v <;> rfl
  exact hflags ▸ ha.cons nofun rfl

/-- Operations that switch nothing. -/
def inert : Op → Bool
  | .load | .readCtrl | .writeCtrl _ | .readI2a | .writeI2a _ | .store (.cpuRunning _)
  | .rtkit (.iopAcked _) | .rtkit (.apAcked _) | .wait _ | .notify .. => true
  | _ => false

theorem At.inert (ha : At h sent stages flags) (op : Op) (r : Res op) (hop : inert op = true) :
    At (⟨op,r⟩ :: h) sent stages flags := by
  have hm (k : Mark) : op ≠ .mark k := by
    rintro rfl
    contradiction
  have he : entered ⟨op,r⟩ = none := by
    cases op with
    | send => contradiction
    | _ => rfl
  have hflags : flagsOf (⟨op,r⟩ :: h) = flagsOf h := by
    cases op with
    | store v => cases v <;> first | rfl | contradiction
    | _ => first | rfl | contradiction
  exact (hflags.trans ha.flags) ▸ ha.cons hm he

/-- Inert operations that are allowed anywhere. -/
def idles : Op → Bool
  | .load | .readCtrl | .writeCtrl _ | .readI2a | .writeI2a _ | .store (.cpuRunning _) => true
  | _ => false

theorem at_idles {p : Prog α} (hp : Program.Only (fun op => idles op = true) p)
    (ha : At h sent stages flags) : BootObeys f p (fun h' _ => At h' sent stages flags) h := by
  refine obeys_only hp (fun h => At h sent stages flags) ha (fun h op hop _ => ?_)
    fun h op r hop _ ha => ha.inert op r ?_
  · cases op <;> trivial
  · cases op with
    | store v => cases v <;> first | rfl | contradiction
    | _ => first | rfl | contradiction

section Calls

variable (ha : At h sent stages flags)
include ha

theorem at_send : BootObeys f (Rtkit.send port epMgmt m)
    (fun h' ret => ret = 0 ∧ At h' (sent ++ [(epMgmt,m)]) stages flags) h := by
  refine .request trivial fun r hr => ?_
  obtain rfl : r = (0 : ℤ) := hr
  refine ⟨rfl,ha.fresh.cons (by simp),?_,fun stage hs => (ha.waited stage hs).cons,ha.flags⟩
  rw [sends_cons, ha.sends]
  rfl

theorem at_wait (stage : Stage) (hreq : asksFor stage ∈ sent) (harm : flags.armed = true) :
    BootObeys f (wait stage) (fun h' ret => At h' sent (stage :: stages) flags ∧
      (acceptable f.hello = true → ret = 0) ∧
      (acceptable f.hello = false → stage = .epmap → ret = Status.einval)) h := by
  have harmed : irqArmed h = true := (congrArg (fun x => x.armed) ha.flags).trans harm
  refine .request (fun _ => ⟨ha.sends.symm ▸ hreq,harmed⟩) fun left hleft => ?_
  have h1 : At (⟨.wait stage,left⟩ :: h) sent (stage :: stages) flags :=
    { ha.inert _ left rfl with
      waited := List.forall_mem_cons.mpr ⟨⟨left,List.mem_cons_self⟩,fun s hs => (ha.waited s hs).cons⟩ }
  refine .request trivial fun s hs => ?_
  have h2 := h1.inert .load s rfl
  have hsee := hs h1.fresh
  split_ifs with herr hl
  · refine ⟨h2,fun hok => ?_,fun _ _ => (hsee.error herr).2⟩
    exact absurd (hok.symm.trans (hsee.error herr).1) (by decide)
  · exact absurd hl hleft
  · refine ⟨h2,fun _ => rfl,fun hno hst => ?_⟩
    have hval := hsee.refused hno (hst ▸ ⟨left,List.mem_cons_self⟩)
    rw [hval] at herr
    exact absurd herr (by decide)

theorem at_requestIrq (hr : flags.requested = false) : BootObeys f requestIrq
    (fun h' ret => ret = 0 ∧ At h' sent stages { flags with requested := true, armed := true }) h := by
  refine .request trivial fun s hs => ?_
  have h1 := ha.inert .load s rfl
  have hirq : s.irqRequested = false :=
    (hs ha.fresh).irq.trans ((congrArg (fun x => x.requested) ha.flags).trans hr)
  rw [hirq]
  refine .request trivial fun r hok => ?_
  obtain rfl : r = (0 : ℤ) := hok
  have h2 : At (⟨.requestIrq,(0 : ℤ)⟩ :: ⟨.load,s⟩ :: h) sent stages { flags with armed := true } := by
    obtain rfl := h1.flags
    exact h1.cons nofun rfl
  exact .request trivial fun _ _ => ⟨rfl,h2.store (.irqRequested true)⟩

theorem at_setPower (hp : flags.power = .off) : BootObeys f (setPower .on)
    (fun h' _ => At h' sent stages { flags with power := .on }) h := by
  refine .request trivial fun s hs => ?_
  have h1 := ha.inert .load s rfl
  have hpower : s.power = .off :=
    (hs ha.fresh).power.trans ((congrArg (fun x => x.power) ha.flags).trans hp)
  change BootObeys f (if s.power = .on then _ else _) _ _
  rw [hpower, if_neg (by decide)]
  refine .request trivial fun _ _ => ?_
  have h2 := h1.store (.power .on)
  change BootObeys f (if _ then _ else _) _ _
  split_ifs
  · exact ⟨trivial,fun _ _ => h2.inert _ _ rfl⟩
  · exact h2

theorem at_bootFail {ret : ℤ} : BootObeys f (bootFail ret) (fun h' ret' => ret' = ret ∧
    ∃ flags', At h' sent stages flags') h := by
  refine (at_idles ?_ ha).bind fun h1 _ h1a => ?_
  · exact ⟨rfl,fun _ => Program.only_ite.mpr ⟨fun _ => trivial,fun _ =>
      ⟨rfl,fun _ => ⟨rfl,fun _ => ⟨rfl,fun _ => trivial⟩⟩⟩⟩⟩
  · refine .request trivial fun _ _ => .request trivial fun _ _ => ?_
    exact ⟨rfl,_,(h1a.store (.firmwareUp false)).store (.doorbellUp false)⟩

end Calls

section Accepted

variable (hok : acceptable f.hello = true) (ha : At h sent stages flags)
  (hiop : .iopAck ∈ stages) (hap : .apAck ∈ stages)
include hok ha hiop hap

theorem at_running : BootObeys f (running port)
    (fun h' up => up = true ∧ At h' sent stages flags) h := by
  refine .request trivial fun s hs => ?_
  have h1 := ha.inert .load s rfl
  change BootObeys f (if _ then _ else _) _ _
  rw [if_pos ((hs ha.fresh).iop hok (ha.waited _ hiop))]
  refine .request trivial fun t ht => ?_
  exact ⟨(ht h1.fresh).ap hok (h1.waited _ hap),h1.inert _ _ rfl⟩

theorem at_startEndpoint (hmap : .epmap ∈ stages) {endpoint : U32}
    (he : endpoint = epFirmware ∨ endpoint = epDoorbell) :
    BootObeys f (startEndpoint port endpoint)
      (fun h' ret => ret = 0 ∧ At h' (sent ++ [(epMgmt,startepMsg endpoint)]) stages flags) h := by
  obtain ⟨hcount,hstart⟩ : ¬ endpoint ≥ epCount ∧ endpoint ≥ epAppStart := by
    obtain rfl | rfl := he <;> decide
  rw [startEndpoint, if_neg hcount, hasEndpoint, if_neg hcount]
  refine .request trivial fun s hs => ?_
  have h1 := ha.inert .load s rfl
  have hknown : s.rtkit.announced endpoint = true := by
    have hboth := (hs ha.fresh).announced hok (ha.waited _ hmap)
    obtain rfl | rfl := he
    · exact hboth.1
    · exact hboth.2
  change BootObeys f (if !s.rtkit.announced endpoint then _ else _) _ _
  rw [hknown, if_neg (by decide), mayStart, if_pos hstart]
  refine (at_running hok h1 hiop hap).bind fun h2 up h2a => ?_
  obtain ⟨rfl,h2a⟩ := h2a
  exact at_send h2a

end Accepted

/-- Boot returns with what it has to have done. -/
def Returns (f : FakeFirmware) (h : Hist) (ret : ℤ) : Prop := Fresh h ∧ Outcome f h ret

section Boot

variable (hok : acceptable f.hello = true)
include hok

theorem at_bootEndpoints
    (ha : At h [iopInit,apOn] [.apAck,.iopAck,.epmap] ⟨false,false,.off,true,true⟩) :
    BootObeys f bootEndpoints (Returns f) h := by
  refine (at_startEndpoint hok ha (by decide) (by decide) (by decide) (.inl rfl)).bind ?_
  rintro h1 _ ⟨rfl,h1a⟩
  refine .request trivial fun _ _ => ?_
  have h2 := h1a.store (.firmwareUp true)
  refine (at_startEndpoint hok h2 (by decide) (by decide) (by decide) (.inr rfl)).bind ?_
  rintro h3 _ ⟨rfl,h3a⟩
  refine .request trivial fun _ _ => ?_
  refine (at_setPower (h3a.store (.doorbellUp true)) rfl).bind fun h5 _ h5a => ⟨h5a.fresh,?_⟩
  rw [Outcome, if_pos hok]
  refine ⟨rfl,h5a.sends,fun stage => h5a.waited stage ?_,h5a.flags⟩
  cases stage <;> decide

theorem at_bootApPower (ha : At h [iopInit] [.iopAck,.epmap] ⟨false,false,.off,true,true⟩) :
    BootObeys f bootApPower (Returns f) h := by
  have hlaw : bootLaw f h (.rtkit (.apAcked false)) := fun _ => by
    rw [ha.sends]
    decide
  refine .request hlaw fun _ _ => (at_send (ha.inert _ _ rfl)).bind ?_
  rintro h1 _ ⟨rfl,h1a⟩
  refine (at_wait h1a .apAck (List.mem_append_right _ List.mem_cons_self) rfl).bind ?_
  rintro h2 ret ⟨h2a,hret,-⟩
  rw [if_neg (not_not.mpr (hret hok))]
  refine (at_running hok h2a (by decide) (by decide)).bind ?_
  rintro h3 _ ⟨rfl,h3a⟩
  exact at_bootEndpoints hok h3a

end Boot

theorem at_bootRollCall (ha : At h [iopInit] [] ⟨false,false,.off,true,true⟩) :
    BootObeys f bootRollCall (Returns f) h := by
  refine (at_wait ha .epmap (by decide) rfl).bind ?_
  rintro h1 ret ⟨h1a,hret,hno⟩
  cases hok : acceptable f.hello with
  | false =>
    obtain rfl := hno hok rfl
    rw [if_pos (by decide)]
    refine (at_bootFail h1a).mono ?_
    rintro h2 _ ⟨rfl,flags',h2a⟩
    refine ⟨h2a.fresh,?_⟩
    rw [Outcome, if_neg (by simp [hok])]
    exact ⟨rfl,h2a.sends,h2a.waited _ List.mem_cons_self⟩
  | true =>
    rw [if_neg (not_not.mpr (hret hok))]
    refine (at_wait h1a .iopAck (by decide) rfl).bind ?_
    rintro h2 ret ⟨h2a,hret2,-⟩
    rw [if_neg (not_not.mpr (hret2 hok))]
    refine .request trivial fun s hs => ?_
    have hon := (hs h2a.fresh).iop hok (h2a.waited _ List.mem_cons_self)
    rw [hon, if_neg (by decide)]
    exact at_bootApPower hok (h2a.inert _ _ rfl)

theorem at_boot : BootObeys f boot (Returns f) [] := by
  have h0 : At [] [] [] ⟨false,false,.off,false,false⟩ := ⟨fun _ => List.not_mem_nil,rfl,nofun,rfl⟩
  refine (at_idles (p := setOutboxEnable true) ⟨rfl,fun _ => ⟨rfl,fun _ => trivial⟩⟩ h0).bind ?_
  intro h1 _ h1a
  refine .request trivial fun ctrl _ => .request trivial fun _ _ => .request trivial fun _ _ => ?_
  have h2 := ((h1a.inert .readCtrl ctrl rfl).inert (.writeCtrl (ctrl ||| cpuCtrlRun)) () rfl).store
    (.cpuRunning true)
  have hlaw : bootLaw f _ (.rtkit (.iopAcked false)) := fun _ => by
    rw [h2.sends]
    exact List.not_mem_nil
  refine .request hlaw fun _ _ => (at_send (h2.inert _ _ rfl)).bind ?_
  rintro h3 _ ⟨rfl,h3a⟩
  refine (at_requestIrq h3a rfl).bind ?_
  rintro h4 _ ⟨rfl,h4a⟩
  exact at_bootRollCall h4a

theorem at_lifecycle : BootObeys f lifecycle (fun h _ => ¬ Fresh h) [] := by
  refine at_boot.bind fun h1 ret ⟨hfresh,hout⟩ => ?_
  exact .request (fun _ => hout) fun _ _ => boot_over fun hf => hf ret List.mem_cons_self

theorem no_fail (ha : Along (bootLaw f) h) (hb : Fresh h) (e : ℤ) (r : Unit) :
    (⟨.rtkit (.fail e),r⟩ : Ev) ∉ h := by
  intro hm
  obtain ⟨later,earlier,rfl⟩ := List.append_of_mem hm
  exact ha.of_append.1 fun ret hr =>
    hb ret (List.mem_append_right _ (List.mem_cons_of_mem _ hr))

/-- The messages of boot, as the firmware hears them. -/
def isAsk (x : Msg) : Bool := decide (x ∈ asks)

theorem isAsk_false {x : Msg} (hx : isReply x = true ∨ x.1 ≠ epMgmt) : isAsk x = false := by
  have hall : ∀ y ∈ asks, isReply y = false ∧ y.1 = epMgmt := by decide
  refine decide_eq_false fun hm => ?_
  obtain hr | hne := hx
  · exact absurd (hr.symm.trans (hall x hm).1) (by decide)
  · exact hne (hall x hm).2

theorem heard_asks {log : RunLog} (hl : Lawful law log) (hb : Fresh (own .main log)) :
    (heard log).filter isAsk = sends (own .main log) := by
  induction log with
  | nil => rfl
  | cons e log ih =>
    obtain ⟨j,op,r⟩ := e
    rw [heard_cons, List.filter_append, ih hl.2 (fresh_of_cons hb)]
    by_cases hj : j = .main
    · subst hj
      rw [own_cons_self, sends_cons]
      congr 1
      cases op with
      | send endpoint m =>
        obtain ⟨rfl,hs⟩ := hl.1
        have hm : isAsk (epMgmt,m) = true := decide_eq_true ((MainSend.kind hs).2 (fresh_of_cons hb))
        by_cases h0 : r = (0 : ℤ)
        · subst h0
          exact List.filter_cons_of_pos hm
        · simp [entered, h0]
      | _ => rfl
    · rw [own_cons_ne hj]
      refine (congrArg _ ?_).trans (List.append_nil _)
      cases he : entered ⟨op,r⟩ with
      | none => rfl
      | some x =>
        refine List.filter_cons_of_neg (Bool.eq_false_iff.mp (isAsk_false ?_))
        cases op with
        | send endpoint m =>
          obtain ⟨-,rfl⟩ : r = (0 : ℤ) ∧ (packMsg1 endpoint,m) = x := by simpa [entered] using he
          cases j with
          | main => contradiction
          | irq =>
            obtain ⟨-,hs⟩ := hl.1.resolve_left (by simp)
            obtain ⟨rfl,hr⟩ | ⟨-,hp⟩ := IrqSend.kind hs
            · exact .inl hr
            · exact .inr hp
          | gpu n => exact .inr (gpu_kind hl.1.1)
          | firmware => exact hl.1.elim
        | _ => contradiction

section Runs

variable (h₀ : Probed s₀) (hout : s₀.outbox = []) (hf : f.Fresh)
  (hc : (driver.startingAt s₀).Reach (plays f) c) (hu : Unhindered c.log)
include h₀ hout hf hc hu

theorem reach_boot : Along (bootLaw f) (own .main c.log) ∧
    BootObeys f (c.thread .main) (fun h _ => ¬ Fresh h) (own .main c.log) := by
  refine hc.obeys .main (fun h => ¬ Fresh h) (fun _ _ (h : Unhindered _) => h.of_cons) ?_ at_lifecycle
    (fun call _ _ hp _ => ?_) hu
  · intro c op r t hc hal hs hu
    cases op with
    | load =>
      obtain ⟨rfl,-⟩ := hs
      intro hb
      exact sees h₀ hout hf hc hu.of_cons hb fun e r hm => no_fail hal hb e r (mem_own.mpr hm)
    | _ => exact hu _ List.mem_cons_self
  · cases call <;> contradiction

theorem sees_of (hb : Fresh (own .main c.log)) : Sees f (own .main c.log) c.state.rb :=
  sees h₀ hout hf hc hu hb fun e r hm =>
    no_fail (reach_boot h₀ hout hf hc hu).1 hb e r (mem_own.mpr hm)

end Runs

/-- The driver is up, and the firmware was told so in the order of the protocol. -/
structure CameUp (f : FakeFirmware) (c : Config Party Op Res World) : Prop where
  version : c.state.rb.rtkit.version = chosen f.hello
  helloDone : c.state.rb.rtkit.helloDone = true
  error : c.state.rb.rtkit.error = 0
  started : isStarted c.state.rb = true
  power : c.state.rb.power = .on
  replies : (heard c.log).filter isReply = script f
  asked : (heard c.log).filter isAsk = asks

/-- The driver gave up for want of a common version, and the firmware heard the first request only. -/
structure GaveUp (c : Config Party Op Res World) : Prop where
  error : c.state.rb.rtkit.error = Status.einval
  replies : (heard c.log).filter isReply = []
  asked : (heard c.log).filter isAsk = [iopInit]

section Outcomes

variable (h₀ : Probed s₀) (hout : s₀.outbox = []) (hf : f.Fresh)
  (hc : (driver.startingAt s₀).Reach (plays f) c) (hu : Unhindered c.log)
  (hb : Fresh (own .main c.log))
include h₀ hout hf hc hu hb

theorem came_up (hok : acceptable f.hello = true) {ret : ℤ}
    (hret : Outcome f (own .main c.log) ret) : ret = 0 ∧ CameUp f c := by
  rw [Outcome, if_pos hok] at hret
  obtain ⟨h0,hsends,hwaited,hflags⟩ := hret
  have hd := hc.of_startingAt h₀
  have hl := reach_lawful hd
  have hsee := sees_of h₀ hout hf hc hu hb
  have herr : c.state.rb.rtkit.error = 0 := by
    by_contra hne
    exact absurd (hok.symm.trans (hsee.error hne).1) (by decide)
  have hcourse := course_of h₀ hout hf hc hu hb
  have hdone := (hwaited .epmap).ended hd.trace hl hu
  have hmap := hcourse.mapped (hdone.resolve_left (not_not.mpr herr))
  have hcore := unshared_eq hd.trace hl
  have hup := firmwareUp_eq hd.trace hl
  have hdoor := doorbellUp_eq hd.trace hl
  refine ⟨h0,?_,?_,herr,?_,?_,?_,?_⟩
  · exact (congrArg (fun k => k.version) hcore).trans hmap.version
  · exact (congrArg (fun k => k.helloDone) hcore).trans hmap.helloDone
  · rw [isStarted, hsee.iop hok (hwaited .iopAck), hsee.ap hok (hwaited .apAck), hup, hdoor,
      show latest firmwareStore false (own .main c.log) = true from congrArg (fun x => x.firmware) hflags,
      show latest doorbellStore false (own .main c.log) = true from congrArg (fun x => x.doorbell) hflags]
    rfl
  · exact hsee.power.trans (congrArg (fun x => x.power) hflags)
  · exact (heard_replies hl hu).trans hmap.replies
  · exact (heard_asks hl hb).trans hsends

theorem gave_up (hno : acceptable f.hello = false) {ret : ℤ}
    (hret : Outcome f (own .main c.log) ret) : ret = Status.einval ∧ GaveUp c := by
  rw [Outcome, if_neg (by simp [hno])] at hret
  obtain ⟨h0,hsends,hwaited⟩ := hret
  have hl := reach_lawful (hc.of_startingAt h₀)
  refine ⟨h0,(sees_of h₀ hout hf hc hu hb).refused hno hwaited,?_,(heard_asks hl hb).trans hsends⟩
  have hscript := (spoken_of h₀ hout hf hc hu hb).replies
  rw [script, if_neg (by simp [hno])] at hscript
  exact List.prefix_nil.mp hscript

end Outcomes

/-- However the boot thread, the interrupt thread, the GPU callers and the firmware of the
tests take turns, boot ends in one of two ways, and the versions say in which. -/
theorem boot_outcome (h₀ : Probed s₀) (hout : s₀.outbox = []) (hf : f.Fresh)
    (hc : (driver.startingAt s₀).Reach (plays f) c) (hu : Unhindered c.log) {ret : ℤ} {log : RunLog}
    (hlog : c.log = (.main,⟨.mark (.booted ret),()⟩) :: log) :
    if acceptable f.hello = true then ret = 0 ∧ CameUp f c else ret = Status.einval ∧ GaveUp c := by
  obtain ⟨b,hb,rfl,-,hstate⟩ := hc.before hlog
  have hub : Unhindered b.log := Unhindered.of_cons (hlog ▸ hu)
  have hunwind := reach_unwind (hc.of_startingAt h₀)
  have hboot := (reach_boot h₀ hout hf hc hu).1
  rw [hlog, own_cons_self] at hunwind hboot
  have hfresh : Fresh (own .main b.log) := (hunwind.1.mark _ rfl).1
  have hheard : heard c.log = heard b.log := by
    rw [hlog, heard_cons]
    exact List.append_nil _
  cases hok : acceptable f.hello with
  | true =>
    obtain ⟨h0,hup⟩ := came_up h₀ hout hf hb hub hfresh hok (hboot.1 hfresh)
    rw [if_pos rfl]
    exact ⟨h0,hstate ▸ hup.version,hstate ▸ hup.helloDone,hstate ▸ hup.error,hstate ▸ hup.started,
      hstate ▸ hup.power,hheard ▸ hup.replies,hheard ▸ hup.asked⟩
  | false =>
    obtain ⟨h0,hdown⟩ := gave_up h₀ hout hf hb hub hfresh hok (hboot.1 hfresh)
    rw [if_neg (by decide)]
    exact ⟨h0,hstate ▸ hdown.error,hheard ▸ hdown.replies,hheard ▸ hdown.asked⟩

/-- The newest operation is the return of boot. -/
def bootedNow (ret : ℤ) : RunLog → Bool
  | (.main,⟨.mark (.booted r),_⟩) :: _ => r == ret
  | _ => false

theorem bootedNow_log {ret : ℤ} {log : RunLog} (hb : bootedNow ret log = true) :
    ∃ rest, log = (.main,⟨.mark (.booted ret),()⟩) :: rest := by
  unfold bootedNow at hb
  split at hb
  · obtain rfl := beq_iff_eq.mp hb
    exact ⟨_,rfl⟩
  · contradiction

/-- A firmware that speaks the versions 11 and 12. -/
def firmware : FakeFirmware := .new 11#32 12#32

/-- A boot against it. -/
def firmwareBoot : Schedule :=
  [.acts .main 10 true] ++ delivers firmware.hello ++ interrupt 15 ++
    delivers (FakeFirmware.epmap 0#32 0x11f#32 false) ++ interrupt 14 ++
    delivers (FakeFirmware.epmap 1#32 0x3#32 true) ++ interrupt 56 ++ [.acts .main 2 true] ++
    delivers iopAck.2 ++ (requests.map fun x => delivers x.2 (x.1.setWidth 64)).flatten ++
    interrupt 63 ++ [.acts .main 5 true] ++ delivers apAck.2 ++ interrupt 14 ++ [.acts .main 18 true]

theorem boot_outcome_up : ∃ c : Config Party Op Res World, bootedNow 0 c.log = true ∧
    c.state.rb.rtkit.version = 12#32 ∧ CameUp firmware c := by
  obtain ⟨c,hc,he⟩ := reach_fresh (plays firmware) firmwareBoot
    (fun c => bootedNow 0 c.log && decide (Unhindered c.log)) (by decide +kernel)
  rw [Bool.and_eq_true, decide_eq_true_eq] at he
  obtain ⟨log,hlog⟩ := bootedNow_log he.1
  have hout := boot_outcome (f := firmware) probed_fresh rfl rfl hc he.2 hlog
  rw [if_pos (by decide)] at hout
  exact ⟨c,he.1,hout.2.version.trans (by decide),hout.2⟩

end AgxOpen.Rtbuddy
