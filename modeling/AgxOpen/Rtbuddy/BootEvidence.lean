import AgxOpen.Rtbuddy.CleanBoot
import AgxOpen.Rtbuddy.FirmwareBoot

/-!
# What the interrupt thread has done once boot is woken

The stores that end the waits of boot lie behind the messages of the firmware of the
tests, so they tell what that firmware announced and how far the script is.
-/
namespace AgxOpen.Rtbuddy
open Rtkit

variable {f : FakeFirmware} {guard : World → RunLog → Party → Op → Prop} {s₀ s : World}
  {log : RunLog} {h h' : Hist} {c : Config Party Op Res World}

/-- The thread keeps to the script at every point of its history. -/
structure Course (f : FakeFirmware) (h : Hist) : Prop where
  law : Along irqLaw h
  behind : Along behindLaw h
  keeping : ∀ h', h' <:+ h → ∃ handled k now, Keeping f h' handled k now

/-- A point of the history, with what was done there. -/
structure Point (f : FakeFirmware) (h : Hist) (op : Op) (earlier : Hist) (handled : List Msg)
    (k : Rtkit) (now : List CoreAct) : Prop where
  suffix : earlier <:+ h
  step : irqStep earlier op
  behind : behindLaw earlier op
  keeping : Keeping f earlier handled k now

theorem Course.point (hc : Course f h) {op : Op} {r : Res op} (hm : (⟨op,r⟩ : Ev) ∈ h)
    (hop : op ≠ .irqEnter) : ∃ earlier handled k now, Point f h op earlier handled k now := by
  obtain ⟨later,earlier,rfl⟩ := List.append_of_mem hm
  have hsuf : earlier <:+ later ++ ⟨op,r⟩ :: earlier :=
    (List.suffix_cons _ _).trans (List.suffix_append _ _)
  obtain ⟨handled,k,now,hk⟩ := hc.keeping earlier hsuf
  exact ⟨earlier,handled,k,now,hsuf,(hc.law.of_append.1.resolve_left hop).2,
    hc.behind.of_append.1,hk⟩

/-- The message the thread handles at a point. -/
theorem Keeping.current_given {handled : List Msg} {k : Rtkit} {now : List CoreAct} {x : Msg}
    (hk : Keeping f h handled k now) (hx : current h = some x) :
    (tally h).given = handled ++ [x] := by
  rw [hk.given, hx]
  rfl

theorem tally_given_earlier (later h : Hist) : (tally h).given <+: (tally (later ++ h)).given := by
  induction later with
  | nil => exact List.prefix_rfl
  | cons a later ih =>
    obtain ⟨op,r⟩ := a
    refine ih.trans ?_
    rw [List.cons_append, tally_cons]
    cases op with
    | mark m => cases m <;> first | exact List.prefix_append .. | exact List.prefix_rfl
    | rtkit u => cases u <;> exact List.prefix_rfl
    | store v => cases v <;> exact List.prefix_rfl
    | _ => exact List.prefix_rfl

/-- A field of the core that stores set. -/
theorem ownCore_latest {β : Type} {init : β} {get : Rtkit → β} {g : Update → Option β}
    (hg : CoreField get g) (hinit : get .init = init) (h : Hist) :
    get (ownCore h) = latest (coreStore g) init h := by
  induction h with
  | nil => exact hinit
  | cons a h ih => rw [ownCore, replay_cons, hg.updates, latest_cons, ← ownCore, ih]

theorem ownCore_level (p : Power) (h : Hist) :
    p.level (ownCore h) = latest (coreStore (levelWrite p)) pwrOff h :=
  ownCore_latest (levelWrite_field p) (by cases p <;> rfl) h

theorem ownCore_error (h : Hist) : (ownCore h).error = replay recordsError 0 h := by
  induction h with
  | nil => rfl
  | cons a h ih =>
    obtain ⟨op,r⟩ := a
    rw [replay_cons, ← ih, ownCore, replay_cons]
    cases op with
    | rtkit u => cases u <;> rfl
    | _ => rfl

theorem ownCore_announced (h : Hist) (endpoint : U32) :
    (ownCore h).announced endpoint = announcedIn h endpoint := by
  rw [announced, ownCore_endpoints]
  rfl

section Levels

variable (hc : Course f h)
include hc

/-- Every level that is stored is on. -/
theorem Course.level (p : Power) {state : U32}
    (hm : (⟨.rtkit (p.setLevel state),()⟩ : Ev) ∈ h) : levelOn state = true := by
  obtain ⟨earlier,handled,k,now,hp⟩ := hc.point hm (by simp)
  obtain ⟨m,hcur,htype,rfl⟩ : Handles earlier p.ackType fun m => state = powerState m := by
    have hstep := hp.step
    cases p <;> exact hstep
  have hgiven : (epMgmt,m) ∈ (tally earlier).given := by
    rw [hp.keeping.current_given hcur]
    simp
  rw [(Prod.mk.inj (hp.keeping.told.ack p hgiven htype)).2]
  cases p <;> decide

/-- An acknowledgement is told once the level is stored. -/
theorem Course.acked (p : Power) {value : Bool}
    (hm : (⟨.rtkit (p.acked value),()⟩ : Ev) ∈ h) : levelOn (p.level (ownCore h)) = true := by
  obtain ⟨earlier,handled,k,now,hp⟩ := hc.point hm (by simp)
  obtain ⟨state,hs⟩ : ∃ state, (⟨.rtkit (p.setLevel state),()⟩ : Ev) ∈ earlier := by
    have hbehind := hp.behind
    cases p <;> exact hbehind
  have hset : coreStore (levelWrite p) ⟨.rtkit (p.setLevel state),()⟩ ≠ none := by
    cases p <;> exact Option.some_ne_none _
  obtain ⟨⟨op,r⟩,ha,hv⟩ := latest_mem (coreStore (levelWrite p)) pwrOff (hp.suffix.subset hs) hset
  rw [ownCore_level]
  obtain ⟨u,rfl,hu⟩ := of_coreStore hv
  obtain rfl := levelWrite_eq hu
  exact hc.level p ha

end Levels

/-- Of a script that is spoken in order, whoever spoke the last word spoke it all. -/
theorem script_whole {l : List Msg} (hp : l <+: script f) (ha : acceptable f.hello = true)
    (hm : (epMgmt,startepMsg epOslog) ∈ l) : l = script f := by
  have hlen : (script f).length = 8 := by
    rw [script, if_pos ha]
    rfl
  refine hp.eq_of_length (le_antisymm hp.length_le ?_)
  by_contra hlt
  have hpre : l <+: (script f).take 7 := by
    rw [List.prefix_take_iff]
    exact ⟨hp,by omega⟩
  have hmem := hpre.subset hm
  rw [script, if_pos ha] at hmem
  simp only [List.take_succ_cons, List.take_zero, List.mem_cons, Prod.mk.injEq, true_and,
    List.not_mem_nil, or_false] at hmem
  obtain h0 | hrest := hmem
  · have htype := congrArg msgType h0
    rw [msgType_helloReplyMsg] at htype
    exact absurd htype (by decide)
  · exact absurd hrest (by decide)

/-- What holds once the roll call is over. -/
structure Mapped (f : FakeFirmware) (h : Hist) : Prop where
  acceptable : Rtkit.acceptable f.hello = true
  setups : 3 ≤ Rtkit.setups (tally h).given
  firmware : (ownCore h).announced epFirmware = true
  doorbell : (ownCore h).announced epDoorbell = true
  replies : Rtbuddy.replies h = script f
  version : (ownCore h).version = chosen f.hello
  helloDone : (ownCore h).helloDone = true

theorem setups_mono {l l' : List Msg} (hp : l <+: l') : setups l ≤ setups l' :=
  (hp.filter isSetup).length_le

section Roll

variable (hc : Course f h) (hm : (⟨.rtkit .epmapDone,()⟩ : Ev) ∈ h)
include hc hm

/-- The roll call ends with the third message of the setup. -/
theorem Course.roll : acceptable f.hello = true ∧ ∃ earlier handled k now,
    Point f h (.rtkit .epmapDone) earlier handled k now ∧ current earlier = some lastMap ∧
      RolledCall earlier lastMap.2 ∧ setups handled = 2 := by
  obtain ⟨earlier,handled,k,now,hp⟩ := hc.point hm (by simp)
  obtain ⟨m,hcur,htype,hcalled⟩ := hp.step
  have hgiven := hp.keeping.current_given hcur
  obtain ⟨ha,hmap,h2⟩ := (hgiven ▸ hp.keeping.told).lastMap htype hcalled.1
  obtain ⟨-,rfl⟩ := Prod.mk.inj hmap
  exact ⟨ha,earlier,handled,k,now,hp,hcur,hcalled,h2⟩

theorem Course.setups : 3 ≤ setups (tally h).given := by
  obtain ⟨-,earlier,handled,k,now,hp,hcur,-,h2⟩ := hc.roll hm
  obtain ⟨later,rfl⟩ := hp.suffix
  refine le_trans ?_ (setups_mono (tally_given_earlier later earlier))
  rw [hp.keeping.current_given hcur, setups_snoc, h2]
  decide

/-- What the message announces is in the map. -/
theorem Course.covered {e : U32} (he : covers lastMap.2 e = true) :
    (ownCore h).announced e = true := by
  obtain ⟨-,earlier,handled,k,now,hp,hcur,-,-⟩ := hc.roll hm
  obtain ⟨e',m',hcur',hor⟩ := hp.behind
  obtain ⟨-,rfl⟩ := Prod.mk.inj (Option.some.inj (hcur'.symm.trans hcur))
  rw [covers, Bool.and_eq_true, beq_iff_eq] at he
  rw [ownCore_announced, announcedIn, ← he.1]
  exact endpointsOf_mem (hp.suffix.subset hor) he.2

theorem Course.replied : replies h = script f := by
  obtain ⟨ha,earlier,handled,k,now,hp,hcur,⟨-,-,hstart⟩,h2⟩ := hc.roll hm
  obtain ⟨handled',k',now',hk'⟩ := hc.keeping h List.suffix_rfl
  refine script_whole hk'.script ha ?_
  have hann : announcedIn earlier epOslog = true := by
    have hin := hp.keeping.inCall
    rw [hcur] at hin
    obtain ⟨q,hq⟩ := hin
    rw [← ownCore_announced]
    exact running_announced hq (hp.keeping.core.system h2.ge epOslog (by decide))
  obtain ⟨l,he⟩ := current_split hcur
  have hword : (⟨.send epMgmt (startepMsg epOslog),(0 : ℤ)⟩ : Ev) ∈ h := by
    refine hp.suffix.subset ?_
    rw [he]
    exact List.mem_append_left _ (hstart epOslog (by decide) hann)
  refine List.mem_filterMap.mpr ⟨.send epMgmt (startepMsg epOslog) 0,?_,rfl⟩
  exact List.mem_reverse.mpr (List.mem_filterMap.mpr ⟨_,hword,rfl⟩)

/-- No version is offered any more. -/
theorem Course.version : (ownCore h).version = chosen f.hello ∧ (ownCore h).helloDone = true := by
  obtain ⟨ha,-⟩ := hc.roll hm
  have h3 := hc.setups hm
  obtain ⟨handled,k,now,hk⟩ := hc.keeping h List.suffix_rfl
  have hin := hk.inCall
  cases hcur : current h with
  | none =>
    have hgiven := hk.given
    rw [hcur, Option.toList_none, List.append_nil] at hgiven
    rw [hcur] at hin
    rw [hin.2]
    exact hk.core.hello (by rw [← hgiven]; omega) ha
  | some x =>
    rw [hcur] at hin
    obtain ⟨q,hq⟩ := hin
    have hgiven := hk.current_given hcur
    have h2 : 2 ≤ Rtkit.setups handled := by
      rw [hgiven, setups_snoc] at h3
      split_ifs at h3 <;> omega
    obtain ⟨hv,hd⟩ := running_version hq ((hgiven ▸ hk.told).not_hello h2 _)
    rw [hv, hd]
    exact hk.core.hello (by omega) ha

theorem Course.mapped : Mapped f h where
  acceptable := (hc.roll hm).1
  setups := hc.setups hm
  firmware := hc.covered hm (by decide)
  doorbell := hc.covered hm (by decide)
  replies := hc.replied hm
  version := (hc.version hm).1
  helloDone := (hc.version hm).2

end Roll

def Waited (stage : Stage) (h : Hist) : Prop := ∃ r, (⟨.wait stage,r⟩ : Ev) ∈ h

/-- The store that ends the wait. -/
def doneStore : Stage → Update
  | .epmap => .epmapDone
  | .iopAck => .iopAcked true
  | .apAck => .apAcked true

def doneWrite : Stage → Update → Option Bool
  | .epmap, .epmapDone => some true
  | .iopAck, .iopAcked value => some value
  | .apAck, .apAcked value => some value
  | _, _ => none

theorem doneWrite_field (stage : Stage) : CoreField stage.done (doneWrite stage) := by
  intro k u
  cases stage <;> cases u <;> rfl

theorem doneWrite_true {stage : Stage} {u : Update} (h : doneWrite stage u = some true) :
    u = doneStore stage := by
  cases stage <;> cases u <;> first | contradiction | rfl | (cases h; rfl)

/-- What is done was stored by the interrupt thread. -/
theorem done_stored (ht : Ran guard s log) (hl : Lawful law log) {stage : Stage}
    (hd : stage.done s.rb.rtkit = true) : (⟨.rtkit (doneStore stage),()⟩ : Ev) ∈ own .irq log := by
  have hne : stage.done s.rb.rtkit ≠ false := by simp [hd]
  obtain ⟨later,i,u,earlier,rfl,hu,-⟩ := core_stored ht (doneWrite_field stage)
    (by cases stage <;> rfl) hne
  rw [hd] at hu
  obtain rfl := doneWrite_true hu
  have hlaw := hl.split
  refine mem_own.mpr (List.mem_append_right _ ?_)
  cases i with
  | irq => exact List.mem_cons_self
  | main => cases stage <;> simp [law, mainLaw, mainUpdate, doneStore] at hlaw
  | _ => exact hlaw.elim

theorem error_mono {t : World} {earlier : RunLog} (ht : Ran guard s log) (ht' : Ran guard t earlier)
    (hsuf : earlier <:+ log) (he : t.rb.rtkit.error ≠ 0) : s.rb.rtkit.error ≠ 0 := by
  obtain ⟨i,e,hne,hm⟩ := (error_iff ht').mp he
  exact (error_iff ht).mpr ⟨i,e,hne,hsuf.subset hm⟩

/-- A wait that was not in vain ended with its stage done, or with an error. -/
theorem Waited.ended (ht : Ran guard s log) (hl : Lawful law log) (hu : Unhindered log)
    {stage : Stage} (hw : Waited stage (own .main log)) :
    s.rb.rtkit.error ≠ 0 ∨ (⟨.rtkit (doneStore stage),()⟩ : Ev) ∈ own .irq log := by
  obtain ⟨r,hm⟩ := hw
  obtain ⟨later,earlier,rfl⟩ := List.append_of_mem (mem_own.mp hm)
  obtain ⟨t,_,ht',-,hallows,-⟩ := ht.split
  have hsuf : earlier <:+ later ++ (.main,⟨.wait stage,r⟩) :: earlier :=
    (List.suffix_cons _ _).trans (List.suffix_append _ _)
  obtain h0 | hd | he := hallows
  · exact absurd h0 (hu _ (List.mem_append_right _ List.mem_cons_self))
  · exact .inr (mem_own.mpr (hsuf.subset (mem_own.mp (done_stored ht' hl.of_append.2 hd))))
  · exact .inl (error_mono ht ht' hsuf he)

/-- What a load of the boot thread answers. -/
structure Sees (f : FakeFirmware) (h : Hist) (s : Rtbuddy) : Prop where
  error : s.rtkit.error ≠ 0 → acceptable f.hello = false ∧ s.rtkit.error = Status.einval
  refused : acceptable f.hello = false → Waited .epmap h → s.rtkit.error = Status.einval
  iop : acceptable f.hello = true → Waited .iopAck h → levelOn s.rtkit.iopPower = true
  ap : acceptable f.hello = true → Waited .apAck h → levelOn s.rtkit.apPower = true
  announced : acceptable f.hello = true → Waited .epmap h →
    s.rtkit.announced epFirmware = true ∧ s.rtkit.announced epDoorbell = true
  power : s.power = powerOf h
  irq : s.irqRequested = irqFlag h

/-- Only the interrupt thread records failures. -/
theorem error_own (ht : Ran guard s log) (hl : Lawful law log)
    (hm : ∀ e r, (.main,(⟨.rtkit (.fail e),r⟩ : Ev)) ∉ log) :
    s.rb.rtkit.error = (ownCore (own .irq log)).error := by
  obtain ⟨s₁,h₁,he⟩ := ht.replay (fun s => s.rb.rtkit.error) recordsError
    fun s op r t hs => by
      obtain ⟨-,rfl⟩ := hs
      cases op with
      | rtkit u => cases u <;> rfl
      | store v => cases v <;> rfl
      | _ => rfl
  have h0 : s₁.rb.rtkit.error = 0 := by
    rw [h₁.rb]
    rfl
  rw [he, h0, ownCore_error]
  clear he ht
  induction log with
  | nil => rfl
  | cons e log ih =>
    obtain ⟨j,op,r⟩ := e
    have hrest := ih hl.2 fun e r hin => hm e r (List.mem_cons_of_mem _ hin)
    rw [List.map_cons, replay_cons, hrest]
    by_cases hj : j = .irq
    · subst hj
      rw [own_cons_self, replay_cons]
    · rw [own_cons_ne hj]
      cases op with
      | rtkit u =>
        cases u with
        | fail e =>
          cases j with
          | main => exact absurd List.mem_cons_self (hm e r)
          | irq => contradiction
          | _ => exact hl.1.elim
        | _ => rfl
      | _ => rfl

section Configurations

variable (h₀ : Probed s₀) (hout : s₀.outbox = []) (hf : f.Fresh)
  (hc : (driver.startingAt s₀).Reach (plays f) c) (hu : Unhindered c.log)
  (hb : Fresh (own .main c.log))
include h₀ hout hf hc hu hb

theorem course_of : Course f (own .irq c.log) := by
  have hd := hc.of_startingAt h₀
  have hl := reach_lawful hd
  have hgave := given_queued h₀ hout hc.trace hl (reach_receive hd)
  have ht := (hears hf (spoken_of h₀ hout hf hc hu hb)).told hgave
  refine ⟨hl.along .irq,reach_behind hd,fun h' hsuf => ?_⟩
  have hf' : Following h' := by
    obtain ⟨later,he⟩ := hsuf
    obtain rfl | ⟨l,a,rfl⟩ := List.eq_nil_or_concat later
    · exact (show h' = own .irq c.log from he) ▸ reach_following hd
    · rw [List.concat_eq_append, List.append_assoc] at he
      exact (he ▸ (follows hd).1).of_append.1
  have hs : ∀ a ∈ h', Succeeds a := fun a ha => hu.own .irq a (hsuf.subset ha)
  refine keeping hf' hs (ht.of_earlier ?_)
  obtain ⟨later,he⟩ := hsuf
  exact he ▸ tally_given_earlier later h'

theorem sees (hm : ∀ e r, (.main,(⟨.rtkit (.fail e),r⟩ : Ev)) ∉ c.log) :
    Sees f (own .main c.log) c.state.rb := by
  have hd := hc.of_startingAt h₀
  have hl := reach_lawful hd
  have hcourse := course_of h₀ hout hf hc hu hb
  have hcore := unshared_eq hd.trace hl
  have herr : c.state.rb.rtkit.error ≠ 0 →
      acceptable f.hello = false ∧ c.state.rb.rtkit.error = Status.einval := by
    obtain ⟨handled,k,now,hk⟩ := hcourse.keeping _ List.suffix_rfl
    rw [error_own hd.trace hl hm]
    exact hk.error
  have hdone {stage : Stage} (ha : acceptable f.hello = true)
      (hw : Waited stage (own .main c.log)) :
      (⟨.rtkit (doneStore stage),()⟩ : Ev) ∈ own .irq c.log := by
    refine (hw.ended hd.trace hl hu).resolve_left fun he => ?_
    exact absurd (ha.symm.trans (herr he).1) (by decide)
  refine ⟨herr,fun ha hw => ?_,fun ha hw => ?_,fun ha hw => ?_,fun ha hw => ?_,
    power_eq hd.trace hl,irqRequested_eq hd.trace hl⟩
  · obtain he | hdone := hw.ended hd.trace hl hu
    · exact (herr he).2
    · exact absurd ((hcourse.roll hdone).1.symm.trans ha) (by decide)
  · rw [show c.state.rb.rtkit.iopPower = (ownCore (own .irq c.log)).iopPower from
      congrArg (fun k => k.iopPower) hcore]
    exact hcourse.acked .iop (hdone ha hw)
  · rw [show c.state.rb.rtkit.apPower = (ownCore (own .irq c.log)).apPower from
      congrArg (fun k => k.apPower) hcore]
    exact hcourse.acked .ap (hdone ha hw)
  · have hmap (e : U32) : c.state.rb.rtkit.announced e = (ownCore (own .irq c.log)).announced e :=
      congrArg (fun k => k.announced e) hcore
    rw [hmap, hmap]
    have hm := hcourse.mapped (hdone ha hw)
    exact ⟨hm.firmware,hm.doorbell⟩

end Configurations

end AgxOpen.Rtbuddy
