import AgxOpen.Locking
import AgxOpen.Rtkit.CrashReport
import AgxOpen.Rtkit.FakeFirmware
import AgxOpen.Rtkit.RollCall

/-!
# The core against the firmware of the tests

The core is given what that firmware queues, in any order in which it can arrive, and
no callback fails. Then the core keeps to the script of the boot.
-/
namespace AgxOpen.Rtkit
open Program

variable {has : Callbacks} {f : FakeFirmware} {s t u : Rtkit} {acts acts' : List CoreAct}
  {messages : List Msg} {x : Msg} {endpoint : U32} {message : U64} {h : Handler} {ret : ℤ}

/-- What the core can have been given so far. -/
structure Told (f : FakeFirmware) (messages : List Msg) : Prop where
  inSetup : messages.filter isSetup <+: setup f
  inRequests : messages.filter isRequest <+: requests
  kinds : ∀ x ∈ messages, isSetup x = true ∨ isRequest x = true ∨ x = iopAck ∨ x = apAck

theorem Heard.told {sent : List Msg} {g : FakeFirmware} (hh : Heard f sent g)
    (hp : messages <+: g.toAp) : Told f messages where
  inSetup := (hp.filter isSetup).trans (hh.inSetup ▸ List.take_prefix ..)
  inRequests := (hp.filter isRequest).trans (hh.inRequests ▸ List.take_prefix ..)
  kinds x hx := hh.kinds x (hp.subset hx)

theorem Told.of_earlier {earlier : List Msg} (ht : Told f messages) (hp : earlier <+: messages) :
    Told f earlier where
  inSetup := (hp.filter isSetup).trans ht.inSetup
  inRequests := (hp.filter isRequest).trans ht.inRequests
  kinds x hx := ht.kinds x (hp.subset hx)

/-- How many messages of the setup were given. -/
def setups (messages : List Msg) : ℕ := (messages.filter isSetup).length

theorem setups_snoc (messages : List Msg) (x : Msg) :
    setups (messages ++ [x]) = setups messages + if isSetup x then 1 else 0 := by
  rw [setups, List.filter_append, List.length_append, setups]
  cases hx : isSetup x <;> simp [hx]

/-- A request is made once. -/
theorem Told.request (ht : Told f (messages ++ [x])) (hx : isRequest x = true) :
    x ∈ requests ∧ x ∉ messages := by
  have hpre := ht.inRequests
  rw [List.filter_append, List.filter_cons_of_pos hx, List.filter_nil] at hpre
  have hnodup : (messages.filter isRequest ++ [x]).Nodup := hpre.sublist.nodup (by decide)
  refine ⟨hpre.subset (by simp),fun hm => ?_⟩
  exact (List.nodup_append.mp hnodup).2.2 x (List.mem_filter.mpr ⟨hm,hx⟩) x (List.mem_singleton_self x) rfl

/-- What is not part of the setup is one of the two acknowledgements, or a request. -/
theorem Told.mgmt {m : U64} (ht : Told f messages) (hm : (epMgmt,m) ∈ messages) :
    isSetup (epMgmt,m) = true ∨ (epMgmt,m) = iopAck ∨ (epMgmt,m) = apAck := by
  obtain h | h | h := ht.kinds _ hm
  · exact .inl h
  · contradiction
  · exact .inr h

/-- The acknowledgement of the firmware, with the level ON. -/
def Power.ack : Power → Msg
  | ap => Rtkit.apAck
  | iop => Rtkit.iopAck

theorem Told.ack (p : Power) {m : U64} (ht : Told f messages) (hm : (epMgmt,m) ∈ messages)
    (htype : msgType m = p.ackType) : (epMgmt,m) = p.ack := by
  obtain h | h | h := ht.mgmt hm
  · rw [isSetup, htype] at h
    exact absurd (Bool.and_eq_true_iff.mp h).2 (by cases p <;> decide)
  all_goals
    rw [(Prod.mk.inj h).2] at htype
    cases p <;> first | exact h | exact absurd htype (by decide)

/-- The last message of the setup. -/
def lastMap : Msg := (epMgmt,FakeFirmware.epmap 1#32 0x3#32 true)

/-- What ends the roll call is the third message of the setup. -/
theorem Told.lastMap {m : U64} (ht : Told f (messages ++ [(epMgmt,m)])) (htype : msgType m = mgmtEpmap)
    (hlast : epmapIsLast m = true) :
    acceptable f.hello = true ∧ (epMgmt,m) = Rtkit.lastMap ∧ setups messages = 2 := by
  have hnext : (setup f)[setups messages]? = some (epMgmt,m) :=
    next_of_order ht.inSetup (by simp [isSetup, htype])
  have hne : (epMgmt,m) ≠ (epMgmt,f.hello) := fun he => by
    rw [(Prod.mk.inj he).2, msgType_hello] at htype
    exact absurd htype (by decide)
  rw [setup] at hnext
  split_ifs at hnext with ha
  · generalize setups messages = n at hnext
    obtain _ | _ | _ | n := n
    · exact absurd (Option.some.inj hnext).symm hne
    · rw [← (Prod.mk.inj (Option.some.inj hnext)).2] at hlast
      exact absurd hlast (by decide)
    · exact ⟨ha,(Option.some.inj hnext).symm,rfl⟩
    · simp at hnext
  · generalize setups messages = n at hnext
    obtain _ | n := n
    · exact absurd (Option.some.inj hnext).symm hne
    · simp at hnext

/-- Behind the first two messages of the setup no version is offered. -/
theorem Told.not_hello (ht : Told f (messages ++ [x])) (h2 : 2 ≤ setups messages) (hasApp : Bool) :
    select hasApp (x.1 &&& 0xff#32) x.2 ≠ .handler .hello := by
  obtain h | h | rfl | rfl := ht.kinds x (List.mem_append_right _ (List.mem_singleton_self x))
  · have hnext : (setup f)[setups messages]? = some x := next_of_order ht.inSetup h
    rw [setup] at hnext
    split_ifs at hnext
    · obtain hge | heq : 3 ≤ setups messages ∨ setups messages = 2 := by omega
      · rw [List.getElem?_eq_none (by simpa using hge)] at hnext
        contradiction
      · rw [heq] at hnext
        obtain rfl := Option.some.inj hnext
        cases hasApp <;> decide
    · rw [List.getElem?_eq_none (by simp; omega)] at hnext
      contradiction
  · have hreq : ∀ y ∈ requests, ∀ app, select app (y.1 &&& 0xff#32) y.2 ≠ .handler .hello := by decide
    exact hreq x (ht.request h).1 hasApp
  · cases hasApp <;> decide
  · cases hasApp <;> decide

/-- No callback failed. -/
def Smooth (acts : List CoreAct) : Prop := ∀ a ∈ acts, actFailure a = none

def saidAct : CoreAct → Option Msg
  | ⟨.send endpoint message,_⟩ => if endpoint = epMgmt then some (endpoint,message) else none
  | _ => none

/-- What is sent on the management endpoint. -/
def said (acts : List CoreAct) : List Msg := acts.filterMap saidAct

theorem said_append : said (acts ++ acts') = said acts ++ said acts' := List.filterMap_append

theorem smooth_append : Smooth (acts ++ acts') ↔ Smooth acts ∧ Smooth acts' := List.forall_mem_append

theorem Smooth.sent (hs : Smooth acts) : ∀ x ∈ acts.filterMap sent, x.2.2 = 0 := by
  rintro ⟨e,m,r⟩ hx
  by_contra hr
  have hfail := hs _ (mem_sent.mp hx)
  simp only [actFailure, if_neg hr] at hfail
  contradiction

theorem Smooth.firstOf (hs : Smooth acts) : firstOf acts = 0 := by
  rw [Rtkit.firstOf, List.filterMap_eq_nil_iff.mpr hs]
  rfl

theorem said_sent (acts : List CoreAct) : said acts =
    (acts.filterMap sent).filterMap fun x => if x.1 = epMgmt then some (x.1,x.2.1) else none := by
  rw [said, List.filterMap_filterMap]
  congr 1
  funext ⟨op,r⟩
  cases op <;> rfl

theorem said_accepted {sends : List U64} (h : acts.filterMap sent = accepted sends) :
    said acts = sends.map fun m => (epMgmt,m) := by
  rw [said_sent, h, accepted, List.filterMap_map]
  exact congrFun (List.filterMap_eq_map (f := fun m => (epMgmt,m))) sends

/-- How much of the script the core has spoken behind so many messages of the setup. -/
def scripted (n : ℕ) : ℕ := [0,1,2].getD n 8

/-- A field that the handler of the message does not store. -/
theorem rx_field {β : Type} (hsel : select has.app (endpoint &&& 0xff#32) message = .handler h)
    (hr : (program has (.rx endpoint message)).Runs step s acts ret u) (get : Rtkit → β)
    (hcount : ∀ e, get (counted s e) = get s)
    (hget : ∀ s v, h.stores v = true → get (v.apply s) = get s) : get u = get s := by
  obtain ⟨before,during,-,-,hd⟩ := rx_runs hr
  rw [hsel] at hd
  have hstores : Only (fun op => ∀ v, op = .store v → h.stores v = true)
      (h.run (corePort has) (endpoint &&& 0xff#32) message) :=
    only_coreHandler nofun nofun nofun nofun hsel fun v hv w hw => by
      cases hw
      exact hv
  refine (Runs.field hd hstores get fun s op hop => ?_).trans (hcount _)
  cases op with
  | store v => exact hget s v (hop v rfl)
  | _ => rfl

/-- The core behind the messages. -/
structure CoreAt (f : FakeFirmware) (messages : List Msg) (s : Rtkit) : Prop where
  hello : 1 ≤ setups messages → acceptable f.hello = true →
    s.version = chosen f.hello ∧ s.helloDone = true
  system : 2 ≤ setups messages → ∀ e ∈ systemEndpoints, s.announced e = true
  app : 3 ≤ setups messages → s.announced epFirmware = true ∧ s.announced epDoorbell = true
  epmapDone : s.epmapDone = true ↔ 3 ≤ setups messages
  error : s.error = if setups messages = 0 ∨ acceptable f.hello = true then 0 else Status.einval
  power : ∀ p : Power, p.ack ∈ messages → levelOn (p.level s) = true ∧ p.isAcked s = true
  crashlog : recordsCrashlog s = true → ∃ m, (epCrashlog,m) ∈ messages
  crashed : s.crashed = false

theorem coreAt_init (f : FakeFirmware) : CoreAt f [] init := by
  constructor <;> simp [setups, init, recordsCrashlog]

theorem CoreAt.no_error (hs : CoreAt f messages s) (he : s.error ≠ 0) :
    acceptable f.hello = false ∧ s.error = Status.einval := by
  have herr := hs.error
  split_ifs at herr with hc
  · exact absurd herr he
  · exact ⟨by simpa using fun ha => hc (.inr ha),herr⟩

/-- What only the acknowledgements change. -/
def powerFields (s : Rtkit) : U32 × U32 × Bool × Bool := (s.iopPower,s.apPower,s.iopAcked,s.apAcked)

theorem power_of_fields (h : powerFields u = powerFields s) (p : Power) :
    p.level u = p.level s ∧ p.isAcked u = p.isAcked s := by
  simp only [powerFields, Prod.mk.injEq] at h
  obtain ⟨hiop,hap,hiop',hap'⟩ := h
  cases p
  · exact ⟨hap,hap'⟩
  · exact ⟨hiop,hiop'⟩

/-- What only the setup changes. -/
def setupState (s : Rtkit) : (ℕ → U32) × Bool × U32 × Bool :=
  (s.endpoints,s.epmapDone,s.version,s.helloDone)

/-- A message that is no part of the setup. -/
theorem CoreAt.keep (hs : CoreAt f messages s) (hx : isSetup x = false)
    (hset : setupState u = setupState s) (herr : u.error = s.error)
    (hpower : ∀ p : Power, p.ack ∈ messages ++ [x] →
      levelOn (p.level u) = true ∧ p.isAcked u = true)
    (hlog : recordsCrashlog u = true → ∃ m, (epCrashlog,m) ∈ messages ++ [x])
    (hcrashed : u.crashed = false) : CoreAt f (messages ++ [x]) u := by
  simp only [setupState, Prod.mk.injEq] at hset
  obtain ⟨hmap,hdone,hver,hhello⟩ := hset
  have hn : setups (messages ++ [x]) = setups messages := by
    rw [setups_snoc, hx]
    rfl
  have hann (e : U32) : u.announced e = s.announced e := by rw [announced, announced, hmap]
  constructor
  · rw [hn, hver, hhello]
    exact hs.hello
  · simp only [hn, hann]
    exact hs.system
  · simp only [hn, hann]
    exact hs.app
  · rw [hn, hdone]
    exact hs.epmapDone
  · rw [hn, herr]
    exact hs.error
  · exact hpower
  · exact hlog
  · exact hcrashed

/-- A crash log message is the request. -/
theorem Told.crash_request (ht : Told f (messages ++ [x])) (hx : CrashMessage x.1 x.2) :
    x ∈ requests ∧ x ∉ messages ∧ x.1 = epCrashlog := by
  have hreq : isRequest x = true := by
    rw [isRequest, bne_iff_ne]
    rintro he
    rw [CrashMessage, he] at hx
    exact absurd hx.1 (by decide)
  obtain ⟨hmem,hnew⟩ := ht.request hreq
  have hall : ∀ a ∈ requests, a.1 &&& 0xff#32 = epCrashlog → a.1 = epCrashlog := by decide
  exact ⟨hmem,hnew,hall x hmem hx.1⟩

/-- It comes once. -/
theorem Told.crashlog (ht : Told f (messages ++ [x])) (hs : CoreAt f messages s)
    (hx : CrashMessage x.1 x.2) : recordsCrashlog s = false := by
  obtain ⟨hmem,hnew,he⟩ := ht.crash_request hx
  have huniq : ∀ a ∈ requests, ∀ b ∈ requests, a.1 = epCrashlog → b.1 = epCrashlog → a = b := by
    decide
  by_contra hne
  obtain ⟨m,hm⟩ := hs.crashlog ((Bool.not_eq_false _).mp hne)
  have hold : (epCrashlog,m) ∈ requests :=
    ht.inRequests.subset (List.mem_filter.mpr ⟨List.mem_append_left _ hm,rfl⟩)
  rw [huniq x hmem _ hold he rfl] at hnew
  exact hnew hm

section Calls

variable (ht : Told f (messages ++ [x])) (hs : CoreAt f messages s)
  (hr : (program has (.rx x.1 x.2)).Runs step s acts ret u)
include ht hs hr

theorem given_crashlog : recordsCrashlog u = true → ∃ m, (epCrashlog,m) ∈ messages ++ [x] := by
  rw [(hr.post (tracking_call _ s)).crashlog, Bool.or_eq_true, given_iff hr]
  rintro (hold | ⟨e,m,requested,iova,hcall,hcrash,-⟩)
  · obtain ⟨m,hm⟩ := hs.crashlog hold
    exact ⟨m,List.mem_append_left _ hm⟩
  · obtain ⟨rfl,rfl⟩ := Call.rx.inj hcall
    exact ⟨x.2,by simp [← (ht.crash_request hcrash).2.2]⟩

theorem keeps_crashed : u.crashed = false := by
  refine (crash_calm (fun hc => ?_) hr).1.trans hs.crashed
  exact absurd hc.2 (by rw [ht.crashlog hs hc.1]; decide)

end Calls

/-- Nothing that the message asks for is refused. -/
theorem call_error {call : Call} {given : Bool} (hr : (program has call).Runs step s acts ret u)
    (hsm : Smooth acts) (hg : recordsCrashlog s = given) :
    u.error = latch s.error ((callFailure has given call).getD 0) := by
  rw [(hr.post (tracking_call _ s)).error, hg, hsm.firstOf, latch_zero_right]

theorem ack_runs {v w : Update}
    (hr : ((corePort has).store v >>= fun _ => (corePort has).store w).Runs step s acts () u) :
    acts = [⟨.store v,()⟩,⟨.store w,()⟩] ∧ u = w.apply (v.apply s) := by
  cases hr with
  | call hv rest =>
    cases rest with
    | call hw rest =>
      cases rest
      obtain ⟨-,rfl⟩ := hv
      exact ⟨rfl,hw.2⟩

theorem said_counts {before during : List CoreAct} (hb : ∀ a ∈ before, Counts a.op) :
    said (before ++ during) = said during := by
  rw [said_sent, sent_counts hb, ← said_sent]

theorem said_back {during : List CoreAct} (he : endpoint ≠ epMgmt)
    (hback : ∀ a ∈ during, Back endpoint a.op) : said during = [] := by
  refine List.filterMap_eq_nil_iff.mpr fun a ha => ?_
  obtain ⟨op,r⟩ := a
  have hop := hback _ ha
  cases op with
  | send e m =>
    obtain rfl : e = endpoint := hop
    exact if_neg he
  | _ => rfl

section Calls

variable (ht : Told f (messages ++ [x])) (hs : CoreAt f messages s)
  (hr : (program has (.rx x.1 x.2)).Runs step s acts ret u)
include ht hs hr

/-- An acknowledgement. -/
theorem call_ack (p : Power) (hsm : Smooth acts) (hx : x = p.ack) :
    CoreAt f (messages ++ [x]) u ∧ said acts = [] := by
  have hlog := given_crashlog ht hs hr
  have hcrashed := keeps_crashed ht hs hr
  subst hx
  have hsel : select has.app (p.ack.1 &&& 0xff#32) p.ack.2 = .handler p.handler := by cases p <;> rfl
  have herr := call_error hr hsm rfl
  obtain ⟨before,during,rfl,hb,hd⟩ := rx_runs hr
  rw [hsel] at hd
  obtain ⟨rfl,rfl⟩ : during = [⟨.store (p.setLevel (powerState p.ack.2)),()⟩,
      ⟨.store (p.acked true),()⟩] ∧
        u = (p.acked true).apply ((p.setLevel (powerState p.ack.2)).apply
          (counted s (p.ack.1 &&& 0xff#32))) := by
    cases p <;> exact ack_runs hd
  refine ⟨hs.keep (by cases p <;> decide) (by cases p <;> rfl) (herr.trans ?_) (fun q hm => ?_) hlog
    hcrashed,?_⟩
  · cases p <;> exact latch_zero_right _
  · by_cases hq : q = p
    · subst hq
      have hon : levelOn (powerState q.ack.2) = true := by cases q <;> decide
      cases q <;> exact ⟨hon,rfl⟩
    · have hold := hs.power q ?_
      · cases p <;> cases q <;> first | exact hold | exact absurd rfl hq
      · refine (List.mem_append.mp hm).resolve_right fun he => ?_
        have hne := List.mem_singleton.mp he
        cases p <;> cases q <;> first | exact hq rfl | exact absurd hne (by decide)
  · rw [said_counts hb]
    cases p <;> rfl

/-- A request for a buffer. -/
theorem call_request (hb : has.buffer = true) (hsm : Smooth acts) (hx : isRequest x = true) :
    CoreAt f (messages ++ [x]) u ∧ said acts = [] := by
  have hne : x.1 ≠ epMgmt := bne_iff_ne.mp hx
  have hlog := given_crashlog ht hs hr
  have hcrashed := keeps_crashed ht hs hr
  obtain ⟨hmem,-⟩ := ht.request hx
  have hfault : ∀ a ∈ requests, ∀ app crashed given,
      callFailure ⟨true,app,crashed⟩ given (.rx a.1 a.2) = none := by decide
  have hway : ∀ a ∈ requests, ∀ app, select app (a.1 &&& 0xff#32) a.2 = .handler .crashlog ∨
      select app (a.1 &&& 0xff#32) a.2 = .handler .buffer := by decide
  have hbyte : ∀ a ∈ requests, a.1 &&& 0xff#32 ≠ epMgmt := by decide
  have herr := call_error hr hsm rfl
  rw [show has = ⟨true,has.app,has.crashed⟩ by rw [← hb], hfault x hmem, Option.getD_none,
    latch_zero_right] at herr
  obtain ⟨h,hsel,hh⟩ : ∃ h, select has.app (x.1 &&& 0xff#32) x.2 = .handler h ∧
      (h = .crashlog ∨ h = .buffer) := by
    obtain hsel | hsel := hway x hmem has.app
    · exact ⟨_,hsel,.inl rfl⟩
    · exact ⟨_,hsel,.inr rfl⟩
  have hset : setupState u = setupState s := rx_field hsel hr setupState (fun _ => rfl) fun s v hv => by
    obtain rfl | rfl := hh <;> cases v <;> first | rfl | contradiction
  have hpower : powerFields u = powerFields s := rx_field hsel hr powerFields (fun _ => rfl)
    fun s v hv => by obtain rfl | rfl := hh <;> cases v <;> first | rfl | contradiction
  refine ⟨hs.keep (by simp [isSetup, hne]) hset herr (fun p hm => ?_) hlog hcrashed,?_⟩
  · obtain ⟨hlevel,hacked⟩ := power_of_fields hpower p
    rw [hlevel, hacked]
    refine hs.power p ((List.mem_append.mp hm).resolve_right fun he => hne ?_)
    rw [← List.mem_singleton.mp he]
    cases p <;> rfl
  · obtain ⟨before,during,rfl,hcounts,hd⟩ := rx_runs hr
    rw [hsel] at hd
    rw [said_counts hcounts]
    exact said_back (hbyte x hmem) (hd.only (back_handler hsel))

end Calls

/-- A message of the setup. -/
theorem CoreAt.setup (hs : CoreAt f messages s) (hx : isSetup x = true)
    (hpower : powerFields u = powerFields s)
    (hlog : recordsCrashlog u = true → ∃ m, (epCrashlog,m) ∈ messages ++ [x])
    (hcrashed : u.crashed = false)
    (hhello : acceptable f.hello = true → u.version = chosen f.hello ∧ u.helloDone = true)
    (hsystem : 1 ≤ setups messages → ∀ e ∈ systemEndpoints, u.announced e = true)
    (happ : 2 ≤ setups messages → u.announced epFirmware = true ∧ u.announced epDoorbell = true)
    (hdone : u.epmapDone = true ↔ 2 ≤ setups messages)
    (herr : u.error = if acceptable f.hello = true then 0 else Status.einval) :
    CoreAt f (messages ++ [x]) u := by
  have hn : setups (messages ++ [x]) = setups messages + 1 := by rw [setups_snoc, if_pos hx]
  constructor
  · exact fun _ => hhello
  · exact fun h2 => hsystem (by omega)
  · exact fun h3 => happ (by omega)
  · rw [hdone, hn]
    omega
  · rw [herr, hn]
    simp
  · intro p hm
    obtain ⟨hlevel,hacked⟩ := power_of_fields hpower p
    rw [hlevel, hacked]
    refine hs.power p ((List.mem_append.mp hm).resolve_right fun he => ?_)
    rw [← List.mem_singleton.mp he] at hx
    cases p <;> exact absurd hx (by decide)
  · exact hlog
  · exact hcrashed

section Setup

variable (ht : Told f (messages ++ [x])) (hs : CoreAt f messages s)
  (hr : (program has (.rx x.1 x.2)).Runs step s acts ret u) (hsm : Smooth acts)
include ht hs hr hsm

theorem call_hello (h0 : setups messages = 0) (hx : x = (epMgmt,f.hello)) :
    CoreAt f (messages ++ [x]) u ∧ said acts = (script f).take 1 := by
  have hlog := given_crashlog ht hs hr
  have hcrashed := keeps_crashed ht hs hr
  subst hx
  have htype := msgType_hello f
  have hsel : select has.app (epMgmt &&& 0xff#32) f.hello = .handler .hello :=
    select_hello has.app htype
  have hpower : powerFields u = powerFields s := rx_field hsel hr powerFields (fun _ => rfl)
    fun s v hv => by cases v <;> first | rfl | contradiction
  have hmap : (u.endpoints,u.epmapDone) = (s.endpoints,s.epmapDone) :=
    rx_field hsel hr (fun s => (s.endpoints,s.epmapDone)) (fun _ => rfl) fun s v hv => by
      cases v <;> first | rfl | contradiction
  have hdone : u.epmapDone = true ↔ 2 ≤ setups messages := by
    rw [(Prod.mk.inj hmap).2, hs.epmapDone, h0]
    omega
  have herr := call_error hr hsm rfl
  rw [hs.error, if_pos (.inl h0), latch_zero_left, callFailure, messageFailure,
    if_pos ⟨(by decide : epMgmt &&& 0xff#32 = epMgmt),htype⟩] at herr
  obtain ⟨before,during,rfl,hcounts,hd⟩ := rx_runs hr
  rw [hsel] at hd
  have hsetup : isSetup (epMgmt,f.hello) = true := by simp [isSetup, htype]
  have hnone {P : Prop} (h : 1 ≤ setups messages) : P := absurd h (by omega)
  cases ha : acceptable f.hello with
  | true =>
    obtain ⟨r,hsent,hver,hhello⟩ := hd.post (meets_accepted ha _)
    obtain rfl : r = 0 := hsm.sent (epMgmt,helloReplyMsg (chosen f.hello),r)
      (by rw [sent_counts hcounts, hsent]; exact List.mem_singleton_self _)
    refine ⟨hs.setup hsetup hpower hlog hcrashed (fun _ => ⟨hver,by simp [hhello]⟩) (fun h => hnone h)
      (fun h => hnone (by omega)) hdone (by simpa [ha] using herr),?_⟩
    have hsaid : said during = [helloReplyMsg (chosen f.hello)].map fun m => (epMgmt,m) :=
      said_accepted hsent
    rw [said_counts hcounts, hsaid, script, if_pos ha]
    rfl
  | false =>
    obtain ⟨hsent,-⟩ := hd.post (meets_refused ha _)
    refine ⟨hs.setup hsetup hpower hlog hcrashed (by simp [ha]) (fun h => hnone h)
      (fun h => hnone (by omega)) hdone (by simpa [ha] using herr),?_⟩
    rw [said_counts hcounts, said_sent, hsent, script, if_neg (by simp [ha])]
    rfl

omit ht hs in
/-- A map message that is acknowledged. -/
theorem epmap_smooth (hm : (Call.rx x.1 x.2).epmap = some x.2) :
    (∀ e, u.announced e = (s.announced e || covers x.2 e)) ∧
      said acts = (answers (fun e => s.announced e || covers x.2 e) x.2).map (epMgmt,·) ∧
      u.epmapDone = (s.epmapDone || epmapIsLast x.2) := by
  obtain ⟨hmap,go,hwent,hdone⟩ := rx_epmap hm hr
  obtain ⟨rfl,hsent⟩ := hwent.all hsm.sent
  exact ⟨hmap,said_accepted hsent,hdone⟩

/-- What a map message of the setup announces and is answered. -/
theorem call_map (ha : acceptable f.hello = true) (h1 : 1 ≤ setups messages)
    (htype : x.1 = epMgmt ∧ msgType x.2 = mgmtEpmap)
    (hsystem : ∀ e ∈ systemEndpoints, (s.announced e || covers x.2 e) = true)
    (happ : 2 ≤ setups messages →
      covers x.2 epFirmware = true ∧ covers x.2 epDoorbell = true)
    (hlast : epmapIsLast x.2 = decide (2 ≤ setups messages)) (hn : setups messages < 3) :
    CoreAt f (messages ++ [x]) u ∧
      said acts = (answers (fun e => s.announced e || covers x.2 e) x.2).map (epMgmt,·) := by
  have hlog := given_crashlog ht hs hr
  have hcrashed := keeps_crashed ht hs hr
  have hm : (Call.rx x.1 x.2).epmap = some x.2 := if_pos ⟨by rw [htype.1]; decide,htype.2⟩
  have hsel : select has.app (x.1 &&& 0xff#32) x.2 = .handler .epmap := by
    rw [htype.1, show epMgmt &&& 0xff#32 = epMgmt by decide, select, if_pos rfl,
      if_neg (by rw [htype.2]; decide), if_pos htype.2]
  have hpower : powerFields u = powerFields s := rx_field hsel hr powerFields (fun _ => rfl)
    fun s v hv => by cases v <;> first | rfl | contradiction
  have hhello : (u.version,u.helloDone) = (s.version,s.helloDone) :=
    rx_field hsel hr (fun s => (s.version,s.helloDone)) (fun _ => rfl) fun s v hv => by
      cases v <;> first | rfl | contradiction
  obtain ⟨hver,hdone'⟩ := Prod.mk.inj hhello
  obtain ⟨hmap,hsaid,hdone⟩ := epmap_smooth hr hsm hm
  have herr := call_error hr hsm rfl
  rw [hs.error, if_pos (.inr ha), latch_zero_left, callFailure, messageFailure,
    if_neg fun h => absurd (htype.2.symm.trans h.2) (by decide)] at herr
  refine ⟨hs.setup (by simp [isSetup, htype]) hpower hlog hcrashed (fun _ => ?_) (fun _ e he => ?_)
    (fun h2 => ?_) ?_ ?_,hsaid⟩
  · rw [hver, hdone']
    exact hs.hello h1 ha
  · rw [hmap, hsystem e he]
  · rw [hmap, hmap, (happ h2).1, (happ h2).2, Bool.or_true, Bool.or_true]
    exact ⟨rfl,rfl⟩
  · rw [hdone, hlast, Bool.or_eq_true, hs.epmapDone, decide_eq_true_eq]
    omega
  · rw [if_pos ha, herr, htype.1]
    rfl

/-- The next message of the setup is answered the next part of the script. -/
theorem call_setup (hx : isSetup x = true) : CoreAt f (messages ++ [x]) u ∧
    (script f).take (scripted (setups messages)) ++ said acts =
      (script f).take (scripted (setups (messages ++ [x]))) := by
  have hn : setups (messages ++ [x]) = setups messages + 1 := by rw [setups_snoc, if_pos hx]
  have hnext : (setup f)[setups messages]? = some x := next_of_order ht.inSetup hx
  rw [hn]
  rcases Nat.eq_zero_or_pos (setups messages) with h0 | h1
  · rw [h0] at hnext ⊢
    obtain ⟨hat,hsaid⟩ := call_hello ht hs hr hsm h0 (Option.some.inj hnext).symm
    exact ⟨hat,hsaid⟩
  have ha : acceptable f.hello = true := by
    by_contra hne
    rw [setup, if_neg hne, List.getElem?_eq_none (by simp; omega)] at hnext
    contradiction
  have h3 : setups messages < 3 := by
    by_contra hge
    rw [setup, if_pos ha, List.getElem?_eq_none (by simp; omega)] at hnext
    contradiction
  rw [setup, if_pos ha] at hnext
  rw [script, if_pos ha]
  have hknown := hs.system
  generalize hk : setups messages = k at hnext h1 h3 hknown
  interval_cases k
  · cases hnext
    have hcov : ∀ e ∈ systemEndpoints, covers (FakeFirmware.epmap 0#32 0x11f#32 false) e = true :=
      List.all_eq_true.mp (by decide)
    obtain ⟨hat,hsaid⟩ := call_map ht hs hr hsm ha (by omega) (by decide)
      (fun e he => by rw [hcov e he, Bool.or_true]) (by omega) (by rw [hk]; decide) (by omega)
    refine ⟨hat,?_⟩
    rw [hsaid]
    rfl
  · cases hnext
    have hcov (e : U32) (he : e ∈ systemEndpoints) : (s.announced e ||
        covers (FakeFirmware.epmap 1#32 0x3#32 true) e) = true := by rw [hknown le_rfl e he, Bool.true_or]
    obtain ⟨hat,hsaid⟩ := call_map ht hs hr hsm ha (by omega) (by decide) hcov (fun _ => by decide)
      (by rw [hk]; decide) (by omega)
    refine ⟨hat,?_⟩
    rw [hsaid, answers, starts, List.filter_eq_self.mpr hcov]
    rfl

end Setup

section Runs

variable (hb : has.buffer = true)
include hb

theorem call_at (ht : Told f (messages ++ [x])) (hs : CoreAt f messages s)
    (hr : (program has (.rx x.1 x.2)).Runs step s acts ret u) (hsm : Smooth acts) :
    CoreAt f (messages ++ [x]) u ∧ (script f).take (scripted (setups messages)) ++ said acts =
      (script f).take (scripted (setups (messages ++ [x]))) := by
  have hsame (hx : isSetup x = false) (h : CoreAt f (messages ++ [x]) u ∧ said acts = []) :
      CoreAt f (messages ++ [x]) u ∧ (script f).take (scripted (setups messages)) ++ said acts =
        (script f).take (scripted (setups (messages ++ [x]))) := by
    rw [h.2, List.append_nil, setups_snoc, hx]
    exact ⟨h.1,rfl⟩
  obtain hx | hx | hx | hx := ht.kinds x (List.mem_append_right _ (List.mem_singleton_self x))
  · exact call_setup ht hs hr hsm hx
  · exact hsame (by simp [isSetup, bne_iff_ne.mp hx]) (call_request ht hs hr hb hsm hx)
  · exact hsame (hx ▸ by decide) (call_ack ht hs hr .iop hsm hx)
  · exact hsame (hx ▸ by decide) (call_ack ht hs hr .ap hsm hx)

theorem session_at {calls : List CoreDone} {earlier : List Msg}
    (hrun : Session step (program has) s calls u) (hs : CoreAt f earlier s)
    (hcalls : calls.map (fun d => d.call) = messages.map fun x => .rx x.1 x.2)
    (ht : Told f (earlier ++ messages)) (hsm : ∀ d ∈ calls, Smooth d.acts) :
    CoreAt f (earlier ++ messages) u ∧
      (script f).take (scripted (setups earlier)) ++ said (calls.flatMap fun d => d.acts) =
        (script f).take (scripted (setups (earlier ++ messages))) := by
  induction hrun generalizing earlier messages with
  | nil s =>
    obtain rfl : messages = [] := by simpa using hcalls.symm
    simpa [said] using hs
  | @cons s t u call acts ret rest hr tail ih =>
    cases messages with
    | nil => simp at hcalls
    | cons x messages =>
      obtain ⟨rfl,hrest⟩ := List.cons.inj hcalls
      obtain ⟨hacts,hsmooth⟩ := List.forall_mem_cons.mp hsm
      rw [List.append_cons] at ht ⊢
      obtain ⟨hat,hsaid⟩ := call_at hb (ht.of_earlier (List.prefix_append ..)) hs hr hacts
      obtain ⟨hend,hsaid'⟩ := ih hat hrest ht hsmooth
      refine ⟨hend,?_⟩
      rw [List.flatMap_cons, said_append, ← List.append_assoc, hsaid, hsaid']

end Runs

/-- Whatever is left of a call, it can end without a failure. -/
theorem finishes (p : Program Op Res ℤ) (s : Rtkit) :
    ∃ acts ret u, Runs step p s acts ret u ∧ Smooth acts := by
  induction p generalizing s with
  | ret a => exact ⟨[],a,s,.ret a s,by simp [Smooth]⟩
  | call op next ih =>
    have hstep : ∃ r, step s op r (after s op) ∧ actFailure ⟨op,r⟩ = none := by
      cases op with
      | load => exact ⟨s,⟨rfl,rfl⟩,rfl⟩
      | send endpoint message => exact ⟨(0 : ℤ),⟨trivial,rfl⟩,rfl⟩
      | buffer endpoint size requestedIova => exact ⟨((0 : ℤ),0#64),⟨trivial,rfl⟩,rfl⟩
      | _ => exact ⟨(),⟨trivial,rfl⟩,rfl⟩
    obtain ⟨r,hs,hr⟩ := hstep
    obtain ⟨acts,ret,u,hrun,hsm⟩ := ih r (after s op)
    exact ⟨_,ret,u,.call hs hrun,List.forall_mem_cons.mpr ⟨hr,hsm⟩⟩

/-- An error stays. -/
theorem error_stays {p : Program Op Res ℤ} (hr : Runs step p s acts ret u) (he : s.error ≠ 0) :
    u.error = s.error := by
  induction hr with
  | ret a s => rfl
  | @call op next r s t acts a u hs rest ih =>
    obtain ⟨-,rfl⟩ := hs
    have hkeep : (after s op).error = s.error := by
      cases op with
      | store v => cases v <;> first | rfl | exact if_neg he
      | _ => rfl
    rw [ih (hkeep ▸ he), hkeep]

/-- What the operations of a call keep holds inside it. -/
theorem running_keeps {p q : Program Op Res ℤ} {I : Rtkit → Prop} (hr : Running step p s acts q t)
    (h0 : I s) (hI : ∀ a ∈ acts, ∀ s, I s → I (after s a.op)) : I t := by
  induction hr with
  | refl => exact h0
  | call hs rest ih =>
    obtain ⟨-,rfl⟩ := hs
    obtain ⟨hhead,htail⟩ := List.forall_mem_cons.mp hI
    exact ih (hhead _ h0) htail

/-- The map only grows. -/
theorem running_announced {p q : Program Op Res ℤ} {e : U32} (hr : Running step p s acts q t)
    (ha : s.announced e = true) : t.announced e = true := by
  refine running_keeps hr (I := fun s => s.announced e = true) ha fun a _ s hs => ?_
  obtain ⟨op,r⟩ := a
  cases op with
  | store v =>
    cases v with
    | orEndpoints base bitmap =>
      rw [announced, bitSet_eq] at hs ⊢
      simp only [after, Update.apply, Function.update_apply]
      split_ifs with hbase
      · subst hbase
        rw [BitVec.getLsbD_or, hs, Bool.true_or]
      · exact hs
    | _ => exact hs
  | _ => exact hs

/-- Only a hello changes the version. -/
theorem running_version {q : Program Op Res ℤ}
    (hr : Running step (program has (.rx endpoint message)) s acts q t)
    (hne : select has.app (endpoint &&& 0xff#32) message ≠ .handler .hello) :
    t.version = s.version ∧ t.helloDone = s.helloDone := by
  let P (op : Op) : Prop := ∀ s, (after s op).version = s.version ∧ (after s op).helloDone = s.helloDone
  obtain ⟨acts',ret,u,hrest,-⟩ := finishes q t
  obtain ⟨before,during,he,hb,hd⟩ := rx_runs (hr.append hrest)
  have hbefore : ∀ a ∈ before, P a.op := by
    intro a ha s
    have hop := hb a ha
    obtain ⟨op,r⟩ := a
    cases op with
    | store v => cases v <;> first | exact ⟨rfl,rfl⟩ | exact hop.elim
    | _ => exact ⟨rfl,rfl⟩
  have hduring : ∀ a ∈ during, P a.op := by
    cases hsel : select has.app (endpoint &&& 0xff#32) message with
    | app =>
      rw [hsel] at hd
      obtain ⟨rfl,-⟩ := app_runs hsel hd
      simp [P, after]
    | unknown =>
      rw [hsel] at hd
      obtain ⟨rfl,-⟩ := unknown_runs hd
      simp [P, after, Update.apply]
    | handler h =>
      rw [hsel] at hd hne
      refine hd.only (only_coreHandler (fun _ => ⟨rfl,rfl⟩) (fun _ _ => ⟨rfl,rfl⟩)
        (fun _ _ _ => ⟨rfl,rfl⟩) (fun _ _ => ⟨rfl,rfl⟩) hsel fun v hv s => ?_)
      cases v with
      | version | helloDone => cases h <;> contradiction
      | _ => exact ⟨rfl,rfl⟩
  refine running_keeps hr (I := fun t => t.version = s.version ∧ t.helloDone = s.helloDone) ⟨rfl,rfl⟩ ?_
  intro a ha s' hs'
  have hmem : a ∈ before ++ during := he ▸ List.mem_append_left _ ha
  have hkept := (List.mem_append.mp hmem).elim (hbefore a) (hduring a) s'
  exact ⟨hkept.1.trans hs'.1,hkept.2.trans hs'.2⟩

/-- Inside a call the core has spoken a part of the script. -/
theorem running_at {q : Program Op Res ℤ} (hb : has.buffer = true) (ht : Told f (messages ++ [x]))
    (hs : CoreAt f messages s) (hr : Running step (program has (.rx x.1 x.2)) s acts q t)
    (hsm : Smooth acts) :
    (script f).take (scripted (setups messages)) ++ said acts <+:
        (script f).take (scripted (setups (messages ++ [x]))) ∧
      (t.error ≠ 0 → acceptable f.hello = false ∧ t.error = Status.einval) := by
  obtain ⟨acts',ret,u,hrest,hsm'⟩ := finishes q t
  obtain ⟨hat,hsaid⟩ := call_at hb ht hs (hr.append hrest) (smooth_append.mpr ⟨hsm,hsm'⟩)
  refine ⟨?_,fun he => ?_⟩
  · rw [← hsaid, said_append, ← List.append_assoc]
    exact List.prefix_append ..
  · have hend := error_stays hrest he
    exact hend ▸ hat.no_error (hend ▸ he)

end AgxOpen.Rtkit
