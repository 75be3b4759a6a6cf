import AgxOpen.Rtkit.Session

/-!
# The first failure

The error field is a latch. Behind any sequence of calls it holds the first
failure of the sequence: a refused send, a refused buffer, or a message that
cannot be served.
-/
namespace AgxOpen.Rtkit
open Program

variable {has : Callbacks} {s t u : Rtkit} {acts acts' earlier : List CoreAct} {α β : Type}

/-- The code with which a callback failed. -/
def actFailure : CoreAct → Option ℤ
  | ⟨.send _ _,r⟩ => if r = (0 : ℤ) then none else some r
  | ⟨.buffer _ _ _,r⟩ => if r.1 = (0 : ℤ) then none else some r.1
  | _ => none

/-- A buffer of the endpoint was handed out. -/
def gives (endpoint : U32) : CoreAct → Bool
  | ⟨.buffer e _ _,r⟩ => e == endpoint && r.1 == (0 : ℤ)
  | _ => false

/-- The crash log has its buffer. -/
def crashlogGiven (acts : List CoreAct) : Bool := acts.any (gives epCrashlog)

theorem crashlogGiven_append (acts acts' : List CoreAct) :
    crashlogGiven (acts ++ acts') = (crashlogGiven acts || crashlogGiven acts') := List.any_append

/-- Some version is offered that the driver supports. -/
def acceptable (message : U64) : Bool :=
  helloMin message ≤ helloMax message && helloMin message ≤ protoMax && protoMin ≤ helloMax message

/-- The message asks for a buffer. On the crash log endpoint only the first such
message does; behind the buffer it reports a crash. -/
def asksBuffer (given : Bool) (endpoint : U32) (message : U64) : Bool :=
  if endpoint = epCrashlog then msgType message == crashlogCrash && !given
  else if endpoint = epSyslog ∨ endpoint = epIoreport then msgType message == bufferRequest
  else if endpoint = epOslog then oslogType message == bufferRequest
  else false

/-- The failure of a message in itself, whatever the callbacks answer. -/
def messageFailure (has : Callbacks) (given : Bool) (endpoint : U32) (message : U64) : Option ℤ :=
  if endpoint = epMgmt ∧ msgType message = mgmtHello then
    if acceptable message then none else some Status.einval
  else if asksBuffer given endpoint message then
    if requestSize endpoint message = 0#64 then some Status.einval
    else if has.buffer then none else some Status.enodev
  else none

def callFailure (has : Callbacks) (given : Bool) : Call → Option ℤ
  | .rx endpoint message => messageFailure has given (endpoint &&& 0xff#32) message
  | _ => none

/-- Every failure of a sequence of calls, oldest first. -/
def failures (has : Callbacks) : List CoreAct → List CoreDone → List ℤ
  | _, [] => []
  | earlier, d :: rest =>
    (callFailure has (crashlogGiven earlier) d.call).toList ++ d.acts.filterMap actFailure ++
      failures has (earlier ++ d.acts) rest

/-- What a latch that holds `error` holds behind another value. -/
def latch (error value : ℤ) : ℤ := if error = 0 then value else error

theorem latch_zero_left (e : ℤ) : latch 0 e = e := rfl

theorem latch_zero_right (e : ℤ) : latch e 0 = e := by
  by_cases h : e = 0
  · simp [latch, h]
  · simp [latch, h]

theorem latch_assoc (a b c : ℤ) : latch (latch a b) c = latch a (latch b c) := by
  by_cases h : a = 0
  · simp [latch, h]
  · simp [latch, h]

/-- The first of the failures, or 0. -/
def first (codes : List ℤ) : ℤ := codes.headD 0

theorem first_append {codes codes' : List ℤ} (h : ∀ e ∈ codes, e ≠ 0) :
    first (codes ++ codes') = latch (first codes) (first codes') := by
  cases codes with
  | nil => rfl
  | cons e codes =>
    have he : e ≠ 0 := h e List.mem_cons_self
    simp [first, latch, he]

theorem first_toList (o : Option ℤ) : first o.toList = o.getD 0 := by
  cases o with
  | none => rfl
  | some e => rfl

theorem actFailure_ne_zero {a : CoreAct} {e : ℤ} (h : actFailure a = some e) : e ≠ 0 := by
  obtain ⟨op,r⟩ := a
  cases op with
  | send endpoint message =>
    obtain ⟨hr,he⟩ := Option.ite_none_left_eq_some.mp h
    exact Option.some.inj he ▸ hr
  | buffer endpoint size iova =>
    obtain ⟨hr,he⟩ := Option.ite_none_left_eq_some.mp h
    exact Option.some.inj he ▸ hr
  | _ => contradiction

theorem callFailure_ne_zero {given : Bool} {call : Call} {e : ℤ}
    (h : callFailure has given call = some e) : e ≠ 0 := by
  cases call with
  | rx endpoint message =>
    simp only [callFailure, messageFailure] at h
    split_ifs at h <;> (obtain rfl := Option.some.inj h; decide)
  | _ => contradiction

def firstOf (acts : List CoreAct) : ℤ := first (acts.filterMap actFailure)

theorem firstOf_append : firstOf (acts ++ acts') = latch (firstOf acts) (firstOf acts') := by
  rw [firstOf, List.filterMap_append, first_append]
  · rfl
  · intro e he
    obtain ⟨a,-,ha⟩ := List.mem_filterMap.mp he
    exact actFailure_ne_zero ha

/-- The record of the crash log buffer. -/
def recordsCrashlog (s : Rtkit) : Bool := s.buffers &&& bufferCrashlog != 0#32

/-- Behind the operations the error is latched and the buffer recorded, with
`fault` for a failure that no callback reported. -/
structure Tracks (s : Rtkit) (fault : ℤ) (acts : List CoreAct) (u : Rtkit) : Prop where
  error : u.error = latch s.error (latch fault (firstOf acts))
  crashlog : recordsCrashlog u = (recordsCrashlog s || crashlogGiven acts)

theorem Tracks.refl (s : Rtkit) : Tracks s 0 [] s :=
  ⟨(latch_zero_right _).symm,(Bool.or_false _).symm⟩

theorem Tracks.append (h : Tracks s fault acts t) (h' : Tracks t 0 acts' u) :
    Tracks s fault (acts ++ acts') u where
  error := by
    rw [h'.error, h.error, latch_zero_left, firstOf_append, latch_assoc, latch_assoc]
  crashlog := by
    rw [h'.crashlog, h.crashlog, crashlogGiven_append, Bool.or_assoc]

/-- Neither a failure nor a buffer. -/
def Plain : Op → Prop
  | .store (.fail _) | .store (.orBuffers _) | .send _ _ | .buffer _ _ _ => False
  | _ => True

/-- Nothing that the latch or the record depends on has happened. -/
structure Silent (s : Rtkit) (acts : List CoreAct) (u : Rtkit) : Prop where
  error : u.error = s.error
  crashlog : recordsCrashlog u = recordsCrashlog s
  first : firstOf acts = 0
  given : crashlogGiven acts = false

theorem Silent.tracks (h : Silent s acts u) : Tracks s 0 acts u :=
  ⟨by rw [h.error, h.first]; exact (latch_zero_right _).symm,
    by rw [h.crashlog, h.given, Bool.or_false]⟩

theorem Silent.then_tracks {fault : ℤ} (h : Silent s acts t) (h' : Tracks t fault acts' u) :
    Tracks s fault (acts ++ acts') u where
  error := by rw [h'.error, h.error, firstOf_append, h.first, latch_zero_left]
  crashlog := by
    rw [h'.crashlog, h.crashlog, crashlogGiven_append, h.given, Bool.false_or]

theorem silent_plain {op : Op} {r : Res op} (hp : Plain op) (hs : step s op r t) :
    Silent s [⟨op,r⟩] t := by
  obtain ⟨-,rfl⟩ := hs
  have he : (after s op).error = s.error ∧ (after s op).buffers = s.buffers := by
    cases op with
    | store u => cases u <;> first | exact ⟨rfl,rfl⟩ | exact hp.elim
    | _ => exact ⟨rfl,rfl⟩
  have hf : firstOf [⟨op,r⟩] = 0 ∧ crashlogGiven [⟨op,r⟩] = false := by
    cases op with
    | send => exact hp.elim
    | buffer => exact hp.elim
    | _ => exact ⟨rfl,rfl⟩
  exact ⟨he.1,by rw [recordsCrashlog, he.2]; rfl,hf.1,hf.2⟩

theorem Silent.append (h : Silent s acts t) (h' : Silent t acts' u) : Silent s (acts ++ acts') u where
  error := h'.error.trans h.error
  crashlog := h'.crashlog.trans h.crashlog
  first := by rw [firstOf_append, h.first, h'.first, latch_zero_left]
  given := by rw [crashlogGiven_append, h.given, h'.given]; rfl

theorem Silent.of_only {p : Program Op Res α} (hp : Only Plain p) (s : Rtkit) :
    Meets step p (fun acts _ u => Silent s acts u) s :=
  hp.meets [] (fun acts u => Silent s acts u) ⟨rfl,rfl,rfl,rfl⟩
    fun _ _ _ _ _ hop hs hI => hI.append (silent_plain hop hs)

/-- A program that tracks from the state. -/
def Tracking (fault : ℤ) (p : Program Op Res α) (s : Rtkit) : Prop :=
  Meets step p (fun acts _ u => Tracks s fault acts u) s

theorem tracking_plain {p : Program Op Res α} (hp : Only Plain p) (s : Rtkit) : Tracking 0 p s :=
  (Silent.of_only hp s).mono fun _ _ _ h => h.tracks

/-- What follows a plain program starts from the same record. -/
theorem Tracking.after_plain {fault : ℤ} {p : Program Op Res α} {f : α → Program Op Res β}
    (hp : Only Plain p) (hf : ∀ a t, recordsCrashlog t = recordsCrashlog s → Tracking fault (f a) t) :
    Tracking fault (p >>= f) s := by
  refine Meets.bind ((Silent.of_only hp s).mono fun acts a t ht => ?_)
  exact (hf a t ht.crashlog).mono fun acts' b u hu => ht.then_tracks hu

theorem tracking_ret (a : α) (s : Rtkit) : Tracking 0 (return a : Program Op Res α) s := Tracks.refl s

theorem Tracking.bind {fault : ℤ} {p : Program Op Res α} {f : α → Program Op Res β}
    (hp : Tracking fault p s) (hf : ∀ a t, Tracking 0 (f a) t) : Tracking fault (p >>= f) s := by
  refine Meets.bind (hp.mono fun acts a t ht => ?_)
  exact (hf a t).mono fun acts' b u hu => ht.append hu

theorem tracking_send (endpoint : U32) (message : U64) (s : Rtkit) :
    Tracking 0 (send (corePort has) endpoint message) s := by
  intro ret t hs
  obtain ⟨-,rfl⟩ := hs
  change Meets step (if _ then _ else _) _ _
  split_ifs with hret
  · rintro - u ⟨-,rfl⟩
    have hf : firstOf [⟨.send endpoint message,ret⟩,⟨.store (.fail ret),()⟩] = ret := by
      simp [firstOf, first, actFailure, hret]
    exact ⟨by rw [hf, latch_zero_left]; rfl,(Bool.or_false _).symm⟩
  · rw [not_not] at hret
    have hf : firstOf [⟨.send endpoint message,ret⟩] = 0 := by
      simp [firstOf, first, actFailure, hret]
    exact ⟨by rw [hf]; exact (latch_zero_right _).symm,(Bool.or_false _).symm⟩

theorem tracking_mgmtSend (type : U32) (payload : U64) (s : Rtkit) :
    Tracking 0 (mgmtSend (corePort has) type payload) s := tracking_send _ _ s

theorem plain_noteUnknown (message : U64) : Only Plain (noteUnknown (corePort has) message) :=
  only_noteUnknown (only_request.mpr trivial) (only_request.mpr trivial)

theorem plain_hasEndpoint (endpoint : U32) : Only Plain (hasEndpoint (corePort has) endpoint) :=
  only_hasEndpoint (only_request.mpr trivial) endpoint

theorem tracking_startEndpoint (endpoint : U32) (s : Rtkit) :
    Tracking 0 (startEndpoint (corePort has) endpoint) s := by
  unfold startEndpoint
  split_ifs
  · exact tracking_ret _ s
  refine (tracking_plain (plain_hasEndpoint endpoint) s).bind fun known t => ?_
  split_ifs
  · exact tracking_ret _ t
  refine Tracking.bind (tracking_plain ?_ t) fun up u => ?_
  · exact only_ite.mpr ⟨fun _ => only_running (only_request.mpr trivial),fun _ => trivial⟩
  split_ifs
  · exact tracking_ret _ u
  · exact tracking_mgmtSend _ _ u

theorem tracking_store {v : Update} {α : Type} {p : Program Op Res α} (hv : Plain (.store v))
    (hp : ∀ t, Tracking 0 p t) (s : Rtkit) :
    Tracking 0 ((corePort has).store v >>= fun _ => p) s :=
  (tracking_plain (only_request.mpr hv) s).bind fun _ t => hp t

theorem tracking_fail (error : ℤ) (s : Rtkit) : Tracking error (fail (corePort has) error) s := by
  rintro - t ⟨-,rfl⟩
  exact ⟨by rw [show firstOf _ = 0 from rfl, latch_zero_right]; rfl,(Bool.or_false _).symm⟩

/-- The failure of a hello, as the code of a fault. -/
theorem acceptable_iff (message : U64) : acceptable message = true ↔
    ¬ (helloMin message > helloMax message ∨ helloMin message > protoMax ∨
      helloMax message < protoMin) := by
  simp [acceptable, BitVec.not_lt, and_assoc]

theorem tracking_hello (message : U64) (s : Rtkit) :
    Tracking (if acceptable message then 0 else Status.einval) (rxHello (corePort has) message) s := by
  unfold rxHello
  by_cases ha : acceptable message = true
  · rw [if_pos ha, if_neg ((acceptable_iff message).mp ha)]
    refine tracking_store (by trivial) (fun t => ?_) s
    refine (tracking_mgmtSend _ _ t).bind fun ret u => ?_
    split_ifs
    · exact tracking_ret _ u
    · exact tracking_plain (only_request.mpr (by trivial)) u
  · rw [if_neg ha, if_pos (not_not.mp (mt (acceptable_iff message).mpr ha))]
    exact tracking_fail _ s

theorem tracking_startSystem (endpoint : U32) (s : Rtkit) :
    Tracking 0 (startSystem (corePort has) endpoint) s := by
  refine (tracking_plain (plain_hasEndpoint endpoint) s).bind fun known t => ?_
  split_ifs
  · exact tracking_ret _ t
  · exact (tracking_startEndpoint endpoint t).bind fun ret u => tracking_ret _ u
  · exact tracking_store (by trivial) (fun u => tracking_ret _ u) t

theorem tracking_epmap (message : U64) (s : Rtkit) :
    Tracking 0 (rxEpmap (corePort has) message) s := by
  refine tracking_store (by trivial) (fun t => ?_) s
  refine (tracking_mgmtSend _ _ t).bind fun ret u => ?_
  split_ifs
  · exact tracking_ret _ u
  · exact tracking_ret _ u
  refine Tracking.bind ?_ fun all v => ?_
  · refine Meets.mono (meets_forUntil (fun _ acts v => Tracks u 0 acts v)
      (fun acts v => Tracks u 0 acts v) [] (Tracks.refl u) fun k _ _ acts v hI => ?_) ?_
    · exact (tracking_startSystem _ v).mono fun acts' b w hw => by simpa using hI.append hw
    · exact fun acts b v hv => by simpa using hv
  · split_ifs
    · exact tracking_plain (only_request.mpr (by trivial)) v
    · exact tracking_ret _ v

/-- What a request without an answer of the callback fails with. -/
def requestFault (has : Callbacks) (size : U64) : ℤ :=
  if size = 0#64 then Status.einval else if has.buffer then 0 else Status.enodev

theorem bufferBit_crashlog (endpoint : U32) :
    (bufferBit endpoint &&& bufferCrashlog != 0#32) = (endpoint == epCrashlog) := by
  unfold bufferBit
  split_ifs with h1 h2 h3 h4
  · subst h1; decide
  · subst h2; decide
  · subst h3; decide
  · subst h4; decide
  · have : (endpoint == epCrashlog) = false := by simpa using h1
    rw [this]
    decide

theorem recordsCrashlog_or (s : Rtkit) (bit : U32) : recordsCrashlog (after s (.store (.orBuffers bit))) =
    (recordsCrashlog s || bit &&& bufferCrashlog != 0#32) := by
  have hand (x : U32) : (x &&& bufferCrashlog != 0#32) = x[0] := by
    have h := BitFields.and_twoPow_eq_zero_iff x (show 0 < 32 by omega)
    rw [show bufferCrashlog = BitVec.twoPow 32 0 from rfl]
    cases hx : x[0] <;> simp_all
  change ((s.buffers ||| bit) &&& bufferCrashlog != 0#32) = (s.buffers &&& bufferCrashlog != 0#32 || _)
  rw [hand, hand, hand, BitVec.getElem_or]

/-- A buffer that was handed out and is recorded. -/
theorem tracks_buffer {endpoint : U32} {size requestedIova iova : U64} (s : Rtkit) :
    Tracks s 0 [⟨.buffer endpoint size requestedIova,((0 : ℤ),iova)⟩,
      ⟨.store (.orBuffers (bufferBit endpoint)),()⟩]
      (after s (.store (.orBuffers (bufferBit endpoint)))) := by
  refine ⟨(latch_zero_right _).symm,?_⟩
  rw [recordsCrashlog_or, bufferBit_crashlog]
  simp [crashlogGiven, gives]

theorem tracking_getBuffer (endpoint : U32) (message : U64) (s : Rtkit) :
    Tracking (requestFault has (requestSize endpoint message))
      (getBuffer (corePort has) endpoint message) s := by
  unfold requestFault
  by_cases h0 : requestSize endpoint message = 0#64
  · rw [if_pos h0, getBuffer_empty h0]
    exact tracking_fail _ s
  rw [if_neg h0]
  cases hb : has.buffer with
  | false =>
    rw [getBuffer_none hb, if_neg h0]
    exact tracking_fail _ s
  | true =>
    rw [getBuffer_some hb h0, if_pos rfl]
    rintro ⟨ret,iova⟩ t ⟨-,rfl⟩
    change Meets step (if ret ≠ 0 then _ else _) _ _
    by_cases hret : ret ≠ 0
    · rw [if_pos hret]
      rintro - u ⟨-,rfl⟩
      have hf : firstOf [⟨.buffer endpoint (requestSize endpoint message)
          (requestIova endpoint message),(ret,iova)⟩,⟨.store (.fail ret),()⟩] = ret := by
        simp [firstOf, first, actFailure, hret]
      have hg : crashlogGiven [⟨.buffer endpoint (requestSize endpoint message)
          (requestIova endpoint message),(ret,iova)⟩,⟨.store (.fail ret),()⟩] = false := by
        simp [crashlogGiven, gives, hret]
      exact ⟨by rw [hf, latch_zero_left]; rfl,by rw [hg, Bool.or_false]; rfl⟩
    · rw [if_neg hret]
      obtain rfl : ret = 0 := not_not.mp hret
      rintro - u ⟨-,rfl⟩
      have hsend := (@tracking_send has endpoint
        (bufferReply endpoint (requestSize endpoint message) iova)
        (after t (.store (.orBuffers (bufferBit endpoint))))).bind fun _ v => tracking_ret () v
      exact hsend.mono fun acts a v hv => (tracks_buffer t).append hv

/-- The fault of a message, 0 if there is none. -/
def fault (has : Callbacks) (given : Bool) (endpoint : U32) (message : U64) : ℤ :=
  (messageFailure has given endpoint message).getD 0

/-- The fault of a message, by the handler it is for. -/
def Handler.fault (has : Callbacks) (given : Bool) (endpoint : U32) (message : U64) : Handler → ℤ
  | .hello => if acceptable message then 0 else Status.einval
  | .crashlog => if given then 0 else requestFault has (requestSize endpoint message)
  | .buffer => requestFault has (requestSize endpoint message)
  | _ => 0

def Disposition.fault (has : Callbacks) (given : Bool) (endpoint : U32) (message : U64) :
    Disposition → ℤ
  | .handler h => h.fault has given endpoint message
  | _ => 0

theorem fault_hello {given : Bool} {message : U64} (hm : msgType message = mgmtHello) :
    fault has given epMgmt message = if acceptable message then 0 else Status.einval := by
  rw [fault, messageFailure, if_pos ⟨rfl,hm⟩]
  split_ifs <;> rfl

theorem fault_request {given : Bool} {endpoint : U32} {message : U64}
    (hm : ¬ (endpoint = epMgmt ∧ msgType message = mgmtHello)) :
    fault has given endpoint message =
      if asksBuffer given endpoint message then requestFault has (requestSize endpoint message)
      else 0 := by
  rw [fault, messageFailure, if_neg hm]
  unfold requestFault
  split_ifs <;> rfl

/-- A type that asks for a buffer, in front of types that have no fault. -/
theorem fault_buffer {given : Bool} {endpoint type : U32} {message : U64} {rest : Disposition}
    (hrest : rest.fault has given endpoint message = 0) :
    (if (type == bufferRequest) = true then requestFault has (requestSize endpoint message) else 0) =
      (if type = bufferRequest then .handler .buffer else rest : Disposition).fault
        has given endpoint message := by
  by_cases ht : type = bufferRequest
  · rw [if_pos (beq_iff_eq.mpr ht), if_pos ht]
    rfl
  · rw [if_neg (mt beq_iff_eq.mp ht), if_neg ht, hrest]

/-- Only a hello and the requests for a buffer have a fault of their own. -/
theorem fault_eq (has : Callbacks) (hasApp given : Bool) (endpoint : U32) (message : U64) :
    fault has given endpoint message =
      (select hasApp endpoint message).fault has given endpoint message := by
  by_cases hhello : endpoint = epMgmt ∧ msgType message = mgmtHello
  · obtain ⟨rfl,hm⟩ := hhello
    rw [fault_hello hm, select, if_pos rfl, if_pos hm]
    rfl
  rw [fault_request hhello, select]
  by_cases hmgmt : endpoint = epMgmt
  · subst hmgmt
    have hask : asksBuffer given epMgmt message = false := rfl
    rw [hask, if_neg Bool.false_ne_true, if_pos rfl, if_neg fun hm => hhello ⟨rfl,hm⟩]
    split_ifs <;> rfl
  rw [asksBuffer, if_neg hmgmt]
  by_cases hcrashlog : endpoint = epCrashlog
  · rw [if_pos hcrashlog, if_pos hcrashlog]
    by_cases ht : msgType message = crashlogCrash
    · cases given <;> simp [ht, Disposition.fault, Handler.fault]
    · simp [ht, Disposition.fault]
  rw [if_neg hcrashlog, if_neg hcrashlog]
  by_cases hsyslog : endpoint = epSyslog
  · rw [if_pos (Or.inl hsyslog), if_pos hsyslog]
    refine fault_buffer ?_
    split_ifs <;> rfl
  by_cases hioreport : endpoint = epIoreport
  · rw [if_pos (Or.inr hioreport), if_neg hsyslog, if_pos hioreport]
    refine fault_buffer ?_
    split_ifs <;> rfl
  rw [if_neg (not_or.mpr ⟨hsyslog,hioreport⟩), if_neg hsyslog, if_neg hioreport]
  by_cases hoslog : endpoint = epOslog
  · rw [if_pos hoslog, if_pos hoslog]
    exact fault_buffer rfl
  · rw [if_neg hoslog, if_neg hoslog, if_neg Bool.false_ne_true]
    split_ifs <;> rfl

theorem tracking_onCrashlog (message : U64) (s : Rtkit) :
    Tracking (Handler.crashlog.fault has (recordsCrashlog s) epCrashlog message)
      (onCrashlog (corePort has) message) s := by
  rintro r t ⟨rfl,rfl⟩
  have hload : Silent t [⟨.load,t⟩] t := silent_plain trivial ⟨rfl,rfl⟩
  refine Meets.mono (?_ : Tracking (Handler.crashlog.fault has (recordsCrashlog t) _ message) _ t)
    fun acts a u hu => hload.then_tracks hu
  change Tracking _ (if _ then _ else _) t
  split_ifs with hb
  · rw [Handler.fault, if_neg (by simp [recordsCrashlog, hb])]
    exact tracking_getBuffer _ message t
  · rw [Handler.fault, if_pos (by simp [recordsCrashlog, hb])]
    refine tracking_store (by trivial) (fun u => tracking_plain ?_ u) t
    cases hc : (corePort has).crashed with
    | none => trivial
    | some crashed => exact only_crashedOp trivial crashed hc

theorem tracking_handler {endpoint : U32} {message : U64} {h : Handler}
    (hsel : select has.app endpoint message = .handler h) (s : Rtkit) :
    Tracking (h.fault has (recordsCrashlog s) endpoint message)
      (h.run (corePort has) endpoint message) s := by
  cases h with
  | hello => exact tracking_hello message s
  | epmap => exact tracking_epmap message s
  | iopAck | apAck =>
    refine tracking_plain ?_ s
    exact ⟨trivial,fun _ => ⟨trivial,fun _ => trivial⟩⟩
  | crashlog =>
    obtain ⟨rfl,-⟩ := select_crashlog.mp hsel
    exact tracking_onCrashlog message s
  | buffer => exact tracking_getBuffer endpoint message s
  | ignore => exact tracking_ret () s
  | echo => exact (tracking_send endpoint message s).bind fun _ t => tracking_ret () t

theorem plain_app (endpoint : U32) (message : U64) :
    Only Plain (Disposition.app.run (corePort has) endpoint message) :=
  only_app (only_appOp trivial)

theorem plain_counters (endpoint : U32) :
    Only Plain ((corePort has).store .rxCount >>= fun _ => countStray (corePort has) endpoint) :=
  Only.bind (only_request.mpr (by trivial)) fun _ =>
    only_countStray (only_request.mpr trivial) (only_request.mpr trivial) endpoint

theorem tracking_dispatch (endpoint : U32) (message : U64) (s : Rtkit) :
    Tracking (fault has (recordsCrashlog s) endpoint message)
      (dispatch (corePort has) endpoint message) s := by
  rw [dispatch_eq, app_isSome, fault_eq has has.app]
  cases hsel : select has.app endpoint message with
  | app => exact tracking_plain (plain_app endpoint message) s
  | unknown => exact tracking_plain (plain_noteUnknown message) s
  | handler h => exact tracking_handler hsel s

theorem tracking_rx (endpoint : U32) (message : U64) (s : Rtkit) :
    Tracking (fault has (recordsCrashlog s) (endpoint &&& 0xff#32) message)
      (rx (corePort has) endpoint message) s := by
  rw [rx_eq]
  refine Tracking.after_plain (plain_counters _) fun _ t ht => ?_
  rw [← ht]
  exact tracking_dispatch _ message t

theorem tracking_call (call : Call) (s : Rtkit) :
    Tracking ((callFailure has (recordsCrashlog s) call).getD 0) (program has call) s := by
  cases call with
  | rx endpoint message => exact (tracking_rx endpoint message s).bind fun _ t => tracking_ret 0 t
  | setIopPower state => exact tracking_store (by trivial) (fun t => tracking_mgmtSend _ _ t) s
  | setApPower state => exact tracking_store (by trivial) (fun t => tracking_mgmtSend _ _ t) s
  | startEndpoint endpoint => exact tracking_startEndpoint endpoint s

theorem run_tracks {calls : List CoreDone} (h : Session step (program has) s calls u)
    (hg : recordsCrashlog s = crashlogGiven earlier) :
    u.error = latch s.error (first (failures has earlier calls)) := by
  induction h generalizing earlier with
  | nil s => exact (latch_zero_right _).symm
  | @cons s t u call acts a rest h tail ih =>
    have ht := h.post (tracking_call call s)
    rw [hg] at ht
    have hrest := @ih (earlier ++ acts) (by rw [ht.crashlog, hg, crashlogGiven_append])
    have hfault : ∀ e ∈ (callFailure has (crashlogGiven earlier) call).toList, e ≠ 0 :=
      fun e he => callFailure_ne_zero (Option.mem_toList.mp he)
    have hacts : ∀ e ∈ acts.filterMap actFailure, e ≠ 0 := by
      intro e he
      obtain ⟨a,-,ha⟩ := List.mem_filterMap.mp he
      exact actFailure_ne_zero ha
    rw [hrest, ht.error, failures, List.append_assoc, first_append hfault, first_append hacts,
      latch_assoc, latch_assoc]
    rw [first_toList]
    rfl

/-- Everything but the note of an unknown message. -/
def Known : Op → Prop
  | .store (.lastUnknown _) => False
  | _ => True

/-- The operations of a function that looks, sends and gives up. -/
def Sends : Op → Prop
  | .load | .send _ _ | .store (.fail _) => True
  | _ => False

theorem sends_startEndpoint (endpoint : U32) :
    Only Sends (startEndpoint (corePort has) endpoint) :=
  only_startEndpoint (only_request.mpr trivial) (fun _ => only_request.mpr trivial)
    (fun _ => only_request.mpr trivial) endpoint

theorem known_handler {endpoint : U32} {message : U64} {h : Handler}
    (hsel : select has.app endpoint message = .handler h) :
    Only Known (h.run (corePort has) endpoint message) := by
  refine only_coreHandler trivial (fun _ => trivial) (fun _ _ => trivial) (fun _ => trivial) hsel ?_
  intro u hu
  cases u with
  | lastUnknown => cases h <;> contradiction
  | _ => trivial

/-- A message is either noted as unknown and nothing more, or not noted at all. -/
theorem dispatch_kind (endpoint : U32) (message : U64) :
    Only Plain (dispatch (corePort has) endpoint message) ∨
      Only Known (dispatch (corePort has) endpoint message) := by
  rw [dispatch_eq, app_isSome]
  cases hsel : select has.app endpoint message with
  | app => exact .inl (plain_app endpoint message)
  | unknown => exact .inl (plain_noteUnknown message)
  | handler h => exact .inr (known_handler hsel)

theorem program_kind (call : Call) :
    Only Plain (program has call) ∨ Only Known (program has call) := by
  have hsend (message : U64) : Only Known ((corePort has).send epMgmt message) :=
    only_request.mpr trivial
  have hfail (e : ℤ) : Only Known ((corePort has).store (.fail e)) := only_request.mpr trivial
  cases call with
  | rx endpoint message =>
    have hknown : Only Known ((corePort has).store .rxCount >>= fun _ =>
        countStray (corePort has) (endpoint &&& 0xff#32)) :=
      (only_request.mpr trivial).bind fun _ =>
        only_countStray (only_request.mpr trivial) (only_request.mpr trivial) _
    rw [program, rx_eq]
    cases @dispatch_kind has (endpoint &&& 0xff#32) message with
    | inl hd => exact .inl (((plain_counters _).bind fun _ => hd).bind fun _ => trivial)
    | inr hd => exact .inr ((hknown.bind fun _ => hd).bind fun _ => trivial)
  | setIopPower state =>
    exact .inr (only_setIopPower hsend hfail (only_request.mpr trivial) state)
  | setApPower state =>
    exact .inr (only_setApPower hsend hfail (only_request.mpr trivial) state)
  | startEndpoint endpoint =>
    exact .inr (only_startEndpoint (only_request.mpr trivial) hsend hfail endpoint)

/-- The message was counted as unknown. -/
def Unknown (acts : List CoreAct) : Prop :=
  ∃ message, (⟨.store (.lastUnknown message),()⟩ : CoreAct) ∈ acts

/-- A start that fails before anything is sent. -/
def Refused (call : Call) (acts : List CoreAct) (ret : ℤ) : Prop :=
  (∃ endpoint, call = .startEndpoint endpoint) ∧ ret ≠ 0 ∧
    ∀ endpoint message r, (⟨.send endpoint message,r⟩ : CoreAct) ∉ acts

theorem unknown_error {call : Call} {ret : ℤ} (h : (program has call).Runs step s acts ret u)
    (hu : Unknown acts) : u.error = s.error := by
  obtain ⟨message,hm⟩ := hu
  cases @program_kind has call with
  | inl hp => exact (h.post (Silent.of_only hp s)).error
  | inr hk => exact (h.only hk _ hm).elim

theorem refused_error {call : Call} {ret : ℤ} (h : (program has call).Runs step s acts ret u)
    (hr : Refused call acts ret) : u.error = s.error := by
  obtain ⟨⟨endpoint,rfl⟩,-,hsent⟩ := hr
  have ht : Tracks s 0 acts u := h.post (tracking_startEndpoint endpoint s)
  have hnone : acts.filterMap actFailure = [] := by
    refine List.filterMap_eq_nil_iff.mpr fun a ha => ?_
    have hop := h.only (sends_startEndpoint endpoint) a ha
    obtain ⟨op,r⟩ := a
    cases op with
    | send endpoint message => exact (hsent _ _ _ ha).elim
    | buffer => exact hop.elim
    | _ => rfl
  rw [ht.error, firstOf, hnone]
  exact latch_zero_right _

theorem failures_ne_zero {calls : List CoreDone} {e : ℤ} (h : e ∈ failures has earlier calls) :
    e ≠ 0 := by
  induction calls generalizing earlier with
  | nil => contradiction
  | cons d rest ih =>
    rw [failures, List.mem_append, List.mem_append] at h
    obtain (h | h) | h := h
    · exact callFailure_ne_zero (Option.mem_toList.mp h)
    · obtain ⟨a,-,ha⟩ := List.mem_filterMap.mp h
      exact actFailure_ne_zero ha
    · exact ih h

theorem first_eq_zero {codes : List ℤ} (h : ∀ e ∈ codes, e ≠ 0) : first codes = 0 ↔ codes = [] := by
  cases codes with
  | nil => exact iff_of_true rfl rfl
  | cons e codes => exact iff_of_false (h e List.mem_cons_self) (List.cons_ne_nil _ _)

/-- Behind any calls the error is the first failure, 0 if there is none. An
unknown message and a refused start leave it as it is. -/
theorem first_failure (has : Callbacks) :
    (∀ calls u, CoreRun has calls u →
      u.error = first (failures has [] calls) ∧ (u.error = 0 ↔ failures has [] calls = [])) ∧
    ∀ call s acts ret u, (program has call).Runs step s acts ret u →
      Unknown acts ∨ Refused call acts ret → u.error = s.error := by
  refine ⟨fun calls u h => ?_,fun call s acts ret u h hk => ?_⟩
  · have he : u.error = first (failures has [] calls) := run_tracks h rfl
    exact ⟨he,by rw [he, first_eq_zero fun e => failures_ne_zero]⟩
  · cases hk with
    | inl hu => exact unknown_error h hu
    | inr hr => exact refused_error h hr

/-- Every callback is there; sends are accepted, buffers are not. -/
def noMemory : Answers where
  send _ _ := 0
  buffer _ _ _ := (Status.enomem,0#64)

/-- A hello, a log request that cannot be served, an empty one, and a start of an
endpoint that was not announced. -/
def failingCalls : List Call :=
  [.rx epMgmt (helloMsg),.rx epSyslog (bufferMsg 1#64),.rx epSyslog (bufferMsg 0#64),
    .startEndpoint 0x20#32]

theorem first_failure_example : ∃ calls u, CoreRun ⟨true,true,true⟩ calls u ∧
    failures ⟨true,true,true⟩ [] calls = [Status.enomem,Status.einval] ∧
    u.error = Status.enomem := by
  have hx : (sessionOf (answer noMemory) (program ⟨true,true,true⟩) init failingCalls).any (fun x =>
      failures ⟨true,true,true⟩ [] x.1 == [Status.enomem,Status.einval]) = true := by decide +kernel
  obtain ⟨calls,u,hrun,hf⟩ := sessionOf_any (answer_step noMemory) hx
  rw [beq_iff_eq] at hf
  have he := ((first_failure ⟨true,true,true⟩).1 calls u hrun).1
  exact ⟨calls,u,hrun,hf,by rw [he, hf]; rfl⟩

/-- The message came from an endpoint that was not announced. -/
def Stray (acts : List CoreAct) : Prop := (⟨.store .strayCount,()⟩ : CoreAct) ∈ acts

def countsStray : CoreAct → Bool
  | ⟨.store .strayCount,_⟩ => true
  | _ => false

theorem stray_of {acts : List CoreAct} (h : acts.any countsStray = true) : Stray acts := by
  obtain ⟨⟨op,r⟩,ha,hop⟩ := List.any_eq_true.mp h
  cases op with
  | store v => cases v <;> first | exact ha | contradiction
  | _ => contradiction

/-- A stray request without a size is a failure as well. -/
theorem stray_failure : ¬ ∀ has calls s endpoint message acts ret u, CoreRun has calls s →
    (program has (.rx endpoint message)).Runs step s acts ret u → Stray acts →
    u.error = s.error := by
  intro h
  have hx : ((program ⟨true,true,true⟩ (.rx epSyslog (bufferMsg 0#64))).execute (answer noMemory)
      init).any (fun x => x.1.any countsStray && x.2.2.error == Status.einval) = true := by
    decide +kernel
  obtain ⟨acts,ret,u,hrun,hx⟩ := Program.execute_any (answer_step noMemory) hx
  obtain ⟨hs,he⟩ := Bool.and_eq_true_iff.mp hx
  have hsame : u.error = init.error := h _ [] init _ _ acts ret u (.nil _) hrun (stray_of hs)
  rw [beq_iff_eq.mp he] at hsame
  contradiction

end AgxOpen.Rtkit
