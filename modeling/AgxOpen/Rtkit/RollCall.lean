import AgxOpen.Rtkit.Hello

/-!
# The roll call of the endpoints

The firmware announces its endpoints in map messages. Each one is answered, and
behind the last one the announced system endpoints are started in order.
-/
namespace AgxOpen.Rtkit
open Program

variable {has : Callbacks} {s t u : Rtkit} {acts : List CoreAct} {calls : List CoreDone}
  {endpoint : U32} {message : U64} {maps : List U64} {h : Handler}

/-- Announced by one of the map messages. The management endpoint always is. -/
def announcedBy (maps : List U64) (endpoint : U32) : Bool :=
  endpoint == 0#32 || maps.any (covers · endpoint)

theorem announced_init (endpoint : U32) : init.announced endpoint = announcedBy [] endpoint := by
  have hdiv : (endpoint / 32#32).toNat = endpoint.toNat / 32 := BitVec.toNat_udiv ..
  have hmod : (endpoint % 32#32).toNat = endpoint.toNat % 32 := BitVec.toNat_umod ..
  have hword : (if endpoint.toNat / 32 = 0 then 1#32 else 0#32 : U32).getLsbD (endpoint.toNat % 32) =
      decide (endpoint.toNat = 0) := by
    split_ifs with h0
    · rw [BitVec.getLsbD_one]
      simp only [Nat.zero_lt_succ, decide_true, Bool.true_and, decide_eq_decide]
      omega
    · have hne : endpoint.toNat ≠ 0 := by omega
      simp [hne]
  rw [Rtkit.announced, bitSet_eq, hdiv, hmod]
  refine hword.trans ?_
  rw [announcedBy, List.any_nil, Bool.or_false, beq_eq_decide, decide_eq_decide]
  exact ⟨fun he => BitVec.eq_of_toNat_eq he,fun he => congrArg BitVec.toNat he⟩

theorem announced_or (s : Rtkit) (message : U64) (endpoint : U32) :
    ((Update.orEndpoints (epmapBase message).toNat (epmapBitmap message)).apply s).announced endpoint =
      (s.announced endpoint || covers message endpoint) := by
  simp only [Rtkit.announced, Update.apply, covers, bitSet_eq]
  by_cases hb : epmapBase message = endpoint / 32#32
  · rw [← hb, Function.update_self, BitVec.getLsbD_or, beq_self_eq_true, Bool.true_and]
  · have hne : (endpoint / 32#32).toNat ≠ (epmapBase message).toNat :=
      fun he => hb (BitVec.eq_of_toNat_eq he.symm)
    rw [Function.update_of_ne hne, beq_eq_false_iff_ne.mpr hb, Bool.false_and, Bool.or_false]

theorem announcedBy_snoc (maps : List U64) (message : U64) (endpoint : U32) :
    announcedBy (maps ++ [message]) endpoint =
      (announcedBy maps endpoint || covers message endpoint) := by
  simp [announcedBy, Bool.or_assoc]

def systemEndpoints : List U32 := [epCrashlog,epSyslog,epDebug,epIoreport,epOslog]

def epmapReply (message : U64) : U64 := epmapReplyMsg (epmapBase message) (epmapIsLast message)

/-- Starts of the announced system endpoints, in ascending order. -/
def starts (known : U32 → Bool) : List U64 := (systemEndpoints.filter known).map startepMsg

/-- What one map message is answered with. -/
def answers (known : U32 → Bool) (message : U64) : List U64 :=
  epmapReply message :: if epmapIsLast message then starts known else []

/-- The part of the core that belongs to the roll call. -/
def rollState (s : Rtkit) : (ℕ → U32) × Bool := (s.endpoints,s.epmapDone)

theorem announced_congr (he : rollState t = rollState s) (endpoint : U32) :
    t.announced endpoint = s.announced endpoint := by
  rw [Rtkit.announced, show t.endpoints = s.endpoints from congrArg Prod.fst he]
  rfl

theorem rollState_fail (r : ℤ) (s : Rtkit) :
    rollState (if r = 0 then s else (Update.fail r).apply s) = rollState s := by
  split_ifs <;> rfl

/-- Sends on the management endpoint, all of them accepted. -/
def accepted (messages : List U64) : List (U32 × U64 × ℤ) := messages.map fun m => (epMgmt,m,0)

/-- The last of the sends failed, those before it were accepted. -/
def Broken (sends : List (U32 × U64 × ℤ)) : Prop :=
  ∃ messages message r, sends = accepted messages ++ [(epMgmt,message,r)] ∧ r ≠ 0

theorem meets_mgmtSend (type : U32) (body : U64) (s : Rtkit) :
    Meets step (mgmtSend (corePort has) type body) (fun acts r u =>
      acts.filterMap sent = [(epMgmt,mgmtMsg type body,r)] ∧ rollState u = rollState s) s := by
  refine (meets_send _ _ s).mono fun acts r u hu => ⟨hu.1,?_⟩
  rw [hu.2]
  exact rollState_fail r s

theorem meets_startEndpoint (hlt : endpoint < epAppStart) (hknown : s.announced endpoint = true) :
    Meets step (startEndpoint (corePort has) endpoint) (fun acts r u =>
      acts.filterMap sent = [(epMgmt,startepMsg endpoint,r)] ∧ rollState u = rollState s) s := by
  have hcount : ¬ endpoint ≥ epCount := system_lt hlt
  have happ : ¬ endpoint ≥ epAppStart := BitVec.not_le.mpr hlt
  rw [startEndpoint, if_neg hcount, hasEndpoint_eq hcount]
  rintro r t ⟨rfl,rfl⟩
  change Meets step (if !t.announced endpoint then _ else _) _ _
  rw [if_neg (by simp [hknown]), mayStart, if_neg happ]
  exact meets_mgmtSend _ _ t

/-- The sends went through, or the last one failed and ended the function. -/
def Went (go : Bool) (messages : List U64) (acts : List CoreAct) : Prop :=
  if go then acts.filterMap sent = accepted messages else Broken (acts.filterMap sent)

theorem Went.append {go : Bool} {messages messages' : List U64} {acts acts' : List CoreAct}
    (h : acts.filterMap sent = accepted messages) (h' : Went go messages' acts') :
    Went go (messages ++ messages') (acts ++ acts') := by
  rw [Went, List.filterMap_append, h]
  cases go with
  | true =>
    rw [if_pos rfl, show acts'.filterMap sent = _ from h']
    exact (List.map_append ..).symm
  | false =>
    obtain ⟨done,m,r,hs,hr⟩ : Broken (acts'.filterMap sent) := h'
    refine ⟨messages ++ done,m,r,?_,hr⟩
    rw [hs, ← List.append_assoc]
    exact congrArg (· ++ _) (List.map_append ..).symm

theorem went_send {m : U64} {r : ℤ} (h : acts.filterMap sent = [(epMgmt,m,r)]) :
    Went (r == 0) [m] acts := by
  by_cases hr : r = 0
  · subst hr
    exact h
  · rw [Went, if_neg (by simpa using hr), h]
    exact ⟨[],m,r,rfl,hr⟩

/-- The system endpoints below a bound. -/
def below (n : ℕ) : List U32 := systemEndpoints.filter fun e => e.toNat < n

theorem below_succ {n : ℕ} (h : 1 ≤ n ∧ n < 32) : below (n+1) = below n ++
    if isSystem (BitVec.ofNat 32 n) then [BitVec.ofNat 32 n] else [] := by
  have hall : ∀ n < 32, 1 ≤ n → below (n+1) = below n ++
      if isSystem (BitVec.ofNat 32 n) then [BitVec.ofNat 32 n] else [] := by decide
  exact hall n h.2 h.1

/-- One round of the loop over the endpoints. -/
theorem meets_startSystem (hlt : endpoint < epAppStart) (s : Rtkit) :
    Meets step (startSystem (corePort has) endpoint) (fun acts go u => rollState u = rollState s ∧
      Went go (((if isSystem endpoint then [endpoint] else []).filter s.announced).map startepMsg)
        acts) s := by
  have hcount : ¬ endpoint ≥ epCount := system_lt hlt
  rw [startSystem, hasEndpoint_eq hcount]
  rintro r t ⟨rfl,rfl⟩
  change Meets step (if !t.announced endpoint then _ else _) _ _
  cases hknown : t.announced endpoint with
  | false => exact ⟨rfl,by split_ifs <;> simp [hknown, Went, accepted, sent]⟩
  | true =>
    rw [if_neg (by simp)]
    cases hsys : isSystem endpoint with
    | false =>
      rw [if_neg (by simp)]
      rintro - u ⟨-,rfl⟩
      exact ⟨rfl,rfl⟩
    | true =>
      rw [if_pos rfl]
      refine Meets.bind ((meets_startEndpoint hlt hknown).mono fun acts r u hu => ⟨hu.2,?_⟩)
      rw [if_pos rfl, List.filter_cons_of_pos hknown, List.append_nil]
      exact went_send hu.1

theorem meets_startAll (s : Rtkit) :
    Meets step (forUntil 1 31 fun i => startSystem (corePort has) (BitVec.ofNat 32 i))
      (fun acts all u => rollState u = rollState s ∧ Went all (starts s.announced) acts) s := by
  let I (n : ℕ) (acts : List CoreAct) (u : Rtkit) : Prop := rollState u = rollState s ∧
    acts.filterMap sent = accepted (((below n).filter s.announced).map startepMsg)
  let L (acts : List CoreAct) (u : Rtkit) : Prop :=
    rollState u = rollState s ∧ Broken (acts.filterMap sent)
  refine Meets.mono (meets_forUntil I L [] ⟨rfl,rfl⟩ ?_) ?_
  · rintro n hlo hhi acts t ⟨hroll,hsent⟩
    have hlt : BitVec.ofNat 32 n < epAppStart := by
      rw [BitVec.lt_def, BitVec.toNat_ofNat, Nat.mod_eq_of_lt (by omega)]
      exact hhi
    refine (meets_startSystem hlt t).mono fun acts' go u hu => ?_
    have hknown : t.announced = s.announced := funext (announced_congr hroll)
    have hw := Went.append hsent hu.2
    rw [hknown, ← List.map_append, ← List.filter_append, ← below_succ ⟨hlo,by omega⟩] at hw
    cases go with
    | true => exact ⟨hu.1.trans hroll,hw⟩
    | false => exact ⟨hu.1.trans hroll,hw⟩
  · intro acts all u hu
    cases all with
    | true => exact hu
    | false => exact hu

theorem meets_epmap (message : U64) (s : Rtkit) :
    Meets step (rxEpmap (corePort has) message) (fun acts _ u =>
      u.endpoints = ((Update.orEndpoints (epmapBase message).toNat (epmapBitmap message)).apply s).endpoints ∧
      ∃ go, Went go (answers (fun e => s.announced e || covers message e) message) acts ∧
        u.epmapDone = (s.epmapDone || go && epmapIsLast message)) s := by
  have hknown := announced_or s message
  rintro - t ⟨-,rfl⟩
  change Meets step (mgmtSend (corePort has) _ _ >>= _) _ _
  refine Meets.bind ((meets_mgmtSend _ _ _).mono fun acts r u hu => ?_)
  obtain ⟨hsent,hroll⟩ := hu
  have hmap := congrArg Prod.fst hroll
  have hdone : u.epmapDone = s.epmapDone := congrArg Prod.snd hroll
  have hreply : Went (r == 0) [epmapReply message] acts := went_send hsent
  by_cases hr : r = 0
  · subst hr
    rw [if_neg (by simp)]
    cases hlast : epmapIsLast message with
    | false =>
      rw [if_pos (by simp)]
      refine ⟨hmap,true,?_,by simp [hdone]⟩
      rw [answers, hlast, if_neg (by simp), List.append_nil]
      exact hreply
    | true =>
      rw [if_neg (by simp)]
      refine Meets.bind ((meets_startAll u).mono fun acts' all v hv => ?_)
      obtain ⟨hroll',hw⟩ := hv
      have hmap' := (congrArg Prod.fst hroll').trans hmap
      have hdone' : v.epmapDone = s.epmapDone := (congrArg Prod.snd hroll').trans hdone
      have hstart : u.announced = fun e => s.announced e || covers message e :=
        funext fun e => (announced_congr hroll e).trans (hknown e)
      have hall : Went all (answers (fun e => s.announced e || covers message e) message)
          (acts ++ acts') := by
        rw [answers, if_pos hlast, ← hstart, ← List.singleton_append]
        exact Went.append hreply hw
      cases all with
      | true =>
        rintro - w ⟨-,rfl⟩
        refine ⟨hmap',true,?_,by simp [after, Update.apply]⟩
        have hnone : Went true [] [(⟨.store .epmapDone,()⟩ : CoreAct)] := rfl
        have hw := Went.append hall hnone
        rwa [List.append_nil, List.append_assoc] at hw
      | false => exact ⟨hmap',false,by rw [List.append_nil]; exact hall,by simp [hdone']⟩
  · rw [if_pos hr]
    refine ⟨hmap,false,?_,by simp [hdone]⟩
    rw [List.append_nil]
    exact ⟨[],_,r,hsent,hr⟩

/-- A reply to a map message or a start. -/
def inRollCall (x : U32 × U64 × ℤ) : Bool :=
  x.1 == epMgmt && (msgType x.2.1 == mgmtEpmapReply || msgType x.2.1 == mgmtStartep)

theorem accepted_inRollCall (known : U32 → Bool) (message : U64) :
    (accepted (answers known message)).filter inRollCall = accepted (answers known message) := by
  refine List.filter_eq_self.mpr fun x hx => ?_
  obtain ⟨m,hm,rfl⟩ := List.mem_map.mp hx
  have htype : msgType m = mgmtEpmapReply ∨ msgType m = mgmtStartep := by
    rw [answers, List.mem_cons] at hm
    obtain rfl | hm := hm
    · exact .inl (msgType_epmapReplyMsg _ _)
    · split_ifs at hm
      · obtain ⟨e,-,rfl⟩ := List.mem_map.mp hm
        exact .inr (msgType_startepMsg e)
      · contradiction
  simp [inRollCall, htype]

/-- Neither the map nor the end of the roll call. -/
def KeepsRoll : Op → Prop
  | .store (.orEndpoints ..) | .store .epmapDone => False
  | _ => True

theorem rollState_after {op : Op} (hop : KeepsRoll op) (s : Rtkit) :
    rollState (after s op) = rollState s := by
  cases op with
  | store v => cases v <;> first | rfl | exact hop.elim
  | _ => rfl

theorem keepsRoll_handler (hsel : select has.app endpoint message = .handler h) (hh : h ≠ .epmap) :
    Only KeepsRoll (h.run (corePort has) endpoint message) := by
  refine only_coreHandler trivial (fun _ => trivial) (fun _ _ => trivial) (fun _ => trivial) hsel ?_
  intro v hv
  cases v with
  | orEndpoints | epmapDone => cases h <;> contradiction
  | _ => trivial

theorem not_inRollCall (hs : ∀ x ∈ acts.filterMap sent, inRollCall x = false) :
    (acts.filterMap sent).filter inRollCall = [] := by
  refine List.filter_eq_nil_iff.mpr fun x hx => ?_
  rw [hs x hx]
  exact Bool.false_ne_true

theorem sent_unmanaged {during : List CoreAct} (he : endpoint ≠ epMgmt)
    (hback : ∀ a ∈ during, Back endpoint a.op) : (during.filterMap sent).filter inRollCall = [] := by
  refine not_inRollCall fun x hx => ?_
  obtain ⟨e,m,r⟩ := x
  obtain rfl : e = endpoint := hback _ (mem_sent.mp hx)
  simp [inRollCall, he]

theorem sent_ack {during : List CoreAct} {v w : Update}
    (hd : ((corePort has).store v >>= fun _ => (corePort has).store w).Runs step s during () u) :
    during.filterMap sent = [] := by
  cases hd with
  | call _ rest =>
    cases rest with
    | call _ rest =>
      cases rest
      rfl

theorem sent_hello {during : List CoreAct}
    (hd : (rxHello (corePort has) message).Runs step s during () u) :
    (during.filterMap sent).filter inRollCall = [] := by
  cases ha : acceptable message with
  | true =>
    obtain ⟨r,hsent,-⟩ := hd.post (meets_accepted ha s)
    rw [hsent]
    simp [inRollCall, mgmtHelloReply, mgmtEpmapReply, mgmtStartep]
  | false =>
    obtain ⟨hsent,-⟩ := hd.post (meets_refused ha s)
    rw [hsent]
    rfl

/-- The map message that the call receives. -/
def Call.epmap : Call → Option U64
  | .rx endpoint message =>
    if endpoint &&& 0xff#32 = epMgmt ∧ msgType message = mgmtEpmap then some message else none
  | _ => none

theorem rx_epmap {ret : ℤ} (hm : (Call.rx endpoint message).epmap = some message)
    (hr : (program has (.rx endpoint message)).Runs step s acts ret u) :
    (∀ e, u.announced e = (s.announced e || covers message e)) ∧
    ∃ go, Went go (answers (fun e => s.announced e || covers message e) message) acts ∧
      u.epmapDone = (s.epmapDone || go && epmapIsLast message) := by
  obtain ⟨⟨he,ht⟩,-⟩ := Option.ite_none_right_eq_some.mp hm
  have hne : mgmtEpmap ≠ mgmtHello := by decide
  have hsel : select has.app epMgmt message = .handler .epmap := by
    rw [select, if_pos rfl, if_neg (by rw [ht]; exact hne), if_pos ht]
  obtain ⟨before,during,rfl,hb,hd⟩ := rx_runs hr
  rw [he, hsel] at hd
  obtain ⟨hmap,go,hwent,hdone⟩ := hd.post (meets_epmap message _)
  refine ⟨fun e => ?_,go,?_,hdone⟩
  · rw [← announced_or]
    unfold Rtkit.announced
    rw [hmap]
    rfl
  · unfold Went at hwent ⊢
    rw [sent_counts hb]
    exact hwent

theorem rx_other {ret : ℤ} (hm : (Call.rx endpoint message).epmap = none)
    (hr : (program has (.rx endpoint message)).Runs step s acts ret u) :
    rollState u = rollState s ∧ (acts.filterMap sent).filter inRollCall = [] := by
  obtain ⟨before,during,rfl,hb,hd⟩ := rx_runs hr
  rw [sent_counts hb]
  cases hsel : select has.app (endpoint &&& 0xff#32) message with
  | app =>
    rw [hsel] at hd
    obtain ⟨rfl,rfl⟩ := app_runs hsel hd
    exact ⟨rfl,rfl⟩
  | unknown =>
    rw [hsel] at hd
    obtain ⟨rfl,rfl⟩ := unknown_runs hd
    exact ⟨rfl,rfl⟩
  | handler h =>
    rw [hsel] at hd
    have hh : h ≠ .epmap := by
      rintro rfl
      have he := select_mgmt hsel (.inr rfl)
      rw [he] at hsel
      obtain hc | ⟨-,ht⟩ | hc | hc := select_epMgmt hsel
      · contradiction
      · rw [Call.epmap, if_pos ⟨he,ht⟩] at hm
        contradiction
      · contradiction
      · contradiction
    refine ⟨Runs.field hd (keepsRoll_handler hsel hh) rollState fun s op hop => rollState_after hop s,?_⟩
    by_cases he : endpoint &&& 0xff#32 = epMgmt
    · rw [he] at hsel hd
      obtain rfl | ⟨rfl,-⟩ | rfl | rfl := select_epMgmt hsel
      · exact sent_hello hd
      · contradiction
      · rw [sent_ack hd]
        rfl
      · rw [sent_ack hd]
        rfl
    · exact sent_unmanaged he (hd.only (back_handler hsel))

/-- Calls other than `agx_rtkit_rx` leave the roll call alone. -/
theorem rollState_call {call : Call} {ret : ℤ} (hm : call.epmap = none)
    (hr : (program has call).Runs step s acts ret u) : rollState u = rollState s := by
  have hload : Only KeepsRoll (corePort has).load := only_request.mpr trivial
  have hsend (m : U64) : Only KeepsRoll ((corePort has).send epMgmt m) := only_request.mpr trivial
  have hfail (e : ℤ) : Only KeepsRoll ((corePort has).store (.fail e)) := only_request.mpr trivial
  have hkeep : ∀ s op, KeepsRoll op → rollState (after s op) = rollState s :=
    fun s op hop => rollState_after hop s
  cases call with
  | rx endpoint message => exact (rx_other hm hr).1
  | setIopPower state =>
    exact Runs.field hr (only_setIopPower hsend hfail (only_request.mpr trivial) state) rollState hkeep
  | setApPower state =>
    exact Runs.field hr (only_setApPower hsend hfail (only_request.mpr trivial) state) rollState hkeep
  | startEndpoint endpoint =>
    exact Runs.field hr (only_startEndpoint hload hsend hfail endpoint) rollState hkeep

theorem Call.epmap_some {call : Call} (hm : call.epmap = some message) :
    ∃ endpoint, call = .rx endpoint message := by
  cases call with
  | rx endpoint m =>
    obtain ⟨-,he⟩ := Option.ite_none_right_eq_some.mp hm
    exact ⟨endpoint,by rw [Option.some.inj he]⟩
  | _ => contradiction

def Call.startsEndpoint : Call → Bool
  | .startEndpoint _ => true
  | _ => false

theorem meets_powerMsg {type : U32} {v : Update} (body : U64) (hv : KeepsRoll (.store v))
    (hbyte : type.toNat < 256) (htype : type ≠ mgmtEpmapReply ∧ type ≠ mgmtStartep) (s : Rtkit) :
    Meets step ((corePort has).store v >>= fun _ => mgmtSend (corePort has) type body)
      (fun acts _ u => rollState u = rollState s ∧ (acts.filterMap sent).filter inRollCall = []) s := by
  rintro - t ⟨-,rfl⟩
  change Meets step (mgmtSend (corePort has) _ _) _ _
  refine (meets_mgmtSend _ _ _).mono fun acts r u hu => ⟨hu.2.trans (rollState_after hv s),?_⟩
  change (acts.filterMap sent).filter inRollCall = []
  rw [hu.1]
  simp [inRollCall, msgType_mgmtMsg body hbyte, htype]

/-- Only the messages that announce endpoints and `agx_rtkit_start_endpoint` belong to it. -/
theorem call_other {call : Call} {ret : ℤ} (hstart : call.startsEndpoint = false)
    (hm : call.epmap = none) (hr : (program has call).Runs step s acts ret u) :
    rollState u = rollState s ∧ (acts.filterMap sent).filter inRollCall = [] := by
  cases call with
  | rx endpoint message => exact rx_other hm hr
  | setIopPower state =>
    exact hr.post (meets_powerMsg (v := .iopAcked false) _ trivial (by decide) (by decide) s)
  | setApPower state =>
    exact hr.post (meets_powerMsg (v := .apAcked false) _ trivial (by decide) (by decide) s)
  | startEndpoint endpoint => contradiction

/-- The map messages received, oldest first. -/
def epmaps (calls : List CoreDone) : List U64 := calls.filterMap fun d => d.call.epmap

/-- Everything sent, oldest first. -/
def sends (calls : List CoreDone) : List (U32 × U64 × ℤ) :=
  calls.flatMap fun d => d.acts.filterMap sent

/-- Behind any calls the map holds what was announced. -/
theorem run_announced (hrun : Session step (program has) s calls u)
    (hs : ∀ e, s.announced e = announcedBy maps e) (endpoint : U32) :
    u.announced endpoint = announcedBy (maps ++ epmaps calls) endpoint := by
  induction hrun generalizing maps with
  | nil s => simpa [epmaps] using hs endpoint
  | @cons s t u call acts ret rest hr tail ih =>
    cases hm : call.epmap with
    | none =>
      have ht : ∀ e, t.announced e = announcedBy maps e :=
        fun e => (announced_congr (rollState_call hm hr) e).trans (hs e)
      simpa [epmaps, hm] using ih ht
    | some message =>
      obtain ⟨e,rfl⟩ := Call.epmap_some hm
      have ht : ∀ e, t.announced e = announcedBy (maps ++ [message]) e := by
        intro e
        rw [(rx_epmap hm hr).1 e, hs e, announcedBy_snoc]
      simpa [epmaps, hm] using ih ht

/-- The messages of a roll call of any map messages. -/
def rollCall : List U64 → List U64 → List U64
  | _, [] => []
  | maps, message :: rest =>
    answers (announcedBy (maps ++ [message])) message ++ rollCall (maps ++ [message]) rest

theorem accepted_append (messages messages' : List U64) :
    accepted (messages ++ messages') = accepted messages ++ accepted messages' := List.map_append ..

theorem Went.all {go : Bool} {messages : List U64} (hw : Went go messages acts)
    (hok : ∀ x ∈ acts.filterMap sent, x.2.2 = 0) :
    go = true ∧ acts.filterMap sent = accepted messages := by
  cases go with
  | true => exact ⟨rfl,hw⟩
  | false =>
    obtain ⟨done,m,r,hs,hr⟩ : Broken (acts.filterMap sent) := hw
    rw [hs] at hok
    exact absurd (hok (epMgmt,m,r) (by simp)) hr

theorem run_rollCall (hrun : Session step (program has) s calls u)
    (hstart : ∀ d ∈ calls, d.call.startsEndpoint = false)
    (hok : ∀ x ∈ sends calls, x.2.2 = 0) (hs : ∀ e, s.announced e = announcedBy maps e) :
    (sends calls).filter inRollCall = accepted (rollCall maps (epmaps calls)) ∧
      u.epmapDone = (s.epmapDone || (epmaps calls).any epmapIsLast) := by
  induction hrun generalizing maps with
  | nil s => simp [sends, epmaps, rollCall, accepted]
  | @cons s t u call acts ret rest hr tail ih =>
    obtain ⟨hcall,hstarts⟩ := List.forall_mem_cons.mp hstart
    have hsplit : sends (⟨call,acts,ret⟩ :: rest) = acts.filterMap sent ++ sends rest := rfl
    rw [hsplit] at hok ⊢
    have hacts : ∀ x ∈ acts.filterMap sent, x.2.2 = 0 := fun x hx => hok x (List.mem_append_left _ hx)
    have hrest : ∀ x ∈ sends rest, x.2.2 = 0 := fun x hx => hok x (List.mem_append_right _ hx)
    rw [List.filter_append]
    cases hm : call.epmap with
    | none =>
      obtain ⟨hroll,hnone⟩ := call_other hcall hm hr
      obtain ⟨hsends,hdone⟩ := ih hstarts hrest fun e => (announced_congr hroll e).trans (hs e)
      have hepmaps : epmaps (⟨call,acts,ret⟩ :: rest) = epmaps rest := by simp [epmaps, hm]
      rw [hnone, hsends, hepmaps, hdone, show t.epmapDone = s.epmapDone from congrArg Prod.snd hroll]
      exact ⟨rfl,rfl⟩
    | some message =>
      obtain ⟨endpoint,rfl⟩ := Call.epmap_some hm
      obtain ⟨hmap,go,hwent,hlast⟩ := rx_epmap hm hr
      have hknown : (fun e => s.announced e || covers message e) = announcedBy (maps ++ [message]) := by
        funext e
        rw [hs e, announcedBy_snoc]
      obtain ⟨hsends,hdone⟩ := ih hstarts hrest fun e => (hmap e).trans (congrFun hknown e)
      obtain ⟨rfl,hsent⟩ := hwent.all hacts
      have hepmaps : epmaps (⟨.rx endpoint message,acts,ret⟩ :: rest) = message :: epmaps rest := by
        simp [epmaps, hm]
      rw [hsent, accepted_inRollCall, hknown, hsends, hepmaps, rollCall, accepted_append, hdone, hlast]
      exact ⟨rfl,by simp [Bool.or_assoc]⟩

/-- Without the flag on an earlier one, the last map message ends the roll call. -/
theorem rollCall_last {rest : List U64} (hlast : ∀ m ∈ rest.dropLast, epmapIsLast m = false) :
    rollCall maps rest = rest.map epmapReply ++
      if rest.any epmapIsLast then starts (announcedBy (maps ++ rest)) else [] := by
  induction rest generalizing maps with
  | nil => rfl
  | cons m rest ih =>
    cases rest with
    | nil => simp [rollCall, answers]
    | cons m' rest =>
      rw [List.dropLast_cons_cons] at hlast
      obtain ⟨hm,hrest⟩ := List.forall_mem_cons.mp hlast
      have hany : (m :: m' :: rest).any epmapIsLast = (m' :: rest).any epmapIsLast := by
        rw [List.any_cons, hm, Bool.false_or]
      rw [rollCall, ih hrest, answers, hm, hany, if_neg (by simp), List.append_assoc,
        List.singleton_append]
      rfl

/-- The reply to a map message, as the firmware reads it. -/
structure Acknowledges (message reply : U64) : Prop where
  type : msgType reply = mgmtEpmapReply
  base : epmapBase reply = epmapBase message
  last : epmapIsLast reply = epmapIsLast message
  more : (reply &&& epmapMore != 0#64) = !epmapIsLast message

theorem acknowledges (message : U64) : Acknowledges message (epmapReply message) := by
  have hbase : (epmapBase message).toNat < 8 := by
    have hlt : (fieldGet message epmapBaseShift epmapBaseMask).toNat < 8 := by
      rw [fieldGet, show epmapBaseMask = BitFields.mask 64 3 from rfl,
        BitFields.toNat_field _ _ (by omega)]
      exact Nat.mod_lt _ (by decide)
    rw [epmapBase, get, BitVec.toNat_setWidth, Nat.mod_eq_of_lt (by omega)]
    exact hlt
  have hall : ∀ n < 8, ∀ last, epmapBase (epmapReplyMsg (BitVec.ofNat 32 n) last) = BitVec.ofNat 32 n ∧
      epmapIsLast (epmapReplyMsg (BitVec.ofNat 32 n) last) = last ∧
      (epmapReplyMsg (BitVec.ofNat 32 n) last &&& epmapMore != 0#64) = !last := by decide
  obtain ⟨hb,hl,hm⟩ := hall _ hbase (epmapIsLast message)
  rw [BitVec.ofNat_toNat, BitVec.setWidth_eq] at hb hl hm
  exact ⟨msgType_epmapReplyMsg _ _,hb,hl,hm⟩

theorem hasEndpoint_runs {b : Bool} (hlt : endpoint < epCount)
    (hr : (hasEndpoint (corePort has) endpoint).Runs step s acts b u) : b = s.announced endpoint := by
  rw [hasEndpoint_eq (BitVec.not_le.mpr hlt)] at hr
  cases hr with
  | call hs rest =>
    cases rest
    exact congrArg (Rtkit.announced · endpoint) hs.1

theorem announcedBy_iff (maps : List U64) (endpoint : U32) : announcedBy maps endpoint = true ↔
    endpoint = 0#32 ∨ ∃ m ∈ maps, epmapBase m = endpoint / 32#32 ∧
      bitSet (epmapBitmap m) (endpoint % 32#32).toNat = true := by
  simp [announcedBy, covers]

theorem Went.stops {go : Bool} {messages : List U64} (hw : Went go messages acts)
    {before after : List (U32 × U64 × ℤ)} {x : U32 × U64 × ℤ}
    (hs : acts.filterMap sent = before ++ x :: after) (hx : x.2.2 ≠ 0) : after = [] ∧ go = false := by
  have hmem (l : List U64) : x ∉ accepted l := by
    intro hm
    obtain ⟨m,-,rfl⟩ := List.mem_map.mp hm
    exact hx rfl
  cases go with
  | true =>
    have hw : acts.filterMap sent = accepted messages := hw
    refine absurd ?_ (hmem messages)
    rw [← hw, hs]
    simp
  | false =>
    obtain ⟨done,m,r,hd,-⟩ : Broken (acts.filterMap sent) := hw
    refine ⟨?_,rfl⟩
    by_contra hne
    obtain ⟨rest,y,rfl⟩ := (List.eq_nil_or_concat after).resolve_left hne
    rw [hd, List.concat_eq_append, ← List.cons_append, ← List.append_assoc] at hs
    refine hmem done ?_
    rw [(List.append_inj' hs rfl).1]
    simp

/-- Each map message is acknowledged, and behind the last one the announced
system endpoints are started. A failed send ends the handler it happens in. -/
theorem roll_call (hrun : CoreRun has calls u) :
    ((∀ d ∈ calls, d.call.startsEndpoint = false) →
      (∀ x ∈ sends calls, x.2.2 = 0) → (∀ m ∈ (epmaps calls).dropLast, epmapIsLast m = false) →
      (sends calls).filter inRollCall = accepted ((epmaps calls).map epmapReply ++
        if (epmaps calls).any epmapIsLast then starts (announcedBy (epmaps calls)) else []) ∧
      u.epmapDone = (epmaps calls).any epmapIsLast) ∧
    (∀ m ∈ epmaps calls, Acknowledges m (epmapReply m)) ∧
    (∀ k < epCount, ∀ acts b v, (hasEndpoint (corePort has) k).Runs step u acts b v →
      (b = true ↔ k = 0#32 ∨ ∃ m ∈ epmaps calls, epmapBase m = k / 32#32 ∧
        bitSet (epmapBitmap m) (k % 32#32).toNat = true)) ∧
    ∀ endpoint message acts ret v, (Call.rx endpoint message).epmap = some message →
      (program has (.rx endpoint message)).Runs step u acts ret v →
      ∀ before x after, acts.filterMap sent = before ++ x :: after → x.2.2 ≠ 0 →
        after = [] ∧ v.epmapDone = u.epmapDone := by
  refine ⟨fun hstart hok hlast => ?_,fun m _ => acknowledges m,?_,?_⟩
  · obtain ⟨hsends,hdone⟩ := run_rollCall hrun hstart hok announced_init
    rw [rollCall_last hlast] at hsends
    exact ⟨hsends,hdone⟩
  · intro k hlt acts b v hr
    rw [hasEndpoint_runs hlt hr, run_announced hrun announced_init]
    exact announcedBy_iff (epmaps calls) k
  · intro endpoint message acts ret v hm hr before x after hs hx
    obtain ⟨-,go,hwent,hdone⟩ := rx_epmap hm hr
    obtain ⟨hnil,rfl⟩ := hwent.stops hs hx
    exact ⟨hnil,by simpa using hdone⟩

/-- Two map messages with a hello, a log message and the power requests around them. -/
def rollCalls : List Call :=
  [.setIopPower pwrInit,.rx epMgmt (epmapMsg 1#32 3#32 false),.rx epMgmt helloMsg,
    .rx epMgmt (epmapMsg 0#32 0x117#32 true),.rx epSyslog (bufferMsg 1#64),.setApPower pwrOn]

/-- The checks of the run. -/
def rollChecks (calls : List CoreDone) : Bool :=
  calls.all (fun d => !d.call.startsEndpoint) && (sends calls).all (fun x => x.2.2 == 0) &&
    (epmaps calls).dropLast.all (fun m => !epmapIsLast m) && (epmaps calls).any epmapIsLast &&
    (epmaps calls).map epmapReply ++ starts (announcedBy (epmaps calls)) ==
      [epmapReplyMsg 1#32 false,epmapReplyMsg 0#32 true,startepMsg epCrashlog,startepMsg epSyslog,
        startepMsg epIoreport,startepMsg epOslog]

theorem roll_call_example : ∃ calls u, CoreRun ⟨true,true,true⟩ calls u ∧ u.epmapDone = true ∧
    (sends calls).filter inRollCall = accepted [epmapReplyMsg 1#32 false,epmapReplyMsg 0#32 true,
      startepMsg epCrashlog,startepMsg epSyslog,startepMsg epIoreport,startepMsg epOslog] := by
  have hx : (sessionOf (answer noMemory) (program ⟨true,true,true⟩) init rollCalls).any
      (fun x => rollChecks x.1) = true := by decide +kernel
  obtain ⟨calls,u,hrun,hx⟩ := sessionOf_any (answer_step noMemory) hx
  simp only [rollChecks, Bool.and_eq_true, List.all_eq_true, beq_iff_eq, Bool.not_eq_true'] at hx
  obtain ⟨⟨⟨⟨hstart,hok⟩,hlast⟩,hend⟩,hlist⟩ := hx
  obtain ⟨hsends,hdone⟩ := (roll_call hrun).1 hstart hok hlast
  rw [if_pos hend, hlist] at hsends
  exact ⟨calls,u,hrun,hdone.trans hend,hsends⟩

end AgxOpen.Rtkit
