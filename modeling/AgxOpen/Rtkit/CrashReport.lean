import AgxOpen.Rtkit.Disposition

/-!
# Telling a crash from a request

A crash report and the request for the crash log's buffer are the same message.
Which of the two it is depends on whether the buffer was handed out before.
-/
namespace AgxOpen.Rtkit
open Program

variable {has : Callbacks} {s t u : Rtkit} {acts during : List CoreAct} {calls : List CoreDone}
  {endpoint : U32} {message : U64} {h : Handler} {ret : ℤ}

/-- A crash log message of the type that asks for a buffer or reports a crash. -/
def CrashMessage (endpoint : U32) (message : U64) : Prop :=
  endpoint &&& 0xff#32 = epCrashlog ∧ msgType message = crashlogCrash

/-- The message was such a one of nonzero size, and its buffer callback succeeded. -/
def Grants (d : CoreDone) : Prop :=
  ∃ endpoint message requested iova, d.call = .rx endpoint message ∧ CrashMessage endpoint message ∧
    requestSize epCrashlog message ≠ 0#64 ∧
    (⟨.buffer epCrashlog (requestSize epCrashlog message) requested,((0 : ℤ),iova)⟩ : CoreAct) ∈ d.acts

def isCrashCall : CoreAct → Bool
  | ⟨.crashed,_⟩ => true
  | _ => false

/-- How often the crashed callback ran. -/
def crashCalls (acts : List CoreAct) : ℕ := acts.countP isCrashCall

/-- What a request does: it asks for its own size, and never for nothing. -/
def Requests (endpoint : U32) (message : U64) : Op → Prop
  | .buffer e size _ => e = endpoint ∧ size = requestSize endpoint message ∧ size ≠ 0#64
  | .load | .send _ _ | .store (.fail _) | .store (.orBuffers _) => True
  | _ => False

theorem requests_send (reply : U64) :
    Only (Requests endpoint message) (send (corePort has) endpoint reply) :=
  only_send (fun _ => only_request.mpr trivial) (fun _ => only_request.mpr trivial) _

theorem requests_getBuffer (endpoint : U32) (message : U64) :
    Only (Requests endpoint message) (getBuffer (corePort has) endpoint message) := by
  by_cases h0 : requestSize endpoint message = 0#64
  · rw [getBuffer_empty h0]
    exact only_request.mpr trivial
  cases hb : has.buffer with
  | false =>
    rw [getBuffer_none hb]
    exact only_request.mpr trivial
  | true =>
    rw [getBuffer_some hb h0]
    refine ⟨⟨rfl,rfl,h0⟩,fun r => only_ite.mpr ⟨fun _ => only_request.mpr trivial,fun _ => ?_⟩⟩
    exact (only_request.mpr trivial).bind fun _ => (requests_send _).bind fun _ => trivial

/-- Neither the flag nor the callback. -/
def Calm : Op → Prop
  | .store .crashed | .crashed => False
  | _ => True

theorem Requests.calm {op : Op} (hop : Requests endpoint message op) : Calm op := by
  cases op with
  | store v => cases v <;> trivial
  | crashed => exact hop.elim
  | _ => trivial

theorem crashed_after {op : Op} (hop : Calm op) (s : Rtkit) : (after s op).crashed = s.crashed := by
  cases op with
  | store v => cases v <;> first | rfl | exact hop.elim
  | _ => rfl

theorem crashCalls_calm (ha : ∀ a ∈ acts, Calm a.op) : crashCalls acts = 0 := by
  refine List.countP_eq_zero.mpr fun a hm => ?_
  have hop := ha a hm
  obtain ⟨op,r⟩ := a
  cases op with
  | crashed => exact hop.elim
  | _ => exact Bool.false_ne_true

/-- In front of the buffer a message is a request. -/
theorem meets_request (hg : recordsCrashlog s = false) :
    Meets step (onCrashlog (corePort has) message)
      (fun acts _ _ => ∀ a ∈ acts, Requests epCrashlog message a.op) s := by
  rintro r t ⟨rfl,rfl⟩
  have hb : t.buffers &&& bufferCrashlog = 0#32 := by simpa [recordsCrashlog] using hg
  change Meets step (if t.buffers &&& bufferCrashlog = 0#32 then _ else _) _ _
  rw [if_pos hb]
  refine ((requests_getBuffer epCrashlog message).meets_all t).mono fun acts _ _ ha => ?_
  exact List.forall_mem_cons.mpr ⟨trivial,ha⟩

/-- Behind the buffer it is a report. -/
theorem meets_report (hg : recordsCrashlog s = true) :
    Meets step (onCrashlog (corePort has) message) (fun acts _ u => u.crashed = true ∧
      crashCalls acts = (if has.crashed then 1 else 0) ∧ acts.filterMap sent = [] ∧
      acts.filterMap asked = []) s := by
  rintro r t ⟨rfl,rfl⟩
  have hb : t.buffers &&& bufferCrashlog ≠ 0#32 := by simpa [recordsCrashlog] using hg
  change Meets step (if t.buffers &&& bufferCrashlog = 0#32 then _ else _) _ _
  rw [if_neg hb]
  rintro - u ⟨-,rfl⟩
  cases hc : has.crashed with
  | false =>
    have hnone : (corePort has).crashed = none := if_neg (by simp [hc])
    rw [hnone]
    exact ⟨rfl,rfl,rfl,rfl⟩
  | true =>
    have hsome : (corePort has).crashed = some (Program.request Op.crashed) := if_pos hc
    rw [hsome]
    rintro - v ⟨-,rfl⟩
    exact ⟨rfl,rfl,rfl,rfl⟩

theorem select_epCrashlog {hasApp : Bool} (hsel : select hasApp epCrashlog message = .handler h) :
    h = .crashlog := by
  rw [select, if_neg (by decide), if_pos rfl] at hsel
  split_ifs at hsel
  exact (Disposition.handler.inj hsel).symm

/-- Nothing that has to do with crashes or the crash log's buffer. -/
def Elsewhere (op : Op) : Prop := Calm op ∧ ∀ size iova, op ≠ .buffer epCrashlog size iova

def Call.isCrash : Call → Prop
  | .rx endpoint message => CrashMessage endpoint message
  | _ => False

theorem elsewhere_counts {op : Op} (hop : Counts op) : Elsewhere op := by
  cases op with
  | load => exact ⟨trivial,by simp⟩
  | store v => cases v <;> first | exact ⟨trivial,by simp⟩ | exact hop.elim
  | _ => exact hop.elim

theorem elsewhere_handler (hsel : select has.app endpoint message = .handler h)
    (he : endpoint ≠ epCrashlog) : Only Elsewhere (h.run (corePort has) endpoint message) := by
  refine only_coreHandler ⟨trivial,by simp⟩ (fun _ => ⟨trivial,by simp⟩)
    (fun _ _ => ⟨trivial,by simp [he]⟩) (fun hc => absurd hc he) hsel fun v hv => ⟨?_,by simp⟩
  cases v with
  | crashed =>
    have hh : h = .crashlog := by
      cases h <;> first | rfl | contradiction
    subst hh
    exact absurd (select_crashlog.mp hsel).1 he
  | _ => trivial

theorem elsewhere_rx (hm : ¬ CrashMessage endpoint message)
    (hr : (program has (.rx endpoint message)).Runs step s acts ret u) :
    ∀ a ∈ acts, Elsewhere a.op := by
  obtain ⟨before,during,rfl,hb,hd⟩ := rx_runs hr
  refine List.forall_mem_append.mpr ⟨fun a ha => elsewhere_counts (hb a ha),?_⟩
  cases hsel : select has.app (endpoint &&& 0xff#32) message with
  | app =>
    rw [hsel] at hd
    obtain ⟨rfl,-⟩ := app_runs hsel hd
    exact List.forall_mem_singleton.mpr ⟨trivial,by simp⟩
  | unknown =>
    rw [hsel] at hd
    obtain ⟨rfl,-⟩ := unknown_runs hd
    exact List.forall_mem_cons.mpr ⟨⟨trivial,by simp⟩,List.forall_mem_singleton.mpr ⟨trivial,by simp⟩⟩
  | handler h =>
    rw [hsel] at hd
    have he : endpoint &&& 0xff#32 ≠ epCrashlog := by
      intro he
      have hcrash := hsel
      rw [he] at hcrash
      rw [select_epCrashlog hcrash] at hsel
      exact hm (select_crashlog.mp hsel)
    exact hd.only (elsewhere_handler hsel he)

theorem elsewhere_call {call : Call} (hm : ¬ call.isCrash)
    (hr : (program has call).Runs step s acts ret u) : ∀ a ∈ acts, Elsewhere a.op := by
  have hload : Only Elsewhere (corePort has).load := only_request.mpr ⟨trivial,by simp⟩
  have hsend (m : U64) : Only Elsewhere ((corePort has).send epMgmt m) :=
    only_request.mpr ⟨trivial,by simp⟩
  have hfail (e : ℤ) : Only Elsewhere ((corePort has).store (.fail e)) :=
    only_request.mpr ⟨trivial,by simp⟩
  cases call with
  | rx endpoint message => exact elsewhere_rx hm hr
  | setIopPower state =>
    exact hr.only (only_setIopPower hsend hfail (only_request.mpr ⟨trivial,by simp⟩) state)
  | setApPower state =>
    exact hr.only (only_setApPower hsend hfail (only_request.mpr ⟨trivial,by simp⟩) state)
  | startEndpoint endpoint => exact hr.only (only_startEndpoint hload hsend hfail endpoint)

theorem given_mem (hg : crashlogGiven acts = true) : ∃ size requested iova,
    (⟨.buffer epCrashlog size requested,((0 : ℤ),iova)⟩ : CoreAct) ∈ acts := by
  obtain ⟨⟨op,r⟩,ha,hop⟩ := List.any_eq_true.mp hg
  cases op with
  | buffer e size requested =>
    obtain ⟨ret,iova⟩ := r
    simp only [gives, Bool.and_eq_true, beq_iff_eq] at hop
    obtain ⟨rfl,rfl⟩ := hop
    exact ⟨size,requested,iova,ha⟩
  | _ => contradiction

/-- A call gives the crash log its buffer exactly if it is a request that succeeds. -/
theorem given_iff {call : Call} (hr : (program has call).Runs step s acts ret u) :
    crashlogGiven acts = true ↔ Grants ⟨call,acts,ret⟩ := by
  constructor
  · intro hg
    obtain ⟨size,requested,iova,ha⟩ := given_mem hg
    by_cases hm : call.isCrash
    · obtain ⟨endpoint,message⟩ | _ | _ | _ := call <;> try contradiction
      obtain ⟨he,ht⟩ := hm
      obtain ⟨before,during,rfl,hb,hd⟩ := rx_runs hr
      rw [select_crashlog.mpr ⟨he,ht⟩] at hd
      have hin : (⟨.buffer epCrashlog size requested,((0 : ℤ),iova)⟩ : CoreAct) ∈ during :=
        (List.mem_append.mp ha).resolve_left fun hin => (hb _ hin).elim
      cases hc : recordsCrashlog (counted s (endpoint &&& 0xff#32)) with
      | false =>
        obtain ⟨-,rfl,h0⟩ := hd.post (meets_request hc) _ hin
        exact ⟨endpoint,message,requested,iova,rfl,⟨he,ht⟩,h0,ha⟩
      | true =>
        obtain ⟨-,-,-,hasked⟩ := hd.post (meets_report hc)
        have := List.filterMap_eq_nil_iff.mp hasked _ hin
        contradiction
    · exact absurd rfl ((elsewhere_call hm hr _ ha).2 size requested)
  · rintro ⟨endpoint,message,requested,iova,-,-,-,ha⟩
    exact List.any_eq_true.mpr ⟨_,ha,by simp [gives]⟩

theorem run_given (hrun : Session step (program has) s calls u) :
    recordsCrashlog u = true ↔ recordsCrashlog s = true ∨ ∃ d ∈ calls, Grants d := by
  induction hrun with
  | nil s => simp
  | @cons s t u call acts ret rest hr tail ih =>
    have ht := (hr.post (tracking_call call s)).crashlog
    rw [ih, ht, Bool.or_eq_true, given_iff hr]
    simp only [List.mem_cons, exists_eq_or_imp, or_assoc]

/-- In front of the buffer, and for every other message, the flag stays as it is. -/
theorem crash_calm {call : Call} (hm : ¬ (call.isCrash ∧ recordsCrashlog s = true))
    (hr : (program has call).Runs step s acts ret u) :
    u.crashed = s.crashed ∧ crashCalls acts = 0 := by
  have hcalm : ∀ a ∈ acts, Calm a.op := by
    by_cases hc : call.isCrash
    · obtain ⟨endpoint,message⟩ | _ | _ | _ := call <;> try contradiction
      have hg : recordsCrashlog s = false := Bool.eq_false_iff.mpr fun hg => hm ⟨hc,hg⟩
      obtain ⟨before,during,rfl,hb,hd⟩ := rx_runs hr
      rw [select_crashlog.mpr hc] at hd
      have hreq := hd.post (meets_request hg)
      exact List.forall_mem_append.mpr ⟨fun a ha => (elsewhere_counts (hb a ha)).1,
        fun a ha => (hreq a ha).calm⟩
    · exact fun a ha => (elsewhere_call hc hr a ha).1
  exact ⟨Runs.keeps hr hcalm Rtkit.crashed fun s op hop => crashed_after hop s,crashCalls_calm hcalm⟩

/-- Behind it a message of the type is a report. -/
theorem crash_reported (hm : CrashMessage endpoint message) (hg : recordsCrashlog s = true)
    (hr : (program has (.rx endpoint message)).Runs step s acts ret u) :
    u.crashed = true ∧ crashCalls acts = (if has.crashed then 1 else 0) ∧
      acts.filterMap sent = [] ∧ acts.filterMap asked = [] := by
  obtain ⟨before,during,rfl,hb,hd⟩ := rx_runs hr
  rw [select_crashlog.mpr hm] at hd
  obtain ⟨hset,hran,hsent,hasked⟩ := hd.post (meets_report hg)
  refine ⟨hset,?_,(sent_counts hb).trans hsent,?_⟩
  · have h0 := crashCalls_calm fun a ha => (elsewhere_counts (hb a ha)).1
    rw [crashCalls] at h0 hran ⊢
    rw [List.countP_append, h0, hran, Nat.zero_add]
  · rw [behind_counters hb fun a ha => (counts_none ha).2.1, hasked]

/-- With the buffer there, the crash log's endpoint is answered nothing. -/
theorem crashlog_silent (he : endpoint &&& 0xff#32 = epCrashlog) (hg : recordsCrashlog s = true)
    (hr : (program has (.rx endpoint message)).Runs step s acts ret u) :
    acts.filterMap sent = [] ∧ acts.filterMap asked = [] := by
  by_cases ht : msgType message = crashlogCrash
  · exact (crash_reported ⟨he,ht⟩ hg hr).2.2
  · have hd := (disposed hr).2.frame
    rw [he, select, if_neg (by decide), if_pos rfl, if_neg ht] at hd
    exact (hd (.inr rfl)).2

/-- A call that reports a crash has the call that gave the buffer before it. -/
theorem run_crashed (hrun : Session step (program has) s calls u) :
    u.crashed = true ↔ s.crashed = true ∨ ∃ before d after, calls = before ++ d :: after ∧
      d.call.isCrash ∧ (recordsCrashlog s = true ∨ ∃ g ∈ before, Grants g) := by
  induction hrun with
  | nil s => simp
  | @cons s t u call acts ret rest hr tail ih =>
    have ht : recordsCrashlog t = true ↔ recordsCrashlog s = true ∨ Grants ⟨call,acts,ret⟩ := by
      rw [(hr.post (tracking_call call s)).crashlog, Bool.or_eq_true, given_iff hr]
    have hfirst : t.crashed = true ↔
        s.crashed = true ∨ call.isCrash ∧ recordsCrashlog s = true := by
      by_cases hm : call.isCrash ∧ recordsCrashlog s = true
      · obtain ⟨endpoint,message⟩ | _ | _ | _ := call <;> try exact hm.1.elim
        simp [(crash_reported hm.1 hm.2 hr).1, hm]
      · simp [(crash_calm hm hr).1, hm]
    rw [ih, hfirst, or_assoc]
    refine or_congr_right ?_
    constructor
    · rintro (⟨hc,hg⟩ | ⟨before,d,after,rfl,hd,hg⟩)
      · exact ⟨[],_,rest,rfl,hc,.inl hg⟩
      · refine ⟨_ :: before,d,after,rfl,hd,?_⟩
        simpa only [ht, List.mem_cons, exists_eq_or_imp, or_assoc] using hg
    · rintro ⟨before,d,after,hs,hd,hg⟩
      cases before with
      | nil =>
        obtain ⟨rfl,rfl⟩ := List.cons.inj hs
        exact .inl ⟨hd,hg.resolve_right (by simp)⟩
      | cons first before =>
        obtain ⟨rfl,rfl⟩ := List.cons.inj hs
        refine .inr ⟨before,d,after,rfl,hd,?_⟩
        simpa only [ht, List.mem_cons, exists_eq_or_imp, or_assoc] using hg

/-- The flag is set, and the callback runs, at the messages behind a request that
succeeded and at no other. -/
theorem crash_told_apart (hrun : CoreRun has calls s) :
    (s.crashed = true ↔ ∃ before d after, calls = before ++ d :: after ∧ d.call.isCrash ∧
      ∃ g ∈ before, Grants g) ∧
    ∀ endpoint message acts ret u, (program has (.rx endpoint message)).Runs step s acts ret u →
      (s.crashed = true → u.crashed = true) ∧
      (CrashMessage endpoint message ∧ (∃ g ∈ calls, Grants g) →
        u.crashed = true ∧ crashCalls acts = if has.crashed then 1 else 0) ∧
      (¬ (CrashMessage endpoint message ∧ ∃ g ∈ calls, Grants g) →
        u.crashed = s.crashed ∧ crashCalls acts = 0) ∧
      (endpoint &&& 0xff#32 = epCrashlog → (∃ g ∈ calls, Grants g) →
        acts.filterMap sent = [] ∧ acts.filterMap asked = []) := by
  have hinit : recordsCrashlog init = false := rfl
  have hgiven : recordsCrashlog s = true ↔ ∃ g ∈ calls, Grants g := by
    rw [run_given hrun, hinit]
    simp
  refine ⟨?_,fun endpoint message acts ret u hr => ?_⟩
  · rw [run_crashed hrun, hinit]
    simp [init]
  rw [← hgiven]
  have hcalm (hm : ¬ ((Call.rx endpoint message).isCrash ∧ recordsCrashlog s = true)) :=
    crash_calm hm hr
  refine ⟨fun hs => ?_,fun ⟨hm,hg⟩ => ?_,hcalm,fun he hg => crashlog_silent he hg hr⟩
  · by_cases hm : CrashMessage endpoint message ∧ recordsCrashlog s = true
    · exact (crash_reported hm.1 hm.2 hr).1
    · exact (hcalm hm).1.trans hs
  · exact ⟨(crash_reported hm hg hr).1,(crash_reported hm hg hr).2.1⟩

/-- A request of one page for the crash log. -/
def crashRequest : Call := .rx epCrashlog (bufferMsg 1#64)

/-- After a request that succeeded the same message once more is a crash. -/
theorem crash_told_apart_example : ∃ calls s acts ret u, CoreRun ⟨true,true,true⟩ calls s ∧
    s.crashed = false ∧ (program ⟨true,true,true⟩ crashRequest).Runs step s acts ret u ∧
    u.crashed = true ∧ crashCalls acts = 1 := by
  have hx : (sessionOf (answer (buffersAt 0x8000000#64)) (program ⟨true,true,true⟩) init
      [crashRequest]).any (fun x => !x.2.crashed && recordsCrashlog x.2 &&
        ((program ⟨true,true,true⟩ crashRequest).execute (answer (buffersAt 0x8000000#64)) x.2).any
          fun _ => true) = true := by decide +kernel
  obtain ⟨calls,s,hrun,hx⟩ := sessionOf_any (answer_step _) hx
  simp only [Bool.and_eq_true, Bool.not_eq_true'] at hx
  obtain ⟨⟨hclear,hg⟩,hx⟩ := hx
  obtain ⟨acts,ret,u,hr,-⟩ := Program.execute_any (answer_step _) hx
  have hgrants : ∃ g ∈ calls, Grants g := ((run_given hrun).mp hg).resolve_left (by decide)
  have hm : CrashMessage epCrashlog (bufferMsg 1#64) := ⟨by decide,by decide⟩
  obtain ⟨hset,hran⟩ := ((crash_told_apart hrun).2 _ _ acts ret u hr).2.1 ⟨hm,hgrants⟩
  exact ⟨calls,s,acts,ret,u,hrun,hclear,hr,hset,hran⟩

end AgxOpen.Rtkit
