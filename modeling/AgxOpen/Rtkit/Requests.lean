import AgxOpen.Rtkit.BufferReply
import AgxOpen.Rtkit.Disposition
import AgxOpen.Rtkit.Handshake

/-!
# What the core asks the driver for

A call asks for one buffer at most, the one that its message is about.
-/
namespace AgxOpen.Rtkit
open Program

variable {has : Callbacks} {s t u : Rtkit} {acts : List CoreAct} {x : Msg} {messages : List Msg}
  {f : FakeFirmware}

/-- The buffer that the message can ask for. -/
def wants (x : Msg) : U32 × U64 × U64 :=
  (x.1 &&& 0xff#32,requestSize (x.1 &&& 0xff#32) x.2,requestIova (x.1 &&& 0xff#32) x.2)

def wanted (x : Msg) : List (U32 × U64 × U64) := if isRequest x then [wants x] else []

abbrev Asking {α : Type} (p : Program Op Res α) (x : U32 × U64 × U64) (s : Rtkit) : Prop :=
  Meets step p (fun acts _ _ => acts.filterMap asked <+: [x]) s

theorem asked_managing (h : ∀ a ∈ acts, Managing a.op) : acts.filterMap asked = [] := by
  refine List.filterMap_eq_nil_iff.mpr fun a ha => ?_
  obtain ⟨op,r⟩ := a
  cases op with
  | buffer => exact (h _ ha).elim
  | _ => rfl

theorem asking_managing {α : Type} {p : Program Op Res α} (hp : Only Managing p)
    (x : U32 × U64 × U64) (s : Rtkit) : Asking p x s :=
  (hp.meets_all s).mono fun _ _ _ h => asked_managing h ▸ List.nil_prefix

theorem asking_getBuffer (endpoint : U32) (message : U64) (s : Rtkit) :
    Asking (getBuffer (corePort has) endpoint message)
      (endpoint,requestSize endpoint message,requestIova endpoint message) s := by
  have hstore (v : Update) (hv : Managing (.store v)) : Only Managing ((corePort has).store v) :=
    only_request.mpr hv
  by_cases h0 : requestSize endpoint message = 0#64
  · rw [getBuffer_empty h0]
    exact asking_managing (hstore _ (by trivial)) _ s
  cases hb : has.buffer with
  | false =>
    rw [getBuffer_none hb]
    exact asking_managing (hstore _ (by trivial)) _ s
  | true =>
    rw [getBuffer_some hb h0]
    rintro ⟨ret,iova⟩ t -
    have hrest : Only Managing (if ret ≠ 0 then fail (corePort has) ret else do
        (corePort has).store (.orBuffers (bufferBit endpoint))
        let _ ← send (corePort has) endpoint
          (bufferReply endpoint (requestSize endpoint message) iova)
        return ()) := by
      refine only_ite.mpr ⟨fun _ => hstore _ (by trivial),fun _ => (hstore _ (by trivial)).bind fun _ => ?_⟩
      refine (only_send (fun _ => ?_) (fun _ => hstore _ (by trivial)) _).bind fun _ => only_ret ()
      exact only_request.mpr (by trivial)
    refine (hrest.meets_all t).mono fun acts _ _ h => ?_
    simp [asked, asked_managing h]

theorem asking_handler {h : Handler} {endpoint : U32} {message : U64}
    (hsel : select has.app endpoint message = .handler h) (s : Rtkit) :
    Asking (h.run (corePort has) endpoint message)
      (endpoint,requestSize endpoint message,requestIova endpoint message) s := by
  by_cases hb : h = .buffer
  · subst hb
    exact asking_getBuffer endpoint message s
  by_cases hc : h = .crashlog
  · subst hc
    obtain ⟨rfl,-⟩ := select_crashlog.mp hsel
    rintro r t -
    change Meets step (if _ then _ else _) _ _
    split_ifs
    · exact asking_getBuffer epCrashlog message t
    · refine asking_managing ((only_request.mpr (by trivial)).bind fun _ => ?_) _ t
      have hcrashed : ∀ crashed ∈ (corePort has).crashed, Only Managing crashed :=
        only_crashedOp (by trivial)
      cases hb : (corePort has).crashed with
      | none => exact only_ret ()
      | some crashed => exact hcrashed crashed hb
  · exact asking_managing (managing_handler hc hb endpoint message) _ s

/-- A call asks for at most the buffer that the message is about. -/
theorem rx_asked {ret : ℤ} (hr : (program has (.rx x.1 x.2)).Runs step s acts ret u) :
    acts.filterMap asked <+: wanted x := by
  obtain ⟨-,hd⟩ := disposed hr
  obtain ⟨before,during,rfl,hb,hran⟩ := hd.ran
  rw [behind_counters hb fun a ha => (counts_none ha).2.1]
  cases hsel : select has.app (x.1 &&& 0xff#32) x.2 with
  | handler h =>
    rw [hsel] at hran
    cases hreq : isRequest x with
    | true =>
      rw [wanted, if_pos hreq]
      exact hran.post (asking_handler hsel _)
    | false =>
      have hmgmt : x.1 = epMgmt := by simpa [isRequest] using hreq
      rw [hmgmt, show epMgmt &&& 0xff#32 = epMgmt by decide] at hsel
      have hkind : h ≠ .crashlog ∧ h ≠ .buffer := by
        have h5 := select_epMgmt hsel
        constructor <;> rintro rfl <;> simp at h5
      rw [asked_managing (hran.only (managing_handler hkind.1 hkind.2 _ _))]
      exact List.nil_prefix
  | _ =>
    have hnone := (hd.frame (by rw [hsel]; simp)).2.2
    rw [behind_counters hb fun a ha => (counts_none ha).2.1] at hnone
    rw [hnone]
    exact List.nil_prefix

theorem running_asked {q : Program Op Res ℤ}
    (hr : Running step (program has (.rx x.1 x.2)) s acts q t) : acts.filterMap asked <+: wanted x := by
  obtain ⟨acts',ret,u,hrest,-⟩ := finishes q t
  refine List.IsPrefix.trans ?_ (rx_asked (hr.append hrest))
  rw [List.filterMap_append]
  exact List.prefix_append ..

theorem session_asked {calls : List CoreDone} (hrun : Session step (program has) s calls u)
    (hcalls : calls.map (fun d => d.call) = messages.map fun x => .rx x.1 x.2) :
    ((calls.flatMap fun d => d.acts).filterMap asked).Sublist (messages.flatMap wanted) := by
  induction hrun generalizing messages with
  | nil s => exact List.nil_sublist _
  | cons hr tail ih =>
    cases messages with
    | nil => simp at hcalls
    | cons x messages =>
      obtain ⟨rfl,hrest⟩ := List.cons.inj hcalls
      rw [List.flatMap_cons, List.filterMap_append, List.flatMap_cons]
      exact (rx_asked hr).sublist.append (ih hrest)

theorem wanted_eq (messages : List Msg) :
    messages.flatMap wanted = (messages.filter isRequest).map wants := by
  induction messages with
  | nil => rfl
  | cons x messages ih =>
    rw [List.flatMap_cons, ih, wanted]
    cases hx : isRequest x <;> simp [hx]

theorem Told.asked (ht : Told f messages) :
    (messages.flatMap wanted).Sublist (requests.map wants) := by
  rw [wanted_eq]
  exact ht.inRequests.sublist.map wants

end AgxOpen.Rtkit
