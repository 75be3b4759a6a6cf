import AgxOpen.Rtkit.Dispatch

/-!
# What kind of operations the core performs

A function of the core performs operations of a kind if its own loads, stores
and sends are of the kind, and the callbacks it reaches are.
-/
namespace AgxOpen.Rtkit
open Program

variable {Op : Type} {Res : Op → Type} {P : Op → Prop} {k : Port Op Res} {endpoint : U32}
  {message : U64} {hasApp : Bool} {h : Handler}

section Own

variable (hload : Only P k.load) (hsend : ∀ message, Only P (k.send endpoint message))
  (hmgmt : ∀ message, Only P (k.send epMgmt message)) (hfail : ∀ e, Only P (k.store (.fail e)))

include hload in
theorem only_hasEndpoint (endpoint : U32) : Only P (hasEndpoint k endpoint) :=
  only_ite.mpr ⟨fun _ => trivial,fun _ => hload.bind fun _ => trivial⟩

include hload in
theorem only_running : Only P (running k) :=
  hload.bind fun _ => only_ite.mpr ⟨fun _ => hload.bind fun _ => trivial,fun _ => trivial⟩

include hload in
theorem only_countStray (hstray : Only P (k.store .strayCount)) (endpoint : U32) :
    Only P (countStray k endpoint) :=
  (only_hasEndpoint hload endpoint).bind fun _ => only_ite.mpr ⟨fun _ => hstray,fun _ => trivial⟩

include hsend hfail in
theorem only_send (message : U64) : Only P (send k endpoint message) :=
  (hsend _).bind fun _ => only_ite.mpr ⟨fun _ => (hfail _).bind fun _ => trivial,fun _ => trivial⟩

include hmgmt hfail in
theorem only_setIopPower (hacked : Only P (k.store (.iopAcked false))) (state : U32) :
    Only P (setIopPower k state) := hacked.bind fun _ => only_send hmgmt hfail _

include hmgmt hfail in
theorem only_setApPower (hacked : Only P (k.store (.apAcked false))) (state : U32) :
    Only P (setApPower k state) := hacked.bind fun _ => only_send hmgmt hfail _

include hload hmgmt hfail in
theorem only_startEndpoint (endpoint : U32) : Only P (startEndpoint k endpoint) := by
  have hup : Only P (mayStart k endpoint) :=
    only_ite.mpr ⟨fun _ => only_running hload,fun _ => trivial⟩
  refine only_ite.mpr ⟨fun _ => trivial,fun _ => (only_hasEndpoint hload endpoint).bind fun _ => ?_⟩
  refine only_ite.mpr ⟨fun _ => trivial,fun _ => hup.bind fun _ => ?_⟩
  exact only_ite.mpr ⟨fun _ => trivial,fun _ => only_send hmgmt hfail _⟩

include hload hmgmt hfail in
theorem only_startSystem (hcount : Only P (k.store .unknownCount)) (endpoint : U32) :
    Only P (startSystem k endpoint) := by
  refine (only_hasEndpoint hload endpoint).bind fun _ => only_ite.mpr ⟨fun _ => trivial,fun _ => ?_⟩
  refine only_ite.mpr ⟨fun _ => ?_,fun _ => hcount.bind fun _ => trivial⟩
  exact (only_startEndpoint hload hmgmt hfail endpoint).bind fun _ => trivial

include hmgmt hfail in
theorem only_rxHello (hversion : ∀ want, Only P (k.store (.version want)))
    (hdone : Only P (k.store .helloDone)) (message : U64) : Only P (rxHello k message) := by
  refine only_ite.mpr ⟨fun _ => hfail _,fun _ => (hversion _).bind fun _ => ?_⟩
  refine (only_send hmgmt hfail _).bind fun _ => ?_
  exact only_ite.mpr ⟨fun _ => trivial,fun _ => hdone⟩

include hload hmgmt hfail in
theorem only_rxEpmap (hor : ∀ base bitmap, Only P (k.store (.orEndpoints base bitmap)))
    (hcount : Only P (k.store .unknownCount)) (hdone : Only P (k.store .epmapDone))
    (message : U64) : Only P (rxEpmap k message) := by
  refine (hor _ _).bind fun _ => (only_send hmgmt hfail _).bind fun _ => ?_
  refine only_ite.mpr ⟨fun _ => trivial,fun _ => only_ite.mpr ⟨fun _ => trivial,fun _ => ?_⟩⟩
  refine (Only.forUntil fun i => only_startSystem hload hmgmt hfail hcount _).bind fun _ => ?_
  exact only_ite.mpr ⟨fun _ => hdone,fun _ => trivial⟩

variable (hbit : Only P (k.store (.orBuffers (bufferBit endpoint))))
  (hbuffer : ∀ buffer ∈ k.buffer, ∀ size iova, Only P (buffer endpoint size iova))

include hsend hfail hbit hbuffer in
theorem only_getBuffer (message : U64) : Only P (getBuffer k endpoint message) := by
  unfold getBuffer
  cases hb : k.buffer with
  | none => exact hfail _
  | some buffer =>
    refine only_ite.mpr ⟨fun _ => hfail _,fun _ => (hbuffer buffer hb _ _).bind fun _ => ?_⟩
    refine only_ite.mpr ⟨fun _ => hfail _,fun _ => hbit.bind fun _ => ?_⟩
    exact (only_send hsend hfail _).bind fun _ => trivial

include hsend hfail in
theorem only_echo (message : U64) : Only P (Handler.echo.run k endpoint message) :=
  (only_send hsend hfail message).bind fun _ => trivial

end Own

theorem only_noteUnknown (hcount : Only P (k.store .unknownCount))
    (hlast : Only P (k.store (.lastUnknown message))) : Only P (noteUnknown k message) :=
  hcount.bind fun _ => hlast

theorem only_app (happ : ∀ app ∈ k.app, Only P (app endpoint message)) :
    Only P (Disposition.app.run k endpoint message) := by
  unfold Disposition.run
  cases ha : k.app with
  | none => trivial
  | some app => exact happ app ha

/-- The messages that are managed come from the management endpoint. -/
theorem select_mgmt (hsel : select hasApp endpoint message = .handler h)
    (hh : h = .hello ∨ h = .epmap) : endpoint = epMgmt := by
  by_contra hne
  rw [select, if_neg hne] at hsel
  split_ifs at hsel <;> cases hsel <;> simp at hh

/-- What the management endpoint's messages are handled by. -/
theorem select_epMgmt (hsel : select hasApp epMgmt message = .handler h) :
    h = .hello ∨ h = .epmap ∧ msgType message = mgmtEpmap ∨ h = .iopAck ∨ h = .apAck := by
  rw [select, if_pos rfl] at hsel
  split_ifs at hsel with h1 h2 h3 h4
  · exact .inl (Disposition.handler.inj hsel).symm
  · exact .inr (.inl ⟨(Disposition.handler.inj hsel).symm,h2⟩)
  · exact .inr (.inr (.inl (Disposition.handler.inj hsel).symm))
  · exact .inr (.inr (.inr (Disposition.handler.inj hsel).symm))

theorem select_crashlog : select hasApp endpoint message = .handler .crashlog ↔
    endpoint = epCrashlog ∧ msgType message = crashlogCrash := by
  constructor
  · intro hsel
    by_contra hne
    rw [select] at hsel
    split_ifs at hsel <;> first | contradiction | exact hne ⟨‹_›,‹_›⟩
  · rintro ⟨rfl,ht⟩
    rw [select, if_neg (by decide), if_pos rfl, if_pos ht]

theorem select_app : select hasApp endpoint message = .app → hasApp = true ∧ endpoint ≥ epAppStart := by
  intro hsel
  have hb : (hasApp && decide (endpoint ≥ epAppStart)) = true := by
    by_contra hb
    rw [select, if_neg hb] at hsel
    split_ifs at hsel
  exact (Bool.and_eq_true_iff.mp hb).imp_right of_decide_eq_true

def Power.handler : Power → Handler
  | ap => .apAck
  | iop => .iopAck

/-- The stores of each handler. -/
def Handler.stores : Handler → Update → Bool
  | .hello, .version _ | .hello, .helloDone | .hello, .fail _ => true
  | .epmap, .orEndpoints _ _ | .epmap, .unknownCount | .epmap, .epmapDone | .epmap, .fail _ => true
  | .iopAck, .iopPower _ | .iopAck, .iopAcked _ => true
  | .apAck, .apPower _ | .apAck, .apAcked _ => true
  | .crashlog, .orBuffers _ | .crashlog, .crashed | .crashlog, .fail _ => true
  | .buffer, .orBuffers _ | .buffer, .fail _ => true
  | .echo, .fail _ => true
  | _, _ => false

section Handlers

variable (hload : Only P k.load) (hsend : ∀ message, Only P (k.send endpoint message))
  (hbuffer : ∀ buffer ∈ k.buffer, ∀ size iova, Only P (buffer endpoint size iova))
  (hcrashed : endpoint = epCrashlog → ∀ crashed ∈ k.crashed, Only P crashed)

include hload hsend hbuffer hcrashed

theorem only_handler (hsel : select hasApp endpoint message = .handler h)
    (hstore : ∀ u, h.stores u = true → Only P (k.store u)) :
    Only P (h.run k endpoint message) := by
  cases h with
  | hello =>
    obtain rfl := select_mgmt hsel (.inl rfl)
    exact only_rxHello hsend (fun _ => hstore _ rfl) (fun _ => hstore _ rfl) (hstore _ rfl) message
  | epmap =>
    obtain rfl := select_mgmt hsel (.inr rfl)
    exact only_rxEpmap hload hsend (fun _ => hstore _ rfl) (fun _ _ => hstore _ rfl) (hstore _ rfl)
      (hstore _ rfl) message
  | iopAck => exact (hstore _ rfl).bind fun _ => hstore _ rfl
  | apAck => exact (hstore _ rfl).bind fun _ => hstore _ rfl
  | crashlog =>
    obtain ⟨rfl,-⟩ := select_crashlog.mp hsel
    refine hload.bind fun s => only_ite.mpr ⟨fun _ => ?_,fun _ => (hstore _ rfl).bind fun _ => ?_⟩
    · exact only_getBuffer hsend (fun _ => hstore _ rfl) (hstore _ rfl) hbuffer message
    · cases hc : k.crashed with
      | none => trivial
      | some crashed => exact hcrashed rfl crashed hc
  | buffer => exact only_getBuffer hsend (fun _ => hstore _ rfl) (hstore _ rfl) hbuffer message
  | ignore => trivial
  | echo => exact only_echo hsend (fun _ => hstore _ rfl) message

/-- Handling a message, whatever it is. -/
theorem only_dispatch (hstore : ∀ u, u ≠ .rxCount → Only P (k.store u))
    (happ : endpoint ≥ epAppStart → ∀ app ∈ k.app, Only P (app endpoint message)) :
    Only P (dispatch k endpoint message) := by
  rw [dispatch_eq]
  cases hsel : select k.app.isSome endpoint message with
  | app =>
    obtain ⟨-,he⟩ := select_app hsel
    exact only_app (happ he)
  | unknown => exact only_noteUnknown (hstore _ (by simp)) (hstore _ (by simp))
  | handler h =>
    refine only_handler hload hsend hbuffer hcrashed hsel fun u hu => hstore u ?_
    rintro rfl
    cases h <;> contradiction

end Handlers

end AgxOpen.Rtkit
