import AgxOpen.Rtkit.Core

/-!
# Which way a message takes

`agx_rtkit_rx` counts a message and then passes it to the application, records
it as unknown, or gives it to the one handler of its endpoint and type.
-/
namespace AgxOpen.Rtkit
open Program

variable {Op : Type} {Res : Op → Type} {k : Port Op Res} {hasApp : Bool} {endpoint : U32}
  {message : U64}

/-- The application's endpoints. -/
def dispatchApp (k : Port Op Res) (endpoint : U32) (message : U64) : Program Op Res Unit :=
  match k.app with
  | some app => if endpoint ≥ epAppStart then app endpoint message else noteUnknown k message
  | none => noteUnknown k message

/-- `agx_rtkit_rx` behind the two counters. -/
def dispatch (k : Port Op Res) (endpoint : U32) (message : U64) : Program Op Res Unit :=
  if endpoint = epMgmt then rxMgmt k message
  else if endpoint = epCrashlog then rxCrashlog k message
  else if endpoint = epSyslog then rxSyslog k message
  else if endpoint = epIoreport then rxIoreport k message
  else if endpoint = epOslog then rxOslog k message
  else dispatchApp k endpoint message

theorem rx_eq (k : Port Op Res) (endpoint : U32) (message : U64) : rx k endpoint message =
    (k.store .rxCount >>= fun _ => countStray k (endpoint &&& 0xff#32)) >>=
      fun _ => dispatch k (endpoint &&& 0xff#32) message := by
  rw [bind_assoc]
  obtain ⟨load,store,send,buffer,app,crashed⟩ := k
  cases app with
  | none => rfl
  | some app => rfl

/-- The messages of the application's endpoints pass the core. -/
theorem dispatch_app {endpoint : U32} (he : endpoint ≥ epAppStart) (k : Port Op Res) (message : U64) :
    dispatch k endpoint message = dispatchApp k endpoint message := by
  have hne (e : U32) (hlt : e < epAppStart) : endpoint ≠ e := by
    rintro rfl
    exact BitVec.not_le.mpr hlt he
  rw [dispatch, if_neg (hne _ (by decide)), if_neg (hne _ (by decide)), if_neg (hne _ (by decide)),
    if_neg (hne _ (by decide)), if_neg (hne _ (by decide))]

/-- The cases of the handlers' switches that do not note an unknown message. -/
inductive Handler
  | hello
  | epmap
  | iopAck
  | apAck
  | crashlog
  | buffer
  /-- `AGX_RTKIT_SYSLOG_INIT` needs nothing. -/
  | ignore
  | echo
  deriving DecidableEq

/-- `agx_rtkit_rx_crashlog` behind its check of the type. -/
def onCrashlog (k : Port Op Res) (message : U64) : Program Op Res Unit := do
  let s ← k.load
  if s.buffers &&& bufferCrashlog = 0#32 then getBuffer k epCrashlog message
  else do
    k.store .crashed
    match k.crashed with
    | some crashed => crashed
    | none => return ()

def Handler.run (k : Port Op Res) (endpoint : U32) (message : U64) : Handler → Program Op Res Unit
  | .hello => rxHello k message
  | .epmap => rxEpmap k message
  | .iopAck => do
    k.store (.iopPower (powerState message))
    k.store (.iopAcked true)
  | .apAck => do
    k.store (.apPower (powerState message))
    k.store (.apAcked true)
  | .crashlog => onCrashlog k message
  | .buffer => getBuffer k endpoint message
  | .ignore => return ()
  | .echo => do
    let _ ← send k endpoint message
    return ()

inductive Disposition
  | app
  | unknown
  | handler (h : Handler)
  deriving DecidableEq

/-- The way of a message, with an application callback or without one. -/
def select (hasApp : Bool) (endpoint : U32) (message : U64) : Disposition :=
  if endpoint = epMgmt then
    if msgType message = mgmtHello then .handler .hello
    else if msgType message = mgmtEpmap then .handler .epmap
    else if msgType message = mgmtIopPwrAck then .handler .iopAck
    else if msgType message = mgmtApPwrAck then .handler .apAck
    else .unknown
  else if endpoint = epCrashlog then
    if msgType message = crashlogCrash then .handler .crashlog else .unknown
  else if endpoint = epSyslog then
    if msgType message = bufferRequest then .handler .buffer
    else if msgType message = syslogInit then .handler .ignore
    else if msgType message = syslogLog then .handler .echo
    else .unknown
  else if endpoint = epIoreport then
    if msgType message = bufferRequest then .handler .buffer
    else if msgType message = ioreportAckA ∨ msgType message = ioreportAckB then .handler .echo
    else .unknown
  else if endpoint = epOslog then
    if oslogType message = bufferRequest then .handler .buffer else .unknown
  else if hasApp && endpoint ≥ epAppStart then .app
  else .unknown

def Disposition.run (k : Port Op Res) (endpoint : U32) (message : U64) :
    Disposition → Program Op Res Unit
  | .app =>
    match k.app with
    | some deliver => deliver endpoint message
    | none => return ()
  | .unknown => noteUnknown k message
  | .handler h => h.run k endpoint message

theorem rxCrashlog_eq (k : Port Op Res) (message : U64) : rxCrashlog k message =
    if msgType message = crashlogCrash then onCrashlog k message else noteUnknown k message := by
  unfold rxCrashlog
  exact ite_not ..

theorem dispatchApp_eq (k : Port Op Res) (endpoint : U32) (message : U64) :
    dispatchApp k endpoint message =
      (if k.app.isSome && endpoint ≥ epAppStart then .app else .unknown : Disposition).run
        k endpoint message := by
  unfold dispatchApp
  cases ha : k.app with
  | none => rfl
  | some app =>
    by_cases he : endpoint ≥ epAppStart
    · simp [Disposition.run, ha, he]
    · simp [Disposition.run, he]

/-- Every message takes the way selected for it. -/
theorem dispatch_eq (k : Port Op Res) (endpoint : U32) (message : U64) :
    dispatch k endpoint message =
      (select k.app.isSome endpoint message).run k endpoint message := by
  rw [dispatch, select, dispatchApp_eq, rxCrashlog_eq]
  by_cases hmgmt : endpoint = epMgmt
  · rw [if_pos hmgmt, if_pos hmgmt, rxMgmt]
    split_ifs <;> rfl
  rw [if_neg hmgmt, if_neg hmgmt]
  by_cases hcrashlog : endpoint = epCrashlog
  · rw [if_pos hcrashlog, if_pos hcrashlog]
    split_ifs <;> rfl
  rw [if_neg hcrashlog, if_neg hcrashlog]
  by_cases hsyslog : endpoint = epSyslog
  · rw [if_pos hsyslog, if_pos hsyslog, rxSyslog, ← hsyslog]
    split_ifs <;> rfl
  rw [if_neg hsyslog, if_neg hsyslog]
  by_cases hioreport : endpoint = epIoreport
  · rw [if_pos hioreport, if_pos hioreport, rxIoreport, ← hioreport]
    split_ifs <;> rfl
  rw [if_neg hioreport, if_neg hioreport]
  by_cases hoslog : endpoint = epOslog
  · rw [if_pos hoslog, if_pos hoslog, rxOslog, ← hoslog]
    split_ifs <;> rfl
  rw [if_neg hoslog, if_neg hoslog]

end AgxOpen.Rtkit
