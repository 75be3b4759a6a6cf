import AgxOpen.Program
import AgxOpen.Rtkit.Wire

/-!
# The protocol core

`rtkit.c`, function by function. The core reaches its own fields and its
callbacks through a `Port`: `struct agx_rtkit_ops` with the loads and stores of
`struct agx_rtkit` next to it. Each load is of one field.
-/
namespace AgxOpen

/-- `struct agx_rtkit`. -/
structure Rtkit where
  /-- `endpoints[AGX_RTKIT_EP_COUNT / 32]`. -/
  endpoints : ℕ → U32
  buffers : U32
  iopPower : U32
  apPower : U32
  version : U32
  helloDone : Bool
  epmapDone : Bool
  iopAcked : Bool
  apAcked : Bool
  crashed : Bool
  error : ℤ
  rxCount : U64
  strayCount : U64
  unknownCount : U64
  lastUnknown : U64

namespace Rtkit

/-- `agx_rtkit_init`. -/
def init : Rtkit where
  endpoints := fun i => if i = 0 then 1#32 else 0#32
  buffers := 0#32
  iopPower := pwrOff
  apPower := pwrOff
  version := 0#32
  helloDone := false
  epmapDone := false
  iopAcked := false
  apAcked := false
  crashed := false
  error := 0
  rxCount := 0#64
  strayCount := 0#64
  unknownCount := 0#64
  lastUnknown := 0#64

/-- One store to the core's fields. Where the source modifies a field in place,
the modification is one store. -/
inductive Update
  | orEndpoints (base : ℕ) (bitmap : U32)
  | orBuffers (bit : U32)
  | iopPower (state : U32)
  | apPower (state : U32)
  | version (want : U32)
  | helloDone
  | epmapDone
  | iopAcked (value : Bool)
  | apAcked (value : Bool)
  | crashed
  /-- The compare and exchange of `agx_rtkit_fail`. -/
  | fail (error : ℤ)
  | rxCount
  | strayCount
  | unknownCount
  | lastUnknown (message : U64)

def Update.apply (s : Rtkit) : Update → Rtkit
  | .orEndpoints base bitmap =>
    { s with endpoints := Function.update s.endpoints base (s.endpoints base ||| bitmap) }
  | .orBuffers bit => { s with buffers := s.buffers ||| bit }
  | .iopPower state => { s with iopPower := state }
  | .apPower state => { s with apPower := state }
  | .version want => { s with version := want }
  | .helloDone => { s with helloDone := true }
  | .epmapDone => { s with epmapDone := true }
  | .iopAcked value => { s with iopAcked := value }
  | .apAcked value => { s with apAcked := value }
  | .crashed => { s with crashed := true }
  | .fail error => { s with error := if s.error = 0 then error else s.error }
  | .rxCount => { s with rxCount := s.rxCount + 1#64 }
  | .strayCount => { s with strayCount := s.strayCount + 1#64 }
  | .unknownCount => { s with unknownCount := s.unknownCount + 1#64 }
  | .lastUnknown message => { s with lastUnknown := message }

/-- The bit of an endpoint below `AGX_RTKIT_EP_COUNT` in the endpoint map. -/
def announced (s : Rtkit) (endpoint : U32) : Bool :=
  bitSet (s.endpoints (endpoint / 32#32).toNat) (endpoint % 32#32).toNat

/-- How the core reaches its fields and its callbacks. -/
structure Port (Op : Type) (Res : Op → Type) where
  load : Program Op Res Rtkit
  store : Update → Program Op Res Unit
  send : U32 → U64 → Program Op Res ℤ
  buffer : Option (U32 → U64 → U64 → Program Op Res (ℤ × U64))
  app : Option (U32 → U64 → Program Op Res Unit)
  crashed : Option (Program Op Res Unit)

variable {Op : Type} {Res : Op → Type} (k : Port Op Res)

def fail (error : ℤ) : Program Op Res Unit := k.store (.fail error)

def send (endpoint : U32) (message : U64) : Program Op Res ℤ := do
  let ret ← k.send endpoint message
  if ret ≠ 0 then do
    fail k ret
    return ret
  else return ret

def mgmtSend (type : U32) (payload : U64) : Program Op Res ℤ :=
  send k epMgmt (mgmtMsg type payload)

def noteUnknown (message : U64) : Program Op Res Unit := do
  k.store .unknownCount
  k.store (.lastUnknown message)

def bufferBit (endpoint : U32) : U32 :=
  if endpoint = epCrashlog then bufferCrashlog
  else if endpoint = epSyslog then bufferSyslog
  else if endpoint = epIoreport then bufferIoreport
  else if endpoint = epOslog then bufferOslog
  else 0#32

def hasEndpoint (endpoint : U32) : Program Op Res Bool :=
  if endpoint ≥ epCount then return false
  else do
    let s ← k.load
    return s.announced endpoint

def running : Program Op Res Bool := do
  let s ← k.load
  if levelOn s.iopPower then do
    let t ← k.load
    return levelOn t.apPower
  else return false

def setIopPower (state : U32) : Program Op Res ℤ := do
  k.store (.iopAcked false)
  mgmtSend k mgmtIopPwr (put state 0 pwrStateMask)

def setApPower (state : U32) : Program Op Res ℤ := do
  k.store (.apAcked false)
  mgmtSend k mgmtApPwr (put state 0 pwrStateMask)

/-- The last test of `agx_rtkit_start_endpoint`. -/
def mayStart (endpoint : U32) : Program Op Res Bool :=
  if endpoint ≥ epAppStart then running k else return true

def startEndpoint (endpoint : U32) : Program Op Res ℤ :=
  if endpoint ≥ epCount then return Status.einval
  else do
    let known ← hasEndpoint k endpoint
    if !known then return Status.einval
    else do
      let up ← mayStart k endpoint
      if !up then return Status.einval
      else
        mgmtSend k mgmtStartep (put endpoint startepEpShift startepEpMask ||| startepFlag)

def rxHello (message : U64) : Program Op Res Unit :=
  let minVer := helloMin message
  let maxVer := helloMax message
  if minVer > maxVer ∨ minVer > protoMax ∨ maxVer < protoMin then fail k Status.einval
  else do
    let want := if maxVer < protoMax then maxVer else protoMax
    k.store (.version want)
    let ret ← mgmtSend k mgmtHelloReply
      (put want helloMinverShift helloVerMask ||| put want helloMaxverShift helloVerMask)
    if ret ≠ 0 then return ()
    else k.store .helloDone

/-- The system endpoints the driver starts after the roll call. -/
def isSystem (endpoint : U32) : Bool :=
  endpoint == epCrashlog || endpoint == epSyslog || endpoint == epDebug ||
    endpoint == epIoreport || endpoint == epOslog

/-- One round of the loop of `agx_rtkit_rx_epmap`. `false` leaves the function. -/
def startSystem (endpoint : U32) : Program Op Res Bool := do
  let known ← hasEndpoint k endpoint
  if !known then return true
  else if isSystem endpoint then do
    let ret ← startEndpoint k endpoint
    return ret == 0
  else do
    k.store .unknownCount
    return true

def rxEpmap (message : U64) : Program Op Res Unit := do
  let base := epmapBase message
  k.store (.orEndpoints base.toNat (epmapBitmap message))
  let ret ← mgmtSend k mgmtEpmapReply
    (put base epmapBaseShift epmapBaseMask |||
      if epmapIsLast message then epmapLast else epmapMore)
  if ret ≠ 0 then return ()
  else if !epmapIsLast message then return ()
  else do
    let all ← Program.forUntil 1 31 fun i => startSystem k (BitVec.ofNat 32 i)
    if all then k.store .epmapDone else return ()

def rxMgmt (message : U64) : Program Op Res Unit :=
  if msgType message = mgmtHello then rxHello k message
  else if msgType message = mgmtEpmap then rxEpmap k message
  else if msgType message = mgmtIopPwrAck then do
    k.store (.iopPower (powerState message))
    k.store (.iopAcked true)
  else if msgType message = mgmtApPwrAck then do
    k.store (.apPower (powerState message))
    k.store (.apAcked true)
  else noteUnknown k message

def requestSize (endpoint : U32) (message : U64) : U64 :=
  if endpoint = epOslog then fieldGet message oslogSizeShift oslogSizeMask
  else fieldGet message bufreqSizeShift bufreqSizeMask <<< pageShift

def requestIova (endpoint : U32) (message : U64) : U64 :=
  if endpoint = epOslog then fieldGet message 0 oslogIovaMask <<< pageShift
  else fieldGet message 0 bufreqIovaMask

def bufferReply (endpoint : U32) (size iova : U64) : U64 :=
  if endpoint = epOslog then
    put bufferRequest oslogTypeShift typeMask ||| fieldPut size oslogSizeShift oslogSizeMask |||
      fieldPut (iova >>> pageShift) 0 oslogIovaMask
  else
    put bufferRequest typeShift typeMask |||
      fieldPut (size >>> pageShift) bufreqSizeShift bufreqSizeMask |||
      fieldPut iova 0 bufreqIovaMask

def getBuffer (endpoint : U32) (message : U64) : Program Op Res Unit :=
  let size := requestSize endpoint message
  match k.buffer with
  | none => fail k (if size = 0#64 then Status.einval else Status.enodev)
  | some buffer =>
    if size = 0#64 then fail k Status.einval
    else do
      let (ret,iova) ← buffer endpoint size (requestIova endpoint message)
      if ret ≠ 0 then fail k ret
      else do
        k.store (.orBuffers (bufferBit endpoint))
        let _ ← send k endpoint (bufferReply endpoint size iova)
        return ()

def rxCrashlog (message : U64) : Program Op Res Unit :=
  if msgType message ≠ crashlogCrash then noteUnknown k message
  else do
    let s ← k.load
    if s.buffers &&& bufferCrashlog = 0#32 then getBuffer k epCrashlog message
    else do
      k.store .crashed
      match k.crashed with
      | some crashed => crashed
      | none => return ()

def rxSyslog (message : U64) : Program Op Res Unit :=
  if msgType message = bufferRequest then getBuffer k epSyslog message
  else if msgType message = syslogInit then return ()
  else if msgType message = syslogLog then do
    let _ ← send k epSyslog message
    return ()
  else noteUnknown k message

def rxIoreport (message : U64) : Program Op Res Unit :=
  if msgType message = bufferRequest then getBuffer k epIoreport message
  else if msgType message = ioreportAckA ∨ msgType message = ioreportAckB then do
    let _ ← send k epIoreport message
    return ()
  else noteUnknown k message

def rxOslog (message : U64) : Program Op Res Unit :=
  if oslogType message = bufferRequest then getBuffer k epOslog message
  else noteUnknown k message

/-- Count a message of an endpoint that was not announced. -/
def countStray (endpoint : U32) : Program Op Res Unit := do
  let known ← hasEndpoint k endpoint
  if !known then k.store .strayCount else return ()

def rx (endpoint : U32) (message : U64) : Program Op Res Unit := do
  let endpoint := endpoint &&& 0xff#32
  k.store .rxCount
  countStray k endpoint
  if endpoint = epMgmt then rxMgmt k message
  else if endpoint = epCrashlog then rxCrashlog k message
  else if endpoint = epSyslog then rxSyslog k message
  else if endpoint = epIoreport then rxIoreport k message
  else if endpoint = epOslog then rxOslog k message
  else
    match k.app with
    | some app => if endpoint ≥ epAppStart then app endpoint message else noteUnknown k message
    | none => noteUnknown k message

/-- The two power states that are asked for and acknowledged. -/
inductive Power
  | ap
  | iop
  deriving DecidableEq

namespace Power

def ackType : Power → U32
  | ap => mgmtApPwrAck
  | iop => mgmtIopPwrAck

def level : Power → Rtkit → U32
  | ap, s => s.apPower
  | iop, s => s.iopPower

/-- The store to the level. -/
def setLevel : Power → U32 → Update
  | ap => .apPower
  | iop => .iopPower

/-- The store to the acknowledgement flag. -/
def acked : Power → Bool → Update
  | ap => .apAcked
  | iop => .iopAcked

def isAcked : Power → Rtkit → Bool
  | ap, s => s.apAcked
  | iop, s => s.iopAcked

end Power

end Rtkit
end AgxOpen
