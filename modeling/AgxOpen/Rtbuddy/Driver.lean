import AgxOpen.Rtbuddy.World

/-!
# The driver

`rtbuddy.c` and the parts of `mailbox.c` and `gpu_ep.h` it uses, function by
function, and the threads that run it: one that probes, boots and removes the
driver, the interrupt thread, any number of GPU callers and the firmware.
-/
namespace AgxOpen.Rtbuddy
open Rtkit

abbrev Prog := Program Op Res

def ask (op : Op) : Prog (Res op) := Program.request op

def load : Prog Rtbuddy := ask .load

def store (f : Store) : Prog Unit := ask (.store f)

def mark (m : Mark) : Prog Unit := ask (.mark m)

def controlEnable : U32 := 0x1#32

def controlWithEnable (control : U32) (enable : Bool) : U32 :=
  control &&& ~~~controlEnable ||| if enable then controlEnable else 0#32

def msg1EndpointMask : U32 := 0xff#32

/-- The endpoint byte of the word written to `SEND1`. -/
def packMsg1 (endpoint : U32) : U32 := endpoint &&& msg1EndpointMask

/-- The endpoint of a received pair of words. -/
def unpackEndpoint (msg1 : U64) : U32 := (msg1 &&& msg1EndpointMask.setWidth 64).setWidth 32

def mailboxSend (endpoint : U32) (message : U64) : Prog ℤ :=
  ask (.send endpoint message)

def outboxEmpty : Prog Bool := do
  let control ← ask .readI2a
  return control &&& controlEmpty != 0#32

def setOutboxEnable (enable : Bool) : Prog Unit := do
  let control ← ask .readI2a
  ask (.writeI2a (controlWithEnable control enable))

/-- `agx_mailbox_recv`: the endpoint and the data, or nothing for `-ENODATA`. -/
def mailboxRecv : Prog (Option (U32 × U64)) := do
  let empty ← outboxEmpty
  if empty then return none
  else do
    let msg0 ← ask .recv0
    let msg1 ← ask .recv1
    return some (unpackEndpoint msg1,msg0)

def gpuMsgTypeShift : ℕ := 48
def gpuMsgTypeMask : U64 := 0xffff#64
def gpuMsgInitType : U32 := 0x81#32
def gpuMsgDoorbellType : U32 := 0x83#32
def gpuMsgFwctlType : U32 := 0x84#32
def gpuMsgStopType : U32 := 0x85#32
def gpuMsgDoorbellAltType : U32 := 0x86#32
def gpuEventTypeMask : U64 := 0x3f#64
def gpuEventTypeValue : U64 := 0x2#64
def gpuKickIndexMask : U32 := 0x7#32
def gpuKickIndexShift : ℕ := 2
def gpuInitdataMask : U64 := 0xfffffffffff#64
def gpuDoorbellChannelMask : U64 := 0xffff#64

def gpuMsgInit (initdataAddr : U64) : U64 :=
  put gpuMsgInitType gpuMsgTypeShift gpuMsgTypeMask ||| initdataAddr &&& gpuInitdataMask

def gpuMsgDoorbell (channel : U32) : U64 :=
  put gpuMsgDoorbellType gpuMsgTypeShift gpuMsgTypeMask |||
    channel.setWidth 64 &&& gpuDoorbellChannelMask

def gpuMsgKick (index : U32) (alt : Bool) : U64 :=
  let type := if alt then gpuMsgDoorbellAltType else gpuMsgDoorbellType
  put type gpuMsgTypeShift gpuMsgTypeMask |||
    ((index &&& gpuKickIndexMask) <<< gpuKickIndexShift).setWidth 64

def gpuMsgStop (counter : U64) : U64 :=
  put gpuMsgStopType gpuMsgTypeShift gpuMsgTypeMask ||| counter &&& gpuInitdataMask

def gpuMsgFwctl : U64 := put gpuMsgFwctlType gpuMsgTypeShift gpuMsgTypeMask

def gpuMsgIsEvent (message : U64) : Bool :=
  fieldGet message gpuMsgTypeShift gpuEventTypeMask == gpuEventTypeValue

def shmemMax : U64 := 0x400000#64

def shmemSlot (endpoint : U32) : Option (Fin 4) :=
  if endpoint = epCrashlog then some 0
  else if endpoint = epSyslog then some 1
  else if endpoint = epIoreport then some 2
  else if endpoint = epOslog then some 3
  else none

/-- `agx_rtbuddy_ops_buffer`. Behind an error the core does not use the address. -/
def opsBuffer (endpoint : U32) (size requestedIova : U64) : Prog (ℤ × U64) :=
  match shmemSlot endpoint with
  | none => return (Status.einval,requestedIova)
  | some slot =>
    if requestedIova ≠ 0#64 then return (Status.einval,requestedIova)
    else if size > shmemMax then return (Status.einval,requestedIova)
    else do
      let s ← load
      if (s.shmem slot).cpu ≠ 0 then return (Status.eexist,requestedIova)
      else do
        let buffer ← ask (.dmaAlloc slot size)
        if buffer.1 = 0 then return (Status.enomem,requestedIova)
        else do
          store (.shmemSize slot size)
          return (0,buffer.2)

def opsApp (endpoint : U32) (message : U64) : Prog Unit :=
  if endpoint = epFirmware ∧ gpuMsgIsEvent message then store .fwEvents
  else store .appUnknown

/-- `agx_rtbuddy_rtkit_ops`. The crash callback only logs. -/
def port : Port Op Res where
  load := do
    let s ← load
    return s.rtkit
  store u := ask (.rtkit u)
  send := mailboxSend
  buffer := some opsBuffer
  app := some opsApp
  crashed := some (return ())

def drainMax : ℕ := 64

/-- The loop of `agx_rtbuddy_irq_thread` with `n` rounds left. Answers how many
messages it handled. -/
def drain : ℕ → Prog ℕ
  | 0 => return 0
  | n+1 => do
    let msg ← mailboxRecv
    match msg with
    | none => return 0
    | some (endpoint,data) =>
      mark (.rx endpoint data)
      rx port endpoint data
      mark .rxDone
      let handled ← drain n
      return handled+1

def irqThread : Prog Unit := do
  ask .irqEnter
  let handled ← drain drainMax
  store (.drainCount handled)
  ask .wakeUp
  ask .irqExit

def started : Prog Bool := do
  let up ← running port
  if !up then return false
  else do
    let s ← load
    if !s.firmwareUp then return false
    else do
      let s ← load
      return s.doorbellUp

def sendGpu (endpoint : U32) (message : U64) : Prog ℤ := do
  let up ← started
  if !up then return Status.enodev
  else mailboxSend endpoint message

def sendInitdata (initdataAddr : U64) : Prog ℤ := sendGpu epFirmware (gpuMsgInit initdataAddr)

def doorbell (channel : U32) : Prog ℤ := sendGpu epDoorbell (gpuMsgDoorbell channel)

def kick (index : U32) (alt : Bool) : Prog ℤ := sendGpu epDoorbell (gpuMsgKick index alt)

def stopFirmware (counter : U64) : Prog ℤ := sendGpu epDoorbell (gpuMsgStop counter)

def fwctlDoorbell : Prog ℤ := sendGpu epDoorbell gpuMsgFwctl

def cpuCtrlRun : U32 := 0x10#32

def setPower (state : PowerState) : Prog Unit := do
  let s ← load
  if s.power = state then return ()
  else do
    store (.power state)
    if s.display then ask (.notify s.power state) else return ()

def stopCpu : Prog Unit := do
  let s ← load
  if !s.cpuRunning then return ()
  else do
    let ctrl ← ask .readCtrl
    ask (.writeCtrl (ctrl &&& ~~~cpuCtrlRun))
    store (.cpuRunning false)

def wait (stage : Stage) : Prog ℤ := do
  let left ← ask (.wait stage)
  let s ← load
  if s.rtkit.error ≠ 0 then return s.rtkit.error
  else if left = 0 then return Status.etimedout
  else return 0

def requestIrq : Prog ℤ := do
  let s ← load
  if s.irqRequested then return 0
  else do
    let ret ← ask .requestIrq
    if ret ≠ 0 then return ret
    else do
      store (.irqRequested true)
      return 0

/-- The label `fail` of `agx_rtbuddy_boot`. -/
def bootFail (ret : ℤ) : Prog ℤ := do
  stopCpu
  store (.firmwareUp false)
  store (.doorbellUp false)
  return ret

/-- `agx_rtbuddy_boot` from the start of the firmware endpoint on. -/
def bootEndpoints : Prog ℤ := do
  let ret ← startEndpoint port epFirmware
  if ret ≠ 0 then bootFail ret
  else do
    store (.firmwareUp true)
    let ret ← startEndpoint port epDoorbell
    if ret ≠ 0 then bootFail ret
    else do
      store (.doorbellUp true)
      setPower .on
      return 0

/-- `agx_rtbuddy_boot` from the request for AP power on. -/
def bootApPower : Prog ℤ := do
  let ret ← setApPower port pwrOn
  if ret ≠ 0 then bootFail ret
  else do
    let ret ← wait .apAck
    if ret ≠ 0 then bootFail ret
    else do
      let up ← running port
      if !up then bootFail Status.eio else bootEndpoints

/-- `agx_rtbuddy_boot` from the wait for the roll call on. -/
def bootRollCall : Prog ℤ := do
  let ret ← wait .epmap
  if ret ≠ 0 then bootFail ret
  else do
    let ret ← wait .iopAck
    if ret ≠ 0 then bootFail ret
    else do
      let s ← load
      if !levelOn s.rtkit.iopPower then bootFail Status.eio else bootApPower

def boot : Prog ℤ := do
  setOutboxEnable true
  let ctrl ← ask .readCtrl
  ask (.writeCtrl (ctrl ||| cpuCtrlRun))
  store (.cpuRunning true)
  let ret ← setIopPower port pwrInit
  if ret ≠ 0 then bootFail ret
  else do
    let ret ← requestIrq
    if ret ≠ 0 then bootFail ret else bootRollCall

/-- Wait for the answer to a request that was sent. -/
def waitSent (ret : ℤ) (stage : Stage) : Prog Unit :=
  if ret = 0 then do
    let _ ← wait stage
    return ()
  else return ()

def shutdown : Prog Unit := do
  let up ← running port
  if !up then return ()
  else do
    let ret ← setApPower port pwrQuiesced
    waitSent ret .apAck
    let ret ← setIopPower port pwrSleep
    waitSent ret .iopAck

def freeShmem : Prog Unit :=
  Program.forRange 4 fun i => do
    let slot := Fin.ofNat 4 i
    let s ← load
    if (s.shmem slot).cpu = 0 then return ()
    else do
      ask (.dmaFree (s.shmem slot))
      store (.clearShmem slot)

def freeIrq : Prog Unit := do
  let s ← load
  if !s.irqRequested then return ()
  else do
    ask .freeIrq
    store (.irqRequested false)

def remove : Prog Unit := do
  shutdown
  freeIrq
  stopCpu
  freeShmem
  store (.firmwareUp false)
  store (.doorbellUp false)
  setPower .off

/-- Boot and remove in the order of `agx_probe` and `agx_teardown`: a failed
boot is followed by remove at once, a successful one by remove some time later. -/
def lifecycle : Prog Unit := do
  let ret ← boot
  mark (.booted ret)
  remove
  mark .removed

inductive Party
  | main
  | irq
  | gpu (n : ℕ)
  | firmware
  deriving DecidableEq

inductive Call
  | interrupt
  | sendInitdata (initdataAddr : U64)
  | doorbell (channel : U32)
  | kick (index : U32) (alt : Bool)
  | stopFirmware (counter : U64)
  | fwctlDoorbell
  | push (msg0 msg1 : U64)

/-- A GPU call, whose result goes to the caller. -/
def gpuCall : Call → Option (Prog ℤ)
  | .sendInitdata initdataAddr => some (sendInitdata initdataAddr)
  | .doorbell channel => some (doorbell channel)
  | .kick index alt => some (kick index alt)
  | .stopFirmware counter => some (stopFirmware counter)
  | .fwctlDoorbell => some fwctlDoorbell
  | _ => none

def program : Party → Call → Option (Prog Unit)
  | .irq, .interrupt => some irqThread
  | .gpu _, call => (gpuCall call).map fun p => p >>= fun _ => return ()
  | .firmware, .push msg0 msg1 => some (ask (.push msg0 msg1))
  | _, _ => none

/-- The driver behind its probe, with any registers and any outbox. -/
structure Probed (s : World) : Prop where
  rb : s.rb = probe s.rb.display
  irqRegistered : s.irqRegistered = false
  irqBusy : s.irqBusy = false
  dma : s.dma = []

def driver : Threads Party Op Res World Call where
  init := Probed
  step := World.step
  first i := if i = .main then lifecycle else return ()
  program := program

end AgxOpen.Rtbuddy
