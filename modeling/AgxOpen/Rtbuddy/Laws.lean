import AgxOpen.Rtbuddy.Driver

/-!
# What each thread may do

The law of a thread says, from the thread's own history, which operation it may
perform next. The threads' code obeys it whatever the others do.
-/
namespace AgxOpen.Rtbuddy
open Rtkit

abbrev Ev := Act Op Res
abbrev Hist := List Ev
abbrev RunLog := Log Party Op Res

variable {h : Hist} {a : Ev} {m : U64}

/-- What the updates of the core write to a field. -/
def coreStore {β : Type} (g : Rtkit.Update → Option β) : Ev → Option β
  | ⟨.rtkit u,_⟩ => g u
  | _ => none

/-- What the driver's stores write to a field. -/
def ownStore {β : Type} (g : Store → Option β) : Ev → Option β
  | ⟨.store f,_⟩ => g f
  | _ => none

/-- The message is in the inbox. -/
def Sent (m : U64) (h : Hist) : Prop := (⟨.send epMgmt m,(0 : ℤ)⟩ : Ev) ∈ h

/-- Some load answered so. -/
def Read (P : Rtbuddy → Prop) (h : Hist) : Prop := ∃ s : Rtbuddy, (⟨.load,s⟩ : Ev) ∈ h ∧ P s

/-- `agx_rtbuddy_wait` came back without an error or a timeout. -/
def Passed (stage : Stage) (h : Hist) : Prop :=
  ∃ later r earlier, ∃ s : Rtbuddy, h = later ++ ⟨.load,s⟩ :: ⟨.wait stage,r⟩ :: earlier ∧
    r ≠ (0 : ℕ) ∧ s.rtkit.error = 0

/-- The store that takes back the acknowledgement a stage waits for. -/
def Clears : Stage → Op → Prop
  | .iopAck, op => op = .rtkit (.iopAcked false)
  | .apAck, op => op = .rtkit (.apAcked false)
  | .epmap, _ => False

/-- The thread waited for the acknowledgement it asked for last. -/
def Awaited (stage : Stage) (h : Hist) : Prop :=
  ∃ later r earlier, h = later ++ ⟨.wait stage,r⟩ :: earlier ∧ ∀ a ∈ later, ¬ Clears stage a.op

def Booted (ret : ℤ) (h : Hist) : Prop := (⟨.mark (.booted ret),()⟩ : Ev) ∈ h

/-- Remove found both power levels on, behind a boot that returned `ret`. -/
def FoundRunning (ret : ℤ) (h : Hist) : Prop :=
  ∃ later earlier, ∃ s₁ s₀ : Rtbuddy,
    h = later ++ ⟨.load,s₁⟩ :: ⟨.load,s₀⟩ :: ⟨.mark (.booted ret),()⟩ :: earlier ∧
      levelOn s₀.rtkit.iopPower = true ∧ levelOn s₁.rtkit.apPower = true

def ctrlWrite : Ev → Option U32
  | ⟨.writeCtrl ctrl,_⟩ => some ctrl
  | _ => none

/-- The thread last set the run bit. -/
def CtrlRuns (h : Hist) : Prop := ∃ ctrl, h.findSome? ctrlWrite = some ctrl ∧ ctrl &&& cpuCtrlRun ≠ 0#32

/-- The thread last cleared the run bit. -/
def CtrlStopped (h : Hist) : Prop :=
  ∃ ctrl, h.findSome? ctrlWrite = some ctrl ∧ ctrl &&& cpuCtrlRun = 0#32

def runStore : Ev → Option Bool := ownStore fun
  | .cpuRunning value => some value
  | _ => none

/-- The value of `cpu_running`. -/
def runFlag (h : Hist) : Bool := latest runStore false h

def irqStore : Ev → Option Bool := ownStore fun
  | .irqRequested value => some value
  | _ => none

/-- The value of `irq_requested`. -/
def irqFlag (h : Hist) : Bool := latest irqStore false h

def armsIrq : Ev → Option Bool
  | ⟨.requestIrq,r⟩ => if r = (0 : ℤ) then some true else none
  | ⟨.freeIrq,_⟩ => some false
  | _ => none

/-- The interrupt is requested and not released. -/
def irqArmed (h : Hist) : Bool := latest armsIrq false h

/-- Remove is past the interrupt and the CPU. -/
structure Released (h : Hist) : Prop where
  booted : ∃ ret, Booted ret h
  irq : irqArmed h = false
  cpu : CtrlStopped h

/-- Remove found the slot empty or emptied it. -/
def Emptied (slot : Fin 4) (h : Hist) : Prop :=
  ∃ later earlier, Released earlier ∧
    (h = later ++ ⟨.store (.clearShmem slot),()⟩ :: earlier ∨
      ∃ s : Rtbuddy, h = later ++ ⟨.load,s⟩ :: earlier ∧ (s.shmem slot).cpu = 0)

/-- What boot and remove send. -/
inductive MainSend (h : Hist) : U64 → Prop
  | iopInit (hc : CtrlRuns h) : MainSend h (iopPowerMsg pwrInit)
  | apOn (hc : CtrlRuns h) (hi : Sent (iopPowerMsg pwrInit) h) (hp : Passed .epmap h)
      (hon : Read (fun s => levelOn s.rtkit.iopPower = true) h) : MainSend h (apPowerMsg pwrOn)
  | startep {endpoint : U32} (hc : CtrlRuns h) (hi : Sent (iopPowerMsg pwrInit) h)
      (he : endpoint = epFirmware ∨ endpoint = epDoorbell ∧ Sent (startepMsg epFirmware) h)
      (ha : Read (fun s => s.rtkit.announced endpoint = true) h)
      (hiop : Read (fun s => levelOn s.rtkit.iopPower = true) h)
      (hap : Read (fun s => levelOn s.rtkit.apPower = true) h) : MainSend h (startepMsg endpoint)
  | quiesce {ret : ℤ} (hr : FoundRunning ret h) (hc : ret = 0 → CtrlRuns h) :
      MainSend h (apPowerMsg pwrQuiesced)
  | sleep {ret : ℤ} (hr : FoundRunning ret h) (hc : ret = 0 → CtrlRuns h)
      (hw : Sent (apPowerMsg pwrQuiesced) h → Awaited .apAck h) :
      MainSend h (iopPowerMsg pwrSleep)

def mainStore (h : Hist) : Store → Prop
  | .firmwareUp value => value = true → Sent (startepMsg epFirmware) h
  | .doorbellUp value =>
    value = true → Sent (startepMsg epFirmware) h ∧ Sent (startepMsg epDoorbell) h
  | .clearShmem slot => Released h ∧ ∃ rest, ∃ s : Rtbuddy,
    h = ⟨.dmaFree (s.shmem slot),()⟩ :: ⟨.load,s⟩ :: rest
  | .irqRequested _ | .cpuRunning _ | .power _ => True
  | _ => False

def mainUpdate : Update → Prop
  | .fail _ => True
  | .iopAcked value | .apAcked value => value = false
  | _ => False

/-- Once SLEEP is sent its acknowledgement is waited for. -/
def SleepDone (h : Hist) : Prop := Sent (iopPowerMsg pwrSleep) h → Awaited .iopAck h

def mainMark (h : Hist) : Mark → Prop
  | .booted ret => ret = 0 → Sent (apPowerMsg pwrOn) h
  | .removed => ∀ slot, Emptied slot h
  | _ => False

def mainLaw (h : Hist) : Op → Prop
  | .rtkit u => mainUpdate u
  | .store f => mainStore h f
  | .writeCtrl ctrl => (ctrl &&& cpuCtrlRun = 0#32 → SleepDone h) ∧
    (ctrl &&& cpuCtrlRun ≠ 0#32 → ∀ ret, ¬ Booted ret h)
  | .send endpoint m => endpoint = epMgmt ∧ MainSend h m
  | .requestIrq => Sent (iopPowerMsg pwrInit) h ∧ ∀ ret, ¬ Booted ret h
  | .freeIrq => SleepDone h
  | .dmaFree buffer => Released h ∧ ∃ slot rest, ∃ s : Rtbuddy, h = ⟨.load,s⟩ :: rest ∧
    buffer = s.shmem slot ∧ buffer.cpu ≠ 0
  | .mark m => mainMark h m
  | .load | .readCtrl | .readI2a | .writeI2a _ | .wait _ | .notify .. => True
  | _ => False

def handlerMark : Ev → Option Bool
  | ⟨.irqEnter,_⟩ => some true
  | ⟨.irqExit,_⟩ => some false
  | _ => none

/-- The handler runs. -/
def inside (h : Hist) : Bool := latest handlerMark false h

def messageMark : Ev → Option (Option (U32 × U64))
  | ⟨.mark (.rx endpoint message),_⟩ => some (some (endpoint,message))
  | ⟨.mark .rxDone,_⟩ => some none
  | _ => none

/-- The message `agx_rtkit_rx` is handling. -/
def current (h : Hist) : Option (U32 × U64) := latest messageMark none h

/-- What was done about the message since it was received. -/
def since (h : Hist) : Hist := h.takeWhile fun a => (messageMark a).isNone

def orsEndpoints (endpoints : ℕ → U32) : Ev → ℕ → U32
  | ⟨.rtkit (.orEndpoints base bitmap),_⟩ =>
    Function.update endpoints base (endpoints base ||| bitmap)
  | _ => endpoints

/-- The endpoint map. -/
def endpointsOf (h : Hist) : ℕ → U32 := replay orsEndpoints Rtkit.init.endpoints h

def announcedIn (h : Hist) (endpoint : U32) : Bool :=
  bitSet (endpointsOf h (endpoint / 32#32).toNat) (endpoint % 32#32).toNat

def orsBuffers (buffers : U32) : Ev → U32
  | ⟨.rtkit (.orBuffers bit),_⟩ => buffers ||| bit
  | _ => buffers

/-- The core's record of the buffers. -/
def buffersOf (h : Hist) : U32 := replay orsBuffers 0#32 h

def setsShmem (shmem : Fin 4 → Shmem) : Ev → Fin 4 → Shmem
  | ⟨.dmaAlloc slot _,r⟩ => Function.update shmem slot ⟨r.1,r.2,(shmem slot).size⟩
  | ⟨.store (.shmemSize slot size),_⟩ => Function.update shmem slot { shmem slot with size := size }
  | ⟨.store (.clearShmem slot),_⟩ => Function.update shmem slot ⟨0,0#64,0#64⟩
  | _ => shmem

/-- The driver's record of the buffers. -/
def shmemOf (h : Hist) : Fin 4 → Shmem := replay setsShmem (fun _ => ⟨0,0#64,0#64⟩) h

def allocates : Ev → Option (Option (Fin 4 × U64))
  | ⟨.dmaAlloc slot size,r⟩ => some (if r.1 = 0 then none else some (slot,size))
  | ⟨.store (.shmemSize _ _),_⟩ => some none
  | _ => none

/-- The slot whose buffer has no size yet. -/
def pending (h : Hist) : Option (Fin 4 × U64) := latest allocates none h

/-- The two records name the same slots. Bit `slot` of the core's record belongs
to the endpoint of the slot. -/
def Agree (h : Hist) : Prop :=
  ∀ slot : Fin 4, (buffersOf h).getLsbD slot = true ↔ (shmemOf h slot).cpu ≠ 0

/-- Nothing is left over between two messages. -/
structure Settled (h : Hist) : Prop where
  current : current h = none
  pending : pending h = none
  agree : Agree h

/-- The management message being handled is of the type. -/
def Handles (h : Hist) (type : U32) (P : U64 → Prop) : Prop :=
  ∃ m, current h = some (epMgmt,m) ∧ msgType m = type ∧ P m

/-- A version the message offers was chosen and named in the reply to it. -/
def Replied (h : Hist) (m : U64) : Prop :=
  ∃ version, helloMin m ≤ version ∧ version ≤ helloMax m ∧
    protoMin ≤ version ∧ version ≤ protoMax ∧
    (⟨.rtkit (.version version),()⟩ : Ev) ∈ since h ∧ Sent (helloReplyMsg version) (since h)

/-- The last message of the roll call was replied to and the announced system
endpoints were started. -/
def RolledCall (h : Hist) (m : U64) : Prop :=
  epmapIsLast m = true ∧ Sent (epmapReplyMsg (epmapBase m) true) (since h) ∧
    ∀ endpoint, isSystem endpoint = true → announcedIn h endpoint = true →
      Sent (startepMsg endpoint) (since h)

def irqUpdate (h : Hist) : Update → Prop
  | .orEndpoints base bitmap => Handles h mgmtEpmap fun m =>
    base = (epmapBase m).toNat ∧ bitmap = epmapBitmap m
  | .orBuffers _ => current h ≠ none
  | .iopPower state => Handles h mgmtIopPwrAck fun m => state = powerState m
  | .iopAcked value => value = true ∧ Handles h mgmtIopPwrAck fun _ => True
  | .apPower state => Handles h mgmtApPwrAck fun m => state = powerState m
  | .apAcked value => value = true ∧ Handles h mgmtApPwrAck fun _ => True
  | .version want => protoMin ≤ want ∧ want ≤ protoMax
  | .helloDone => Handles h mgmtHello (Replied h)
  | .epmapDone => Handles h mgmtEpmap (RolledCall h)
  | _ => True

/-- What the core sends while it handles a message. -/
inductive IrqSend : U32 → U64 → Prop
  | helloReply (version : U32) : IrqSend epMgmt (helloReplyMsg version)
  | epmapReply (base : U32) (last : Bool) : IrqSend epMgmt (epmapReplyMsg base last)
  | startep {endpoint : U32} (he : isSystem endpoint = true) : IrqSend epMgmt (startepMsg endpoint)
  | system {endpoint : U32} (message : U64) (he : isSystem endpoint = true) :
      IrqSend endpoint message

def irqStep (h : Hist) : Op → Prop
  | .rtkit u => irqUpdate h u
  | .store (.shmemSize slot size) => pending h = some (slot,size) ∧ current h ≠ none
  | .store .fwEvents | .store .appUnknown | .store (.drainCount _) => True
  | .send endpoint message => IrqSend endpoint message
  | .dmaAlloc slot _ => (shmemOf h slot).cpu = 0 ∧ pending h = none ∧ current h ≠ none
  | .mark (.rx ..) => current h = none
  | .mark .rxDone => pending h = none ∧ Agree h
  | .irqExit => current h = none
  | .load | .readI2a | .recv0 | .recv1 | .wakeUp => True
  | _ => False

def irqLaw (h : Hist) (op : Op) : Prop := op = .irqEnter ∨ inside h = true ∧ irqStep h op

def gpuLaw (h : Hist) : Op → Prop
  | .load => True
  | .send endpoint _ => (endpoint = epFirmware ∨ endpoint = epDoorbell) ∧
    Read (fun s => s.firmwareUp = true) h ∧ Read (fun s => s.doorbellUp = true) h
  | _ => False

def firmwareLaw : Op → Prop
  | .push .. => True
  | _ => False

def law : Party → Hist → Op → Prop
  | .main, h, op => mainLaw h op
  | .irq, h, op => irqLaw h op
  | .gpu _, h, op => gpuLaw h op
  | .firmware, _, op => firmwareLaw op

/-- What a thread's history looks like while it runs nothing. -/
def idle : Party → Hist → Prop
  | .irq, h => inside h = false ∧ Settled h
  | _, _ => True

theorem Sent.cons (hs : Sent m h) : Sent m (a :: h) := List.mem_cons_of_mem _ hs

theorem Read.cons {P : Rtbuddy → Prop} (hr : Read P h) : Read P (a :: h) := by
  obtain ⟨s,hs,hP⟩ := hr
  exact ⟨s,List.mem_cons_of_mem _ hs,hP⟩

theorem Passed.cons {stage : Stage} (hp : Passed stage h) : Passed stage (a :: h) := by
  obtain ⟨later,r,earlier,s,rfl,hr,hs⟩ := hp
  exact ⟨a :: later,r,earlier,s,rfl,hr,hs⟩

theorem Awaited.cons {stage : Stage} (hw : Awaited stage h) (ha : ¬ Clears stage a.op) :
    Awaited stage (a :: h) := by
  obtain ⟨later,r,earlier,rfl,hc⟩ := hw
  exact ⟨a :: later,r,earlier,rfl,List.forall_mem_cons.mpr ⟨ha,hc⟩⟩

theorem Emptied.cons {slot : Fin 4} (he : Emptied slot h) : Emptied slot (a :: h) := by
  obtain ⟨later,earlier,hr,rfl | ⟨s,rfl,hs⟩⟩ := he
  · exact ⟨a :: later,earlier,hr,.inl rfl⟩
  · exact ⟨a :: later,earlier,hr,.inr ⟨s,rfl,hs⟩⟩

theorem shmemOf_alloc (slot k : Fin 4) (size : U64) (r : Ptr × U64) :
    shmemOf (⟨.dmaAlloc slot size,r⟩ :: h) k =
      if k = slot then ⟨r.1,r.2,(shmemOf h slot).size⟩ else shmemOf h k :=
  Function.update_apply ..

theorem shmemOf_size (slot k : Fin 4) (size : U64) (r : Unit) :
    shmemOf (⟨.store (.shmemSize slot size),r⟩ :: h) k =
      if k = slot then { shmemOf h slot with size := size } else shmemOf h k :=
  Function.update_apply ..

end AgxOpen.Rtbuddy
