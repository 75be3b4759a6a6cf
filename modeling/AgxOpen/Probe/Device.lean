import AgxOpen.Embedding
import AgxOpen.Rtbuddy.Driver

/-!
# The platform device

`probe.c`: the driver core probes the device, removes it some time later and then
releases the managed resources. In between the threads are those of the driver.
-/
namespace AgxOpen.Probe
open Rtbuddy

/-- What `agx_probe`, `agx_teardown` and the driver core do around the driver. -/
inductive Platform
  | devmKzalloc
  | ioremapResource
  | getIrqByname
  | pmRuntimeEnable
  | pmRuntimeGet
  | pmRuntimePut
  | displayBrokerInit
  | debugfsInit
  | debugfsRemove
  | setDrvdata
  | getDrvdata
  /-- A use of the NULL that `platform_get_drvdata` gave. -/
  | oops
  /-- The driver core takes the result of the probe. -/
  | probed (ret : ℤ)
  /-- The driver core calls `agx_remove`. -/
  | removal
  /-- The driver core releases what the `devm` calls got. -/
  | release

/-- What `IS_ERR` takes for an error. -/
abbrev Errno := { e : ℤ // e < 0 }

abbrev Platform.Answer : Platform → Type
  | .devmKzalloc => Bool
  | .ioremapResource => Except Errno ℕ
  | .getIrqByname => ℤ
  | .pmRuntimeEnable => ℤ
  | .pmRuntimeGet => ℤ
  | .getDrvdata => Bool
  | _ => Unit

abbrev POp := Outer Platform Op
abbrev PRes : POp → Type := Outer.Answer Platform.Answer Res
abbrev Prog := Program POp PRes

def ask (o : Platform) : Prog o.Answer := Program.request (Outer.own o : POp)

/-- What the device holds of the platform. -/
structure Held where
  /-- The zeroed `struct agx_device`. -/
  agx : Bool
  /-- The size of the mapped registers. -/
  region : Option ℕ
  /-- The runtime power management usage count. -/
  usage : ℤ
  debugfs : Bool
  drvdata : Bool
  bound : Bool
  deriving DecidableEq

def Held.nothing : Held := ⟨false,none,0,false,false,false⟩

def Held.after (s : Held) : (o : Platform) → o.Answer → Held
  | .devmKzalloc, r => { s with agx := r }
  | .ioremapResource, .ok size => { s with region := some size }
  | .pmRuntimeGet, r => { s with usage := if r = (0 : ℤ) then s.usage+1 else s.usage }
  | .pmRuntimePut, _ => { s with usage := s.usage-1 }
  | .debugfsInit, _ => { s with debugfs := true }
  | .debugfsRemove, _ => { s with debugfs := false }
  | .setDrvdata, _ => { s with drvdata := true }
  | .probed ret, _ => { s with bound := ret == 0 }
  | .removal, _ => { s with bound := false }
  | .release, _ => { s with agx := false, region := none, drvdata := false }
  | _, _ => s

/-- The driver core removes what is bound. -/
def Held.allows (s : Held) : (o : Platform) → o.Answer → Prop
  | .getDrvdata, r => r = s.drvdata
  | .removal, _ => s.bound = true
  | _, _ => True

structure Device where
  world : World
  held : Held

/-- What an operation does. The structure in `world` is as `agx_rtbuddy_probe` leaves it
from the start, since nobody uses it before. -/
def Device.step (s : Device) : (op : POp) → PRes op → Device → Prop
  | .own o, r, t => s.held.allows o r ∧ t = { s with held := s.held.after o r }
  | .inner op, r, t => s.world.allows op r ∧ t = { s with world := s.world.after op r }

/-- `AGX_MBOX_REGION_SIZE`. -/
def mboxRegionSize : ℕ := 0x8840

/-- The result of `agx_rtbuddy_probe`. -/
def rtbuddyProbe : Prog ℤ := return 0

/-- The label `err_power`. -/
def errPower (ret : ℤ) : Prog ℤ := do
  ask .pmRuntimePut
  return ret

/-- `agx_probe` from the start of the driver on. -/
def probeRtbuddy : Prog ℤ := do
  ask .displayBrokerInit
  let ret ← rtbuddyProbe
  if ret ≠ 0 then errPower ret
  else do
    let ret ← boot.lift
    (mark (.booted ret)).lift
    if ret ≠ 0 then do
      remove.lift
      (mark .removed).lift
      errPower ret
    else do
      ask .debugfsInit
      ask .setDrvdata
      return 0

/-- `agx_probe` from the power on. -/
def probePower : Prog ℤ := do
  let ret ← ask .pmRuntimeEnable
  if ret ≠ 0 then return ret
  else do
    let ret ← ask .pmRuntimeGet
    if ret ≠ 0 then return ret else probeRtbuddy

def agxProbe : Prog ℤ := do
  let agx ← ask .devmKzalloc
  if !agx then return Status.enomem
  else do
    let base ← ask .ioremapResource
    match base with
    | .error e => return e.val
    | .ok size =>
      if size < mboxRegionSize then return Status.einval
      else do
        let irq ← ask .getIrqByname
        if irq < 0 then return irq else probePower

def agxTeardown : Prog Unit := do
  let agx ← ask .getDrvdata
  if !agx then ask .oops
  else do
    ask .debugfsRemove
    remove.lift
    (mark .removed).lift
    ask .pmRuntimePut

/-- The device from its probe until its resources are released. -/
def deviceLifecycle : Prog Unit := do
  let ret ← agxProbe
  ask (.probed ret)
  if ret = 0 then do
    ask .removal
    agxTeardown
    ask .release
  else ask .release

structure Fresh (s : Device) : Prop where
  world : Probed s.world
  display : s.world.rb.display = true
  held : s.held = .nothing

def device : Threads Party POp PRes Device Call where
  init := Fresh
  step := Device.step
  first i := if i = .main then deviceLifecycle else return ()
  program i call := (Rtbuddy.program i call).map Program.lift

/-- The end of `lifecycle`. -/
def removal : Rtbuddy.Prog Unit := do
  remove
  mark .removed

/-- What the driver's threads have left where the device's threads end. A probe that failed
early never started the driver, and without its data the device would not remove it. -/
def remains (i : Party) (q : Rtbuddy.Prog Unit) : Prop :=
  q = .ret () ∨ i = .main ∧ (q = lifecycle ∨ q = removal)

end AgxOpen.Probe
