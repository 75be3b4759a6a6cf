import AgxOpen.Rtbuddy.Laws

/-!
# Fields and the log

Each field is what the operations made of it. A field that only one thread
writes is what that thread's own history says.
-/
namespace AgxOpen.Rtbuddy
open Rtkit

variable {s t : World} {op : Op} {r : Res op} {h : Hist} {j : Party} {log : Log Party Op Res}
  {guard : World → Log Party Op Res → Party → Op → Prop}

/-- Runs of the driver, state by state. -/
abbrev Ran (guard : World → Log Party Op Res → Party → Op → Prop) := driver.Trace guard

abbrev May (guard : World → Log Party Op Res → Party → Op → Prop) := driver.May guard law

/-- The core as the updates leave it. -/
def updates (k : Rtkit) : Ev → Rtkit
  | ⟨.rtkit u,_⟩ => u.apply k
  | _ => k

/-- A field of the core that an update writes or leaves alone. -/
def CoreField {β : Type} (get : Rtkit → β) (g : Update → Option β) : Prop :=
  ∀ k u, get (Update.apply k u) = (g u).getD (get k)

/-- A field of the driver that a store writes or leaves alone, and nothing else touches. -/
structure OwnField {β : Type} (get : Rtbuddy → β) (g : Store → Option β) : Prop where
  store (s : Rtbuddy) (f : Store) : get (f.apply s) = (g f).getD (get s)
  rtkit (s : Rtbuddy) (k : Rtkit) : get { s with rtkit := k } = get s
  shmem (s : Rtbuddy) (slot : Fin 4) (buffer : Shmem) : get (s.setShmem slot buffer) = get s

theorem after_rtkit : (s.after op r).rb.rtkit = updates s.rb.rtkit ⟨op,r⟩ := by
  cases op with
  | store f => cases f <;> rfl
  | _ => rfl

theorem CoreField.updates {β : Type} {get : Rtkit → β} {g : Update → Option β}
    (hg : CoreField get g) (k : Rtkit) (a : Ev) :
    get (updates k a) = (coreStore g a).getD (get k) := by
  obtain ⟨op,r⟩ := a
  cases op with
  | rtkit u => exact hg k u
  | _ => rfl

theorem CoreField.after {β : Type} {get : Rtkit → β} {g : Update → Option β}
    (hg : CoreField get g) (s : World) (op : Op) (r : Res op) :
    get (s.after op r).rb.rtkit = (coreStore g ⟨op,r⟩).getD (get s.rb.rtkit) := by
  rw [after_rtkit, hg.updates]

theorem OwnField.after {β : Type} {get : Rtbuddy → β} {g : Store → Option β}
    (hg : OwnField get g) (s : World) (op : Op) (r : Res op) :
    get (s.after op r).rb = (ownStore g ⟨op,r⟩).getD (get s.rb) := by
  cases op with
  | rtkit u => exact hg.rtkit ..
  | store f => exact hg.store ..
  | dmaAlloc slot size => exact hg.shmem ..
  | _ => rfl

theorem after_cpuCtrl : (s.after op r).cpuCtrl = (ctrlWrite ⟨op,r⟩).getD s.cpuCtrl := by
  cases op <;> rfl

theorem after_irqBusy : (s.after op r).irqBusy = (handlerMark ⟨op,r⟩).getD s.irqBusy := by
  cases op <;> rfl

theorem after_irqRegistered :
    (s.after op r).irqRegistered = (armsIrq ⟨op,r⟩).getD s.irqRegistered := by
  cases op with
  | requestIrq =>
    by_cases hr : r = (0 : ℤ)
    · simp [World.after, armsIrq, hr]
    · simp [World.after, armsIrq, hr]
  | _ => rfl

theorem after_endpoints :
    (s.after op r).rb.rtkit.endpoints = orsEndpoints s.rb.rtkit.endpoints ⟨op,r⟩ := by
  rw [after_rtkit]
  cases op with
  | rtkit u => cases u <;> rfl
  | _ => rfl

theorem after_buffers :
    (s.after op r).rb.rtkit.buffers = orsBuffers s.rb.rtkit.buffers ⟨op,r⟩ := by
  rw [after_rtkit]
  cases op with
  | rtkit u => cases u <;> rfl
  | _ => rfl

theorem after_shmem : (s.after op r).rb.shmem = setsShmem s.rb.shmem ⟨op,r⟩ := by
  cases op with
  | store f => cases f <;> rfl
  | _ => rfl

/-- The operations that are the boot thread's alone. -/
def mains : Op → Bool
  | .writeCtrl _ | .requestIrq | .freeIrq | .dmaFree _ | .notify .. => true
  | .store (.irqRequested _) | .store (.cpuRunning _) | .store (.firmwareUp _) => true
  | .store (.doorbellUp _) | .store (.power _) | .store (.clearShmem _) => true
  | _ => false

/-- The operations that are the interrupt thread's alone. -/
def irqs : Op → Bool
  | .irqEnter | .irqExit | .dmaAlloc .. | .store (.shmemSize ..) => true
  | .rtkit (.orEndpoints ..) | .rtkit (.orBuffers _) => true
  | _ => false

theorem mains_other (hj : j ≠ .main) (hl : law j h op) : mains op = false := by
  cases j with
  | main => contradiction
  | irq =>
    obtain rfl | ⟨-,hs⟩ := hl
    · rfl
    · cases op with
      | store f => cases f <;> first | rfl | exact hs.elim
      | _ => first | rfl | exact hs.elim
  | gpu | firmware => cases op <;> first | rfl | exact hl.elim

theorem irqs_other (hj : j ≠ .irq) (hl : law j h op) : irqs op = false := by
  cases j with
  | irq => contradiction
  | main =>
    cases op with
    | rtkit u => cases u <;> first | rfl | exact hl.elim
    | store f => cases f <;> first | rfl | exact hl.elim
    | _ => first | rfl | exact hl.elim
  | gpu | firmware => cases op <;> first | rfl | exact hl.elim

theorem eq_main (hl : law j h op) (hop : mains op = true) : j = .main := by
  by_contra hj
  rw [mains_other hj hl] at hop
  contradiction

theorem eq_irq (hl : law j h op) (hop : irqs op = true) : j = .irq := by
  by_contra hj
  rw [irqs_other hj hl] at hop
  contradiction

section Foreign

variable (hop : mains op = false)
include hop

theorem ownStore_foreign {β : Type} {g : Store → Option β}
    (hg : ∀ f, mains (.store f) = false → g f = none) : ownStore g ⟨op,r⟩ = none := by
  cases op with
  | store f => exact hg f hop
  | _ => rfl

theorem ctrlWrite_foreign : ctrlWrite ⟨op,r⟩ = none := by
  cases op <;> first | rfl | contradiction

theorem armsIrq_foreign : armsIrq ⟨op,r⟩ = none := by
  cases op <;> first | rfl | contradiction

end Foreign

section Foreign

variable (hop : irqs op = false)
include hop

theorem handlerMark_foreign : handlerMark ⟨op,r⟩ = none := by
  cases op <;> first | rfl | contradiction

theorem orsEndpoints_foreign (e : ℕ → U32) : orsEndpoints e ⟨op,r⟩ = e := by
  cases op with
  | rtkit u => cases u <;> first | rfl | contradiction
  | _ => rfl

theorem orsBuffers_foreign (b : U32) : orsBuffers b ⟨op,r⟩ = b := by
  cases op with
  | rtkit u => cases u <;> first | rfl | contradiction
  | _ => rfl

theorem setsShmem_foreign (hm : mains op = false) (f : Fin 4 → Shmem) : setsShmem f ⟨op,r⟩ = f := by
  cases op with
  | dmaAlloc => contradiction
  | store f => cases f <;> first | rfl | contradiction
  | _ => rfl

end Foreign

section Fields

variable (ht : Ran guard s log) (hl : Lawful law log)
include ht hl

/-- A field that only operations of the boot thread set. -/
theorem main_field {β : Type} (get : World → β) (g : Ev → Option β)
    (hstep : ∀ (s : World) (op : Op) (r : Res op), get (s.after op r) = (g ⟨op,r⟩).getD (get s))
    (hg : ∀ (op : Op) (r : Res op), mains op = false → g ⟨op,r⟩ = none) :
    ∃ s₀, Probed s₀ ∧ get s = latest g (get s₀) (own .main log) :=
  ht.latest_own .main hl get g (fun s op r _ hs => hs.2 ▸ hstep s op r)
    fun _ hj _ op r hlaw => hg op r (mains_other hj hlaw)

/-- A field that only stores of the boot thread write. -/
theorem main_own {β : Type} {get : Rtbuddy → β} {g : Store → Option β} (hg : OwnField get g)
    (hmain : ∀ f, mains (.store f) = false → g f = none) {init : β}
    (hinit : ∀ display, get (.probe display) = init) :
    get s.rb = latest (ownStore g) init (own .main log) := by
  obtain ⟨s₀,h₀,he⟩ := main_field ht hl (fun s => get s.rb) (ownStore g) hg.after
    fun _ _ hop => ownStore_foreign hop hmain
  rwa [h₀.rb, hinit] at he

theorem cpuRunning_eq : s.rb.cpuRunning = runFlag (own .main log) := by
  refine main_own ht hl (?_ : OwnField (fun s => s.cpuRunning) _) (fun f hf => ?_) fun _ => rfl
  · exact ⟨fun _ f => by cases f <;> rfl,fun _ _ => rfl,fun _ _ _ => rfl⟩
  · cases f <;> first | rfl | contradiction

theorem irqRequested_eq : s.rb.irqRequested = irqFlag (own .main log) := by
  refine main_own ht hl (?_ : OwnField (fun s => s.irqRequested) _) (fun f hf => ?_) fun _ => rfl
  · exact ⟨fun _ f => by cases f <;> rfl,fun _ _ => rfl,fun _ _ _ => rfl⟩
  · cases f <;> first | rfl | contradiction

theorem irqRegistered_eq : s.irqRegistered = irqArmed (own .main log) := by
  obtain ⟨s₀,h₀,he⟩ := main_field ht hl (fun s => s.irqRegistered) armsIrq
    (fun _ _ _ => after_irqRegistered) fun _ _ => armsIrq_foreign
  rwa [h₀.irqRegistered] at he

theorem irqBusy_eq : s.irqBusy = inside (own .irq log) := by
  obtain ⟨s₀,h₀,he⟩ := ht.latest_own .irq hl (fun s => s.irqBusy) _
    (fun s op r t hs => hs.2 ▸ after_irqBusy)
    fun _ hj _ _ _ hlaw => handlerMark_foreign (irqs_other hj hlaw)
  rwa [h₀.irqBusy] at he

theorem endpoints_eq : s.rb.rtkit.endpoints = endpointsOf (own .irq log) := by
  obtain ⟨s₀,h₀,he⟩ := ht.replay_own .irq hl (fun s => s.rb.rtkit.endpoints) _
    (fun s op r t hs => hs.2 ▸ after_endpoints)
    fun _ hj _ _ _ b hlaw => orsEndpoints_foreign (irqs_other hj hlaw) b
  rwa [h₀.rb] at he

theorem buffers_eq : s.rb.rtkit.buffers = buffersOf (own .irq log) := by
  obtain ⟨s₀,h₀,he⟩ := ht.replay_own .irq hl (fun s => s.rb.rtkit.buffers) _
    (fun s op r t hs => hs.2 ▸ after_buffers)
    fun _ hj _ _ _ b hlaw => orsBuffers_foreign (irqs_other hj hlaw) b
  rwa [h₀.rb] at he

theorem cpuCtrl_eq {ctrl : U32} (hc : (own .main log).findSome? ctrlWrite = some ctrl) :
    s.cpuCtrl = ctrl := by
  obtain ⟨s₀,-,he⟩ := main_field ht hl (fun s => s.cpuCtrl) ctrlWrite
    (fun _ _ _ => after_cpuCtrl) fun _ _ => ctrlWrite_foreign
  rw [he, latest, hc, Option.getD_some]

end Fields

/-- The handler runs only while the interrupt is registered. -/
theorem irqBusy_registered (ht : Ran guard s log) (hb : s.irqBusy = true) :
    s.irqRegistered = true := by
  induction ht with
  | init h₀ =>
    rw [h₀.irqBusy] at hb
    contradiction
  | @act s log i op r t _ _ hs ih =>
    obtain ⟨ha,rfl⟩ := hs
    cases op
    case irqEnter => exact ha.1
    case freeIrq =>
      rw [show s.irqBusy = false from ha] at ih
      simp [World.after, show s.irqBusy = false from ha] at hb
    case irqExit => simp [World.after] at hb
    case requestIrq =>
      simp [World.after, ih hb]
    all_goals exact ih hb

theorem Released.cons {a : Ev} (hr : Released h) (ha : mainLaw h a.op) : Released (a :: h) := by
  obtain ⟨⟨ret,hb⟩,hi,ctrl,hc,hc0⟩ := hr
  obtain ⟨op,r⟩ := a
  refine ⟨⟨ret,List.mem_cons_of_mem _ hb⟩,?_,?_⟩
  · cases op with
    | requestIrq => exact absurd hb (ha.2 ret)
    | freeIrq => simp [irqArmed, armsIrq]
    | _ => simpa [irqArmed, armsIrq] using hi
  · cases op with
    | writeCtrl c =>
      refine ⟨c,by simp [List.findSome?_cons, ctrlWrite],?_⟩
      by_contra hne
      exact ha.2 hne ret hb
    | _ => exact ⟨ctrl,by simpa [List.findSome?_cons, ctrlWrite] using hc,hc0⟩

theorem Released.append {l : Hist} (hr : Released h) (ha : Along mainLaw (l ++ h)) :
    Released (l ++ h) := by
  induction l with
  | nil => exact hr
  | cons a l ih => exact (ih ha.2).cons ha.1

/-- Remove has cleared no slot. -/
def Uncleared (h : Hist) : Prop := ∀ slot, (⟨.store (.clearShmem slot),()⟩ : Ev) ∉ h

/-- No slot is cleared before remove is past the interrupt. -/
theorem uncleared_of (ha : Along mainLaw h) (hn : ¬ Released h) : Uncleared h := by
  intro slot hm
  obtain ⟨later,earlier,rfl⟩ := List.append_of_mem hm
  exact hn ((ha.of_append.1.1.cons ha.of_append.1).append ha)

/-- Until remove clears the slots only the interrupt thread writes them. -/
theorem replay_setsShmem (hl : Lawful law log) (hn : Uncleared (own .main log))
    (init : Fin 4 → Shmem) :
    replay setsShmem init (log.map Prod.snd) = replay setsShmem init (own .irq log) := by
  induction log with
  | nil => rfl
  | cons e log ih =>
    obtain ⟨j,op,r⟩ := e
    cases j with
    | irq =>
      rw [own_cons_ne (by simp)] at hn
      rw [List.map_cons, replay_cons, ih hl.2 hn, own_cons_self, replay_cons]
    | main =>
      rw [own_cons_self] at hn
      have hn' : Uncleared (own .main log) := fun slot hm => hn slot (List.mem_cons_of_mem _ hm)
      rw [List.map_cons, replay_cons, ih hl.2 hn', own_cons_ne (by simp)]
      cases op with
      | dmaAlloc slot size => exact (hl.1 : False).elim
      | store f =>
        cases f with
        | shmemSize slot size => exact (hl.1 : False).elim
        | clearShmem slot => exact absurd List.mem_cons_self (hn slot)
        | _ => rfl
      | _ => rfl
    | _ =>
      rw [own_cons_ne (by simp)] at hn
      rw [List.map_cons, replay_cons, ih hl.2 hn, own_cons_ne (by simp)]
      exact setsShmem_foreign (irqs_other (by simp) hl.1) (mains_other (by simp) hl.1) _

section Shmem

variable (ht : Ran guard s log) (hl : Lawful law log)
include ht hl

theorem Released.irqRegistered (hr : Released (own .main log)) : s.irqRegistered = false :=
  (irqRegistered_eq ht hl).trans hr.irq

theorem Released.irqBusy (hr : Released (own .main log)) : s.irqBusy = false := by
  have hreg := hr.irqRegistered ht hl
  by_contra hb
  rw [irqBusy_registered ht (by simpa using hb)] at hreg
  contradiction

theorem shmem_uncleared (hn : Uncleared (own .main log)) : s.rb.shmem = shmemOf (own .irq log) := by
  obtain ⟨s₀,h₀,he⟩ := ht.replay (fun s => s.rb.shmem) setsShmem
    fun s op r t hs => hs.2 ▸ after_shmem
  rw [he, replay_setsShmem hl hn, h₀.rb]
  rfl

theorem shmem_eq (hn : ¬ Released (own .main log)) : s.rb.shmem = shmemOf (own .irq log) :=
  shmem_uncleared ht hl (uncleared_of (hl.along .main) hn)

/-- Inside the handler remove is not past the interrupt. -/
theorem not_released (hi : inside (own .irq log) = true) : ¬ Released (own .main log) := by
  intro hr
  rw [← irqBusy_eq ht hl, hr.irqBusy ht hl] at hi
  contradiction

end Shmem

theorem May.irq_load {x : Rtbuddy} (hm : May guard .irq h .load x) (hi : inside h = true) :
    x.rtkit.endpoints = endpointsOf h ∧ x.rtkit.buffers = buffersOf h ∧ x.shmem = shmemOf h := by
  obtain ⟨s,log,t,ht,hl,rfl,-,hr,-⟩ := hm
  obtain rfl : x = s.rb := hr
  exact ⟨endpoints_eq ht hl,buffers_eq ht hl,shmem_eq ht hl (not_released ht hl hi)⟩

theorem May.main_load {x : Rtbuddy} (hm : May guard .main h .load x) :
    x.cpuRunning = runFlag h ∧ x.irqRequested = irqFlag h := by
  obtain ⟨s,log,t,ht,hl,rfl,-,hr,-⟩ := hm
  obtain rfl : x = s.rb := hr
  exact ⟨cpuRunning_eq ht hl,irqRequested_eq ht hl⟩

end AgxOpen.Rtbuddy
