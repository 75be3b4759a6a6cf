import AgxOpen.Interpretation
import AgxOpen.Rtkit.Session

/-!
# The core over another port

What the core does over a port is what it does over any other one, operation by
operation. Of a load it uses only the endpoint map and the record of buffers,
and the two power levels where it is asked whether it runs.
-/
namespace AgxOpen.Rtkit
open Program

section Carries

variable {Op Op' : Type} {Res : Op → Type} {Res' : Op' → Type}

/-- The functions of the second port carry out those of the first one. -/
structure Carries (φ : (op : Op) → Program Op' Res' (Res op)) (k : Port Op Res) (k' : Port Op' Res') :
    Prop where
  load : k.load.interp φ = k'.load
  store : ∀ u, (k.store u).interp φ = k'.store u
  send : ∀ endpoint message, (k.send endpoint message).interp φ = k'.send endpoint message
  buffer : k'.buffer = k.buffer.map fun buffer endpoint size iova =>
    (buffer endpoint size iova).interp φ
  app : k'.app = k.app.map fun app endpoint message => (app endpoint message).interp φ
  crashed : k'.crashed = k.crashed.map fun crashed => crashed.interp φ

variable {φ : (op : Op) → Program Op' Res' (Res op)} {k : Port Op Res} {k' : Port Op' Res'}
  {endpoint : U32} {message : U64} (hk : Carries φ k k')
include hk

theorem Carries.fail (error : ℤ) : (Rtkit.fail k error).interp φ = Rtkit.fail k' error := hk.store _

theorem Carries.sendOrFail : (Rtkit.send k endpoint message).interp φ =
    Rtkit.send k' endpoint message := by
  rw [Rtkit.send, Rtkit.send, interp_bind, hk.send]
  congr 1
  funext ret
  rw [interp_ite, interp_bind, hk.fail]
  rfl

theorem Carries.mgmtSend (type : U32) (payload : U64) :
    (Rtkit.mgmtSend k type payload).interp φ = Rtkit.mgmtSend k' type payload := hk.sendOrFail

theorem Carries.noteUnknown : (Rtkit.noteUnknown k message).interp φ =
    Rtkit.noteUnknown k' message := by
  rw [Rtkit.noteUnknown, Rtkit.noteUnknown, interp_bind, hk.store]
  congr 1
  funext _
  exact hk.store _

theorem Carries.hasEndpoint : (Rtkit.hasEndpoint k endpoint).interp φ =
    Rtkit.hasEndpoint k' endpoint := by
  rw [Rtkit.hasEndpoint, Rtkit.hasEndpoint, interp_ite, interp_bind, hk.load]
  rfl

theorem Carries.running : (Rtkit.running k).interp φ = Rtkit.running k' := by
  rw [Rtkit.running, Rtkit.running, interp_bind, hk.load]
  congr 1
  funext s
  rw [interp_ite, interp_bind, hk.load]
  rfl

theorem Carries.startEndpoint : (Rtkit.startEndpoint k endpoint).interp φ =
    Rtkit.startEndpoint k' endpoint := by
  rw [Rtkit.startEndpoint, Rtkit.startEndpoint, interp_ite, interp_bind, hk.hasEndpoint]
  congr 2
  funext known
  rw [interp_ite, interp_bind, mayStart, interp_ite, hk.running]
  congr 2
  funext up
  rw [interp_ite, hk.mgmtSend]
  rfl

theorem Carries.startSystem : (Rtkit.startSystem k endpoint).interp φ =
    Rtkit.startSystem k' endpoint := by
  rw [Rtkit.startSystem, Rtkit.startSystem, interp_bind, hk.hasEndpoint]
  congr 1
  funext known
  rw [interp_ite, interp_ite, interp_bind, interp_bind, hk.startEndpoint, hk.store]
  rfl

theorem Carries.rxHello : (Rtkit.rxHello k message).interp φ = Rtkit.rxHello k' message := by
  rw [Rtkit.rxHello, Rtkit.rxHello, interp_ite, hk.fail, interp_bind, hk.store]
  congr 2
  funext _
  rw [interp_bind, hk.mgmtSend]
  congr 1
  funext ret
  rw [interp_ite, hk.store]
  rfl

theorem Carries.rxEpmap : (Rtkit.rxEpmap k message).interp φ = Rtkit.rxEpmap k' message := by
  rw [Rtkit.rxEpmap, Rtkit.rxEpmap, interp_bind, hk.store]
  congr 1
  funext _
  rw [interp_bind, hk.mgmtSend]
  congr 1
  funext ret
  rw [interp_ite, interp_ite, interp_bind, interp_forUntil]
  simp only [hk.startSystem]
  congr 3
  funext all
  rw [interp_ite, hk.store]
  rfl

theorem Carries.rxMgmt : (Rtkit.rxMgmt k message).interp φ = Rtkit.rxMgmt k' message := by
  simp only [Rtkit.rxMgmt, interp_ite, interp_bind, hk.rxHello, hk.rxEpmap, hk.store,
    hk.noteUnknown]

theorem Carries.getBuffer : (Rtkit.getBuffer k endpoint message).interp φ =
    Rtkit.getBuffer k' endpoint message := by
  unfold Rtkit.getBuffer
  rw [hk.buffer]
  cases k.buffer with
  | none => exact hk.fail _
  | some buffer =>
    simp only [Option.map_some]
    rw [interp_ite, hk.fail, interp_bind]
    congr 2
    funext r
    obtain ⟨ret,iova⟩ := r
    simp only [interp_ite, interp_bind, hk.fail, hk.store, hk.sendOrFail]
    rfl

theorem Carries.rxCrashlog : (Rtkit.rxCrashlog k message).interp φ = Rtkit.rxCrashlog k' message := by
  unfold Rtkit.rxCrashlog
  rw [interp_ite, hk.noteUnknown, interp_bind, hk.load]
  congr 2
  funext s
  rw [interp_ite, hk.getBuffer, interp_bind, hk.store, hk.crashed]
  cases k.crashed <;> rfl

theorem Carries.rxSyslog : (Rtkit.rxSyslog k message).interp φ = Rtkit.rxSyslog k' message := by
  simp only [Rtkit.rxSyslog, interp_ite, interp_bind, hk.getBuffer, hk.sendOrFail, hk.noteUnknown]
  rfl

theorem Carries.rxIoreport : (Rtkit.rxIoreport k message).interp φ = Rtkit.rxIoreport k' message := by
  simp only [Rtkit.rxIoreport, interp_ite, interp_bind, hk.getBuffer, hk.sendOrFail, hk.noteUnknown]
  rfl

theorem Carries.rxOslog : (Rtkit.rxOslog k message).interp φ = Rtkit.rxOslog k' message := by
  simp only [Rtkit.rxOslog, interp_ite, hk.getBuffer, hk.noteUnknown]

theorem Carries.dispatchApp : (Rtkit.dispatchApp k endpoint message).interp φ =
    Rtkit.dispatchApp k' endpoint message := by
  unfold Rtkit.dispatchApp
  rw [hk.app]
  cases k.app with
  | none => exact hk.noteUnknown
  | some app => simp only [Option.map_some, interp_ite, hk.noteUnknown]

theorem Carries.countStray : (Rtkit.countStray k endpoint).interp φ =
    Rtkit.countStray k' endpoint := by
  rw [Rtkit.countStray, Rtkit.countStray, interp_bind, hk.hasEndpoint]
  congr 1
  funext known
  rw [interp_ite, hk.store]
  rfl

/-- Receiving a message over one port carries out receiving it over the other. -/
theorem Carries.rx (endpoint : U32) (message : U64) : (Rtkit.rx k endpoint message).interp φ =
    Rtkit.rx k' endpoint message := by
  simp only [rx_eq, dispatch, interp_bind, interp_ite, hk.store, hk.countStray, hk.rxMgmt,
    hk.rxCrashlog, hk.rxSyslog, hk.rxIoreport, hk.rxOslog, hk.dispatchApp]

end Carries

section Looks

variable {Op : Type} {Res : Op → Type} {E : (op : Op) → Res op → Res op → Prop}
  {A : Rtkit → Rtkit → Prop} {k : Port Op Res} {endpoint : U32} {message : U64}

/-- Behind a port like this a program cannot tell apart what `A` relates. -/
structure BlindPort (E : (op : Op) → Res op → Res op → Prop) (A : Rtkit → Rtkit → Prop)
    (k : Port Op Res) : Prop where
  load : ∀ {α : Type} {f : Rtkit → Program Op Res α}, (∀ s t, A s t → f s = f t) →
    (∀ s, Blind E (f s)) → Blind E (k.load >>= f)
  store : ∀ u, Blind E (k.store u)
  send : ∀ endpoint message, Blind E (k.send endpoint message)
  buffer : ∀ buffer, k.buffer = some buffer → ∀ endpoint size iova, Blind E (buffer endpoint size iova)
  app : ∀ app, k.app = some app → ∀ endpoint message, Blind E (app endpoint message)
  crashed : ∀ crashed, k.crashed = some crashed → Blind E crashed

structure SameMaps (s t : Rtkit) : Prop where
  endpoints : s.endpoints = t.endpoints
  buffers : s.buffers = t.buffers

structure SameLevels (s t : Rtkit) : Prop where
  iopPower : s.iopPower = t.iopPower
  apPower : s.apPower = t.apPower

variable (hk : BlindPort E A k)
include hk

theorem BlindPort.fail (error : ℤ) : Blind E (Rtkit.fail k error) := hk.store _

theorem BlindPort.sendOrFail : Blind E (Rtkit.send k endpoint message) := by
  refine (hk.send endpoint message).bind fun ret => ?_
  exact Blind.ite ((hk.fail ret).bind fun _ => trivial) trivial

theorem BlindPort.mgmtSend (type : U32) (payload : U64) : Blind E (Rtkit.mgmtSend k type payload) :=
  hk.sendOrFail

theorem BlindPort.noteUnknown : Blind E (Rtkit.noteUnknown k message) :=
  (hk.store _).bind fun _ => hk.store _

theorem BlindPort.setIopPower (state : U32) : Blind E (Rtkit.setIopPower k state) :=
  (hk.store _).bind fun _ => hk.mgmtSend _ _

theorem BlindPort.setApPower (state : U32) : Blind E (Rtkit.setApPower k state) :=
  (hk.store _).bind fun _ => hk.mgmtSend _ _

/-- Whether the coprocessor runs depends on the two power levels alone. -/
theorem BlindPort.running (hlevels : ∀ s t, A s t → SameLevels s t) : Blind E (Rtkit.running k) := by
  refine hk.load (fun s t he => ?_) fun s => Blind.ite ?_ trivial
  · rw [(hlevels s t he).iopPower]
  · refine hk.load (fun s t he => ?_) fun _ => trivial
    rw [(hlevels s t he).apPower]

theorem BlindPort.getBuffer : Blind E (Rtkit.getBuffer k endpoint message) := by
  unfold Rtkit.getBuffer
  cases hb : k.buffer with
  | none => exact hk.fail _
  | some buffer =>
    refine Blind.ite (hk.fail _) ((hk.buffer buffer hb _ _ _).bind fun r => ?_)
    refine Blind.ite (hk.fail _) ((hk.store _).bind fun _ => ?_)
    exact hk.sendOrFail.bind fun _ => trivial

theorem BlindPort.rxHello : Blind E (Rtkit.rxHello k message) := by
  refine Blind.ite (hk.fail _) ((hk.store _).bind fun _ => ?_)
  exact (hk.mgmtSend _ _).bind fun _ => Blind.ite trivial (hk.store _)

theorem BlindPort.echo : Blind E (Rtkit.send k endpoint message >>= fun _ => return ()) :=
  hk.sendOrFail.bind fun _ => trivial

theorem BlindPort.rxSyslog : Blind E (Rtkit.rxSyslog k message) :=
  Blind.ite hk.getBuffer (Blind.ite trivial (Blind.ite hk.echo hk.noteUnknown))

theorem BlindPort.rxIoreport : Blind E (Rtkit.rxIoreport k message) :=
  Blind.ite hk.getBuffer (Blind.ite hk.echo hk.noteUnknown)

theorem BlindPort.rxOslog : Blind E (Rtkit.rxOslog k message) :=
  Blind.ite hk.getBuffer hk.noteUnknown

theorem BlindPort.dispatchApp : Blind E (Rtkit.dispatchApp k endpoint message) := by
  unfold Rtkit.dispatchApp
  cases ha : k.app with
  | none => exact hk.noteUnknown
  | some app => exact Blind.ite (hk.app app ha _ _) hk.noteUnknown

variable (hmaps : ∀ s t, A s t → SameMaps s t)
include hmaps

theorem BlindPort.hasEndpoint : Blind E (Rtkit.hasEndpoint k endpoint) := by
  refine Blind.ite trivial (hk.load (fun s t he => ?_) fun _ => trivial)
  rw [announced, announced, (hmaps s t he).endpoints]

theorem BlindPort.countStray : Blind E (Rtkit.countStray k endpoint) :=
  (hk.hasEndpoint hmaps).bind fun _ => Blind.ite (hk.store _) trivial

theorem BlindPort.startEndpoint (hup : Blind E (mayStart k endpoint)) :
    Blind E (Rtkit.startEndpoint k endpoint) := by
  refine Blind.ite trivial ((hk.hasEndpoint hmaps).bind fun known => ?_)
  exact Blind.ite trivial (hup.bind fun up => Blind.ite trivial (hk.mgmtSend _ _))

omit hk hmaps in
theorem lt_of_isSystem {endpoint : U32} (he : isSystem endpoint = true) : endpoint < epAppStart := by
  simp only [isSystem, Bool.or_eq_true, beq_iff_eq] at he
  obtain (((rfl | rfl) | rfl) | rfl) | rfl := he <;> decide

/-- A system endpoint is started whatever the power levels are. -/
theorem BlindPort.startSystem : Blind E (Rtkit.startSystem k endpoint) := by
  refine (hk.hasEndpoint hmaps).bind fun known => Blind.ite trivial ?_
  split_ifs with hsys
  · refine (hk.startEndpoint hmaps ?_).bind fun _ => trivial
    rw [mayStart, if_neg (BitVec.not_le.mpr (lt_of_isSystem hsys))]
    trivial
  · exact (hk.store _).bind fun _ => trivial

theorem BlindPort.rxEpmap : Blind E (Rtkit.rxEpmap k message) := by
  refine (hk.store _).bind fun _ => (hk.mgmtSend _ _).bind fun _ => ?_
  refine Blind.ite trivial (Blind.ite trivial ?_)
  refine (Blind.forUntil fun _ => hk.startSystem hmaps).bind fun _ => ?_
  exact Blind.ite (hk.store _) trivial

theorem BlindPort.rxMgmt : Blind E (Rtkit.rxMgmt k message) := by
  refine Blind.ite hk.rxHello (Blind.ite (hk.rxEpmap hmaps) ?_)
  refine Blind.ite ((hk.store _).bind fun _ => hk.store _) ?_
  exact Blind.ite ((hk.store _).bind fun _ => hk.store _) hk.noteUnknown

theorem BlindPort.rxCrashlog : Blind E (Rtkit.rxCrashlog k message) := by
  refine Blind.ite hk.noteUnknown (hk.load (fun s t he => ?_) fun s => ?_)
  · rw [(hmaps s t he).buffers]
  · refine Blind.ite hk.getBuffer ((hk.store _).bind fun _ => ?_)
    cases hc : k.crashed with
    | none => trivial
    | some crashed => exact hk.crashed crashed hc

/-- Receiving a message uses nothing of a load but the two maps. -/
theorem BlindPort.rx (endpoint : U32) (message : U64) : Blind E (Rtkit.rx k endpoint message) := by
  rw [rx_eq]
  refine ((hk.store _).bind fun _ => hk.countStray hmaps).bind fun _ => ?_
  refine Blind.ite (hk.rxMgmt hmaps) (Blind.ite (hk.rxCrashlog hmaps) (Blind.ite hk.rxSyslog ?_))
  exact Blind.ite hk.rxIoreport (Blind.ite hk.rxOslog hk.dispatchApp)

end Looks

section Alike

variable {has : Callbacks}

/-- Answers that a message is handled alike behind. Of a load only the two maps count. -/
def Alike : (op : Op) → Res op → Res op → Prop
  | .load, s, t => SameMaps s t
  | _, r, r' => r = r'

theorem blind_core : BlindPort Alike SameMaps (corePort has) where
  load he hf := blind_uses (o := Op.load) he hf
  store _ := blind_request fun _ _ he => he
  send _ _ := blind_request fun _ _ he => he
  buffer buffer hb endpoint size iova := by
    rw [← Option.some.inj (Option.ite_none_right_eq_some.mp hb).2]
    exact blind_request fun _ _ he => he
  app app ha endpoint message := by
    rw [← Option.some.inj (Option.ite_none_right_eq_some.mp ha).2]
    exact blind_request fun _ _ he => he
  crashed crashed hc := by
    rw [← Option.some.inj (Option.ite_none_right_eq_some.mp hc).2]
    exact blind_request fun _ _ he => he

theorem blind_rx (endpoint : U32) (message : U64) :
    Blind Alike (rx (corePort has) endpoint message) := blind_core.rx (fun _ _ => id) endpoint message

end Alike

end AgxOpen.Rtkit
