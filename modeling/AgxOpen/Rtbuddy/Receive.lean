import AgxOpen.Rtbuddy.BootOrder
import AgxOpen.Rtkit.Kinds

/-!
# What the interrupt thread receives

A tally of the interrupt thread's history says which messages were taken from
the outbox, which were given to the core and how often each counter was raised.
-/
namespace AgxOpen.Rtbuddy
open Rtkit

variable {guard : World → RunLog → Party → Op → Prop} {h h' : Hist} {s₀ s t : World} {log : RunLog}

/-- A pair of words as the core gets it: the low byte of the second and the first. -/
def decoded (m : U64 × U64) : U32 × U64 := ((m.2.setWidth 8).setWidth 32,m.1)

theorem decoded_eq (msg0 msg1 : U64) : decoded (msg0,msg1) = (unpackEndpoint msg1,msg0) := by
  refine Prod.ext (BitVec.eq_of_toNat_eq ?_) rfl
  have hmask : msg1EndpointMask.setWidth 64 = BitFields.mask 64 8 := rfl
  simp only [decoded, unpackEndpoint, hmask, BitVec.toNat_setWidth,
    BitFields.toNat_and_mask msg1 (n := 8) (by decide)]

theorem decoded_byte (m : U64 × U64) : (decoded m).1 &&& 0xff#32 = (decoded m).1 := by
  obtain ⟨msg0,msg1⟩ := m
  rw [decoded_eq]
  exact unpackEndpoint_byte msg1

structure Tally where
  /-- The control word read last had EMPTY set. -/
  empty : Bool
  /-- The word read last from `RECV0`. -/
  msg0 : U64
  /-- Messages taken by this invocation. -/
  round : ℕ
  /-- The messages taken, oldest first. -/
  taken : List (U64 × U64)
  /-- The messages given to `agx_rtkit_rx`, oldest first. -/
  given : List (U32 × U64)
  /-- What was added to `drain_count`, to `rx_count` and to the two counters of
  application messages. -/
  drained : ℕ
  counted : ℕ
  events : ℕ

def tallyStep (t : Tally) : Ev → Tally
  | ⟨.irqEnter,_⟩ => { t with round := 0 }
  | ⟨.readI2a,control⟩ => { t with empty := control &&& controlEmpty != 0#32 }
  | ⟨.recv0,msg0⟩ => { t with msg0 := msg0 }
  | ⟨.recv1,msg1⟩ => { t with round := t.round+1, taken := t.taken ++ [(t.msg0,msg1)] }
  | ⟨.mark (.rx endpoint message),_⟩ => { t with given := t.given ++ [(endpoint,message)] }
  | ⟨.store (.drainCount handled),_⟩ => { t with drained := t.drained+handled }
  | ⟨.rtkit .rxCount,_⟩ => { t with counted := t.counted+1 }
  | ⟨.store .fwEvents,_⟩ => { t with events := t.events+1 }
  | ⟨.store .appUnknown,_⟩ => { t with events := t.events+1 }
  | _ => t

def tally (h : Hist) : Tally := replay tallyStep ⟨false,0#64,0,[],[],0,0,0⟩ h

theorem tally_cons (a : Ev) (h : Hist) : tally (a :: h) = tallyStep (tally h) a := rfl

/-- The message is for the application. -/
def forApp (m : U64 × U64) : Bool := epAppStart ≤ (decoded m).1

/-- Every message taken was given to the core and counted. -/
structure Handed (t : Tally) : Prop where
  given : t.given = t.taken.map decoded
  counted : t.counted = t.taken.length
  events : t.events = t.taken.countP forApp

/-- And `drain_count` has them all. -/
structure Balanced (t : Tally) : Prop extends Handed t where
  drained : t.drained = t.taken.length

/-- The newest act read a control word without EMPTY. -/
def SawMessage (h : Hist) : Prop :=
  ∃ control rest, h = ⟨.readI2a,control⟩ :: rest ∧ control &&& controlEmpty = 0#32

/-- The newest two acts found a message and read its first word. -/
def ReadHead (h : Hist) : Prop := ∃ msg0 rest, h = ⟨.recv0,msg0⟩ :: rest ∧ SawMessage rest

/-- The message is the one taken last, and the only one not given yet. -/
def NextGiven (t : Tally) (m : U32 × U64) : Prop := t.given ++ [m] = t.taken.map decoded

/-- Why an invocation may end. -/
def Finished (t : Tally) : Prop := t.round = drainMax ∨ t.empty = true

def receiveLaw (h : Hist) : Op → Prop
  | .recv0 => SawMessage h
  | .recv1 => ReadHead h ∧ (tally h).round < drainMax ∧ (tally h).given = (tally h).taken.map decoded
  | .mark (.rx endpoint message) => NextGiven (tally h) (endpoint,message)
  | .irqExit => Balanced (tally h) ∧ Finished (tally h)
  | _ => True

/-- Operations that change nothing in the tally and are always allowed. -/
def quiet : Op → Bool
  | .irqEnter | .irqExit | .readI2a | .recv0 | .recv1 | .mark _ => false
  | .store (.drainCount _) | .store .fwEvents | .store .appUnknown | .rtkit .rxCount => false
  | _ => true

theorem tally_quiet {op : Op} {r : Res op} (hop : quiet op = true) :
    tally (⟨op,r⟩ :: h) = tally h := by
  cases op with
  | rtkit u => cases u <;> first | rfl | contradiction
  | store f => cases f <;> first | rfl | contradiction
  | _ => first | rfl | contradiction

theorem law_quiet {op : Op} (hop : quiet op = true) : receiveLaw h op := by
  cases op with
  | recv0 | recv1 | irqExit | mark m => contradiction
  | _ => trivial

abbrev ReceiveObeys (guard : World → RunLog → Party → Op → Prop) {α : Type} (p : Prog α)
    (Q : Hist → α → Prop) (h : Hist) : Prop := Obeys receiveLaw (May guard .irq) p Q h

abbrev Quiet {α : Type} (p : Prog α) : Prop := Program.Only (fun op => quiet op = true) p

theorem quiet_obeys {α : Type} {p : Prog α} (hp : Quiet p) :
    ReceiveObeys guard p (fun h' _ => tally h' = tally h) h :=
  obeys_only hp (fun h' => tally h' = tally h) rfl (fun _ _ hop _ => law_quiet hop)
    fun _ _ _ hop _ hk => (tally_quiet hop).trans hk

theorem quiet_load : Quiet port.load := ⟨rfl,fun _ => trivial⟩

theorem quiet_send (endpoint : U32) (message : U64) : Quiet (port.send endpoint message) :=
  Program.only_request.mpr rfl

theorem quiet_store (u : Update) (hu : u ≠ .rxCount) : Quiet (port.store u) := by
  refine Program.only_request.mpr ?_
  cases u <;> first | rfl | contradiction

theorem quiet_opsBuffer (endpoint : U32) (size iova : U64) : Quiet (opsBuffer endpoint size iova) := by
  unfold opsBuffer
  cases shmemSlot endpoint with
  | none => trivial
  | some slot =>
    refine Program.only_ite.mpr ⟨fun _ => trivial,fun _ => ?_⟩
    refine Program.only_ite.mpr ⟨fun _ => trivial,fun _ => ⟨rfl,fun s => ?_⟩⟩
    refine Program.only_ite.mpr ⟨fun _ => trivial,fun _ => ⟨rfl,fun buffer => ?_⟩⟩
    exact Program.only_ite.mpr ⟨fun _ => trivial,fun _ => ⟨rfl,fun _ => trivial⟩⟩

theorem quiet_dispatch {endpoint : U32} (he : ¬ endpoint ≥ epAppStart) (message : U64) :
    Quiet (dispatch port endpoint message) := by
  refine only_dispatch quiet_load (quiet_send _) ?_ ?_ quiet_store fun hge => absurd hge he
  · rintro _ ⟨⟩ size iova
    exact quiet_opsBuffer endpoint size iova
  · rintro - _ ⟨⟩
    trivial

/-- The core counts each message once and passes on those of the application. -/
theorem receive_rx {endpoint : U32} (message : U64) (he : endpoint &&& 0xff#32 = endpoint) :
    ReceiveObeys guard (rx port endpoint message) (fun h' _ => tally h' =
      { tally h with
        counted := (tally h).counted+1
        events := (tally h).events + if epAppStart ≤ endpoint then 1 else 0 }) h := by
  rw [rx_eq, he]
  refine Obeys.bind (Q := fun h' _ => tally h' = { tally h with counted := (tally h).counted+1 })
    ?_ ?_
  · refine .request trivial fun _ _ => ?_
    exact (quiet_obeys (only_countStray quiet_load (quiet_store _ (by simp)) endpoint)).mono fun _ _ ht => ht
  intro h1 _ h1t
  by_cases hge : epAppStart ≤ endpoint
  · rw [dispatch_app hge, dispatchApp]
    simp only [port, ge_iff_le, hge, if_true, opsApp]
    split_ifs
    · exact ⟨trivial,fun r _ => congrArg (tallyStep · ⟨.store .fwEvents,r⟩) h1t⟩
    · exact ⟨trivial,fun r _ => congrArg (tallyStep · ⟨.store .appUnknown,r⟩) h1t⟩
  · refine (quiet_obeys (quiet_dispatch hge message)).mono fun h2 _ h2t => ?_
    rw [h2t, h1t, if_neg hge]
    rfl

/-- What taking a message does to the tally. -/
def Tally.take (t : Tally) (m : U64 × U64) : Tally :=
  { t with empty := false, msg0 := m.1, round := t.round+1, taken := t.taken ++ [m] }

theorem receive_recv (hg : (tally h).given = (tally h).taken.map decoded)
    (hr : (tally h).round < drainMax) :
    ReceiveObeys guard mailboxRecv (fun h' msg =>
      msg = none ∧ tally h' = { tally h with empty := true } ∨
        ∃ m, msg = some (decoded m) ∧ tally h' = (tally h).take m) h := by
  refine .request trivial fun control _ => ?_
  change ReceiveObeys guard (if _ then _ else _) _ _
  split_ifs with hempty
  · refine .inl ⟨rfl,?_⟩
    rw [tally_cons, tallyStep, hempty]
  · have hsaw : SawMessage (⟨.readI2a,control⟩ :: h) := ⟨control,h,rfl,by simpa using hempty⟩
    refine .request hsaw fun msg0 _ => .request ⟨⟨msg0,_,rfl,hsaw⟩,hr,hg⟩ fun msg1 _ => ?_
    refine .inr ⟨(msg0,msg1),by rw [decoded_eq],?_⟩
    simp only [tally_cons, tallyStep, Tally.take, hempty]

/-- The rest of an invocation that may take `n` more messages. -/
theorem receive_drain (n : ℕ) (hh : Handed (tally h)) (hr : (tally h).round + n = drainMax) :
    ReceiveObeys guard (drain n) (fun h' handled => Handed (tally h') ∧ Finished (tally h') ∧
      (tally h').drained = (tally h).drained ∧
      (tally h').taken.length = (tally h).taken.length + handled) h := by
  induction n generalizing h with
  | zero => exact ⟨hh,.inl hr,rfl,rfl⟩
  | succ n ih =>
    refine (receive_recv hh.given (by omega)).bind ?_
    rintro h1 _ (⟨rfl,h1t⟩ | ⟨m,rfl,h1t⟩)
    · change Handed (tally h1) ∧ Finished (tally h1) ∧ _
      rw [h1t]
      exact ⟨⟨hh.given,hh.counted,hh.events⟩,.inr rfl,rfl,rfl⟩
    have hnext : NextGiven (tally h1) (decoded m) := by
      simp [NextGiven, h1t, Tally.take, hh.given]
    refine .request hnext fun _ _ => ?_
    refine (receive_rx m.1 (decoded_byte m)).bind fun h2 _ h2t => ?_
    refine .request trivial fun _ _ => ?_
    have h3t : tally (⟨.mark .rxDone,()⟩ :: h2) = { (tally h).take m with
        given := (tally h).given ++ [decoded m]
        counted := (tally h).counted+1
        events := (tally h).events + if epAppStart ≤ (decoded m).1 then 1 else 0 } := by
      rw [tally_cons, h2t, tally_cons, h1t]
      rfl
    generalize (⟨.mark .rxDone,_⟩ :: h2 : Hist) = h3 at h3t
    have hh3 : Handed (tally h3) := by
      rw [h3t]
      refine ⟨?_,?_,?_⟩
      · simp [Tally.take, hh.given]
      · simp [Tally.take, hh.counted]
      · simp [Tally.take, hh.events, List.countP_append, List.countP_singleton, forApp]
    have hr3 : (tally h3).round + n = drainMax := by
      rw [h3t]
      simp only [Tally.take]
      omega
    refine (ih hh3 hr3).bind fun h4 handled ⟨hh4,hf,hd,hlen⟩ => ⟨hh4,hf,?_,?_⟩
    · rw [hd, h3t]
      rfl
    · rw [hlen, h3t]
      simp only [Tally.take, List.length_append, List.length_singleton]
      omega

/-- An invocation starts and ends with every message counted. -/
theorem receive_irqThread (hb : Balanced (tally h)) :
    ReceiveObeys guard irqThread (fun h' _ => Balanced (tally h')) h := by
  refine .request trivial fun _ _ => ?_
  have hh : Handed (tally (⟨.irqEnter,()⟩ :: h)) := ⟨hb.given,hb.counted,hb.events⟩
  refine (receive_drain drainMax hh (Nat.zero_add _)).bind fun h1 handled ⟨hh1,hf,hd,hlen⟩ => ?_
  have hb1 : Balanced (tally (⟨.wakeUp,()⟩ :: ⟨.store (.drainCount handled),()⟩ :: h1)) := by
    refine ⟨⟨hh1.given,hh1.counted,hh1.events⟩,?_⟩
    have hsum : (tally h1).drained+handled = (tally h1).taken.length := by
      rw [hd, hlen]
      exact congrArg (· + handled) hb.drained
    exact hsum
  refine .request trivial fun _ _ => .request trivial fun _ _ => ⟨⟨hb1,hf⟩,fun _ _ => ?_⟩
  exact ⟨⟨hb1.given,hb1.counted,hb1.events⟩,hb1.drained⟩

theorem balanced_nil : Balanced (tally []) := ⟨⟨rfl,rfl,rfl⟩,rfl⟩

theorem reach_receive {c : Config Party Op Res World} (hc : driver.Reach guard c) :
    Along receiveLaw (own .irq c.log) := by
  refine (hc.along disciplined .irq (fun h => Balanced (tally h)) balanced_nil ?_).1
  intro call p h hp hb
  cases call with
  | interrupt =>
    obtain rfl := Option.some.inj hp
    exact receive_irqThread hb
  | _ => contradiction

section Tallies

variable (ha : Along receiveLaw h)
include ha

/-- At most one message is on its way from the outbox to the core. -/
theorem flight_of : ∃ flight, (tally h).taken.map decoded = (tally h).given ++ flight ∧
    flight.length ≤ 1 := by
  induction h with
  | nil => exact ⟨[],rfl,Nat.zero_le 1⟩
  | cons a h ih =>
    have hrest := ih ha.2
    obtain ⟨op,r⟩ := a
    cases op with
    | recv1 =>
      obtain ⟨-,-,hg⟩ := ha.1
      refine ⟨[decoded ((tally h).msg0,r)],?_,le_rfl⟩
      simp [tally_cons, tallyStep, hg]
    | mark m =>
      cases m with
      | rx endpoint message => exact ⟨[],by rw [List.append_nil]; exact (ha.1 : NextGiven _ _).symm,Nat.zero_le 1⟩
      | _ => exact hrest
    | rtkit u => cases u <;> exact hrest
    | store f => cases f <;> exact hrest
    | _ => exact hrest

theorem round_le : (tally h).round ≤ drainMax := by
  induction h with
  | nil => exact Nat.zero_le _
  | cons a h ih =>
    have hrest := ih ha.2
    obtain ⟨op,r⟩ := a
    cases op with
    | recv1 => exact ha.1.2.1
    | irqEnter => exact Nat.zero_le _
    | mark m => cases m <;> exact hrest
    | rtkit u => cases u <;> exact hrest
    | store f => cases f <;> exact hrest
    | _ => exact hrest

/-- Outside the handler every message taken was handled and counted. -/
theorem balanced_of (hl : Along irqLaw h) (hi : inside h = false) : Balanced (tally h) := by
  induction h with
  | nil => exact balanced_nil
  | cons a h ih =>
    obtain ⟨op,r⟩ := a
    obtain rfl | ⟨hin,hs⟩ := hl.1
    · contradiction
    cases op with
    | irqExit =>
      obtain ⟨⟨hb,-⟩,-⟩ := ha
      exact ⟨⟨hb.given,hb.counted,hb.events⟩,hb.drained⟩
    | irqEnter => contradiction
    | _ => exact absurd (hin.symm.trans hi) (by decide)

end Tallies

def appends (queue : List (U64 × U64)) : Ev → List (U64 × U64)
  | ⟨.push msg0 msg1,_⟩ => queue ++ [(msg0,msg1)]
  | _ => queue

theorem i2aControl_empty (s : World) : s.i2aControl &&& controlEmpty ≠ 0#32 ↔ s.outbox = [] := by
  have hbit : controlEmpty = BitVec.twoPow 32 17 := by decide
  rw [hbit, Ne, BitFields.and_twoPow_eq_zero_iff _ (by decide), World.i2aControl, hbit]
  by_cases h : s.outbox = []
  · simp [h]
  · simp [h]

/-- The messages taken are the ones that left the outbox, and the words the
handler reads are those at its head. -/
structure Conserved (s₀ s : World) (pushed : List (U64 × U64)) (h : Hist) : Prop where
  queue : s₀.outbox ++ pushed = (tally h).taken ++ s.outbox
  saw : SawMessage h → s.outbox ≠ []
  head : ReadHead h → ∃ msg1, s.outbox.head? = some ((tally h).msg0,msg1)

theorem not_saw {op : Op} {r : Res op} (hop : op ≠ .readI2a) : ¬ SawMessage (⟨op,r⟩ :: h) := by
  rintro ⟨control,rest,he,-⟩
  cases he
  contradiction

theorem not_readHead {op : Op} {r : Res op} (hop : op ≠ .recv0) : ¬ ReadHead (⟨op,r⟩ :: h) := by
  rintro ⟨msg0,rest,he,-⟩
  cases he
  contradiction

theorem appends_eq (queue : List (U64 × U64)) (a : Ev) : appends queue a = queue ++ appends [] a := by
  obtain ⟨op,r⟩ := a
  cases op with
  | push msg0 msg1 => rfl
  | _ => exact (List.append_nil _).symm

section Step

variable {pushed : List (U64 × U64)} {op : Op} {r : Res op} (hc : Conserved s₀ s pushed h)
include hc

/-- The other threads leave the outbox alone, but for what the firmware appends. -/
theorem Conserved.other {j : Party} {k : Hist} (hj : j ≠ .irq) (hl : law j k op) :
    Conserved s₀ (s.after op r) (appends pushed ⟨op,r⟩) h := by
  have hout : (s.after op r).outbox = s.outbox ++ appends [] ⟨op,r⟩ := by
    cases op with
    | recv1 =>
      cases j with
      | irq => contradiction
      | _ => exact hl.elim
    | push msg0 msg1 => rfl
    | _ => exact (List.append_nil _).symm
  refine ⟨?_,fun hs => ?_,fun hh => ?_⟩
  · rw [hout, appends_eq, ← List.append_assoc, hc.queue, List.append_assoc]
  · rw [hout]
    exact List.append_ne_nil_of_left_ne_nil (hc.saw hs) _
  · obtain ⟨msg1,hm⟩ := hc.head hh
    refine ⟨msg1,?_⟩
    rw [hout, List.head?_append, hm]
    rfl

/-- An operation of the handler that is not part of a receive. -/
theorem Conserved.plain (hout : (s.after op r).outbox = s.outbox)
    (ht : (tally (⟨op,r⟩ :: h)).taken = (tally h).taken) (hp : appends pushed ⟨op,r⟩ = pushed)
    (hread : op ≠ .readI2a) (hrecv : op ≠ .recv0) :
    Conserved s₀ (s.after op r) (appends pushed ⟨op,r⟩) (⟨op,r⟩ :: h) where
  queue := by rw [hp, hout, ht, hc.queue]
  saw hs := absurd hs (not_saw hread)
  head hh := absurd hh (not_readHead hrecv)

theorem Conserved.recv0 {msg0 : U64} (hl : SawMessage h) (ha : s.allows .recv0 msg0) :
    Conserved s₀ s pushed (⟨.recv0,msg0⟩ :: h) where
  queue := hc.queue
  saw hs := absurd hs (not_saw nofun)
  head _ := by
    obtain ⟨m,rest,hm⟩ := List.exists_cons_of_ne_nil (hc.saw hl)
    obtain rfl : msg0 = m.1 := ha m (by rw [hm]; rfl)
    exact ⟨m.2,by rw [hm]; rfl⟩

theorem Conserved.recv1 {msg1 : U64} (hl : ReadHead h) (ha : s.allows .recv1 msg1) :
    Conserved s₀ (s.after .recv1 msg1) pushed (⟨.recv1,msg1⟩ :: h) where
  queue := by
    obtain ⟨m,hm⟩ := hc.head hl
    obtain ⟨rest,hout⟩ := List.head?_eq_some_iff.mp hm
    obtain rfl : msg1 = m := ha _ hm
    simp [hc.queue, hout, World.after, tally_cons, tallyStep]
  saw hs := absurd hs (not_saw nofun)
  head hh := absurd hh (not_readHead nofun)

theorem Conserved.irq (hl : irqLaw h op) (hrl : receiveLaw h op) (ha : s.allows op r) :
    Conserved s₀ (s.after op r) (appends pushed ⟨op,r⟩) (⟨op,r⟩ :: h) := by
  obtain rfl | ⟨-,hs⟩ := hl
  · exact hc.plain rfl rfl rfl nofun nofun
  cases op with
  | readI2a =>
    refine ⟨hc.queue,?_,fun hh => absurd hh (not_readHead nofun)⟩
    rintro ⟨control,rest,he,hclear⟩ hnil
    cases he
    obtain rfl : r = s.i2aControl := ha
    exact (i2aControl_empty s).mpr hnil hclear
  | recv0 => exact hc.recv0 hrl ha
  | recv1 => exact hc.recv1 hrl.1 ha
  | rtkit u => cases u <;> exact hc.plain rfl rfl rfl nofun nofun
  | store f => cases f <;> exact hc.plain rfl rfl rfl nofun nofun
  | mark m => cases m <;> exact hc.plain rfl rfl rfl nofun nofun
  | push => exact hs.elim
  | _ => exact hc.plain rfl rfl rfl nofun nofun

end Step

/-- The counters of the driver and of the core, as the tally has them. -/
structure Counters (s : World) (t : Tally) : Prop where
  drained : s.rb.drainCount = BitVec.ofNat 64 t.drained
  counted : s.rb.rtkit.rxCount = BitVec.ofNat 64 t.counted
  events : s.rb.fwEvents + s.rb.appUnknown = BitVec.ofNat 64 t.events

theorem Counters.irq {op : Op} {r : Res op} (hc : Counters s (tally h)) :
    Counters (s.after op r) (tally (⟨op,r⟩ :: h)) := by
  obtain ⟨hd,hx,he⟩ := hc
  cases op with
  | store f =>
    cases f with
    | drainCount handled =>
      refine ⟨?_,hx,he⟩
      rw [tally_cons, tallyStep, BitVec.ofNat_add, ← hd]
      rfl
    | fwEvents =>
      refine ⟨hd,hx,?_⟩
      rw [tally_cons, tallyStep, BitVec.ofNat_add, ← he]
      change s.rb.fwEvents + 1#64 + s.rb.appUnknown = s.rb.fwEvents + s.rb.appUnknown + 1#64
      rw [BitVec.add_assoc, BitVec.add_comm 1#64, ← BitVec.add_assoc]
    | appUnknown =>
      refine ⟨hd,hx,?_⟩
      rw [tally_cons, tallyStep, BitVec.ofNat_add, ← he, BitVec.add_assoc]
      rfl
    | _ => exact ⟨hd,hx,he⟩
  | rtkit u =>
    cases u with
    | rxCount =>
      refine ⟨hd,?_,he⟩
      rw [tally_cons, tallyStep, BitVec.ofNat_add, ← hx]
      rfl
    | _ => exact ⟨hd,hx,he⟩
  | mark m => cases m <;> exact ⟨hd,hx,he⟩
  | _ => exact ⟨hd,hx,he⟩

theorem Counters.other {j : Party} {k : Hist} {t : Tally} {op : Op} {r : Res op} (hc : Counters s t)
    (hj : j ≠ .irq) (hl : law j k op) : Counters (s.after op r) t := by
  obtain ⟨hd,hx,he⟩ := hc
  cases op with
  | store f =>
    cases f with
    | drainCount | fwEvents | appUnknown =>
      cases j with
      | irq => contradiction
      | _ => exact hl.elim
    | _ => exact ⟨hd,hx,he⟩
  | rtkit u =>
    cases u with
    | rxCount =>
      cases j with
      | irq => contradiction
      | _ => exact hl.elim
    | _ => exact ⟨hd,hx,he⟩
  | _ => exact ⟨hd,hx,he⟩

/-- What the firmware appended, oldest first. -/
def pushes (log : RunLog) : List (U64 × U64) := replay appends [] (log.map Prod.snd)

theorem conserved_of (h₀ : Probed s₀) (ht : (driver.startingAt s₀).Trace guard s log)
    (hl : Lawful law log) (ha : Along receiveLaw (own .irq log)) :
    Conserved s₀ s (pushes log) (own .irq log) ∧ Counters s (tally (own .irq log)) := by
  induction ht with
  | init hs =>
    obtain rfl := hs
    refine ⟨⟨List.append_nil _,?_,?_⟩,?_⟩
    · rintro ⟨_,_,he,-⟩
      cases he
    · rintro ⟨_,_,he,-⟩
      cases he
    · constructor <;> rw [h₀.rb] <;> rfl
  | @act s log j op r t _ _ hs ih =>
    obtain ⟨hallows,rfl⟩ := hs
    by_cases hj : j = .irq
    · subst hj
      rw [own_cons_self] at ha ⊢
      obtain ⟨hc,hn⟩ := ih hl.2 ha.2
      exact ⟨hc.irq hl.1 ha.1 hallows,hn.irq⟩
    · rw [own_cons_ne hj] at ha ⊢
      obtain ⟨hc,hn⟩ := ih hl.2 ha
      exact ⟨hc.other hj hl.1,hn.other hj hl.1⟩

/-- The tally behind a run. -/
abbrev tallyOf (c : Config Party Op Res World) : Tally := tally (own .irq c.log)

/-- What becomes of the messages of the firmware in a run from `s₀`. -/
structure Receives (s₀ : World) (c : Config Party Op Res World) : Prop where
  /-- The outbox holds what was appended and not taken. -/
  queue : s₀.outbox ++ pushes c.log = (tallyOf c).taken ++ c.state.outbox
  /-- The core is given a prefix of it, decoded. -/
  order : (tallyOf c).given <+: (s₀.outbox ++ pushes c.log).map decoded
  /-- What was taken was given to the core, but for one message inside the handler. -/
  given : ∃ flight, (tallyOf c).taken.map decoded = (tallyOf c).given ++ flight ∧
    flight.length ≤ 1 ∧ (c.state.irqBusy = false → flight = [])
  limit : (tallyOf c).round ≤ drainMax
  /-- An invocation stops short of the limit only behind a control word with EMPTY. -/
  stops : ∀ later earlier r, c.log = later ++ (.irq,⟨.irqExit,r⟩) :: earlier →
    Finished (tally (own .irq earlier))
  /-- Such a word is read only while the outbox is empty. -/
  sees : ∀ later earlier i (control : U32), c.log = later ++ (i,⟨.readI2a,control⟩) :: earlier →
    control &&& controlEmpty ≠ 0#32 → s₀.outbox ++ pushes earlier = (tally (own .irq earlier)).taken
  counters : c.state.irqBusy = false →
    c.state.rb.drainCount = BitVec.ofNat 64 (tallyOf c).taken.length ∧
    c.state.rb.rtkit.rxCount = BitVec.ofNat 64 (tallyOf c).taken.length ∧
    c.state.rb.fwEvents + c.state.rb.appUnknown = BitVec.ofNat 64 ((tallyOf c).taken.countP forApp)

/-- Every message appended behind the probe is taken once, in order, given to
the core unchanged and counted. -/
theorem receives {c : Config Party Op Res World} (h₀ : Probed s₀)
    (hc : (driver.startingAt s₀).Reach guard c) : Receives s₀ c := by
  have hd : driver.Reach guard c := hc.of_startingAt h₀
  have hl := reach_lawful hd
  have ha := reach_receive hd
  obtain ⟨hq,hn⟩ := conserved_of h₀ hc.trace hl ha
  have hbal (hbusy : c.state.irqBusy = false) : Balanced (tallyOf c) :=
    balanced_of ha (hl.along .irq) ((irqBusy_eq hd.trace hl).symm.trans hbusy)
  obtain ⟨flight,hf,hlen⟩ := flight_of ha
  refine ⟨hq.queue,?_,?_,round_le ha,?_,?_,fun hbusy => ?_⟩
  · rw [hq.queue, List.map_append, hf, List.append_assoc]
    exact List.prefix_append _ _
  · refine ⟨flight,hf,hlen,fun hbusy => ?_⟩
    rw [(hbal hbusy).given] at hf
    exact List.self_eq_append_right.mp hf
  · intro later earlier r he
    rw [he, own_append, own_cons_self] at ha
    exact ha.of_append.1.2
  · intro later earlier i control he hne
    have ht := hc.trace
    rw [he] at hl ht
    rw [he, List.append_cons, own_append] at ha
    obtain ⟨t,_,ht',-,hallows,-⟩ := ht.split
    obtain rfl : control = t.i2aControl := hallows
    have hq' := (conserved_of h₀ ht' hl.of_append.2 ha.of_append).1.queue
    rwa [(i2aControl_empty t).mp hne, List.append_nil] at hq'
  have hb := hbal hbusy
  refine ⟨?_,?_,?_⟩
  · rw [hn.drained, hb.drained]
  · rw [hn.counted, hb.counted]
  · rw [hn.events, hb.events]

/-- A burst of one message more than an invocation takes. -/
def burst : Schedule :=
  goodBoot ++ (List.replicate 65 (delivers 0x42#64 0x20#64)).flatten ++ interrupt 516

theorem receives_burst : ∃ c : Config Party Op Res World, (tallyOf c).taken.length = 69 ∧
    c.state.outbox.length = 1 ∧ c.state.irqBusy = false ∧ Receives fresh c := by
  obtain ⟨c,hc,he⟩ := reach_fresh (fun _ _ _ _ => True) burst
    (fun c => (tallyOf c).taken.length == 69 && c.state.outbox.length == 1 && !c.state.irqBusy)
    (by decide +kernel)
  simp only [Bool.and_eq_true, beq_iff_eq, Bool.not_eq_true'] at he
  exact ⟨c,he.1.1,he.1.2,he.2,receives probed_fresh hc⟩

end AgxOpen.Rtbuddy
