import Mathlib.Data.List.Induction
import Mathlib.Tactic.IntervalCases
import AgxOpen.Rtkit.Hello

/-!
# The firmware of the tests

`tests/fakefw.hpp`: the firmware that the simulation of the core boots against.
It answers each message it is sent at once, into a queue that the driver empties.
-/
namespace AgxOpen.Rtkit

/-- What all members of a list satisfy is decided member by member, whatever the type. -/
scoped instance (priority := 2000) decidableForallMem {α : Type} (p : α → Prop) [DecidablePred p]
    (l : List α) : Decidable (∀ x ∈ l, p x) := List.decidableBAll p l

/-- `agxtest::Msg`: an endpoint and the data. -/
abbrev Msg := U32 × U64

/-- `agxtest::mgmt`. -/
def mgmt (type : U32) (payload : U64) : U64 := type.setWidth 64 <<< typeShift ||| payload

/-- `agxtest::FakeFirmware`. -/
structure FakeFirmware where
  minVer : U32
  maxVer : U32
  toAp : List Msg
  fromAp : List Msg
  helloReplies : List U64
  epmapReplies : List U64
  started : List U32
  bufferReplies : List Msg
  gpuMsgs : List Msg
  pendingIop : Bool
  iopStateRequested : U32
  epmapFinished : Bool

namespace FakeFirmware

/-- A new firmware that speaks the versions. -/
def new (minVer maxVer : U32) : FakeFirmware where
  minVer := minVer
  maxVer := maxVer
  toAp := []
  fromAp := []
  helloReplies := []
  epmapReplies := []
  started := []
  bufferReplies := []
  gpuMsgs := []
  pendingIop := false
  iopStateRequested := 0#32
  epmapFinished := false

/-- `to_ap.push_back`. -/
def push (f : FakeFirmware) (x : Msg) : FakeFirmware := { f with toAp := f.toAp ++ [x] }

def hello (f : FakeFirmware) : U64 :=
  mgmt mgmtHello (f.maxVer.setWidth 64 <<< 16 ||| f.minVer.setWidth 64)

def powerOn (f : FakeFirmware) : FakeFirmware := f.push (epMgmt,f.hello)

def epmap (base bitmap : U32) (last : Bool) : U64 :=
  let m := mgmt mgmtEpmap (base.setWidth 64 <<< 32 ||| bitmap.setWidth 64)
  if last then m ||| epmapLast else m

def pushEpmap (f : FakeFirmware) (base bitmap : U32) (last : Bool) : FakeFirmware :=
  f.push (epMgmt,epmap base bitmap last)

/-- The request of an endpoint that was started, if it makes one. -/
def request (endpoint : U32) : Option U64 :=
  if endpoint = epCrashlog ∨ endpoint = epSyslog ∨ endpoint = epIoreport then
    some (1#64 <<< 52 ||| 2#64 <<< 44)
  else if endpoint = epOslog then some (1#64 <<< 56 ||| 0x2000#64 <<< 36)
  else none

def pushRequest (f : FakeFirmware) (endpoint : U32) : FakeFirmware :=
  match request endpoint with
  | some m => f.push (endpoint,m)
  | none => f

/-- The case of `AGX_RTKIT_MGMT_EPMAP_REPLY`. -/
def epmapReplied (f : FakeFirmware) (m : U64) : FakeFirmware :=
  let f := { f with epmapReplies := f.epmapReplies ++ [m] }
  if m &&& epmapMore ≠ 0#64 then f.pushEpmap 1#32 0x3#32 true
  else if m &&& epmapLast ≠ 0#64 then
    let f := { f with epmapFinished := true }
    if f.pendingIop then f.push (epMgmt,mgmt mgmtIopPwrAck 0x20#64) else f
  else f

/-- The case of `AGX_RTKIT_MGMT_IOP_PWR`. -/
def iopPower (f : FakeFirmware) (m : U64) : FakeFirmware :=
  let state := (m &&& 0xffff#64).setWidth 32
  let ack := if state = pwrInit then pwrOn else state
  let f := { f with iopStateRequested := state }
  if state = pwrInit then
    let f := { f with pendingIop := true }
    if f.epmapFinished then f.push (epMgmt,mgmt mgmtIopPwrAck (ack.setWidth 64)) else f
  else f.push (epMgmt,mgmt mgmtIopPwrAck (ack.setWidth 64))

/-- The case of `AGX_RTKIT_MGMT_STARTEP`. -/
def startep (f : FakeFirmware) (m : U64) : FakeFirmware :=
  let endpoint := (m >>> 32 &&& 0xff#64).setWidth 32
  let f := { f with started := f.started ++ [endpoint] }
  if m &&& startepFlag = 0#64 then f else f.pushRequest endpoint

def handleMgmt (f : FakeFirmware) (m : U64) : FakeFirmware :=
  if msgType m = mgmtHelloReply then
    { f with helloReplies := f.helloReplies ++ [m] }.pushEpmap 0#32 0x11f#32 false
  else if msgType m = mgmtEpmapReply then f.epmapReplied m
  else if msgType m = mgmtIopPwr then f.iopPower m
  else if msgType m = mgmtApPwr then f.push (epMgmt,mgmt mgmtApPwrAck (m &&& 0xffff#64))
  else if msgType m = mgmtStartep then f.startep m
  else f

def handle (f : FakeFirmware) (x : Msg) : FakeFirmware :=
  let f := { f with fromAp := f.fromAp ++ [x] }
  if x.1 = 0#32 then f.handleMgmt x.2
  else if x.1 ≥ epAppStart then { f with gpuMsgs := f.gpuMsgs ++ [x] }
  else { f with bufferReplies := f.bufferReplies ++ [x] }

/-- The firmware behind its power-on and the messages it was sent. -/
def run (f : FakeFirmware) (messages : List Msg) : FakeFirmware := messages.foldl handle f.powerOn

/-- A firmware that was not powered on yet. -/
def Fresh (f : FakeFirmware) : Prop := f = .new f.minVer f.maxVer

theorem run_snoc (f : FakeFirmware) (messages : List Msg) (x : Msg) :
    f.run (messages ++ [x]) = (f.run messages).handle x := by
  rw [run, run, List.foldl_append]
  rfl

@[simp] theorem push_toAp (f : FakeFirmware) (x : Msg) : (f.push x).toAp = f.toAp ++ [x] := rfl

@[simp] theorem pushEpmap_toAp (f : FakeFirmware) (base bitmap : U32) (last : Bool) :
    (f.pushEpmap base bitmap last).toAp = f.toAp ++ [(epMgmt,epmap base bitmap last)] := rfl

@[simp] theorem pushRequest_toAp (f : FakeFirmware) (endpoint : U32) : (f.pushRequest endpoint).toAp =
    f.toAp ++ ((request endpoint).map (endpoint,·)).toList := by
  rw [pushRequest]
  cases request endpoint with
  | none => exact (List.append_nil _).symm
  | some m => rfl

/-- What is queued stays queued. -/
theorem handle_keeps (f : FakeFirmware) (x : Msg) : f.toAp <+: (f.handle x).toAp := by
  rw [handle]
  split_ifs
  · simp only [handleMgmt, epmapReplied, iopPower, startep]
    split_ifs <;> simp
  · exact List.prefix_rfl
  · exact List.prefix_rfl

theorem run_keeps (f : FakeFirmware) {messages messages' : List Msg} (h : messages <+: messages') :
    (f.run messages).toAp <+: (f.run messages').toAp := by
  obtain ⟨rest,rfl⟩ := h
  induction rest using List.reverseRecOn with
  | nil => simp
  | append_singleton rest x ih =>
    rw [← List.append_assoc, run_snoc]
    exact ih.trans (handle_keeps ..)

end FakeFirmware

section Script

variable (f : FakeFirmware)

/-- The messages that announce versions and endpoints. Without a common version the
firmware gets no further than the first. -/
def setup : List Msg := (epMgmt,f.hello) :: if acceptable f.hello then
  [(epMgmt,FakeFirmware.epmap 0#32 0x11f#32 false),(epMgmt,FakeFirmware.epmap 1#32 0x3#32 true)] else []

/-- What the core sends while it takes in the setup. -/
def script : List Msg := if acceptable f.hello then
  [(epMgmt,helloReplyMsg (chosen f.hello)),(epMgmt,epmapReplyMsg 0#32 false),
    (epMgmt,epmapReplyMsg 1#32 true),(epMgmt,startepMsg epCrashlog),(epMgmt,startepMsg epSyslog),
    (epMgmt,startepMsg epDebug),(epMgmt,startepMsg epIoreport),(epMgmt,startepMsg epOslog)] else []

end Script

/-- The requests for the shared buffers. -/
def requests : List Msg :=
  [epCrashlog,epSyslog,epIoreport,epOslog].filterMap fun e => (FakeFirmware.request e).map (e,·)

def iopAck : Msg := (epMgmt,mgmt mgmtIopPwrAck 0x20#64)

def apAck : Msg := (epMgmt,mgmt mgmtApPwrAck 0x20#64)

def iopInit : Msg := (epMgmt,iopPowerMsg pwrInit)

def apOn : Msg := (epMgmt,apPowerMsg pwrOn)

/-- What boot sends. -/
def asks : List Msg :=
  [iopInit,apOn,(epMgmt,startepMsg epFirmware),(epMgmt,startepMsg epDoorbell)]

def isSetup (x : Msg) : Bool :=
  x.1 == epMgmt && (msgType x.2 == mgmtHello || msgType x.2 == mgmtEpmap)

def isRequest (x : Msg) : Bool := x.1 != epMgmt

def isReply (x : Msg) : Bool :=
  x.1 == epMgmt && (msgType x.2 == mgmtHelloReply || msgType x.2 == mgmtEpmapReply ||
    msgType x.2 == mgmtStartep && startepEndpoint x.2 < epAppStart)

/-- The number of requests behind so many messages of the script. -/
def requested (n : ℕ) : ℕ := [0,0,0,0,1,2,2,3].getD n 4

/-- Up to here the driver kept to the script and asked for nothing else. -/
structure Spoken (f : FakeFirmware) (messages : List Msg) : Prop where
  replies : messages.filter isReply <+: script f
  others : ∀ x ∈ messages, isReply x = false → x ∈ asks ∨ x.1 ≠ epMgmt

/-- How far the driver is in the script. -/
def spoken (messages : List Msg) : ℕ := (messages.filter isReply).length

/-- What the answers to later messages depend on. -/
def FakeFirmware.outcome (f : FakeFirmware) : List Msg × Bool × Bool :=
  (f.toAp,f.pendingIop,f.epmapFinished)

section Outcomes

variable (f : FakeFirmware)

/-- The versions do not reach the type. -/
theorem msgType_hello : msgType f.hello = mgmtHello := by
  ext i hi
  simp only [msgType, get, fieldGet, FakeFirmware.hello, mgmt, typeShift]
  by_cases h8 : i < 8
  · have hmax : f.maxVer.getLsbD (52+i-16) = false := BitVec.getLsbD_of_ge _ _ (by omega)
    have hmin : f.minVer.getLsbD (52+i) = false := BitVec.getLsbD_of_ge _ _ (by omega)
    simp [getLsbD_typeMask, h8, hi, show 52+i < 64 by omega, show i < 64 by omega, hmax, hmin]
  · have htype : mgmtHello.getLsbD i = false := getLsbD_of_small (n := 8) (by decide) (by omega)
    simp [getLsbD_typeMask, h8, ← BitVec.getLsbD_eq_getElem, htype]

theorem FakeFirmware.handle_mgmt (m : U64) : f.handle (epMgmt,m) =
    { f with fromAp := f.fromAp ++ [(epMgmt,m)] }.handleMgmt m := rfl

theorem handle_helloReply (version : U32) : (f.handle (epMgmt,helloReplyMsg version)).outcome =
    (f.toAp ++ [(epMgmt,FakeFirmware.epmap 0#32 0x11f#32 false)],f.pendingIop,f.epmapFinished) := by
  rw [FakeFirmware.handle_mgmt, FakeFirmware.handleMgmt, if_pos (msgType_helloReplyMsg version)]
  rfl

theorem handle_epmapMore : (f.handle (epMgmt,epmapReplyMsg 0#32 false)).outcome =
    (f.toAp ++ [(epMgmt,FakeFirmware.epmap 1#32 0x3#32 true)],f.pendingIop,f.epmapFinished) := by
  rw [FakeFirmware.handle_mgmt, FakeFirmware.handleMgmt, if_neg (by decide), if_pos (by decide),
    FakeFirmware.epmapReplied, if_pos (by decide)]
  rfl

theorem handle_epmapLast : (f.handle (epMgmt,epmapReplyMsg 1#32 true)).outcome =
    (f.toAp ++ if f.pendingIop then [iopAck] else [],f.pendingIop,true) := by
  rw [FakeFirmware.handle_mgmt, FakeFirmware.handleMgmt, if_neg (by decide), if_pos (by decide),
    FakeFirmware.epmapReplied, if_neg (by decide), if_pos (by decide)]
  cases hp : f.pendingIop <;> simp [FakeFirmware.outcome, FakeFirmware.push, iopAck]

theorem handle_startep {endpoint : U32} (he : startepMsg endpoint &&& startepFlag ≠ 0#64)
    (hep : (startepMsg endpoint >>> 32 &&& 0xff#64).setWidth 32 = endpoint) :
    (f.handle (epMgmt,startepMsg endpoint)).outcome =
      (f.toAp ++ ((FakeFirmware.request endpoint).map (endpoint,·)).toList,f.pendingIop,
        f.epmapFinished) := by
  have ht := msgType_startepMsg endpoint
  rw [FakeFirmware.handle_mgmt, FakeFirmware.handleMgmt, if_neg (by rw [ht]; decide),
    if_neg (by rw [ht]; decide), if_neg (by rw [ht]; decide), if_neg (by rw [ht]; decide), if_pos ht,
    FakeFirmware.startep, if_neg he, hep, FakeFirmware.pushRequest]
  cases FakeFirmware.request endpoint with
  | none => exact congrArg (·,_,_) (List.append_nil _).symm
  | some m => rfl

theorem handle_iopInit : (f.handle iopInit).outcome =
    (f.toAp ++ if f.epmapFinished then [iopAck] else [],true,f.epmapFinished) := by
  rw [iopInit, FakeFirmware.handle_mgmt, FakeFirmware.handleMgmt, if_neg (by decide),
    if_neg (by decide), if_pos (by decide), FakeFirmware.iopPower, if_pos (by decide)]
  cases f.epmapFinished
  · simp [FakeFirmware.outcome]
  · simp only [FakeFirmware.outcome, if_true, FakeFirmware.push_toAp]
    rfl

theorem handle_apOn : (f.handle apOn).outcome =
    (f.toAp ++ [apAck],f.pendingIop,f.epmapFinished) := by
  rw [apOn, FakeFirmware.handle_mgmt, FakeFirmware.handleMgmt, if_neg (by decide),
    if_neg (by decide), if_neg (by decide), if_pos (by decide)]
  rfl

theorem handle_unmanaged {x : Msg} (hx : x.1 ≠ epMgmt) : (f.handle x).outcome = f.outcome := by
  rw [FakeFirmware.handle, if_neg (show ¬ x.1 = 0#32 from hx)]
  split_ifs <;> rfl

end Outcomes

/-- The firmware behind such messages. -/
structure Heard (f : FakeFirmware) (messages : List Msg) (g : FakeFirmware) : Prop where
  inSetup : g.toAp.filter isSetup = (setup f).take (1 + min (spoken messages) 2)
  inRequests : g.toAp.filter isRequest = requests.take (requested (spoken messages))
  kinds : ∀ x ∈ g.toAp, isSetup x = true ∨ isRequest x = true ∨ x = iopAck ∨ x = apAck
  pending : g.pendingIop = true ↔ iopInit ∈ messages
  finished : g.epmapFinished = true ↔ 3 ≤ spoken messages
  iop : iopAck ∈ g.toAp ↔ 3 ≤ spoken messages ∧ iopInit ∈ messages
  ap : apAck ∈ g.toAp ↔ apOn ∈ messages

section Hears

variable {f g : FakeFirmware} {messages : List Msg} {x : Msg}

theorem Spoken.of_earlier {earlier : List Msg} (hs : Spoken f messages) (hp : earlier <+: messages) :
    Spoken f earlier where
  replies := (hp.filter isReply).trans hs.replies
  others y hy := hs.others y (hp.subset hy)

/-- Of messages in the order of a list the newest is the next of the list. -/
theorem next_of_order {P : Msg → Bool} {l : List Msg} (hp : (messages ++ [x]).filter P <+: l)
    (hx : P x = true) : l[(messages.filter P).length]? = some x := by
  rw [List.filter_append, List.filter_cons_of_pos hx, List.filter_nil] at hp
  obtain ⟨rest,rfl⟩ := hp
  rw [List.append_assoc, List.getElem?_append_right (le_refl _), Nat.sub_self]
  rfl

theorem spoken_snoc (messages : List Msg) (x : Msg) :
    spoken (messages ++ [x]) = spoken messages + if isReply x then 1 else 0 := by
  rw [spoken, List.filter_append, List.length_append, spoken]
  cases hx : isReply x <;> simp [hx]

theorem not_isReply_iopInit : isReply iopInit = false := by decide

theorem not_isReply_apOn : isReply apOn = false := by decide

variable {new : List Msg} {p q : Bool} (hh : Heard f messages g)
include hh

/-- One more message and what it adds. -/
theorem Heard.snoc (ho : (g.handle x).outcome = (g.toAp ++ new,p,q))
    (hsetup : (setup f).take (1 + min (spoken messages) 2) ++ new.filter isSetup =
      (setup f).take (1 + min (spoken (messages ++ [x])) 2))
    (hreq : requests.take (requested (spoken messages)) ++ new.filter isRequest =
      requests.take (requested (spoken (messages ++ [x]))))
    (hkinds : ∀ y ∈ new, isSetup y = true ∨ isRequest y = true ∨ y = iopAck ∨ y = apAck)
    (hp : p = true ↔ iopInit ∈ messages ++ [x]) (hq : q = true ↔ 3 ≤ spoken (messages ++ [x]))
    (hiop : (3 ≤ spoken messages ∧ iopInit ∈ messages) ∨ iopAck ∈ new ↔
      3 ≤ spoken (messages ++ [x]) ∧ iopInit ∈ messages ++ [x])
    (hap : apOn ∈ messages ∨ apAck ∈ new ↔ apOn ∈ messages ++ [x]) :
    Heard f (messages ++ [x]) (g.handle x) := by
  obtain ⟨hto,hpend,hfin⟩ : (g.handle x).toAp = g.toAp ++ new ∧ (g.handle x).pendingIop = p ∧
      (g.handle x).epmapFinished = q := by simpa [FakeFirmware.outcome] using ho
  constructor
  · rw [hto, List.filter_append, hh.inSetup, hsetup]
  · rw [hto, List.filter_append, hh.inRequests, hreq]
  · intro y hy
    rw [hto] at hy
    exact (List.mem_append.mp hy).elim (hh.kinds y) (hkinds y)
  · rw [hpend, hp]
  · rw [hfin, hq]
  · rw [hto, List.mem_append, hh.iop, hiop]
  · rw [hto, List.mem_append, hh.ap, hap]

/-- The next reply of the script. -/
theorem Heard.reply {n : ℕ} (hx : isReply x = true) (hn : spoken messages = n)
    (ho : (g.handle x).outcome = (g.toAp ++ new,g.pendingIop,q))
    (hsetup : (setup f).take (1 + min n 2) ++ new.filter isSetup =
      (setup f).take (1 + min (n+1) 2))
    (hreq : requests.take (requested n) ++ new.filter isRequest =
      requests.take (requested (n+1)))
    (hkinds : ∀ y ∈ new, isSetup y = true ∨ isRequest y = true ∨ y = iopAck)
    (hq : q = true ↔ 3 ≤ n+1) (hiop : iopAck ∈ new ↔ n = 2 ∧ iopInit ∈ messages)
    (hap : apAck ∉ new) : Heard f (messages ++ [x]) (g.handle x) := by
  have hne {y : Msg} (hy : isReply y = false) : y ∈ messages ++ [x] ↔ y ∈ messages := by
    have hxy : y ≠ x := fun he => by simp [← he, hy] at hx
    simp [hxy]
  have hs : spoken (messages ++ [x]) = n+1 := by rw [spoken_snoc, if_pos hx, hn]
  refine hh.snoc ho ?_ ?_ (fun y hy => ?_) ?_ ?_ ?_ ?_
  · rw [hs, hn, hsetup]
  · rw [hs, hn, hreq]
  · exact (hkinds y hy).imp_right fun h => h.imp_right .inl
  · rw [hne not_isReply_iopInit, hh.pending]
  · rw [hs, hq]
  · rw [hne not_isReply_iopInit, hs, hn, hiop, ← or_and_right]
    refine and_congr_left fun _ => ?_
    omega
  · rw [hne not_isReply_apOn]
    exact or_iff_left hap

/-- Every reply but the last one to a map leaves the acknowledgement alone. -/
theorem Heard.other {n : ℕ} (hx : isReply x = true) (hn : spoken messages = n) (h2 : n ≠ 2)
    (ho : (g.handle x).outcome = (g.toAp ++ new,g.pendingIop,g.epmapFinished))
    (hsetup : (setup f).take (1 + min n 2) ++ new.filter isSetup =
      (setup f).take (1 + min (n+1) 2))
    (hreq : requests.take (requested n) ++ new.filter isRequest =
      requests.take (requested (n+1)))
    (hkinds : ∀ y ∈ new, isSetup y = true ∨ isRequest y = true)
    (hacks : iopAck ∉ new ∧ apAck ∉ new) : Heard f (messages ++ [x]) (g.handle x) := by
  refine hh.reply hx hn ho hsetup hreq (fun y hy => (hkinds y hy).imp_right .inl) ?_ ?_ hacks.2
  · rw [hh.finished, hn]
    omega
  · exact iff_of_false hacks.1 fun h => h2 h.1

/-- A message that is no reply. -/
theorem Heard.ask (hx : isReply x = false) (ho : (g.handle x).outcome = (g.toAp ++ new,p,g.epmapFinished))
    (hkinds : ∀ y ∈ new, y = iopAck ∨ y = apAck)
    (hp : p = true ↔ iopInit ∈ messages ++ [x])
    (hiop : iopAck ∈ new → 3 ≤ spoken messages ∧ x = iopInit)
    (hiop' : 3 ≤ spoken messages → x = iopInit → iopAck ∈ new)
    (hap : apAck ∈ new ↔ x = apOn) : Heard f (messages ++ [x]) (g.handle x) := by
  have hs : spoken (messages ++ [x]) = spoken messages := by rw [spoken_snoc, hx]; rfl
  have hacks (P : Msg → Bool) (h₁ : P iopAck = false) (h₂ : P apAck = false) :
      new.filter P = [] := by
    refine List.filter_eq_nil_iff.mpr fun y hy => ?_
    obtain rfl | rfl := hkinds y hy
    · simp [h₁]
    · simp [h₂]
  refine hh.snoc ho ?_ ?_ (fun y hy => .inr (.inr (hkinds y hy))) hp ?_ ?_ ?_
  · rw [hs, hacks _ (by decide) (by decide), List.append_nil]
  · rw [hs, hacks _ (by decide) (by decide), List.append_nil]
  · rw [hs, hh.finished]
  · rw [hs, List.mem_append, List.mem_singleton]
    constructor
    · rintro (⟨h3,hm⟩ | hm)
      · exact ⟨h3,.inl hm⟩
      · exact ⟨(hiop hm).1,.inr (hiop hm).2.symm⟩
    · rintro ⟨h3,hm | rfl⟩
      · exact .inl ⟨h3,hm⟩
      · exact .inr (hiop' h3 rfl)
  · rw [List.mem_append, List.mem_singleton, hap, eq_comm]

end Hears

section Run

variable {f : FakeFirmware} {messages : List Msg} {x : Msg}

/-- The script is spoken only to a firmware with a common version. -/
theorem Spoken.acceptable (hs : Spoken f messages) (hn : 0 < spoken messages) :
    acceptable f.hello = true := by
  by_contra hne
  have hnil : script f = [] := if_neg hne
  have hlen := hs.replies.length_le
  rw [hnil] at hlen
  exact absurd hlen (by simpa [spoken] using hn)

theorem heard_reply (hs : Spoken f (messages ++ [x])) (hx : isReply x = true)
    (hh : Heard f messages (f.run messages)) :
    Heard f (messages ++ [x]) ((f.run messages).handle x) := by
  have hn : spoken (messages ++ [x]) = spoken messages + 1 := by rw [spoken_snoc, if_pos hx]
  have ha := hs.acceptable (by omega)
  have hnext : (script f)[spoken messages]? = some x := next_of_order hs.replies hx
  have hsetup : setup f = [(epMgmt,f.hello),(epMgmt,FakeFirmware.epmap 0#32 0x11f#32 false),
      (epMgmt,FakeFirmware.epmap 1#32 0x3#32 true)] := by rw [setup, if_pos ha]
  rw [script, if_pos ha] at hnext
  have h8 : spoken messages < 8 := by
    by_contra hge
    rw [List.getElem?_eq_none (by simp; omega)] at hnext
    contradiction
  have hstart {e : U32} (hf : startepMsg e &&& startepFlag ≠ 0#64)
      (he : (startepMsg e >>> 32 &&& 0xff#64).setWidth 32 = e) := handle_startep (f.run messages) hf he
  generalize hm : spoken messages = m at h8 hnext
  by_cases h2 : m = 2
  · subst h2
    cases hnext
    refine hh.reply hx hm (handle_epmapLast _) ?_ ?_ ?_ (by decide) ?_ ?_
    · rw [hsetup]
      cases (f.run messages).pendingIop <;> rfl
    · cases (f.run messages).pendingIop <;> decide
    · cases (f.run messages).pendingIop <;> decide
    · rw [← hh.pending]
      cases (f.run messages).pendingIop <;> decide
    · cases (f.run messages).pendingIop <;> decide
  interval_cases m
  · cases hnext
    exact hh.other hx hm h2 (handle_helloReply _ _) (by rw [hsetup]; rfl) (by decide) (by decide)
      (by decide)
  · cases hnext
    exact hh.other hx hm h2 (handle_epmapMore _) (by rw [hsetup]; rfl) (by decide) (by decide)
      (by decide)
  · contradiction
  all_goals
    cases hnext
    exact hh.other hx hm h2 (hstart (by decide) (by decide)) (by rw [hsetup]; rfl) (by decide)
      (by decide) (by decide)

theorem heard_ask (hx : isReply x = false) (hask : x ∈ asks ∨ x.1 ≠ epMgmt)
    (hh : Heard f messages (f.run messages)) :
    Heard f (messages ++ [x]) ((f.run messages).handle x) := by
  have hsame (hne : x ≠ iopInit) : iopInit ∈ messages ++ [x] ↔ iopInit ∈ messages := by
    simp [hne.symm]
  rcases hask with hmem | hne
  · rw [asks] at hmem
    simp only [List.mem_cons, List.not_mem_nil, or_false] at hmem
    rcases hmem with rfl | rfl | rfl | rfl
    · refine hh.ask hx (handle_iopInit _) ?_ (by simp) ?_ ?_ ?_
      · cases (f.run messages).epmapFinished <;> decide
      · rw [← hh.finished]
        cases (f.run messages).epmapFinished <;> decide
      · rw [← hh.finished]
        cases (f.run messages).epmapFinished <;> decide
      · cases (f.run messages).epmapFinished <;> decide
    · exact hh.ask hx (handle_apOn _) (by decide) (by rw [hsame (by decide), hh.pending])
        (fun h => absurd h (by decide)) (fun _ h => absurd h (by decide)) (by decide)
    all_goals
      exact hh.ask hx (handle_startep _ (by decide) (by decide)) (by decide)
        (by rw [hsame (by decide), hh.pending]) (fun h => absurd h (by decide))
        (fun _ h => absurd h (by decide)) (by decide)
  · have hinit : x ≠ iopInit := fun he => hne (he ▸ rfl)
    have hon : x ≠ apOn := fun he => hne (he ▸ rfl)
    have ho : ((f.run messages).handle x).outcome = ((f.run messages).toAp ++ [],
        (f.run messages).pendingIop,(f.run messages).epmapFinished) := by
      rw [List.append_nil]
      exact handle_unmanaged _ hne
    exact hh.ask hx ho (by simp) (by rw [hsame hinit, hh.pending]) (by simp) (fun _ h => absurd h hinit)
      (by simpa using hon)

/-- What the firmware has queued, as far as the driver keeps to the script. -/
theorem hears (hf : f.Fresh) (hs : Spoken f messages) : Heard f messages (f.run messages) := by
  induction messages using List.reverseRecOn with
  | nil =>
    obtain ⟨minVer,maxVer,rfl⟩ : ∃ minVer maxVer, f = .new minVer maxVer := ⟨_,_,hf⟩
    have hto : (FakeFirmware.run (.new minVer maxVer) []).toAp =
      [(epMgmt,(FakeFirmware.new minVer maxVer).hello)] := rfl
    have hsetup : isSetup (epMgmt,(FakeFirmware.new minVer maxVer).hello) = true := by
      simp [isSetup, msgType_hello]
    have hne {y : Msg} (hy : isSetup y = false) :
        y ≠ (epMgmt,(FakeFirmware.new minVer maxVer).hello) := fun he => by simp [he, hsetup] at hy
    constructor
    · rw [hto, List.filter_cons_of_pos hsetup]
      rfl
    · rw [hto]
      rfl
    · rw [hto]
      simp [hsetup]
    · exact iff_of_false Bool.false_ne_true List.not_mem_nil
    · exact iff_of_false Bool.false_ne_true (by decide)
    · rw [hto]
      exact iff_of_false (by simp [hne (y := iopAck) (by decide)]) (by decide)
    · rw [hto]
      exact iff_of_false (by simp [hne (y := apAck) (by decide)]) List.not_mem_nil
  | append_singleton messages x ih =>
    have hh := ih (hs.of_earlier (List.prefix_append ..))
    rw [FakeFirmware.run_snoc]
    cases hx : isReply x with
    | true => exact heard_reply hs hx hh
    | false => exact heard_ask hx (hs.others x (by simp) hx) hh

end Run

end AgxOpen.Rtkit
