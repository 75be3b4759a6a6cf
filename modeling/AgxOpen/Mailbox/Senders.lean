import AgxOpen.Mailbox.Send

/-!
# Any number of senders

The thread whose history is inside the critical section is the one that has the
mutex, so what it saw of the inbox still holds when it writes.
-/
namespace AgxOpen.Mailbox
open Rtbuddy (msg1EndpointMask unpackEndpoint)

variable {guard : World → RunLog → Party → Op → Prop} {h h' : Hist} {s₀ s t : World}
  {log : RunLog} {endpoint : U32} {data : U64}

/-- Where a thread is in `agx_mailbox_send`. -/
inductive Phase
  /-- It has not the mutex. -/
  | out
  | locked
  /-- The control word read last was not full. -/
  | free
  /-- `SEND0` is written, `SEND1` is next. -/
  | loaded (data : U64)
  deriving DecidableEq

def phaseStep (p : Phase) : Ev → Phase
  | ⟨.lock _,_⟩ => .locked
  | ⟨.readControl,control⟩ => if controlFull control then .locked else .free
  | ⟨.writeSend0 data,_⟩ => .loaded data
  | ⟨.writeSend1 _,_⟩ => .locked
  | ⟨.unlock,_⟩ => .out
  | _ => p

def phaseOf (h : Hist) : Phase := replay phaseStep .out h

theorem phaseOf_cons (a : Ev) (h : Hist) : phaseOf (a :: h) = phaseStep (phaseOf h) a := rfl

/-- The operations of a call that has not written yet, or does not write at all. -/
def polls : Op → Bool
  | .lock _ | .unlock | .pollReads | .readControl | .pollLate => true
  | _ => false

/-- The call has written neither register. -/
def Untouched (endpoint : U32) (data : U64) (h : Hist) : Prop := ∃ during earlier,
  h = during ++ ⟨.mark (.called endpoint data),()⟩ :: earlier ∧ ∀ a ∈ during, polls a.op = true

/-- The items of a thread are those of its calls that returned 0. -/
def Even (h : Hist) : Prop := itemsOf enqueued h = (callsOf h).succeeded

/-- What a call leaves behind when it returns. -/
def Outcome (ret : ℤ) (h : Hist) : Prop := ∃ endpoint data,
  (callsOf h).current = some (endpoint,data) ∧
    (ret = 0 ∧ itemsOf enqueued h = (callsOf h).succeeded ++ [itemOf endpoint data] ∨
      ret = Status.etimedout ∧ Even h ∧ Untouched endpoint data h)

def senderLaw (n : ℕ) (h : Hist) : Op → Prop
  | .lock owner => owner = n ∧ phaseOf h = .out
  | .unlock => phaseOf h ≠ .out
  | .readControl => phaseOf h = .locked
  | .writeSend0 data => phaseOf h = .free ∧ ∃ endpoint, (callsOf h).current = some (endpoint,data)
  | .writeSend1 value => ∃ endpoint data, phaseOf h = .loaded data ∧
    (callsOf h).current = some (endpoint,data) ∧ value = packMsg1 endpoint ∧ Even h
  | .mark (.called ..) => Even h
  | .mark (.returned ret) => Outcome ret h
  | .pollReads | .pollLate => True
  | .take => False

def firmwareLaw : Op → Prop
  | .take => True
  | _ => False

def law : Party → Hist → Op → Prop
  | .sender n, h, op => senderLaw n h op
  | .firmware, _, op => firmwareLaw op

/-- A thread in the critical section has the mutex, and what it saw of the
registers holds. -/
structure Fits (s : World) (n : ℕ) (p : Phase) : Prop where
  owner : s.owner = some n ↔ p ≠ .out
  room : p ≠ .out → p ≠ .locked → s.inbox.length < s.capacity
  word : ∀ data, p = .loaded data → s.send0 = data

theorem fits_out {n : ℕ} (hn : s.owner ≠ some n) : Fits s n .out :=
  ⟨iff_of_false hn fun hp => hp rfl,fun hp => absurd rfl hp,nofun⟩

def Excluded (s : World) (log : RunLog) : Prop := ∀ n, Fits s n (phaseOf (own (.sender n) log))

/-- While one thread has the mutex the others are out of the critical section. -/
theorem Excluded.out {m : ℕ} (he : Excluded s log) (hn : s.owner ≠ some m) :
    phaseOf (own (.sender m) log) = .out := by
  by_contra hne
  exact hn ((he m).owner.mpr hne)

/-- A step of one sender is seen by that sender, and the others do not have the mutex. -/
theorem Excluded.cons {n : ℕ} {a : Ev} (hself : Fits t n (phaseOf (a :: own (.sender n) log)))
    (hothers : ∀ m, m ≠ n → Fits t m (phaseOf (own (.sender m) log))) :
    Excluded t ((.sender n,a) :: log) := by
  intro m
  by_cases hm : m = n
  · subst hm
    rwa [own_cons_self]
  · have hne : Party.sender n ≠ .sender m := fun he => hm (Party.sender.inj he).symm
    rw [own_cons_ne hne]
    exact hothers m hm

theorem Excluded.sender {n : ℕ} {op : Op} {r : Res op} (he : Excluded s log)
    (hl : senderLaw n (own (.sender n) log) op) (ha : s.allows op r) :
    Excluded (s.after op r) ((.sender n,⟨op,r⟩) :: log) := by
  have hheld (hp : phaseOf (own (.sender n) log) ≠ .out) (m : ℕ) (hm : m ≠ n) : s.owner ≠ some m := by
    rw [(he n).owner.mpr hp]
    exact fun h => hm (Option.some.inj h).symm
  cases op with
  | lock owner =>
    obtain ⟨rfl,-⟩ := hl
    refine Excluded.cons ⟨iff_of_true rfl nofun,fun _ h => absurd rfl h,nofun⟩ fun m hm => ?_
    rw [he.out (show s.owner ≠ some m by rw [show s.owner = none from ha]; nofun)]
    exact fits_out fun h => hm (Option.some.inj h).symm
  | unlock =>
    refine Excluded.cons (fits_out nofun) fun m hm => ?_
    rw [he.out (hheld hl m hm)]
    exact fits_out nofun
  | readControl =>
    have hp : phaseOf (own (.sender n) log) = .locked := hl
    have howner := (he n).owner.mpr (by rw [hp]; nofun)
    refine Excluded.cons ?_ fun m _ => he m
    rw [phaseOf_cons, phaseStep]
    cases hf : controlFull r with
    | true => exact ⟨iff_of_true howner nofun,fun _ h => absurd rfl h,nofun⟩
    | false =>
      refine ⟨iff_of_true howner nofun,fun _ _ => ?_,nofun⟩
      have hroom : false = decide (s.capacity ≤ s.inbox.length) := hf.symm.trans ha
      exact not_le.mp (decide_eq_false_iff_not.mp hroom.symm)
  | writeSend0 data =>
    have hp : phaseOf (own (.sender n) log) = .free := hl.1
    refine Excluded.cons ⟨iff_of_true ?_ nofun,fun _ _ => ?_,fun d hd => Phase.loaded.inj hd⟩
      fun m hm => ?_
    · exact (he n).owner.mpr (by rw [hp]; nofun)
    · exact (he n).room (by rw [hp]; nofun) (by rw [hp]; nofun)
    · have hm' := hheld (by rw [hp]; nofun) m hm
      rw [he.out hm']
      exact fits_out hm'
  | writeSend1 value =>
    obtain ⟨endpoint,data,hp,-⟩ := hl
    refine Excluded.cons ⟨iff_of_true ?_ nofun,fun _ h => absurd rfl h,nofun⟩ fun m hm => ?_
    · exact (he n).owner.mpr (by rw [hp]; nofun)
    · have hm' := hheld (by rw [hp]; nofun) m hm
      rw [he.out hm']
      exact fits_out hm'
  | take => exact hl.elim
  | _ => exact Excluded.cons (he n) fun m _ => he m

theorem excluded_of (ht : mailbox.Trace guard s log) (hl : Lawful law log) : Excluded s log := by
  induction ht with
  | init h₀ =>
    intro n
    exact fits_out (by rw [show _ = none from h₀]; nofun)
  | @act s log i op r t _ _ hs ih =>
    obtain ⟨ha,rfl⟩ := hs
    have he := ih hl.2
    cases i with
    | sender n => exact he.sender hl.1 ha
    | firmware =>
      cases op with
      | take =>
        intro n
        rw [own_cons_ne (by nofun)]
        refine ⟨(he n).owner,fun h1 h2 => ?_,(he n).word⟩
        have hlen : s.inbox.tail.length ≤ s.inbox.length := by simp
        exact hlen.trans_lt ((he n).room h1 h2)
      | _ => exact hl.1.elim

theorem unpack_pack (endpoint : U32) : unpackEndpoint (packMsg1 endpoint) = endpoint &&& 0xff#32 := by
  ext i hi
  simp only [unpackEndpoint, packMsg1, msg1EndpointMask, BitVec.getElem_setWidth,
    BitVec.getLsbD_and, BitVec.getLsbD_setWidth, BitVec.getElem_and]
  rw [BitVec.getLsbD_eq_getElem hi, BitVec.getLsbD_eq_getElem hi]
  simp [show i < 64 by omega]

/-- A sender about to write `SEND1` finds room, and the inbox takes its item. -/
theorem accepted_item {n : ℕ} {r : Option Item} (ht : mailbox.Trace guard s log)
    (hl : Lawful law log) (hp : phaseOf (own (.sender n) log) = .loaded data)
    (ha : s.allows (.writeSend1 (packMsg1 endpoint)) r) :
    s.inbox.length < s.capacity ∧ r = some (itemOf endpoint data) := by
  have hf := excluded_of ht hl n
  have hroom := hf.room (by rw [hp]; nofun) (by rw [hp]; nofun)
  refine ⟨hroom,?_⟩
  obtain rfl : r = s.accepts (packMsg1 endpoint) := ha
  rw [World.accepts, if_pos hroom, hf.word data hp, unpack_pack]
  rfl

abbrev SenderObeys (guard : World → RunLog → Party → Op → Prop) (n : ℕ) {α : Type} (p : Prog α)
    (Q : Hist → α → Prop) (h : Hist) : Prop :=
  Obeys (senderLaw n) (mailbox.May guard law (.sender n)) p Q h

/-- A call that has written nothing yet. -/
structure Waiting (endpoint : U32) (data : U64) (h : Hist) : Prop where
  current : (callsOf h).current = some (endpoint,data)
  even : Even h
  untouched : Untouched endpoint data h

theorem itemsOf_cons (f : Ev → Option Item) (a : Ev) (h : Hist) :
    itemsOf f (a :: h) = itemsOf f h ++ (f a).toList := by
  rw [itemsOf, List.filterMap_cons]
  cases f a <;> simp [itemsOf]

theorem Waiting.cons {o : Op} {r : Res o} (hw : Waiting endpoint data h) (ho : polls o = true) :
    Waiting endpoint data (⟨o,r⟩ :: h) := by
  have hcalls : callsOf (⟨o,r⟩ :: h) = callsOf h := by
    cases o <;> first | rfl | contradiction
  have hitem : enqueued ⟨o,r⟩ = none := by
    cases o <;> first | rfl | contradiction
  refine ⟨hcalls ▸ hw.current,?_,?_⟩
  · rw [Even, itemsOf_cons, hitem, hcalls]
    exact (List.append_nil _).trans hw.even
  · obtain ⟨during,earlier,rfl,hd⟩ := hw.untouched
    exact ⟨⟨o,r⟩ :: during,earlier,rfl,List.forall_mem_cons.mpr ⟨ho,hd⟩⟩

/-- The poll leaves a thread that may write, or one that may only give up. -/
theorem sender_pollNotFull (n k : ℕ) (hw : Waiting endpoint data h) (hp : phaseOf h = .locked) :
    SenderObeys guard n (pollNotFull k) (fun h' ret => Waiting endpoint data h' ∧
      (ret = 0 ∧ phaseOf h' = .free ∨ ret = Status.etimedout ∧ phaseOf h' ≠ .out)) h := by
  induction k generalizing h with
  | zero => exact ⟨hw,.inr ⟨rfl,by rw [hp]; nofun⟩⟩
  | succ k ih =>
    refine .request hp fun control _ => ?_
    have hw1 := hw.cons (o := .readControl) (r := control) rfl
    cases hf : controlFull control with
    | true =>
      refine ih hw1 ?_
      rw [phaseOf_cons, phaseStep, hf, if_pos rfl]
    | false =>
      have hp1 : phaseOf (⟨.readControl,control⟩ :: h) = .free := by
        rw [phaseOf_cons, phaseStep, hf]
        rfl
      refine .request trivial fun late _ => ?_
      have hw2 := hw1.cons (o := .pollLate) (r := late) rfl
      cases late with
      | true => exact ⟨hw2,.inr ⟨rfl,fun h0 => by cases hp1.symm.trans h0⟩⟩
      | false => exact ⟨hw2,.inl ⟨rfl,hp1⟩⟩

theorem sender_send (n : ℕ) (hw : Waiting endpoint data h) (hp : phaseOf h = .out) :
    SenderObeys guard n (send n endpoint data) (fun h' ret => phaseOf h' = .out ∧ Outcome ret h') h := by
  refine .request ⟨rfl,hp⟩ fun _ _ => .request trivial fun reads _ => ?_
  have hw2 := (hw.cons (o := .lock n) (r := ()) rfl).cons (o := .pollReads) (r := reads) rfl
  refine (sender_pollNotFull n reads hw2 rfl).bind fun h3 ret ⟨hw3,hret⟩ => ?_
  obtain ⟨rfl,hp3⟩ | ⟨rfl,hp3⟩ := hret
  · refine .request ⟨hp3,endpoint,hw3.current⟩ fun _ _ => ?_
    refine .request ⟨endpoint,data,rfl,hw3.current,rfl,hw3.even⟩ fun r hr => ?_
    obtain ⟨s,log,t,ht,hl,hown,-,ha,-⟩ := hr
    obtain ⟨-,rfl⟩ := accepted_item ht hl (by rw [hown]; rfl) ha
    refine .request nofun fun _ _ => ⟨rfl,endpoint,data,hw3.current,.inl ⟨rfl,?_⟩⟩
    simp only [itemsOf_cons, enqueued, Option.toList_none, Option.toList_some, List.append_nil]
    exact congrArg (· ++ [itemOf endpoint data]) hw3.even
  · refine .request hp3 fun _ _ => ⟨rfl,endpoint,data,?_⟩
    have hw4 := hw3.cons (o := .unlock) (r := ()) rfl
    exact ⟨hw4.current,.inr ⟨rfl,hw4.even,hw4.untouched⟩⟩

/-- Between two calls a thread has not the mutex and has sent what it returned 0 for. -/
def idle : Party → Hist → Prop
  | .sender _, h => phaseOf h = .out ∧ Even h
  | .firmware, _ => True

theorem Outcome.even {ret : ℤ} (ho : Outcome ret h) : Even (⟨.mark (.returned ret),()⟩ :: h) := by
  obtain ⟨endpoint,data,hcur,⟨rfl,hi⟩ | ⟨rfl,he,-⟩⟩ := ho
  · rw [Even, itemsOf_cons, hi]
    simp [callsOf, callsStep, enqueued] at hcur ⊢
    simp [hcur]
  · rw [Even, itemsOf_cons, show itemsOf enqueued h = _ from he]
    simp [callsOf, callsStep, enqueued, Status.etimedout]

theorem disciplined : mailbox.Disciplined guard law idle where
  first i := by
    cases i with
    | sender n => exact ⟨rfl,rfl⟩
    | firmware => trivial
  program i call p h hp hi := by
    cases i with
    | sender n =>
      cases call with
      | send endpoint data =>
        obtain rfl := Option.some.inj hp
        obtain ⟨hout,heven⟩ := hi
        refine .request heven fun _ _ => ?_
        have hw : Waiting endpoint data (⟨.mark (.called endpoint data),()⟩ :: h) := by
          refine ⟨rfl,?_,[],h,rfl,by simp⟩
          rw [Even, itemsOf_cons]
          exact (List.append_nil _).trans heven
        refine (sender_send n hw hout).bind fun h1 ret ⟨hp1,ho⟩ => ⟨ho,fun _ _ => ⟨hp1,ho.even⟩⟩
      | take => contradiction
    | firmware =>
      cases call with
      | send => contradiction
      | take =>
        obtain rfl := Option.some.inj hp
        exact ⟨trivial,fun _ _ => trivial⟩

/-- A call in progress has sent nothing, or its item. -/
def Flight (h : Hist) : Prop := ∃ flight, itemsOf enqueued h = (callsOf h).succeeded ++ flight ∧
  (flight = [] ∨ ∃ endpoint data, (callsOf h).current = some (endpoint,data) ∧
    flight = [itemOf endpoint data])

theorem Even.flight (he : Even h) : Flight h := ⟨[],he.trans (List.append_nil _).symm,.inl rfl⟩

theorem flight_of (ht : mailbox.Trace guard s log) (hl : Lawful law log) (n : ℕ) :
    Flight (own (.sender n) log) := by
  induction ht with
  | init => exact Even.flight rfl
  | @act s log i op r t ht _ hs ih =>
    have hrest := ih hl.2
    by_cases hi : i = .sender n
    · subst hi
      rw [own_cons_self]
      have hlaw : senderLaw n (own (.sender n) log) op := hl.1
      cases op with
      | writeSend1 value =>
        obtain ⟨endpoint,data,hp,hcur,rfl,heven⟩ := hlaw
        obtain ⟨-,rfl⟩ := accepted_item ht hl.2 hp hs.1
        refine ⟨[itemOf endpoint data],?_,.inr ⟨endpoint,data,hcur,rfl⟩⟩
        rw [itemsOf_cons]
        exact congrArg (· ++ [itemOf endpoint data]) heven
      | mark m =>
        cases m with
        | called endpoint data =>
          refine Even.flight ?_
          rw [Even, itemsOf_cons]
          exact (List.append_nil _).trans hlaw
        | returned ret => exact (Outcome.even hlaw).flight
      | take => exact hlaw.elim
      | _ =>
        obtain ⟨flight,hitems,hf⟩ := hrest
        refine ⟨flight,?_,hf⟩
        rw [itemsOf_cons]
        exact (List.append_nil _).trans hitems
    · rwa [own_cons_ne hi]

/-- The items of a log, oldest first. -/
abbrev logged (f : Ev → Option Item) (log : RunLog) : List Item := itemsOf f (log.map Prod.snd)

/-- The inbox is a queue. -/
theorem conserved_of (ht : (mailbox.startingAt s₀).Trace guard s log) :
    s₀.inbox ++ logged enqueued log = logged dequeued log ++ s.inbox := by
  induction ht with
  | init hs =>
    obtain rfl := hs
    exact List.append_nil _
  | @act s log i op r t _ _ hs ih =>
    obtain ⟨ha,rfl⟩ := hs
    simp only [logged, List.map_cons, itemsOf_cons] at ih ⊢
    cases op with
    | writeSend1 value =>
      rw [← List.append_assoc, ih]
      simp [World.after, enqueued, dequeued]
    | take =>
      obtain rfl : r = s.inbox.head? := ha
      simp only [enqueued, dequeued, World.after, Option.toList_none, List.append_nil, ih]
      cases s.inbox <;> simp
    | _ => simpa [World.after, enqueued, dequeued] using ih

/-- What the senders and the firmware make of the inbox in a run from `s₀`. -/
structure Delivers (guard : World → RunLog → Party → Op → Prop) (s₀ : World)
    (c : Config Party Op Res World) : Prop where
  /-- `SEND1` is written only by senders and only while there is room. -/
  room : ∀ later i value r earlier, c.log = later ++ (i,⟨.writeSend1 value,r⟩) :: earlier →
    (∃ n, i = .sender n) ∧
      ∃ s, (mailbox.startingAt s₀).Trace guard s earlier ∧ s.inbox.length < s.capacity
  /-- The firmware finds what was enqueued, in that order. -/
  queue : s₀.inbox ++ logged enqueued c.log = logged dequeued c.log ++ c.state.inbox
  /-- Each sender enqueued the items of its calls that returned 0, in their
  order, and at most the one of the call it is in. -/
  own : ∀ n, Flight (own (.sender n) c.log)
  /-- A sender between two calls has nothing in flight. -/
  between : ∀ n, c.thread (.sender n) = .ret () → Even (AgxOpen.own (.sender n) c.log)
  /-- A call returns 0 with its item enqueued, or `-ETIMEDOUT` with nothing written. -/
  outcome : ∀ n later ret r earlier,
    AgxOpen.own (.sender n) c.log = later ++ ⟨.mark (.returned ret),r⟩ :: earlier → Outcome ret earlier

theorem even_between {c : Config Party Op Res World} {n : ℕ} (hc : mailbox.Reach guard c)
    (hn : c.thread (.sender n) = .ret ()) : Even (AgxOpen.own (.sender n) c.log) := by
  have hi := (hc.lawful disciplined).2 (.sender n)
  rw [hn] at hi
  exact hi.2

/-- The mutex and the poll keep any number of senders apart. -/
theorem delivers {c : Config Party Op Res World} (h₀ : Initialized s₀)
    (hc : (mailbox.startingAt s₀).Reach guard c) : Delivers guard s₀ c := by
  have hd : mailbox.Reach guard c := hc.of_startingAt h₀
  obtain ⟨hl,-⟩ := hd.lawful disciplined
  refine ⟨?_,conserved_of hc.trace,flight_of hd.trace hl,fun n => even_between hd,?_⟩
  · intro later i value r earlier he
    have ht := hc.trace
    rw [he] at ht hl
    obtain ⟨t,u,ht',-,ha,-⟩ := ht.split
    cases i with
    | sender n =>
      obtain ⟨endpoint,data,hp,-,rfl,-⟩ := hl.split
      exact ⟨⟨n,rfl⟩,t,ht',(accepted_item (ht'.of_startingAt h₀) hl.of_append.2 hp ha).1⟩
    | firmware => exact hl.split.elim
  · intro n later ret r earlier he
    have ha := hl.along (.sender n)
    rw [he] at ha
    exact ha.of_append.1

def World.reply (s : World) (pick : Bool) : (op : Op) → Option (Res op)
  | .lock _ => if s.owner = none then some () else none
  | .pollReads => some (if pick then 1 else 0)
  | .readControl => some (if s.capacity ≤ s.inbox.length then controlFullBit else 0#32)
  | .pollLate => some (!pick)
  | .writeSend1 value => some (s.accepts value)
  | .take => some s.inbox.head?
  | .unlock => some ()
  | .writeSend0 _ => some ()
  | .mark _ => some ()

def World.answer (pick : Bool) (s : World) (op : Op) : Option (Res op × World) :=
  (s.reply pick op).map fun r => (r,s.after op r)

theorem World.answer_step {pick : Bool} {op : Op} {r : Res op} (h : s.answer pick op = some (r,t)) :
    s.step op r t := by
  obtain ⟨r',hr,he⟩ := Option.map_eq_some_iff.mp h
  obtain ⟨rfl,rfl⟩ := Prod.mk.inj he
  refine ⟨?_,rfl⟩
  cases op with
  | lock owner => exact (Option.ite_none_right_eq_some.mp hr).1
  | readControl =>
    obtain rfl := Option.some.inj hr
    by_cases hfull : s.capacity ≤ s.inbox.length
    · simp [World.allows, hfull, controlFull, controlFullBit]
    · simp [World.allows, hfull, controlFull, controlFullBit]
  | writeSend1 | take => exact (Option.some.inj hr).symm
  | _ => trivial

/-- An inbox for one item. -/
def oneRoom : World := ⟨none,0#64,[],1⟩

/-- The second sender waits for the mutex and times out, and succeeds behind a
read of the firmware. -/
def twoSenders : List (Threads.Turn Party Call) :=
  [.start (.sender 0) (.send 0x121#32 5#64),.start (.sender 1) (.send 0x20#32 6#64),
   .acts (.sender 0) 3 true,.acts (.sender 1) 1 true,.acts (.sender 0) 6 true,
   .acts (.sender 1) 5 true,.start .firmware .take,.acts .firmware 1 true,
   .start (.sender 1) (.send 0x20#32 7#64),.acts (.sender 1) 9 true]

theorem delivers_twoSenders : ∃ c : Config Party Op Res World,
    logged enqueued c.log = [(0x21#32,5#64),(0x20#32,7#64)] ∧ c.log.length = 25 ∧
      Delivers (fun _ _ _ _ => True) oneRoom c := by
  have hrun : (mailbox.turns (fun _ _ _ _ => True) World.answer ⟨oneRoom,mailbox.first,[]⟩
      twoSenders).any (fun c => logged enqueued c.log == [(0x21#32,5#64),(0x20#32,7#64)] &&
        c.log.length == 25) = true := by decide +kernel
  obtain ⟨c,hc,he⟩ := Threads.reach_of_turns (fun _ _ _ _ _ => World.answer_step) hrun
  simp only [Bool.and_eq_true, beq_iff_eq] at he
  exact ⟨c,he.1,he.2,delivers rfl hc⟩

end AgxOpen.Mailbox
