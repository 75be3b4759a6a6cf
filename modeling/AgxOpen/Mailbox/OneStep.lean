import AgxOpen.Mailbox.Senders
import AgxOpen.Rtbuddy.BootOrder

/-!
# A send as one operation of the driver

The driver's model takes `agx_mailbox_send` as one operation. Here each call, made of
register accesses among those of other senders, becomes that operation at one moment
between its begin and its return: where it writes `SEND1`, or where it gives up.
-/
namespace AgxOpen.Mailbox
open Rtbuddy (entered)

variable {guard : World → RunLog → Party → Op → Prop} {h : Hist} {s₀ s : World} {log : RunLog}
  {n : ℕ}

/-- The driver's operation of a call with this result. -/
def sendAct (call : U32 × U64) (ret : ℤ) : Rtbuddy.Ev := ⟨.send call.1 call.2,ret⟩

/-- The operation that an access completes, behind the thread's history. -/
def moment (h : Hist) : Ev → Option Rtbuddy.Ev
  | ⟨.writeSend1 _,_⟩ => (callsOf h).current.map (sendAct · 0)
  | ⟨.mark (.returned ret),_⟩ =>
    if ret = 0 then none else (callsOf h).current.map (sendAct · ret)
  | _ => none

/-- The driver's operations in a run of the register accesses, newest first. -/
def sendsOf : RunLog → Log ℕ Rtbuddy.Op Rtbuddy.Res
  | [] => []
  | (.sender n,a) :: log =>
    ((moment (own (.sender n) log) a).map (Prod.mk n)).toList ++ sendsOf log
  | (.firmware,_) :: log => sendsOf log

/-- The calls that returned, each as one operation. -/
def returned : Hist → List Rtbuddy.Ev
  | [] => []
  | ⟨.mark (.returned ret),_⟩ :: h =>
    ((callsOf h).current.map (sendAct · ret)).toList ++ returned h
  | _ :: h => returned h

/-- A thread's operations are those of its calls that returned, and the call it is in has
made its own as soon as its item is in the inbox. -/
def Made (h : Hist) (acts : List Rtbuddy.Ev) : Prop :=
  Even h ∧ acts = returned h ∨
    ∃ call, (callsOf h).current = some call ∧
      itemsOf enqueued h = (callsOf h).succeeded ++ [itemOf call.1 call.2] ∧
      acts = sendAct call 0 :: returned h

theorem own_sends_cons (a : Ev) : own n (sendsOf ((.sender n,a) :: log)) =
    (moment (own (.sender n) log) a).toList ++ own n (sendsOf log) := by
  rw [sendsOf, own_append]
  cases moment (own (.sender n) log) a with
  | none => rfl
  | some act => exact congrArg (· ++ _) (own_cons_self n act [])

theorem own_sends_other {i : Party} (hi : i ≠ .sender n) (a : Ev) :
    own n (sendsOf ((i,a) :: log)) = own n (sendsOf log) := by
  cases i with
  | sender m =>
    have hm : m ≠ n := fun he => hi (congrArg Party.sender he)
    rw [sendsOf, own_append]
    cases moment (own (.sender m) log) a with
    | none => rfl
    | some act => exact congrArg (· ++ _) (own_cons_ne hm act [])
  | firmware => rfl

theorem Made.even {acts : List Rtbuddy.Ev} (hm : Made h acts) (he : Even h) : acts = returned h := by
  obtain ⟨-,ha⟩ | ⟨call,-,hitems,-⟩ := hm
  · exact ha
  · rw [show itemsOf enqueued h = _ from he] at hitems
    simp at hitems

theorem Made.uneven {acts : List Rtbuddy.Ev} {call : U32 × U64} (hm : Made h acts)
    (hcur : (callsOf h).current = some call)
    (hitems : itemsOf enqueued h = (callsOf h).succeeded ++ [itemOf call.1 call.2]) :
    acts = sendAct call 0 :: returned h := by
  obtain ⟨he,-⟩ | ⟨call',hcur',-,ha⟩ := hm
  · rw [show itemsOf enqueued h = _ from he] at hitems
    simp at hitems
  · obtain rfl := Option.some.inj (hcur.symm.trans hcur')
    exact ha

/-- A return completes a call that failed, and one that succeeded was complete already. -/
theorem Made.returned {acts : List Rtbuddy.Ev} {ret : ℤ} (hm : Made h acts) (ho : Outcome ret h) :
    Made (⟨.mark (.returned ret),()⟩ :: h)
      ((moment h ⟨.mark (.returned ret),()⟩).toList ++ acts) := by
  refine .inl ⟨ho.even,?_⟩
  obtain ⟨endpoint,data,hcur,⟨rfl,hitems⟩ | ⟨rfl,he,-⟩⟩ := ho
  · rw [hm.uneven hcur hitems, moment, if_pos rfl, Mailbox.returned, hcur]
    rfl
  · rw [hm.even he, moment, if_neg (by decide), Mailbox.returned, hcur]

/-- Every access keeps the operations and the calls in step. -/
theorem made_of (ht : mailbox.Trace guard s log) (hl : Lawful law log) (n : ℕ) :
    Made (own (.sender n) log) (own n (sendsOf log)) := by
  induction ht with
  | init => exact .inl ⟨rfl,rfl⟩
  | @act s log i op r t ht _ hs ih =>
    have hrest := ih hl.2
    by_cases hi : i = .sender n
    · subst hi
      rw [own_cons_self, own_sends_cons]
      have hlaw : senderLaw n (own (.sender n) log) op := hl.1
      cases op with
      | writeSend1 value =>
        obtain ⟨endpoint,data,hp,hcur,rfl,heven⟩ := hlaw
        obtain ⟨-,rfl⟩ := accepted_item ht hl.2 hp hs.1
        refine .inr ⟨(endpoint,data),hcur,?_,?_⟩
        · rw [itemsOf_cons]
          exact congrArg (· ++ [itemOf endpoint data]) heven
        · rw [hrest.even heven, moment, hcur]
          rfl
      | mark m =>
        cases m with
        | called endpoint data =>
          refine .inl ⟨?_,hrest.even hlaw⟩
          rw [Even, itemsOf_cons]
          exact (List.append_nil _).trans hlaw
        | returned ret => exact hrest.returned hlaw
      | take => exact hlaw.elim
      | _ =>
        obtain ⟨he,ha⟩ | ⟨call,hcur,hitems,ha⟩ := hrest
        · refine .inl ⟨?_,ha⟩
          rw [Even, itemsOf_cons]
          exact (List.append_nil _).trans he
        · refine .inr ⟨call,hcur,?_,ha⟩
          rw [itemsOf_cons]
          exact (List.append_nil _).trans hitems
    · rwa [own_cons_ne hi, own_sends_other hi]

/-- The operations put into the inbox what the accesses put there. -/
theorem entered_of (ht : mailbox.Trace guard s log) (hl : Lawful law log) :
    (sendsOf log).filterMap (fun x => entered x.2) = (log.map Prod.snd).filterMap enqueued := by
  induction ht with
  | init => rfl
  | @act s log i op r t ht _ hs ih =>
    have hrest := ih hl.2
    cases i with
    | sender n =>
      rw [sendsOf, List.filterMap_append, hrest, List.map_cons, List.filterMap_cons]
      have hlaw : senderLaw n (own (.sender n) log) op := hl.1
      cases op with
      | writeSend1 value =>
        obtain ⟨endpoint,data,hp,hcur,rfl,-⟩ := hlaw
        obtain ⟨-,rfl⟩ := accepted_item ht hl.2 hp hs.1
        rw [moment, hcur]
        rfl
      | mark m =>
        cases m with
        | called endpoint data => rfl
        | returned ret =>
          obtain ⟨endpoint,data,hcur,⟨rfl,-⟩ | ⟨rfl,-⟩⟩ := hlaw
          · rfl
          · rw [moment, hcur]
            rfl
      | take => exact hlaw.elim
      | _ => rfl
    | firmware =>
      cases op with
      | take => exact hrest
      | _ => exact hl.1.elim

/-- Each operation is one of the driver's, with an answer that its world allows. -/
theorem sends_allowed (hl : Lawful law log) (w : Rtbuddy.World) :
    ∀ x ∈ sendsOf log, ∃ endpoint message ret, x.2 = ⟨.send endpoint message,ret⟩ ∧
      w.step (.send endpoint message) ret w := by
  induction log with
  | nil => simp [sendsOf]
  | cons e log ih =>
    obtain ⟨i,op,r⟩ := e
    cases i with
    | firmware => exact ih hl.2
    | sender n =>
      refine List.forall_mem_append.mpr ⟨fun x hx => ?_,ih hl.2⟩
      obtain ⟨act,hact,rfl⟩ := Option.map_eq_some_iff.mp (Option.mem_toList.mp hx)
      have hlaw : senderLaw n (own (.sender n) log) op := hl.1
      cases op with
      | writeSend1 value =>
        obtain ⟨call,-,rfl⟩ := Option.map_eq_some_iff.mp hact
        exact ⟨_,_,0,rfl,.inl rfl,rfl⟩
      | mark m =>
        cases m with
        | called endpoint data => contradiction
        | returned ret =>
          obtain ⟨hne,hact⟩ := Option.ite_none_left_eq_some.mp hact
          obtain ⟨call,-,rfl⟩ := Option.map_eq_some_iff.mp hact
          obtain ⟨endpoint,data,-,⟨h0,-⟩ | ⟨hret,-⟩⟩ := hlaw
          · exact absurd h0 hne
          · exact ⟨_,_,ret,rfl,.inr hret,rfl⟩
      | _ => contradiction

/-- What the driver's model says of the sends in a run from `s₀`. -/
structure OneStep (s₀ : World) (c : Config Party Op Res World) : Prop where
  /-- Every operation leaves the driver's world as it is, with 0 or `-ETIMEDOUT`. -/
  allowed : ∀ w : Rtbuddy.World, ∀ x ∈ sendsOf c.log, ∃ endpoint message ret,
    x.2 = ⟨.send endpoint message,ret⟩ ∧ w.step (.send endpoint message) ret w
  /-- The firmware finds what entered the inbox with them, in that order. -/
  queue : s₀.inbox ++ ((sendsOf c.log).filterMap fun x => entered x.2).reverse =
    logged dequeued c.log ++ c.state.inbox
  /-- Each call is one operation, with the call's result. -/
  made : ∀ n, Made (own (.sender n) c.log) (own n (sendsOf c.log))
  /-- A sender between two calls has nothing more than the calls that returned. -/
  between : ∀ n, c.thread (.sender n) = .ret () →
    own n (sendsOf c.log) = returned (own (.sender n) c.log)

/-- Any number of senders, access by access, send as the driver's model does at once. -/
theorem sends_one_step {c : Config Party Op Res World} (h₀ : Initialized s₀)
    (hc : (mailbox.startingAt s₀).Reach guard c) : OneStep s₀ c := by
  have hd : mailbox.Reach guard c := hc.of_startingAt h₀
  obtain ⟨hl,-⟩ := hd.lawful disciplined
  have hmade := made_of hd.trace hl
  refine ⟨sends_allowed hl,?_,hmade,fun n hn => (hmade n).even (even_between hd hn)⟩
  rw [entered_of hd.trace hl]
  exact conserved_of hc.trace

end AgxOpen.Mailbox
