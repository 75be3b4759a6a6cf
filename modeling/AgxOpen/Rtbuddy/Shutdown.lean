import AgxOpen.Rtbuddy.Negotiation

/-!
# The requests of the shutdown and their acknowledgements

Remove waits for the answer to each request. The wait is the one boot uses, so a
recorded protocol error ends it as an acknowledgement or the timeout does, and
the error may be much older than the request.
-/
namespace AgxOpen

namespace Rtkit.Power
open Rtbuddy

def stage : Power → Rtbuddy.Stage
  | ap => .apAck
  | iop => .iopAck

/-- The shutdown's request. -/
def request : Power → U64
  | ap => apPowerMsg pwrQuiesced
  | iop => iopPowerMsg pwrSleep

def ackWrite : Power → Update → Option Bool
  | ap, .apAcked value => some value
  | iop, .iopAcked value => some value
  | _, _ => none

end Rtkit.Power

namespace Rtbuddy
open Rtkit

variable {guard : World → RunLog → Party → Op → Prop} {s : World} {log : RunLog}

/-- Between the request and now an acknowledgement was processed or the wait
timed out. A request is made when the thread takes back the flag, the newest
entry of `asked`. -/
def Answered (p : Power) (asked since : RunLog) : Prop :=
  (∃ l₂ l₁ m, since = l₂ ++ (.irq,⟨.rtkit (p.acked true),()⟩) :: l₁ ∧ msgType m = p.ackType ∧
    current (own .irq (l₁ ++ asked)) = some (epMgmt,m)) ∨
  (.main,(⟨.wait p.stage,(0 : ℕ)⟩ : Ev)) ∈ since

/-- A protocol error was recorded. -/
def Failed (log : RunLog) : Prop :=
  ∃ i e, e ≠ (0 : ℤ) ∧ (i,(⟨.rtkit (.fail e),()⟩ : Ev)) ∈ log

/-- The interrupt is released or the run bit of the CPU is cleared. -/
def Stops (op : Op) : Prop :=
  op = .freeIrq ∨ ∃ ctrl, op = .writeCtrl ctrl ∧ ctrl &&& cpuCtrlRun = 0#32

/-- What has to end the wait before the shutdown goes on: SLEEP waits for the
answer to QUIESCED, the interrupt and the CPU for the answer to SLEEP. -/
structure ShutdownOrder (ends : Power → RunLog → RunLog → Prop) (log : RunLog) : Prop where
  sleep : ∀ later (r : ℤ) since before,
    log = later ++ (.main,⟨.send epMgmt (iopPowerMsg pwrSleep),r⟩) ::
      (since ++ (.main,⟨.rtkit (.apAcked false),()⟩) :: before) →
    (.main,(⟨.send epMgmt (apPowerMsg pwrQuiesced),(0 : ℤ)⟩ : Ev)) ∈ since →
      ends .ap ((.main,⟨.rtkit (.apAcked false),()⟩) :: before) since
  stop : ∀ later (a : Ev) since before,
    log = later ++ (.main,a) :: (since ++ (.main,⟨.rtkit (.iopAcked false),()⟩) :: before) →
    Stops a.op → (.main,(⟨.send epMgmt (iopPowerMsg pwrSleep),(0 : ℤ)⟩ : Ev)) ∈ since →
      ends .iop ((.main,⟨.rtkit (.iopAcked false),()⟩) :: before) since

theorem ackWrite_field (p : Power) : CoreField p.isAcked p.ackWrite := by
  intro k u
  cases p <;> cases u <;> rfl

theorem ackWrite_eq {p : Power} {u : Update} {value : Bool} (h : p.ackWrite u = some value) :
    u = p.acked value := by
  cases p <;> cases u <;> first | exact Option.some.inj h ▸ rfl | contradiction

theorem acked_law {p : Power} {i : Party} {h : Hist} (hl : law i h (.rtkit (p.acked true))) :
    i = .irq ∧ Handles h p.ackType fun _ => True := by
  cases p <;> cases i with
  | irq => exact ⟨rfl,(hl.resolve_left (by simp)).2.2⟩
  | main => cases (hl : true = false)
  | _ => exact hl.elim

/-- A flag set behind the request was set for an acknowledgement processed since. -/
theorem answered_of_acked (p : Power) {since before : RunLog} (ht : Ran guard s log)
    (hl : Lawful law log)
    (hlog : log = since ++ (.main,⟨.rtkit (p.acked false),()⟩) :: before)
    (ha : p.isAcked s.rb.rtkit = true) :
    Answered p ((.main,⟨.rtkit (p.acked false),()⟩) :: before) since := by
  have hne : p.isAcked s.rb.rtkit ≠ false := by simp [ha]
  obtain ⟨l₂,i,u,l,hsplit,hset,hlater⟩ := core_stored ht (ackWrite_field p)
    (by cases p <;> rfl) hne
  rw [ha] at hset
  obtain rfl := ackWrite_eq hset
  have hclear : coreStore p.ackWrite ⟨.rtkit (p.acked false),()⟩ = some false := by
    cases p <;> rfl
  obtain ⟨mid,rfl,rfl⟩ := split_ahead (hsplit.symm.trans hlog)
    (fun hm => by simp [hlater _ hm] at hclear) (by cases p <;> simp [Power.acked])
  rw [hsplit] at hl
  obtain ⟨rfl,m,hc,htype,-⟩ := acked_law hl.split
  exact .inl ⟨l₂,mid,m,rfl,htype,hc⟩

/-- The thread waited for the answer to the request it made. -/
theorem answered_of_awaited (p : Power) {since before : RunLog} (ht : Ran guard s log)
    (hl : Lawful law log)
    (hlog : log = since ++ (.main,⟨.rtkit (p.acked false),()⟩) :: before)
    (hw : Awaited p.stage (own .main log)) :
    Answered p ((.main,⟨.rtkit (p.acked false),()⟩) :: before) since ∨ Failed log := by
  obtain ⟨l,r,e,he,hc⟩ := hw
  obtain ⟨after,rest,hsplit,rfl,-⟩ := own_split he
  have hclears : Clears p.stage (.rtkit (p.acked false)) := by cases p <;> rfl
  obtain ⟨mid,rfl,rfl⟩ := split_ahead (hsplit.symm.trans hlog)
    (fun hm => hc _ (mem_own.mpr hm) hclears) (by simp)
  rw [hsplit] at ht hl
  obtain ⟨t,_,ht',-,hallow,-⟩ := ht.split
  obtain rfl | hdone | herr := hallow
  · exact .inl (.inr (List.mem_append_right _ List.mem_cons_self))
  · have hflag : p.isAcked t.rb.rtkit = true := by cases p <;> exact hdone
    refine .inl ((answered_of_acked p ht' hl.of_append.2 rfl hflag).imp ?_ ?_)
    · rintro ⟨l₂,l₁,m,rfl,hm⟩
      exact ⟨after ++ (.main,⟨.wait p.stage,r⟩) :: l₂,l₁,m,by simp,hm⟩
    · exact fun hm => List.mem_append_right _ (List.mem_cons_of_mem _ hm)
  · obtain ⟨i,e,hne,hm⟩ := (error_iff ht').mp herr
    refine .inr ⟨i,e,hne,?_⟩
    rw [hsplit]
    exact List.mem_append_right _ (List.mem_cons_of_mem _ hm)

/-- Orderly shutdown: the shutdown goes on behind a request that was sent only
when an acknowledgement was processed, the wait timed out, or an error is recorded. -/
theorem shutdown_order {c : Config Party Op Res World} (h : driver.Reachable c) :
    ShutdownOrder (fun p asked since => Answered p asked since ∨ Failed (since ++ asked)) c.log := by
  have hl := reach_lawful h
  have ht := h.trace
  constructor
  · intro later r since before hlog hsent
    rw [hlog] at hl ht
    obtain ⟨t,-,ht',-⟩ := ht.split
    have hl' := hl.of_append.2
    obtain ⟨-,hs⟩ := hl.split
    have hq : Sent (apPowerMsg pwrQuiesced)
        (own .main (since ++ (.main,⟨.rtkit (.apAcked false),()⟩) :: before)) :=
      mem_own.mpr (List.mem_append_left _ hsent)
    refine answered_of_awaited .ap ht' hl' rfl ?_
    generalize hm : iopPowerMsg pwrSleep = m at hs
    cases hs with
    | sleep hr hc hw => exact hw hq
    | startep =>
      have htype := congrArg msgType hm
      rw [msgType_iopPowerMsg, msgType_startepMsg] at htype
      exact absurd htype (by decide)
    | _ => exact absurd hm (by decide)
  · intro later a since before hlog hstop hsent
    rw [hlog] at hl ht
    obtain ⟨t,-,ht',-⟩ := ht.split
    have hl' := hl.of_append.2
    have hs : Sent (iopPowerMsg pwrSleep)
        (own .main (since ++ (.main,⟨.rtkit (.iopAcked false),()⟩) :: before)) :=
      mem_own.mpr (List.mem_append_left _ hsent)
    refine answered_of_awaited .iop ht' hl' rfl ?_
    obtain ⟨op,x⟩ := a
    have hlaw := hl.split
    obtain rfl | ⟨ctrl,rfl,h0⟩ := hstop
    · exact hlaw hs
    · exact hlaw.1 h0 hs

/-- A boot and a remove with a firmware that answers both requests. -/
def orderlyShutdown : Schedule :=
  goodBoot ++ [.acts .main 4 true] ++ delivers (apAckMsg pwrQuiesced) ++ interrupt 14 ++
    [.acts .main 4 true] ++ delivers (iopAckMsg pwrSleep) ++ interrupt 14 ++ [.acts .main 19 true]

theorem shutdown_order_good : ∃ c : Config Party Op Res World,
    ShutdownOrder (fun p asked since => Answered p asked since ∨ Failed (since ++ asked)) c.log ∧
      (inbox c.log).reverse =
        goodInbox ++ [(epMgmt,apPowerMsg pwrQuiesced),(epMgmt,iopPowerMsg pwrSleep)] ∧
      c.state.irqRegistered = false ∧ c.state.cpuCtrl = 0#32 := by
  obtain ⟨c,hc,he⟩ := reach_of_schedule (fun _ _ _ _ => True) orderlyShutdown
    (fun c => (inbox c.log).reverse ==
        goodInbox ++ [(epMgmt,apPowerMsg pwrQuiesced),(epMgmt,iopPowerMsg pwrSleep)] &&
      !c.state.irqRegistered && c.state.cpuCtrl == 0#32) (by decide +kernel)
  simp only [Bool.and_eq_true, beq_iff_eq, Bool.not_eq_eq_eq_not, Bool.not_true] at he
  exact ⟨c,shutdown_order hc,he.1.1,he.1.2,he.2⟩

/-- The newest acts of the thread ask for QUIESCED, find the wait over, and ask for SLEEP. -/
def sleepsAtOnce : RunLog → Bool
  | (.main,⟨.send e m,_⟩) :: (.main,⟨.rtkit (.iopAcked false),_⟩) :: (.main,⟨.load,_⟩) ::
      (.main,⟨.wait .apAck,left⟩) :: (.main,⟨.send e' m',r⟩) ::
      (.main,⟨.rtkit (.apAcked false),_⟩) :: _ =>
    e == epMgmt && m == iopPowerMsg pwrSleep && left != (0 : ℕ) &&
      e' == epMgmt && m' == apPowerMsg pwrQuiesced && r == (0 : ℤ)
  | _ => false

theorem sleepsAtOnce_split (h : sleepsAtOnce log = true) :
    ∃ (r : ℤ) (x : Rtbuddy) (left : ℕ) (before : RunLog), left ≠ 0 ∧
      log = (.main,⟨.send epMgmt (iopPowerMsg pwrSleep),r⟩) ::
        ([(.main,⟨.rtkit (.iopAcked false),()⟩),(.main,⟨.load,x⟩),(.main,⟨.wait .apAck,left⟩),
          (.main,⟨.send epMgmt (apPowerMsg pwrQuiesced),(0 : ℤ)⟩)] ++
            (.main,⟨.rtkit (.apAcked false),()⟩) :: before) := by
  unfold sleepsAtOnce at h
  split at h
  · simp only [Bool.and_eq_true, beq_iff_eq, bne_iff_ne] at h
    obtain ⟨⟨⟨⟨⟨rfl,rfl⟩,hleft⟩,rfl⟩,rfl⟩,rfl⟩ := h
    exact ⟨_,_,_,_,hleft,rfl⟩
  · contradiction

/-- A request for a buffer of no size leaves an error for the rest of the run. -/
def failedRequest : Schedule :=
  goodBoot ++ delivers (bufferMsg 0#64) 2#64 ++ interrupt 13 ++ [.acts .main 8 true]

/-- Behind an old error SLEEP is sent with QUIESCED neither answered nor timed out. -/
theorem shutdown_unanswered : ∃ c : Config Party Op Res World, driver.Reachable c ∧
    0 ∈ bootResults c.log ∧ ¬ ShutdownOrder Answered c.log := by
  obtain ⟨c,hc,he⟩ := reach_of_schedule (fun _ _ _ _ => True) failedRequest
    (fun c => bootResults c.log == [0] && sleepsAtOnce c.log) (by decide +kernel)
  simp only [Bool.and_eq_true, beq_iff_eq] at he
  obtain ⟨hb,hs⟩ := he
  obtain ⟨r,x,left,before,hleft,hlog⟩ := sleepsAtOnce_split hs
  refine ⟨c,hc,?_,fun ho => ?_⟩
  · rw [hb]
    exact List.mem_singleton_self 0
  obtain ⟨l₂,l₁,m,hsince,-⟩ | hwait := ho.sleep [] r _ before hlog (by simp)
  · have hm : (.irq,(⟨.rtkit (Power.ap.acked true),()⟩ : Ev)) ∈ l₂ ++
        (.irq,⟨.rtkit (Power.ap.acked true),()⟩) :: l₁ :=
      List.mem_append_right _ List.mem_cons_self
    rw [← hsince] at hm
    simp at hm
  · simp [Power.stage, Ne.symm hleft] at hwait

end Rtbuddy
end AgxOpen
