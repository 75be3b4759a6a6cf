import AgxOpen.Rtkit.RollCall

/-!
# One disposition for each message

A received message is delivered, recorded as unknown or handled, and whatever is
sent meanwhile goes back to its endpoint.
-/
namespace AgxOpen.Rtkit
open Program

variable {has : Callbacks} {s t u : Rtkit} {acts during : List CoreAct} {calls : List CoreDone}
  {endpoint : U32} {message : U64} {h : Handler} {ret : ℤ}

/-- What the application callback was given. -/
def delivered : CoreAct → Option (U32 × U64)
  | ⟨.app endpoint message,_⟩ => some (endpoint,message)
  | _ => none

/-- What was recorded as unknown. -/
def recorded : CoreAct → Option U64
  | ⟨.store (.lastUnknown message),_⟩ => some message
  | _ => none

/-- What the buffer callback was asked for. -/
def asked : CoreAct → Option (U32 × U64 × U64)
  | ⟨.buffer endpoint size iova,_⟩ => some (endpoint,size,iova)
  | _ => none

/-- The fields that only handlers change, the two counters of `agx_rtkit_rx` and
the record of unknown messages aside. -/
def protocol (s : Rtkit) : Rtkit := { s with
  rxCount := 0#64
  strayCount := 0#64
  unknownCount := 0#64
  lastUnknown := 0#64 }

/-- The call did what the message's disposition says, and nothing else. -/
structure Disposed (has : Callbacks) (endpoint : U32) (message : U64) (d : Disposition) (s : Rtkit)
    (acts : List CoreAct) (u : Rtkit) : Prop where
  ran : ∃ before during, acts = before ++ during ∧ (∀ a ∈ before, Counts a.op) ∧
    (d.run (corePort has) endpoint message).Runs step (counted s endpoint) during () u
  app : acts.filterMap delivered = if d = .app then [(endpoint,message)] else []
  unknown : acts.filterMap recorded = if d = .unknown then [message] else []
  last : u.lastUnknown = if d = .unknown then message else s.lastUnknown
  count : d = .unknown → u.unknownCount = s.unknownCount + 1#64
  back : ∀ x ∈ acts.filterMap sent, x.1 = endpoint
  frame : d = .app ∨ d = .unknown → protocol u = protocol s ∧
    acts.filterMap sent = [] ∧ acts.filterMap asked = []

/-- The operations of the handlers. -/
def Serves : Op → Prop
  | .store .rxCount | .store .strayCount | .store (.lastUnknown _) | .app _ _ => False
  | _ => True

theorem serves_handler (hsel : select has.app endpoint message = .handler h) :
    Only Serves (h.run (corePort has) endpoint message) := by
  refine only_coreHandler trivial (fun _ => trivial) (fun _ _ => trivial) (fun _ => trivial) hsel ?_
  intro v hv
  cases v with
  | rxCount | strayCount | lastUnknown => cases h <;> contradiction
  | _ => trivial

theorem serves_after {op : Op} (hop : Serves op) (s : Rtkit) :
    ((after s op).rxCount,(after s op).strayCount,(after s op).lastUnknown) =
      (s.rxCount,s.strayCount,s.lastUnknown) := by
  cases op with
  | store v => cases v <;> first | rfl | exact hop.elim
  | _ => rfl

theorem delivered_none {a : CoreAct} (ha : Serves a.op) : delivered a = none := by
  obtain ⟨op,r⟩ := a
  cases op with
  | app => exact ha.elim
  | _ => rfl

theorem recorded_none {a : CoreAct} (ha : Serves a.op) : recorded a = none := by
  obtain ⟨op,r⟩ := a
  cases op with
  | store v => cases v <;> first | rfl | exact ha.elim
  | _ => rfl

/-- The counters leave no trace in the lists of what was done. -/
theorem counts_none {a : CoreAct} (ha : Counts a.op) :
    sent a = none ∧ asked a = none ∧ delivered a = none ∧ recorded a = none := by
  obtain ⟨op,r⟩ := a
  cases op with
  | load => exact ⟨rfl,rfl,rfl,rfl⟩
  | store v => cases v <;> first | exact ⟨rfl,rfl,rfl,rfl⟩ | exact ha.elim
  | _ => exact ha.elim

/-- The counters hold what they got in front of the dispatch. -/
def Counted (s u : Rtkit) (endpoint : U32) : Prop :=
  u.rxCount = s.rxCount + 1#64 ∧ u.strayCount = (counted s endpoint).strayCount

theorem disposed (hr : (program has (.rx endpoint message)).Runs step s acts ret u) :
    Counted s u (endpoint &&& 0xff#32) ∧ Disposed has (endpoint &&& 0xff#32) message
      (select has.app (endpoint &&& 0xff#32) message) s acts u := by
  obtain ⟨before,during,rfl,hb,hd⟩ := rx_runs hr
  have hbehind {β : Type} {f : CoreAct → Option β} (hf : ∀ a, Counts a.op → f a = none) :
      (before ++ during).filterMap f = during.filterMap f := behind_counters hb hf
  have hsent := hbehind fun a ha => (counts_none ha).1
  have hasked := hbehind fun a ha => (counts_none ha).2.1
  have hdelivered := hbehind fun a ha => (counts_none ha).2.2.1
  have hrecorded := hbehind fun a ha => (counts_none ha).2.2.2
  have hran := hd
  cases hsel : select has.app (endpoint &&& 0xff#32) message with
  | app =>
    rw [hsel] at hd hran
    obtain ⟨rfl,rfl⟩ := app_runs hsel hd
    exact ⟨⟨rfl,rfl⟩,⟨before,_,rfl,hb,hran⟩,hdelivered,hrecorded,rfl,by simp,by simp [hsent, sent],
      fun _ => ⟨rfl,hsent,hasked⟩⟩
  | unknown =>
    rw [hsel] at hd hran
    obtain ⟨rfl,rfl⟩ := unknown_runs hd
    exact ⟨⟨rfl,rfl⟩,⟨before,_,rfl,hb,hran⟩,hdelivered,hrecorded,rfl,fun _ => rfl,by simp [hsent, sent],
      fun _ => ⟨rfl,hsent,hasked⟩⟩
  | handler h =>
    rw [hsel] at hd hran
    have hserves := hd.only (serves_handler hsel)
    have hkept := Runs.field hd (serves_handler hsel) (fun s => (s.rxCount,s.strayCount,s.lastUnknown))
      fun s op hop => serves_after hop s
    simp only [Prod.mk.injEq] at hkept
    refine ⟨⟨hkept.1,hkept.2.1⟩,⟨before,during,rfl,hb,hran⟩,?_,?_,hkept.2.2,by simp,?_,by simp⟩
    · rw [hdelivered]
      exact List.filterMap_eq_nil_iff.mpr fun a ha => delivered_none (hserves a ha)
    · rw [hrecorded]
      exact List.filterMap_eq_nil_iff.mpr fun a ha => recorded_none (hserves a ha)
    · rw [hsent]
      intro x hx
      obtain ⟨e,m,r⟩ := x
      exact hd.only (back_handler hsel) _ (mem_sent.mp hx)

/-- Every message is counted, counted as stray if its endpoint was not announced,
and gets the one disposition its endpoint and type select. -/
theorem one_disposition (hrun : CoreRun has calls s)
    (hr : (program has (.rx endpoint message)).Runs step s acts ret u) :
    u.rxCount = s.rxCount + 1#64 ∧
    u.strayCount = s.strayCount + (if endpoint &&& 0xff#32 ≠ 0#32 ∧
      ¬ ∃ m ∈ epmaps calls, covers m (endpoint &&& 0xff#32) = true then 1#64 else 0#64) ∧
    Disposed has (endpoint &&& 0xff#32) message (select has.app (endpoint &&& 0xff#32) message) s
      acts u := by
  obtain ⟨⟨hcount,hstray⟩,hd⟩ := disposed hr
  refine ⟨hcount,?_,hd⟩
  have hknown : s.announced (endpoint &&& 0xff#32) = announcedBy (epmaps calls) (endpoint &&& 0xff#32) :=
    run_announced hrun announced_init _
  have hiff : announcedBy (epmaps calls) (endpoint &&& 0xff#32) = true ↔
      ¬ (endpoint &&& 0xff#32 ≠ 0#32 ∧ ¬ ∃ m ∈ epmaps calls, covers m (endpoint &&& 0xff#32) = true) := by
    simp [announcedBy, or_iff_not_imp_left]
  rw [hstray, counted, hknown]
  by_cases ha : announcedBy (epmaps calls) (endpoint &&& 0xff#32) = true
  · rw [if_neg (hiff.mp ha), if_pos ha, BitVec.add_zero]
  · rw [if_pos (not_not.mp (mt hiff.mpr ha)), if_neg ha]

theorem one_disposition_example : ∃ acts ret u,
    (program ⟨true,true,true⟩ (.rx epDoorbell 5#64)).Runs step init acts ret u ∧
    Disposed ⟨true,true,true⟩ epDoorbell 5#64 .app init acts u := by
  have hx : ((program ⟨true,true,true⟩ (.rx epDoorbell 5#64)).execute (answer noMemory) init).any
      (fun _ => true) = true := by decide +kernel
  obtain ⟨acts,ret,u,hrun,-⟩ := Program.execute_any (answer_step noMemory) hx
  exact ⟨acts,ret,u,hrun,(one_disposition (.nil init) hrun).2.2⟩

end AgxOpen.Rtkit
