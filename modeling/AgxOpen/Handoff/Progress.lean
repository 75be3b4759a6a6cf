import AgxOpen.Handoff.Exclusion

/-!
# The firmware never leaves the AP waiting

The mirrored routine has no way to give up: it passes the turn on before it clears its byte. An
AP that finds the firmware outside gets the lock by its own accesses, unless the next test
of its spin count ends the call.
-/
namespace AgxOpen.Handoff

/-- Inside `agx_handoff_lock`. -/
def ApPc.locking : ApPc → Bool
  | .raise | .readFw | .readTurn | .withdraw | .pollTurn | .reraise | .giveUp => true
  | _ => false

/-- Between a read of the firmware's raised byte and the next raise of its own. -/
def ApPc.yielding : ApPc → Bool
  | .readTurn | .withdraw | .pollTurn => true
  | _ => false

/-- The firmware has still to pass the turn on. -/
def FwPc.engaged : FwPc → Bool
  | .idle | .unlockFlag => false
  | _ => true

/-- The AP's own accesses, with no step of the firmware. -/
def State.apRun (s : State) : ℕ → State
  | 0 => s
  | n+1 => match next s .ap with
    | none => s
    | some t => t.apRun n

/-- The AP gets the lock by its own steps. -/
def State.ApEnters (s : State) : Prop := ∃ n, (s.apRun n).ap.pc.holds = true

/-- The call returns the timeout by the AP's own steps, with the byte down. -/
def State.ApTimesOut (s : State) : Prop := ∃ n, (s.apRun n).ap.pc = .idle ∧
  (s.apRun n).ap.ret = Status.etimedout ∧ (s.apRun n).mem.lockAp = 0#8

/-- The next test of the spin count ends the call. -/
def Ap.spent (a : Ap) : Bool :=
  match a.pc with
  | .giveUp => true
  | .readTurn | .withdraw | .pollTurn | .reraise => (spin a.maxSpins a.spins).isNone
  | _ => false

variable {s t : State} {l : Label} {m m' : Shared} {a a' : Ap} {f f' : FwPc} {p p' : ApPc}

/-- A firmware outside has passed the turn on to an AP that waits for it, and an AP gives up
only where there is a limit. -/
structure Handed (s : State) : Prop where
  passed : s.fw = .unlockFlag → s.mem.turn = 0#32
  owed : s.ap.pc.yielding = true → s.mem.turn ≠ 0#32 → s.fw.engaged = true
  limited : s.ap.pc = .giveUp → s.ap.maxSpins ≠ 0#32

theorem handed_initial (h : Initial s) : Handed s := by
  obtain ⟨-,-,hp,hw⟩ := h
  constructor <;> simp [hp, hw, Ap.init, ApPc.yielding]

/-- The AP changes the turn only while it holds the lock. -/
theorem ApMove.turn (h : ApMove m p m' p') : m'.turn = m.turn ∨ p.holds = true := by
  cases h <;> first | exact .inl rfl | exact .inr rfl

/-- How the AP comes to give way. -/
theorem ApMove.yielding (h : ApMove m p m' p') (hp : p'.yielding = true) :
    m'.turn = m.turn ∧ (p.yielding = true ∨ m.lockFw ≠ 0#8) := by
  cases h <;> simp_all [ApPc.yielding]

theorem Ap.again_limit (a : Ap) : a.again.maxSpins = a.maxSpins ∧
    (a.again.pc = .giveUp → a.maxSpins ≠ 0#32) := by
  unfold Ap.again
  split
  · next hspin =>
    refine ⟨rfl,fun _ h0 => ?_⟩
    rw [h0] at hspin
    contradiction
  · exact ⟨rfl,nofun⟩

/-- A call gives up only where it has a limit, and it keeps the limit. -/
theorem Ap.step_limit (h : a.step m = some (m',a')) : a'.maxSpins = a.maxSpins ∧
    (a'.pc = .giveUp → a.maxSpins ≠ 0#32) := by
  unfold Ap.step at h
  cases hp : a.pc
  all_goals
    simp only [hp, Option.some.injEq, Prod.mk.injEq, reduceCtorEq] at h
  all_goals
    obtain ⟨rfl,rfl⟩ := h
  case readTurn =>
    split_ifs
    · exact ⟨rfl,nofun⟩
    · exact a.again_limit
  case reraise => exact a.again_limit
  case readFw =>
    unfold Ap.enter
    split_ifs <;> exact ⟨rfl,nofun⟩
  case pollTurn =>
    split_ifs
    · split <;> exact ⟨rfl,nofun⟩
    · exact ⟨rfl,nofun⟩
  case pollMagic =>
    split_ifs
    · split <;> exact ⟨rfl,nofun⟩
    · exact ⟨rfl,nofun⟩
  case unlockFlag => split_ifs <;> exact ⟨rfl,nofun⟩
  case clear i => split_ifs <;> exact ⟨rfl,nofun⟩
  all_goals exact ⟨rfl,nofun⟩

theorem FwPc.engaged_of_raised (h : f.raised = true) (hf : f ≠ .unlockFlag) : f.engaged = true := by
  cases f <;> first | rfl | contradiction

/-- The firmware changes the turn to 0 only, and only with that it stops to be engaged. -/
theorem FwPc.step_turn (h : f.step m = some (m',f')) :
    (m'.turn = m.turn ∧ (f.engaged = true → f'.engaged = true) ∧ f' ≠ .unlockFlag) ∨ m'.turn = 0#32 := by
  cases f
  all_goals
    simp only [FwPc.step, Option.some.injEq, Prod.mk.injEq, reduceCtorEq] at h
  all_goals
    obtain ⟨rfl,rfl⟩ := h
    (try split_ifs) <;> simp_all [FwPc.engaged]

theorem handed_step (he : Exclusive s) (h : Handed s) (hn : next s l = some t) : Handed t := by
  cases l with
  | call c =>
    obtain ⟨a,ha,rfl⟩ := Option.map_eq_some_iff.mp hn
    obtain ⟨-,hp | hp⟩ | ⟨-,hp⟩ := Ap.start_pc ha <;>
      exact ⟨h.passed,by simp [hp, ApPc.yielding],by simp [hp]⟩
  | ap =>
    obtain ⟨⟨m,a⟩,ha,rfl⟩ := Option.map_eq_some_iff.mp hn
    have hmove := Ap.step_move ha
    obtain ⟨hmax,hlimit⟩ := Ap.step_limit ha
    refine ⟨fun hw => ?_,fun hy ht => ?_,fun hp => hmax ▸ hlimit hp⟩
    · have hw : s.fw = .unlockFlag := hw
      obtain hturn | hp := hmove.turn
      · exact hturn.trans (h.passed hw)
      · have hfw := he.one hp
        rw [hw] at hfw
        contradiction
    · obtain ⟨hturn,hcause⟩ := hmove.yielding hy
      have ht : s.mem.turn ≠ 0#32 := hturn ▸ ht
      obtain hold | hup := hcause
      · exact h.owed hold ht
      · exact FwPc.engaged_of_raised (by simpa using mt he.byteFw.mpr hup) (mt h.passed ht)
  | fwLock =>
    simp only [next] at hn
    split_ifs at hn
    cases hn
    exact ⟨by simp,fun _ _ => rfl,h.limited⟩
  | fwUnlock =>
    simp only [next] at hn
    split_ifs at hn
    cases hn
    exact ⟨by simp,fun _ _ => rfl,h.limited⟩
  | fw =>
    obtain ⟨⟨m,f⟩,hm,rfl⟩ := Option.map_eq_some_iff.mp hn
    obtain ⟨hturn,hkeep,hne⟩ | hturn := FwPc.step_turn hm
    · exact ⟨fun hw => absurd hw hne,fun hy ht => hkeep (h.owed hy (hturn ▸ ht)),h.limited⟩
    · exact ⟨fun _ => hturn,fun _ ht => absurd hturn ht,h.limited⟩
  | fwWord off value =>
    cases hn
    exact ⟨h.passed,h.owed,h.limited⟩

theorem handed_reachable (h : system.Reachable s) : Handed s :=
  h.invariant (fun _ => handed_initial) fun _ _ _ hr _ hn hs =>
    handed_step (exclusive_reachable hr) hs hn

theorem Ap.enter_holds (a : Ap) : a.enter.pc.holds = true := by
  rw [Ap.enter]
  split <;> rfl

/-- With the firmware's byte down and the turn passed on, the next look lets the AP in. -/
theorem enters_of_not_spent (hfw : s.mem.lockFw = 0#8)
    (ht : s.ap.pc.yielding = true → s.mem.turn = 0#32) (hl : s.ap.pc.locking = true)
    (hs : s.ap.spent = false) : s.ApEnters := by
  have hspin (hne : s.ap.pc ≠ .raise) (hne' : s.ap.pc ≠ .readFw) :
      ∃ spins, spin s.ap.maxSpins s.ap.spins = some spins := by
    refine Option.isSome_iff_exists.mp ?_
    cases hp : s.ap.pc <;> simp_all [Ap.spent, ApPc.locking]
  cases hp : s.ap.pc
  all_goals
    simp only [hp, ApPc.locking, ApPc.yielding, forall_const, reduceCtorEq] at hl ht
  case raise => exact ⟨2,by simp [State.apRun, next, Ap.step, hp, hfw, Ap.enter_holds]⟩
  case readFw => exact ⟨1,by simp [State.apRun, next, Ap.step, hp, hfw, Ap.enter_holds]⟩
  all_goals
    obtain ⟨spins,hn⟩ := hspin (by simp [hp]) (by simp [hp])
  case readTurn =>
    exact ⟨2,by simp [State.apRun, next, Ap.step, Ap.again, hp, hn, ht, hfw, Ap.enter_holds]⟩
  case withdraw =>
    exact ⟨4,by simp [State.apRun, next, Ap.step, Ap.again, hp, hn, ht, hfw, Ap.enter_holds]⟩
  case pollTurn =>
    exact ⟨3,by simp [State.apRun, next, Ap.step, Ap.again, hp, hn, ht, hfw, Ap.enter_holds]⟩
  case reraise =>
    exact ⟨2,by simp [State.apRun, next, Ap.step, Ap.again, hp, hn, hfw, Ap.enter_holds]⟩
  case giveUp => simp [Ap.spent, hp] at hs

theorem timesOut_of_spent (ht : s.ap.pc.yielding = true → s.mem.turn = 0#32)
    (hs : s.ap.spent = true) : s.ApTimesOut := by
  cases hp : s.ap.pc
  all_goals
    simp only [hp, Ap.spent, Option.isNone_iff_eq_none, ApPc.yielding, forall_const,
      reduceCtorEq] at hs ht
  case readTurn =>
    exact ⟨2,by simp [State.apRun, next, Ap.step, Ap.again, Ap.leave, hp, hs, ht]⟩
  case withdraw =>
    exact ⟨4,by simp [State.apRun, next, Ap.step, Ap.again, Ap.leave, hp, hs, ht]⟩
  case pollTurn =>
    exact ⟨3,by simp [State.apRun, next, Ap.step, Ap.again, Ap.leave, hp, hs, ht]⟩
  case reraise => exact ⟨2,by simp [State.apRun, next, Ap.step, Ap.again, Ap.leave, hp, hs]⟩
  case giveUp => exact ⟨1,by simp [State.apRun, next, Ap.step, Ap.leave, hp]⟩

/-- The call returned, or it is bound to time out. -/
def State.Lost (s : State) : Prop := s.ap.pc = .idle ∨ s.ap.spent = true

theorem lost_ap (h : s.Lost) (hn : next s .ap = some t) : t.Lost := by
  obtain ⟨⟨m,a⟩,ha,rfl⟩ := Option.map_eq_some_iff.mp hn
  cases hp : s.ap.pc
  all_goals
    simp only [State.Lost, hp, Ap.spent, Option.isNone_iff_eq_none, false_or, reduceCtorEq] at h
  all_goals
    simp only [Ap.step, hp, Option.some.injEq, Prod.mk.injEq, reduceCtorEq] at ha
  all_goals
    obtain ⟨rfl,rfl⟩ := ha
  case readTurn => split_ifs <;> simp [State.Lost, Ap.spent, Ap.again, h]
  case withdraw => simp [State.Lost, Ap.spent, h]
  case pollTurn => split_ifs <;> simp [State.Lost, Ap.spent, Ap.leave, h]
  case reraise => simp [State.Lost, Ap.spent, Ap.again, h]
  case giveUp => simp [State.Lost, Ap.leave]

theorem Lost.not_enters (h : s.Lost) : ¬ s.ApEnters := by
  have hrun (n : ℕ) : ∀ s : State, s.Lost → (s.apRun n).Lost := by
    induction n with
    | zero => exact fun _ h => h
    | succ n ih =>
      intro s hs
      unfold State.apRun
      cases hn : next s .ap with
      | none => exact hs
      | some t => exact ih t (lost_ap hs hn)
  rintro ⟨n,hn⟩
  obtain hp | hp := hrun n s h
  · rw [hp] at hn
    contradiction
  · cases hpc : (s.apRun n).ap.pc <;> simp_all [Ap.spent, ApPc.holds]

theorem Handed.unlimited (h : Handed s) (h0 : s.ap.maxSpins = 0#32) : s.ap.spent = false := by
  have hspin : spin s.ap.maxSpins s.ap.spins = some s.ap.spins := by rw [h0]; rfl
  cases hp : s.ap.pc
  case giveUp => exact absurd h0 (h.limited hp)
  all_goals simp [Ap.spent, hp, hspin]

/-- Wherever the firmware is outside, an AP inside `agx_handoff_lock` gets the lock by its own
accesses, unless the next test of its spin count ends the call: then it returns the timeout with
its byte down. Where it raises its byte first or reads the firmware's, no test stands before the
lock. Without a limit it gets the lock. -/
theorem ap_enters_iff (hr : system.Reachable s) (hf : s.fw = .idle) (hl : s.ap.pc.locking = true) :
    (s.ApEnters ↔ s.ap.spent = false) ∧ (s.ap.spent = true → s.ApTimesOut) ∧
      (s.ap.maxSpins = 0#32 → s.ApEnters) := by
  have hh := handed_reachable hr
  have hfw : s.mem.lockFw = 0#8 := (exclusive_reachable hr).byteFw.mpr (by rw [hf]; rfl)
  have ht (hy : s.ap.pc.yielding = true) : s.mem.turn = 0#32 := by
    by_contra hne
    have he := hh.owed hy hne
    rw [hf] at he
    contradiction
  have henters := enters_of_not_spent hfw ht hl
  refine ⟨⟨fun he => ?_,henters⟩,timesOut_of_spent ht,fun h0 => henters (hh.unlimited h0)⟩
  exact Bool.eq_false_iff.mpr fun hs => Lost.not_enters (.inr hs) he

/-- The firmware had the lock, and passed the turn on to an AP that polls it without a limit. -/
theorem ap_enters_polling : ∃ s, system.Reachable s ∧ s.ap.pc = .pollTurn ∧ s.fw = .idle ∧
    s.ApEnters := by
  have hd : (system.run (start 1#32) [.fwLock,.fw,.fw,.call (.lock 0#32),.ap,.ap,.ap,.ap,
      .fwUnlock,.fw,.fw]).map (fun s => (s.ap.pc,s.ap.maxSpins,s.fw)) =
      some (.pollTurn,0#32,.idle) := by decide
  obtain ⟨s,hs,he⟩ := Option.map_eq_some_iff.mp hd
  obtain ⟨hp,hmax,hw⟩ : s.ap.pc = .pollTurn ∧ s.ap.maxSpins = 0#32 ∧ s.fw = .idle := by
    simpa using he
  have hr := System.run_reachable (start_reachable _) hs
  exact ⟨s,hr,hp,hw,(ap_enters_iff hr hw (by rw [hp]; rfl)).2.2 hmax⟩

end AgxOpen.Handoff
