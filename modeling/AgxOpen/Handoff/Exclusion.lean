import AgxOpen.Handoff.Lock

/-!
# Mutual exclusion, and who is left waiting

Each side raises its byte before it reads the other's, which alone excludes a
joint critical section. The turn decides who withdraws, and an AP that gives up
does not pass it on.
-/
namespace AgxOpen.Handoff

/-- The AP's lock byte is raised before the next access. -/
def ApPc.raised : ApPc → Bool
  | .readFw | .readTurn | .withdraw | .giveUp | .critical | .pollMagic | .unlockTurn
  | .unlockFlag => true
  | _ => false

/-- From the read that lets the AP in to the store that clears its byte. -/
def ApPc.holds : ApPc → Bool
  | .critical | .pollMagic | .unlockTurn | .unlockFlag => true
  | _ => false

/-- Neither inside `agx_handoff_lock` nor holding the lock. -/
def ApPc.outside : ApPc → Bool
  | .idle | .magicAp | .clear _ => true
  | _ => false

def FwPc.raised : FwPc → Bool
  | .readAp | .readTurn | .withdraw | .critical | .unlockTurn | .unlockFlag => true
  | _ => false

def FwPc.holds : FwPc → Bool
  | .critical | .unlockTurn | .unlockFlag => true
  | _ => false

/-- Inside the lock routine. -/
def FwPc.locking : FwPc → Bool
  | .raise | .readAp | .readTurn | .withdraw | .pollTurn | .reraise => true
  | _ => false

/-- Between a read of the AP's raised byte and the next raise of its own. -/
def FwPc.yielding : FwPc → Bool
  | .readTurn | .withdraw | .pollTurn => true
  | _ => false

/-- What one access of the AP can do, with the spin counts left open. -/
inductive ApMove (m : Shared) : ApPc → Shared → ApPc → Prop
  | magicAp (w : ℕ → U64) : ApMove m .magicAp { m with word := w } .raise
  | raise : ApMove m .raise { m with lockAp := 1#8 } .readFw
  | contended (h : m.lockFw ≠ 0#8) : ApMove m .readFw m .readTurn
  | enter (h : m.lockFw = 0#8) : ApMove m .readFw m .critical
  | enterWait (h : m.lockFw = 0#8) : ApMove m .readFw m .pollMagic
  | insist (h : m.turn = 0#32) : ApMove m .readTurn m .readFw
  | expire (h : m.turn = 0#32) : ApMove m .readTurn m .giveUp
  | yield (h : m.turn ≠ 0#32) : ApMove m .readTurn m .withdraw
  | withdraw : ApMove m .withdraw { m with lockAp := 0#8 } .pollTurn
  | spin (h : m.turn ≠ 0#32) : ApMove m .pollTurn m .pollTurn
  | leave (h : m.turn ≠ 0#32) : ApMove m .pollTurn m .idle
  | turned (h : m.turn = 0#32) : ApMove m .pollTurn m .reraise
  | reraise : ApMove m .reraise { m with lockAp := 1#8 } .readFw
  | reraiseExpire : ApMove m .reraise { m with lockAp := 1#8 } .giveUp
  | giveUp : ApMove m .giveUp { m with lockAp := 0#8 } .idle
  | pollMagic : ApMove m .pollMagic m .pollMagic
  | answered : ApMove m .pollMagic m .unlockTurn
  | unlockTurn : ApMove m .unlockTurn { m with turn := 1#32 } .unlockFlag
  | unlockFlag : ApMove m .unlockFlag { m with lockAp := 0#8 } .idle
  | unlockWait : ApMove m .unlockFlag { m with lockAp := 0#8 } (.clear 0)
  | clear (i j : ℕ) (w : ℕ → U64) : ApMove m (.clear i) { m with word := w } (.clear j)
  | cleared (i : ℕ) (w : ℕ → U64) : ApMove m (.clear i) { m with word := w } .idle

theorem Ap.again_pc (a : Ap) : a.again.pc = .readFw ∨ a.again.pc = .giveUp := by
  unfold Ap.again
  split
  · exact .inr rfl
  · exact .inl rfl

theorem Ap.step_move {m m' : Shared} {a a' : Ap} (hs : a.step m = some (m',a')) :
    ApMove m a.pc m' a'.pc := by
  unfold Ap.step at hs
  cases hp : a.pc
  all_goals
    simp only [hp, Option.some.injEq, Prod.mk.injEq, reduceCtorEq] at hs
  all_goals
    obtain ⟨rfl,rfl⟩ := hs
  case magicAp => exact .magicAp _
  case raise => exact .raise
  case readFw =>
    split_ifs with h
    · exact .contended h
    · unfold Ap.enter
      split
      · exact .enterWait (not_not.mp h)
      · exact .enter (not_not.mp h)
  case readTurn =>
    split_ifs with h
    · exact .yield h
    · obtain he | he := a.again_pc
      · exact he ▸ .insist (not_not.mp h)
      · exact he ▸ .expire (not_not.mp h)
  case withdraw => exact .withdraw
  case pollTurn =>
    split_ifs with h
    · split
      · exact .leave h
      · exact .spin h
    · exact .turned (not_not.mp h)
  case reraise =>
    obtain he | he := a.again_pc
    · exact he ▸ .reraise
    · exact he ▸ .reraiseExpire
  case giveUp => exact .giveUp
  case pollMagic =>
    split_ifs
    · split
      · exact .answered
      · exact .pollMagic
    · exact .answered
  case unlockTurn => exact .unlockTurn
  case unlockFlag =>
    split_ifs
    · exact .unlockWait
    · exact .unlockFlag
  case clear i =>
    split_ifs
    · exact .clear i _ _
    · exact .cleared i _

/-- The bytes mirror the program counters, and only one side holds the lock. -/
structure Exclusive (s : State) : Prop where
  byteAp : s.mem.lockAp = 0#8 ↔ s.ap.pc.raised = false
  byteFw : s.mem.lockFw = 0#8 ↔ s.fw.raised = false
  one : s.ap.pc.holds = true → s.fw.holds = false

variable {s t : State} {l : Label} {m m' : Shared} {a a' : Ap} {f f' : FwPc} {p p' : ApPc}

theorem FwPc.not_holds (h : f.raised = false) : f.holds = false := by
  cases f <;> first | rfl | contradiction

theorem ApPc.not_holds (h : p.raised = false) : p.holds = false := by
  cases p <;> first | rfl | contradiction

theorem exclusive_initial (h : Initial s) : Exclusive s := by
  obtain ⟨ha,hf,hp,hw⟩ := h
  constructor <;> simp [ha, hf, hp, hw, Ap.init, ApPc.raised, ApPc.holds, FwPc.raised]

theorem ApMove.byte (h : ApMove m p m' p') (hb : m.lockAp = 0#8 ↔ p.raised = false) :
    m'.lockAp = 0#8 ↔ p'.raised = false := by
  cases h <;> simp [ApPc.raised] at hb ⊢ <;> exact hb

theorem ApMove.lockFw (h : ApMove m p m' p') : m'.lockFw = m.lockFw := by
  cases h <;> rfl

/-- The only way in is a read of the firmware's cleared byte. -/
theorem ApMove.holds (h : ApMove m p m' p') (hp : p'.holds = true) :
    p.holds = true ∨ m.lockFw = 0#8 := by
  cases h <;> simp_all [ApPc.holds]

theorem FwPc.step_byte (h : f.step m = some (m',f')) (hb : m.lockFw = 0#8 ↔ f.raised = false) :
    m'.lockFw = 0#8 ↔ f'.raised = false := by
  cases f
  all_goals
    simp only [FwPc.step, Option.some.injEq, Prod.mk.injEq, reduceCtorEq] at h
  all_goals
    obtain ⟨rfl,rfl⟩ := h
    (try split_ifs) <;> simp_all [FwPc.raised]

theorem FwPc.step_lockAp (h : f.step m = some (m',f')) : m'.lockAp = m.lockAp := by
  cases f
  all_goals
    simp only [FwPc.step, Option.some.injEq, Prod.mk.injEq, reduceCtorEq] at h
  all_goals
    obtain ⟨rfl,-⟩ := h
    rfl

/-- The only way in is a read of the AP's cleared byte. -/
theorem FwPc.step_holds (h : f.step m = some (m',f')) (hf : f'.holds = true) :
    f.holds = true ∨ m.lockAp = 0#8 := by
  cases f
  all_goals
    simp only [FwPc.step, Option.some.injEq, Prod.mk.injEq, reduceCtorEq] at h
  all_goals
    obtain ⟨-,rfl⟩ := h
    (try split_ifs at hf) <;> simp_all [FwPc.holds]

theorem Ap.start_pc {c : ApCall} (h : a.start c = some a') :
    (a.pc = .idle ∧ (a'.pc = .raise ∨ a'.pc = .magicAp)) ∨
      (a.pc = .critical ∧ a'.pc = .unlockTurn) := by
  cases c <;> simp only [Ap.start] at h <;> split_ifs at h with hp <;> cases h <;> simp [hp]

theorem exclusive_step (h : Exclusive s) (hn : next s l = some t) : Exclusive t := by
  obtain ⟨hb,hf,ho⟩ := h
  cases l with
  | call c =>
    obtain ⟨a,ha,rfl⟩ := Option.map_eq_some_iff.mp hn
    obtain ⟨hp,hp' | hp'⟩ | ⟨hp,hp'⟩ := Ap.start_pc ha
    · exact ⟨by simpa [hp, hp', ApPc.raised] using hb,hf,by simp [hp', ApPc.holds]⟩
    · exact ⟨by simpa [hp, hp', ApPc.raised] using hb,hf,by simp [hp', ApPc.holds]⟩
    · exact ⟨by simpa [hp, hp', ApPc.raised] using hb,hf,fun _ => ho (by simp [hp, ApPc.holds])⟩
  | ap =>
    obtain ⟨⟨m,a⟩,ha,rfl⟩ := Option.map_eq_some_iff.mp hn
    have hmove := Ap.step_move ha
    refine ⟨hmove.byte hb,by rw [hmove.lockFw]; exact hf,fun hp => ?_⟩
    obtain hp | hz := hmove.holds hp
    · exact ho hp
    · exact FwPc.not_holds (hf.mp hz)
  | fwLock =>
    simp only [next] at hn
    split_ifs at hn with hw
    cases hn
    exact ⟨hb,by simpa [hw, FwPc.raised] using hf,fun _ => rfl⟩
  | fwUnlock =>
    simp only [next] at hn
    split_ifs at hn with hw
    cases hn
    exact ⟨hb,by simpa [hw, FwPc.raised] using hf,fun hp => by simpa [hw, FwPc.holds] using ho hp⟩
  | fw =>
    obtain ⟨⟨m,f⟩,hm,rfl⟩ := Option.map_eq_some_iff.mp hn
    refine ⟨by rw [FwPc.step_lockAp hm]; exact hb,FwPc.step_byte hm hf,fun hp => ?_⟩
    by_contra hw
    obtain hw | hz := FwPc.step_holds hm (Bool.not_eq_false _ ▸ hw)
    · exact absurd (ho hp) (by simp [hw])
    · exact absurd hp (by simp [ApPc.not_holds (hb.mp hz)])
  | fwWord off value =>
    cases hn
    exact ⟨hb,hf,ho⟩

theorem exclusive_reachable (h : system.Reachable s) : Exclusive s :=
  h.invariant (fun _ => exclusive_initial) fun _ _ _ _ _ hn hs => exclusive_step hs hn

/-- In every interleaving at most one side holds the lock. -/
theorem mutual_exclusion (h : system.Reachable s) :
    ¬ (s.ap.pc.holds = true ∧ s.fw.holds = true) := by
  rintro ⟨hp,hw⟩
  simp [(exclusive_reachable h).one hp] at hw

/-- The AP in its critical section while the firmware waits. -/
theorem mutual_exclusion_contended : ∃ s, system.Reachable s ∧ s.ap.pc = .critical ∧
    s.fw = .readTurn ∧ ¬ (s.ap.pc.holds = true ∧ s.fw.holds = true) := by
  have hd : (system.run (start 1#32) [.call (.lock 5#32),.ap,.ap,.fwLock,.fw,.fw]).map
      (fun s => (s.ap.pc,s.fw)) = some (.critical,.readTurn) := by decide
  obtain ⟨s,hs,he⟩ := Option.map_eq_some_iff.mp hd
  obtain ⟨hp,hw⟩ := Prod.mk.inj he
  have hr := System.run_reachable (start_reachable _) hs
  exact ⟨s,hr,hp,hw,mutual_exclusion hr⟩

/-- The firmware's own accesses, with no step of the AP. -/
def State.fwRun (s : State) : ℕ → State
  | 0 => s
  | n+1 => match next s .fw with
    | none => s
    | some t => t.fwRun n

/-- The firmware reaches its critical section by its own steps. -/
def State.FwEnters (s : State) : Prop := ∃ n, (s.fwRun n).fw = .critical

/-- It is the AP's turn and the firmware gives way to it. -/
def State.Stranded (s : State) : Prop := s.mem.turn = 0#32 ∧ s.fw.yielding = true

instance (s : State) : Decidable s.Stranded := inferInstanceAs (Decidable (_ ∧ _))

theorem stranded_fw (h : s.Stranded) (hn : next s .fw = some t) : t.Stranded := by
  obtain ⟨ht,hw⟩ := h
  obtain ⟨⟨m,f⟩,hm,rfl⟩ := Option.map_eq_some_iff.mp hn
  cases hf : s.fw
  all_goals
    simp only [hf, FwPc.step, FwPc.yielding, ht, if_true, Option.some.injEq, Prod.mk.injEq,
      reduceCtorEq] at hm hw
  all_goals
    obtain ⟨rfl,rfl⟩ := hm
    exact ⟨by simp [ht],rfl⟩

theorem Stranded.not_enters (h : s.Stranded) : ¬ s.FwEnters := by
  have hrun (n : ℕ) : ∀ s : State, s.Stranded → (s.fwRun n).Stranded := by
    induction n with
    | zero => exact fun _ h => h
    | succ n ih =>
      intro s hs
      unfold State.fwRun
      cases hn : next s .fw with
      | none => exact hs
      | some t => exact ih t (stranded_fw hs hn)
  rintro ⟨n,hn⟩
  have hw := (hrun n s h).2
  simp [hn, FwPc.yielding] at hw

/-- With the AP's byte down, a firmware that is not stranded gets through. -/
theorem enters_of_not_stranded (hb : s.mem.lockAp = 0#8) (hl : s.fw.locking = true)
    (hs : ¬ s.Stranded) : s.FwEnters := by
  have ht (hy : s.fw.yielding = true) : s.mem.turn ≠ 0#32 := fun ht => hs ⟨ht,hy⟩
  cases hf : s.fw
  all_goals
    simp only [hf, FwPc.locking, FwPc.yielding, forall_const, reduceCtorEq] at hl ht
  case raise => exact ⟨2,by simp [State.fwRun, next, hf, FwPc.step, hb]⟩
  case readAp => exact ⟨1,by simp [State.fwRun, next, hf, FwPc.step, hb]⟩
  case readTurn => exact ⟨2,by simp [State.fwRun, next, hf, FwPc.step, hb, ht]⟩
  case withdraw => exact ⟨4,by simp [State.fwRun, next, hf, FwPc.step, hb, ht]⟩
  case pollTurn => exact ⟨3,by simp [State.fwRun, next, hf, FwPc.step, hb, ht]⟩
  case reraise => exact ⟨2,by simp [State.fwRun, next, hf, FwPc.step, hb]⟩

/-- The guard on runs: no timeout store of the AP while that strands the firmware. -/
def Clean (s : State) (l : Label) : Prop := ¬ (l = .ap ∧ s.ap.pc = .giveUp ∧ s.Stranded)

/-- Outside the lock the AP has left nobody stranded, and it passes the turn on
before it clears its byte. -/
structure Fair (s : State) : Prop where
  passed : s.ap.pc = .unlockFlag → s.mem.turn ≠ 0#32
  left : s.ap.pc.outside = true → ¬ s.Stranded

theorem ApMove.passed (h : ApMove m p m' p') (hp : p' = .unlockFlag) : m'.turn ≠ 0#32 := by
  cases h <;> simp at hp ⊢

/-- How the AP comes to be outside: it was before, it passes the turn on or sees
the turn with the firmware, or it gives up. -/
theorem ApMove.outside (h : ApMove m p m' p') (hp : p'.outside = true) :
    m'.turn = m.turn ∧ (p.outside = true ∨ p = .unlockFlag ∨ m.turn ≠ 0#32 ∨ p = .giveUp) := by
  cases h <;> simp_all [ApPc.outside]

theorem ApPc.not_raised (h : p.outside = true) : p.raised = false := by
  cases p <;> first | rfl | contradiction

/-- With the AP's byte down the firmware does not start to give way. -/
theorem stranded_before (hb : s.mem.lockAp = 0#8) (hn : next s .fw = some t)
    (ht : t.Stranded) : s.Stranded := by
  obtain ⟨⟨m,f⟩,hm,rfl⟩ := Option.map_eq_some_iff.mp hn
  obtain ⟨h0,hw⟩ := ht
  cases hf : s.fw
  all_goals
    simp only [hf, FwPc.step, Option.some.injEq, Prod.mk.injEq, reduceCtorEq] at hm
  all_goals
    obtain ⟨rfl,rfl⟩ := hm
    simp_all [State.Stranded, FwPc.yielding]

theorem fw_turn (h : f.step m = some (m',f')) (hf : f.holds = false) : m'.turn = m.turn := by
  cases f
  all_goals
    simp only [FwPc.step, Option.some.injEq, Prod.mk.injEq, reduceCtorEq] at h
  all_goals
    obtain ⟨rfl,rfl⟩ := h
    first | rfl | contradiction

theorem fair_initial (h : Initial s) : Fair s := by
  obtain ⟨-,-,hp,hw⟩ := h
  constructor <;> simp [hp, hw, Ap.init, State.Stranded, FwPc.yielding]

theorem fair_step (he : Exclusive s) (h : Fair s) (hg : Clean s l) (hn : next s l = some t) :
    Fair t := by
  cases l with
  | call c =>
    obtain ⟨a,ha,rfl⟩ := Option.map_eq_some_iff.mp hn
    obtain ⟨hp,hp' | hp'⟩ | ⟨hp,hp'⟩ := Ap.start_pc ha
    · exact ⟨by simp [hp'],by simp [hp', ApPc.outside]⟩
    · exact ⟨by simp [hp'],fun _ => h.left (by rw [hp]; rfl)⟩
    · exact ⟨by simp [hp'],by simp [hp', ApPc.outside]⟩
  | ap =>
    obtain ⟨⟨m,a⟩,ha,rfl⟩ := Option.map_eq_some_iff.mp hn
    have hmove := Ap.step_move ha
    refine ⟨hmove.passed,fun ho hs => ?_⟩
    obtain ⟨hturn,hcause⟩ := hmove.outside ho
    have hs : s.Stranded := ⟨hturn ▸ hs.1,hs.2⟩
    obtain hp | hp | ht | hp := hcause
    · exact h.left hp hs
    · exact h.passed hp hs.1
    · exact ht hs.1
    · exact hg ⟨rfl,hp,hs⟩
  | fwLock =>
    simp only [next] at hn
    split_ifs at hn
    cases hn
    exact ⟨h.passed,fun _ hs => by simp [State.Stranded, FwPc.yielding] at hs⟩
  | fwUnlock =>
    simp only [next] at hn
    split_ifs at hn
    cases hn
    exact ⟨h.passed,fun _ hs => by simp [State.Stranded, FwPc.yielding] at hs⟩
  | fw =>
    constructor
    · obtain ⟨⟨m,f⟩,hm,rfl⟩ := Option.map_eq_some_iff.mp hn
      intro hp
      have hp : s.ap.pc = .unlockFlag := hp
      rw [fw_turn hm (he.one (by rw [hp]; rfl))]
      exact h.passed hp
    · intro ho hs
      have hap : t.ap = s.ap := by
        obtain ⟨_,-,rfl⟩ := Option.map_eq_some_iff.mp hn
        rfl
      rw [hap] at ho
      exact h.left ho (stranded_before (he.byteAp.mpr (ApPc.not_raised ho)) hn hs)
  | fwWord off value =>
    cases hn
    exact ⟨h.passed,h.left⟩

theorem fair_reachable (h : system.Reach Clean s) : Fair s :=
  h.invariant (fun _ => fair_initial) fun _ _ _ hr hg hn hs =>
    fair_step (exclusive_reachable hr) hs hg hn

/-- In a run whose timeouts are clean, a firmware inside its lock routine gets
through whenever the AP is outside. A timeout that is not clean leaves a
firmware behind that never does. -/
theorem firmware_enters_iff_clean (s : State) :
    (system.Reach Clean s → s.ap.pc.outside = true → s.fw.locking = true → s.FwEnters) ∧
    (∀ l t, system.Reachable s → system.next s l = some t → ¬ Clean s l →
      t.ap.pc.outside = true ∧ t.fw.locking = true ∧ ¬ t.FwEnters) ∧
    (system.Reachable s → s.ap.pc.outside = true → s.fw.locking = true →
      (s.FwEnters ↔ ¬ s.Stranded)) := by
  have hdown (hr : system.Reachable s) (ho : s.ap.pc.outside = true) :
      s.mem.lockAp = 0#8 := (exclusive_reachable hr).byteAp.mpr (ApPc.not_raised ho)
  refine ⟨fun hr ho hl => ?_,fun l t _ hn hg => ?_,fun hr ho hl => ?_⟩
  · exact enters_of_not_stranded (hdown hr.reachable ho) hl ((fair_reachable hr).left ho)
  · obtain ⟨rfl,hp,hs⟩ := not_not.mp hg
    simp only [system, next, Ap.step, hp, Option.map_some, Option.some.injEq] at hn
    subst hn
    have hl : s.fw.locking = true := by
      have hw := hs.2
      cases hf : s.fw <;> simp_all [FwPc.yielding, FwPc.locking]
    exact ⟨rfl,hl,Stranded.not_enters hs⟩
  · exact ⟨fun he hs => Stranded.not_enters hs he,enters_of_not_stranded (hdown hr ho) hl⟩

/-- An AP that gives up after one spin while the firmware still asks for the
turn: it is outside, and the firmware behind it gets through. -/
theorem firmware_enters_iff_clean_timeout : ∃ s, system.Reachable s ∧
    s.ap.ret = Status.etimedout ∧ s.fw = .readAp ∧ (s.FwEnters ↔ ¬ s.Stranded) := by
  have hd : (system.run (start 0#32) [.call (.lock 1#32),.fwLock,.fw,.ap,.ap,.ap,.ap,.ap,.ap]).map
      (fun s => (s.ap.pc,s.ap.ret,s.fw)) = some (.idle,Status.etimedout,.readAp) := by decide
  obtain ⟨s,hs,he⟩ := Option.map_eq_some_iff.mp hd
  obtain ⟨hp,hret,hw⟩ : s.ap.pc = .idle ∧ s.ap.ret = Status.etimedout ∧ s.fw = .readAp := by
    simpa using he
  have hr := System.run_reachable (start_reachable _) hs
  exact ⟨s,hr,hret,hw,(firmware_enters_iff_clean s).2.2 hr (by rw [hp]; rfl) (by rw [hw]; rfl)⟩

/-- The last two polls of an AP with one spin, a firmware that reads the raised
byte in between, and then the timeout: TURN stays 0 and nobody changes it. -/
def strandingRun : List Label :=
  [.call (.lock 1#32),.ap,.fwLock,.fw,.ap,.ap,.ap,.ap,.fw,.ap]

theorem timeout_strands_firmware : ∃ s, system.run (start 0#32) strandingRun = some s ∧
    system.Reachable s ∧ s.ap.pc = .idle ∧ s.ap.ret = Status.etimedout ∧ s.fw = .readTurn ∧
    ¬ s.FwEnters := by
  have hd : (system.run (start 0#32) strandingRun).map
      (fun s => (s.ap.pc,s.ap.ret,s.fw,decide s.Stranded)) =
      some (.idle,Status.etimedout,.readTurn,true) := by decide
  obtain ⟨s,hs,he⟩ := Option.map_eq_some_iff.mp hd
  obtain ⟨hp,hret,hw,hstr⟩ : s.ap.pc = .idle ∧ s.ap.ret = Status.etimedout ∧ s.fw = .readTurn ∧
      s.Stranded := by simpa using he
  exact ⟨s,hs,System.run_reachable (start_reachable _) hs,hp,hret,hw,Stranded.not_enters hstr⟩

end AgxOpen.Handoff
