import AgxOpen.Handoff.Kinds

/-!
# The limit of the wait loops

The calls against an arbitrary sequence of values read. Someone counts the
iterations of the wait loops as they begin. The counter of spins wraps at 2³², so
a limit of 2³² - 1 is never exceeded.
-/
namespace AgxOpen.Handoff
open Program (Ends execute_request execute_bind)

/-- How much was read, whether the AP's flag is up, and the iterations so far. -/
structure Watch where
  reads : ℕ
  up : Bool
  rounds : ℕ

namespace Watch

def start : Watch := ⟨0,false,0⟩

/-- One read, which begins an iteration or does not. -/
def read (w : Watch) (round : Bool) : Watch :=
  { w with reads := w.reads + 1, rounds := if round then w.rounds + 1 else w.rounds }

/-- The body of the outer loop of `agx_handoff_lock` begins when `LOCK_FW` is not 0,
that of the inner one when `TURN` is not 0 with the flag down. The polls of the
handshake and of a flush begin theirs on the wrong magic and on BUSY. -/
def answer (feed : ℕ → U64) (n : ℕ) (w : Watch) : (op : Op) → Option (Res op × Watch)
  | .read8 _ =>
    let r := (feed w.reads).setWidth 8
    some (r,w.read (r != 0#8))
  | .read32 _ =>
    let r := (feed w.reads).setWidth 32
    some (r,w.read (!w.up && r != 0#32))
  | .read64 offset =>
    let r := feed w.reads
    some (r,w.read (if offset = offMagicFw then r != magic else r == flushBusy))
  | .write8 _ value => some ((),{ w with up := value != 0#8 })
  | .rounds => some (n,w)
  | .never => none
  | .write32 .. | .write64 .. | .relax | .barrier | .setLocked _ | .setInitialized _ | .mark _
  | .fwWrite .. | .fwDone _ => some ((),w)

end Watch

/-- Whatever is read, the call returns after at most so many iterations. -/
def ReturnsWithin (limit : ℕ) (p : Prog ℤ) : Prop :=
  ∀ feed, ∃ n acts ret w, p.execute (Watch.answer feed n) .start = some (acts,ret,w) ∧ w.rounds ≤ limit

/-- What a limit is to mean for the three calls. -/
def SpinLimits (maxSpins : U32) : Prop := maxSpins ≠ 0#32 →
  ReturnsWithin (maxSpins.toNat + 2) (lock maxSpins) ∧
  (∀ context, ReturnsWithin (maxSpins.toNat + 2) (waitCacheflush context maxSpins)) ∧
  ReturnsWithin (2 * (maxSpins.toNat + 2)) (waitFirmware maxSpins)

variable {feed : ℕ → U64} {maxSpins spins : U32} {N n : ℕ} {w : Watch}

/-- The counter goes up by one until it exceeds the limit. -/
theorem spin_cases (h0 : maxSpins ≠ 0#32) (hmax : maxSpins ≠ 0xffffffff#32) (hs : spins ≤ maxSpins) :
    spin maxSpins spins = none ∧ spins.toNat = maxSpins.toNat ∨
      ∃ next, spin maxSpins spins = some next ∧ next.toNat = spins.toNat + 1 ∧ next ≤ maxSpins := by
  have hlt : maxSpins.toNat < 2^32 - 1 := by bv_omega
  have hle : spins.toNat ≤ maxSpins.toNat := hs
  have hsucc : (spins+1).toNat = spins.toNat + 1 := by bv_omega
  rw [spin, if_neg h0]
  by_cases he : spins.toNat = maxSpins.toNat
  · refine .inl ⟨if_pos ?_,he⟩
    rw [BitVec.lt_def]
    omega
  · refine .inr ⟨_,if_neg ?_,hsucc,?_⟩
    · rw [BitVec.lt_def]
      omega
    · rw [BitVec.le_def]
      omega

theorem zero_le_limit (maxSpins : U32) : 0#32 ≤ maxSpins := Nat.zero_le maxSpins.toNat

/-- The iterations of the inner loop are the spins it counts. -/
theorem ends_pollTurn (h0 : maxSpins ≠ 0#32) (hmax : maxSpins ≠ 0xffffffff#32) (hs : spins ≤ maxSpins)
    (hn : maxSpins.toNat + 1 ≤ n + spins.toNat) (hup : w.up = false) :
    Ends (Watch.answer feed N) (pollTurn maxSpins n spins) (fun r u => u.up = false ∧
      match r with
      | none => u.rounds + spins.toNat = w.rounds + maxSpins.toNat + 1
      | some next => next ≤ maxSpins ∧ spins.toNat ≤ next.toNat ∧
        u.rounds + spins.toNat = w.rounds + next.toNat) w := by
  induction n generalizing spins w with
  | zero =>
    have hle : spins.toNat ≤ maxSpins.toNat := hs
    omega
  | succ n ih =>
    refine Ends.request rfl ?_
    by_cases hturn : (feed w.reads).setWidth 32 = 0#32
    · rw [if_pos hturn]
      exact .ret ⟨hup,hs,le_rfl,by simp [Watch.read, hturn]⟩
    rw [if_neg hturn]
    have hrounds : (w.read (!w.up && (feed w.reads).setWidth 32 != 0#32)).rounds = w.rounds + 1 := by
      simp [Watch.read, hup, hturn]
    obtain ⟨hspin,he⟩ | ⟨next,hspin,hnext,hle⟩ := spin_cases h0 hmax hs
    · rw [hspin]
      exact .ret ⟨hup,by omega⟩
    · rw [hspin]
      refine Ends.request rfl ?_
      have hup' : (w.read (!w.up && (feed w.reads).setWidth 32 != 0#32)).up = false := hup
      refine (ih hle (by omega) hup').mono fun r u hu => ⟨hu.1,?_⟩
      cases r with
      | none =>
        have hsum := hu.2
        omega
      | some last =>
        obtain ⟨-,hlast,hmono,hsum⟩ := hu
        exact ⟨hlast,by omega,by omega⟩

/-- A round of the outer loop that does not exceed the limit leaves the flag up. -/
theorem ends_yieldTurn (h0 : maxSpins ≠ 0#32) (hmax : maxSpins ≠ 0xffffffff#32)
    (hs : spins ≤ maxSpins) (hn : maxSpins.toNat + 1 ≤ n + spins.toNat) (hup : w.up = true) :
    Ends (Watch.answer feed N) (yieldTurn maxSpins n spins) (fun r u =>
      match r with
      | none => u.rounds + spins.toNat = w.rounds + maxSpins.toNat + 1
      | some next => u.up = true ∧ next ≤ maxSpins ∧ spins.toNat ≤ next.toNat ∧
        u.rounds + spins.toNat = w.rounds + next.toNat) w := by
  refine Ends.request rfl ?_
  have hrounds : (w.read (!w.up && (feed w.reads).setWidth 32 != 0#32)).rounds = w.rounds := by
    simp [Watch.read, hup]
  by_cases hturn : (feed w.reads).setWidth 32 = 0#32
  · rw [if_pos hturn]
    exact .ret ⟨hup,hs,le_rfl,by rw [hrounds]⟩
  rw [if_neg hturn]
  refine Ends.request rfl (Ends.request rfl (Ends.bind ?_))
  refine (ends_pollTurn h0 hmax hs hn rfl).mono fun r u hu => ?_
  cases r with
  | none => exact .ret (by rw [hu.2]; exact congrArg (· + _ + 1) hrounds)
  | some next =>
    obtain ⟨-,hle,hmono,hsum⟩ := hu
    refine Ends.request rfl (Ends.request rfl (.ret ⟨rfl,hle,hmono,?_⟩))
    rw [← hrounds]
    exact hsum

theorem ends_lockLoop (h0 : maxSpins ≠ 0#32) (hmax : maxSpins ≠ 0xffffffff#32) (hs : spins ≤ maxSpins)
    (hn : maxSpins.toNat + 2 ≤ n + spins.toNat) (hup : w.up = true) :
    Ends (Watch.answer feed N) (lockLoop maxSpins n spins)
      (fun _ u => u.rounds + spins.toNat ≤ w.rounds + maxSpins.toNat + 2) w := by
  have hle : spins.toNat ≤ maxSpins.toNat := hs
  induction n generalizing spins w with
  | zero => omega
  | succ n ih =>
    refine Ends.request rfl ?_
    by_cases hfw : (feed w.reads).setWidth 8 = 0#8
    · rw [if_pos hfw]
      refine Ends.request rfl (Ends.request rfl (.ret ?_))
      have hrounds : (w.read ((feed w.reads).setWidth 8 != 0#8)).rounds = w.rounds := by
        simp [Watch.read, hfw]
      omega
    rw [if_neg hfw]
    have hrounds : (w.read ((feed w.reads).setWidth 8 != 0#8)).rounds = w.rounds + 1 := by
      simp [Watch.read, hfw]
    have hup' : (w.read ((feed w.reads).setWidth 8 != 0#8)).up = true := hup
    have hn' : maxSpins.toNat + 1 ≤ n + spins.toNat := by omega
    refine Ends.bind ((ends_yieldTurn h0 hmax hs hn' hup').mono fun r u hu => ?_)
    cases r with
    | none =>
      refine .ret ?_
      dsimp only at hu
      omega
    | some next =>
      obtain ⟨hflag,hnext,hmono,hsum⟩ := hu
      obtain ⟨hspin,he⟩ | ⟨last,hspin,hlast,hlle⟩ := spin_cases h0 hmax hnext
      · dsimp only
        rw [hspin]
        refine Ends.request rfl (Ends.request rfl (.ret ?_))
        dsimp only
        omega
      · dsimp only
        rw [hspin]
        refine Ends.request rfl ?_
        refine (ih hlle (by omega) hflag hlle).mono fun _ v hv => ?_
        omega

theorem ends_lock (h0 : maxSpins ≠ 0#32) (hmax : maxSpins ≠ 0xffffffff#32) (w : Watch) :
    Ends (Watch.answer feed (maxSpins.toNat + 2)) (lock maxSpins)
      (fun _ u => u.rounds ≤ w.rounds + maxSpins.toNat + 2) w := by
  refine Ends.request rfl (Ends.request rfl (Ends.request rfl ?_))
  exact ends_lockLoop h0 hmax (zero_le_limit maxSpins) le_rfl rfl

/-- The iterations of a poll are the spins it counts, and the one that exceeds the limit. -/
theorem ends_pollMagic (h0 : maxSpins ≠ 0#32) (hmax : maxSpins ≠ 0xffffffff#32) (hs : spins ≤ maxSpins)
    (hn : maxSpins.toNat + 2 ≤ n + spins.toNat) :
    Ends (Watch.answer feed N) (pollMagic maxSpins n spins)
      (fun _ u => u.rounds + spins.toNat ≤ w.rounds + maxSpins.toNat + 1) w := by
  have hle : spins.toNat ≤ maxSpins.toNat := hs
  induction n generalizing spins w with
  | zero => omega
  | succ n ih =>
    refine Ends.request rfl ?_
    have hread : (w.read (if offMagicFw = offMagicFw then feed w.reads != magic
        else feed w.reads == flushBusy)).rounds = w.rounds + if feed w.reads = magic then 0 else 1 := by
      by_cases hm : feed w.reads = magic <;> simp [Watch.read, hm]
    by_cases hm : feed w.reads = magic
    · rw [if_pos hm] at hread ⊢
      exact .ret (by omega)
    rw [if_neg hm] at hread ⊢
    obtain ⟨hspin,he⟩ | ⟨next,hspin,hnext,hnle⟩ := spin_cases h0 hmax hs
    · rw [hspin]
      exact .ret (by omega)
    · rw [hspin]
      refine Ends.request rfl ?_
      exact (ih hnle (by omega) hnle).mono fun _ v hv => by omega

theorem ends_pollFlush {context : U32} (h0 : maxSpins ≠ 0#32) (hmax : maxSpins ≠ 0xffffffff#32)
    (hs : spins ≤ maxSpins) (hn : maxSpins.toNat + 2 ≤ n + spins.toNat) :
    Ends (Watch.answer feed N) (pollFlush context maxSpins n spins)
      (fun _ u => u.rounds + spins.toNat ≤ w.rounds + maxSpins.toNat + 1) w := by
  have hle : spins.toNat ≤ maxSpins.toNat := hs
  have hword : offFlushState context.toNat ≠ offMagicFw := by
    unfold offFlushState offFlush offMagicFw
    omega
  induction n generalizing spins w with
  | zero => omega
  | succ n ih =>
    refine Ends.request rfl ?_
    have hread : (w.read (if offFlushState context.toNat = offMagicFw then feed w.reads != magic
        else feed w.reads == flushBusy)).rounds =
          w.rounds + if feed w.reads = flushBusy then 1 else 0 := by
      by_cases hb : feed w.reads = flushBusy <;> simp [Watch.read, hword, hb]
    by_cases hb : feed w.reads = flushBusy
    · rw [if_pos hb] at hread
      rw [if_neg (not_not.mpr hb)]
      obtain ⟨hspin,he⟩ | ⟨next,hspin,hnext,hnle⟩ := spin_cases h0 hmax hs
      · rw [hspin]
        exact .ret (by omega)
      · rw [hspin]
        refine Ends.request rfl ?_
        exact (ih hnle (by omega) hnle).mono fun _ v hv => by omega
    · rw [if_neg hb] at hread
      rw [if_pos hb]
      exact .ret (by omega)

theorem ends_waitCacheflush (context : U32) (h0 : maxSpins ≠ 0#32) (hmax : maxSpins ≠ 0xffffffff#32)
    (w : Watch) : Ends (Watch.answer feed (maxSpins.toNat + 2)) (waitCacheflush context maxSpins)
      (fun _ u => u.rounds ≤ w.rounds + maxSpins.toNat + 2) w := by
  rw [waitCacheflush]
  split_ifs
  · exact .ret (by omega)
  refine Ends.request rfl ?_
  refine (ends_pollFlush h0 hmax (zero_le_limit maxSpins) le_rfl).mono fun _ u hu => ?_
  simp only [BitVec.toNat_zero] at hu
  omega

/-- Operations that read nothing begin no iteration. -/
def Silent : Op → Prop
  | .read8 _ | .read32 _ | .read64 _ | .never => False
  | _ => True

theorem ends_silent {α : Type} {p : Prog α} (hp : Program.Only Silent p) (w : Watch) :
    Ends (Watch.answer feed N) p (fun _ u => u.rounds = w.rounds) w := by
  refine hp.ends (fun u : Watch => u.rounds = w.rounds) rfl fun u op hop hu => ?_
  cases op with
  | read8 | read32 | read64 | never => exact hop.elim
  | _ => exact ⟨_,_,rfl,hu⟩

theorem silent_unlock : Program.Only Silent unlock := by
  refine only_unlock.mono fun op hop => ?_
  cases op <;> trivial

theorem silent_clearSlots (n : ℕ) : Program.Only Silent (Program.forRange n clearSlot) :=
  .forRange n fun _ => ⟨trivial,fun _ => ⟨trivial,fun _ => ⟨trivial,fun _ => trivial⟩⟩⟩

theorem ends_waitFirmware (h0 : maxSpins ≠ 0#32) (hmax : maxSpins ≠ 0xffffffff#32) (w : Watch) :
    Ends (Watch.answer feed (maxSpins.toNat + 2)) (waitFirmware maxSpins)
      (fun _ u => u.rounds ≤ w.rounds + 2 * (maxSpins.toNat + 2)) w := by
  refine Ends.request rfl (Ends.bind ((ends_lock h0 hmax _).mono fun ret t ht => ?_))
  by_cases hret : ret = 0
  · rw [if_neg (not_not.mpr hret)]
    refine Ends.request rfl (Ends.bind ?_)
    refine (ends_pollMagic h0 hmax (zero_le_limit maxSpins) le_rfl).mono fun seen u hu => ?_
    simp only [BitVec.toNat_zero] at hu
    refine Ends.bind ((ends_silent silent_unlock u).mono fun _ v hv => ?_)
    cases seen with
    | false => exact .ret (by omega)
    | true =>
      rw [if_neg (by decide)]
      refine Ends.bind ((ends_silent (silent_clearSlots flushSlots) v).mono fun _ x hx => ?_)
      exact Ends.request rfl (.ret (by omega))
  · rw [if_pos hret]
    exact .ret (by omega)

theorem Ends.within {limit : ℕ} {p : Prog ℤ} (h : ∀ feed, Ends (Watch.answer feed (maxSpins.toNat + 2)) p
    (fun _ u => u.rounds ≤ Watch.start.rounds + limit) .start) : ReturnsWithin limit p := by
  intro feed
  obtain ⟨acts,ret,u,hx,hu⟩ := h feed
  exact ⟨_,acts,ret,u,hx,by simpa [Watch.start] using hu⟩

/-- Everything reads as 1: the firmware holds its lock, the turn is its own, and a
flush is under way. -/
def stuck : ℕ → U64 := fun _ => 1#64

theorem spin_last (spins : U32) : spin 0xffffffff#32 spins = some (spins+1) := by
  rw [spin, if_neg (by decide), if_neg]
  bv_omega

theorem stuck_read (w : Watch) :
    (stuck w.reads).setWidth 8 ≠ 0#8 ∧ (stuck w.reads).setWidth 32 ≠ 0#32 := by
  rw [stuck]
  decide

theorem stuck_pollTurn {Q : Option U32 → Watch → Prop} (n : ℕ) (spins : U32) (w : Watch) :
    ¬ Ends (Watch.answer stuck N) (pollTurn 0xffffffff#32 n spins) Q w := by
  induction n generalizing spins w with
  | zero =>
    rintro ⟨acts,r,u,hx,-⟩
    contradiction
  | succ n ih =>
    intro h
    obtain ⟨turn,t,hturn,h⟩ := h.of_request
    obtain ⟨rfl,rfl⟩ := Prod.mk.inj (Option.some.inj hturn)
    rw [if_neg (stuck_read w).2, spin_last] at h
    obtain ⟨-,t,-,h⟩ := Ends.of_request h
    exact ih (spins+1) t h

theorem stuck_lock {Q : ℤ → Watch → Prop} (w : Watch) :
    ¬ Ends (Watch.answer stuck N) (lock 0xffffffff#32) Q w := by
  intro h
  obtain ⟨_,_,-,h⟩ := h.of_request
  obtain ⟨_,_,-,h⟩ := h.of_request
  obtain ⟨n,w,-,h⟩ := h.of_request
  cases n with
  | zero =>
    obtain ⟨acts,r,u,hx,-⟩ := h
    contradiction
  | succ n =>
    obtain ⟨fw,t,hfw,h⟩ := h.of_request
    obtain ⟨rfl,rfl⟩ := Prod.mk.inj (Option.some.inj hfw)
    rw [if_neg (stuck_read w).1] at h
    obtain ⟨turn,t,hturn,h⟩ := h.of_bind.of_request
    obtain ⟨rfl,rfl⟩ := Prod.mk.inj (Option.some.inj hturn)
    rw [if_neg (stuck_read _).2] at h
    obtain ⟨_,_,-,h⟩ := Ends.of_request h
    obtain ⟨_,t,-,h⟩ := Ends.of_request h
    exact stuck_pollTurn n 0#32 t h.of_bind

theorem stuck_waitFirmware {Q : ℤ → Watch → Prop} (w : Watch) :
    ¬ Ends (Watch.answer stuck N) (waitFirmware 0xffffffff#32) Q w := by
  intro h
  obtain ⟨_,t,-,h⟩ := h.of_request
  exact stuck_lock t h.of_bind

theorem stuck_pollFlush {Q : ℤ → Watch → Prop} (context : U32) (n : ℕ) (spins : U32) (w : Watch) :
    ¬ Ends (Watch.answer stuck N) (pollFlush context 0xffffffff#32 n spins) Q w := by
  induction n generalizing spins w with
  | zero =>
    rintro ⟨acts,r,u,hx,-⟩
    contradiction
  | succ n ih =>
    intro h
    obtain ⟨found,t,hfound,h⟩ := h.of_request
    obtain ⟨rfl,rfl⟩ := Prod.mk.inj (Option.some.inj hfound)
    have hbusy : ¬ stuck w.reads ≠ flushBusy := not_not.mpr rfl
    rw [if_neg hbusy, spin_last] at h
    obtain ⟨-,t,-,h⟩ := Ends.of_request h
    exact ih (spins+1) t h

theorem ReturnsWithin.ends {limit : ℕ} {p : Prog ℤ} (h : ReturnsWithin limit p) (feed : ℕ → U64) :
    ∃ n, Ends (Watch.answer feed n) p (fun _ u => u.rounds ≤ limit) .start := by
  obtain ⟨n,acts,ret,u,hx,hu⟩ := h feed
  exact ⟨n,acts,ret,u,hx,hu⟩

/-- At the last limit none of the three calls is sure to return. -/
theorem last_limit (limit : ℕ) : ¬ ReturnsWithin limit (lock 0xffffffff#32) ∧
    (∀ context : U32, context.toNat < flushSlots →
      ¬ ReturnsWithin limit (waitCacheflush context 0xffffffff#32)) ∧
    ¬ ReturnsWithin limit (waitFirmware 0xffffffff#32) := by
  refine ⟨fun h => ?_,fun context hlt h => ?_,fun h => ?_⟩
  · obtain ⟨n,h⟩ := h.ends stuck
    exact stuck_lock .start h
  · obtain ⟨n,h⟩ := h.ends stuck
    rw [waitCacheflush, if_neg (by omega)] at h
    obtain ⟨rounds,t,-,h⟩ := h.of_request
    exact stuck_pollFlush context rounds 0#32 t h
  · obtain ⟨n,h⟩ := h.ends stuck
    exact stuck_waitFirmware .start h

/-- The limits are honoured by all calls, unless the limit is the last number. -/
theorem spin_limits_iff (maxSpins : U32) : SpinLimits maxSpins ↔ maxSpins ≠ 0xffffffff#32 := by
  constructor
  · rintro h rfl
    exact (last_limit _).1 (h (by decide)).1
  · intro hmax h0
    exact ⟨Ends.within fun _ => ends_lock h0 hmax _,
      fun context => Ends.within fun _ => ends_waitCacheflush context h0 hmax _,
      Ends.within fun _ => ends_waitFirmware h0 hmax _⟩

/-- With the last limit the lock waits for ever on a firmware that holds it. -/
theorem last_limit_waits : ¬ SpinLimits 0xffffffff#32 := fun h =>
  (last_limit _).1 (h (by decide)).1

end AgxOpen.Handoff
