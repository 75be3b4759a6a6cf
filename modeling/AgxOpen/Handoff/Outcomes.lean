import AgxOpen.Handoff.FlushSlots

/-!
# What the lock and the handshake return

Both calls against an environment that answers every read with any value. What
a call has done is in its operations. Its state are the two flags.
-/
namespace AgxOpen.Handoff
open Program (MeetsAfter meetsAfter_ret meetsAfter_call meetsAfter_request meetsAfter_forRange)

/-- The flags of `struct agx_handoff`. -/
structure Flags where
  locked : Bool
  initialized : Bool

namespace Flags

def after (s : Flags) : Op → Flags
  | .setLocked value => { s with locked := value }
  | .setInitialized value => { s with initialized := value }
  | _ => s

def step (s : Flags) (op : Op) (_ : Res op) (t : Flags) : Prop := t = s.after op

/-- The flags behind some operations. -/
def run (s : Flags) (acts : List Ev) : Flags := acts.foldl (fun s a => s.after a.op) s

end Flags

variable {s t u : Flags} {acts pre more : List Ev} {a : Ev} {maxSpins spins : U32} {n : ℕ} {ret : ℤ}
  {value : U8}

/-- A write to `LOCK_AP`. -/
def IsLockAp : Op → Prop
  | .write8 offset _ => offset = offLockAp
  | _ => False

/-- A write to a word of the flush slots. -/
def WritesSlot : Op → Prop
  | .write8 offset _ | .write32 offset _ | .write64 offset _ =>
    offFlush 0 ≤ offset ∧ offset < offFlush flushSlots
  | _ => False

/-- The last write to `LOCK_AP` wrote the value. -/
def Stands (value : U8) (acts : List Ev) : Prop :=
  ∃ before after, acts = before ++ ⟨.write8 offLockAp value,()⟩ :: after ∧
    ∀ a ∈ after, ¬ IsLockAp a.op

/-- A read of `LOCK_FW` behind the last write of 1 to `LOCK_AP` gave 0, and no
write to `LOCK_AP` came later. -/
def Entered (acts : List Ev) : Prop :=
  ∃ before after, Stands 1#8 before ∧ acts = before ++ ⟨.read8 offLockFw,0#8⟩ :: after ∧
    ∀ a ∈ after, ¬ IsLockAp a.op

/-- The lock was obtained and is still held. -/
def Holding (s : Flags) (acts : List Ev) : Prop := Entered acts ∧ (s.run acts).locked = true

/-- What `agx_handoff_lock` has done when it returns. -/
structure LockOutcome (s : Flags) (acts : List Ev) (ret : ℤ) (u : Flags) : Prop where
  status : ret = 0 ∨ ret = Status.etimedout
  entered : ret = 0 → Entered acts ∧ u.locked = true
  timedOut : ret = Status.etimedout → Stands 0#8 acts ∧ u.locked = false
  initialized : u.initialized = s.initialized
  field : ∀ a ∈ acts, writes a.op = true → IsLockAp a.op

/-- The three words of a slot. -/
def slotWords (slot : ℕ) : List ℕ := [offFlushState slot,offFlushAddr slot,offFlushSize slot]

/-- All words of the first slots were written 0. -/
def Cleared (n : ℕ) (acts : List Ev) : Prop :=
  ∀ slot < n, ∀ word ∈ slotWords slot, (⟨.write64 word 0#64,()⟩ : Ev) ∈ acts

/-- What `agx_handoff_wait_firmware` has done when it returns. -/
structure HandshakeOutcome (s : Flags) (acts : List Ev) (ret : ℤ) (u : Flags) : Prop where
  released : Stands 0#8 acts ∧ u.locked = false
  success : ret = 0 → u.initialized = true ∧
    ∃ before after, acts = before ++ ⟨.read64 offMagicFw,magic⟩ :: after ∧ Holding s before ∧
      Cleared flushSlots after
  failure : ret ≠ 0 → u.initialized = s.initialized ∧ ∀ a ∈ acts, ¬ WritesSlot a.op

theorem stands_write : Stands value (acts ++ [⟨.write8 offLockAp value,()⟩]) :=
  ⟨acts,[],rfl,by simp⟩

theorem Stands.append (h : Stands value acts) (hmore : ∀ a ∈ more, ¬ IsLockAp a.op) :
    Stands value (acts ++ more) := by
  obtain ⟨before,after,rfl,hafter⟩ := h
  refine ⟨before,after ++ more,by simp,?_⟩
  exact List.forall_mem_append.mpr ⟨hafter,hmore⟩

theorem Stands.snoc (h : Stands value acts) (ha : ¬ IsLockAp a.op) : Stands value (acts ++ [a]) :=
  h.append (List.forall_mem_singleton.mpr ha)

theorem Stands.behind (h : Stands value acts) (pre : List Ev) : Stands value (pre ++ acts) := by
  obtain ⟨before,after,rfl,hafter⟩ := h
  exact ⟨pre ++ before,after,by simp,hafter⟩

theorem Entered.append (h : Entered acts) (hmore : ∀ a ∈ more, ¬ IsLockAp a.op) :
    Entered (acts ++ more) := by
  obtain ⟨before,after,hbefore,rfl,hafter⟩ := h
  refine ⟨before,after ++ more,hbefore,by simp,?_⟩
  exact List.forall_mem_append.mpr ⟨hafter,hmore⟩

theorem Entered.behind (h : Entered acts) (pre : List Ev) : Entered (pre ++ acts) := by
  obtain ⟨before,after,hbefore,rfl,hafter⟩ := h
  exact ⟨pre ++ before,after,hbefore.behind pre,by simp,hafter⟩

theorem runs_flags {α : Type} {p : Prog α} {r : α} (hr : p.Runs Flags.step s acts r u) :
    u = s.run acts := by
  induction hr with
  | ret r s => rfl
  | call hs rest ih =>
    obtain rfl := hs
    exact ih

theorem Flags.run_append (s : Flags) : s.run (acts ++ more) = (s.run acts).run more :=
  List.foldl_append

theorem meets_pollTurn (h : Stands 0#8 pre) :
    MeetsAfter Flags.step pre (pollTurn maxSpins n spins) (fun acts _ u => Stands 0#8 acts ∧ u = s) s := by
  induction n generalizing spins pre with
  | zero => exact meetsAfter_request.mpr fun r => r.elim
  | succ n ih =>
    refine meetsAfter_request.mpr ?_
    rintro turn t rfl
    have hturn : Stands 0#8 (pre ++ [⟨.read32 offTurn,turn⟩]) := h.snoc not_false
    by_cases h0 : turn = 0#32
    · rw [if_pos h0]
      exact meetsAfter_ret.mpr ⟨hturn,rfl⟩
    rw [if_neg h0]
    cases spin maxSpins spins with
    | none => exact meetsAfter_ret.mpr ⟨hturn,rfl⟩
    | some spins =>
      refine meetsAfter_request.mpr ?_
      rintro r t rfl
      exact ih (hturn.snoc not_false)

/-- The AP's flag is up again behind a round, and down if the limit was exceeded. -/
theorem meets_yieldTurn (h : Stands 1#8 pre) :
    MeetsAfter Flags.step pre (yieldTurn maxSpins n spins)
      (fun acts r u => Stands (if r.isSome then 1#8 else 0#8) acts ∧ u = s) s := by
  refine meetsAfter_request.mpr ?_
  rintro turn t rfl
  by_cases h0 : turn = 0#32
  · rw [if_pos h0]
    exact meetsAfter_ret.mpr ⟨h.snoc not_false,rfl⟩
  rw [if_neg h0]
  refine meetsAfter_request.mpr ?_
  rintro - t rfl
  refine meetsAfter_request.mpr ?_
  rintro - t rfl
  have hwrite : Stands 0#8 (pre ++ [⟨.read32 offTurn,turn⟩] ++ [⟨.write8 offLockAp 0#8,()⟩]) :=
    stands_write
  have hdown := hwrite.snoc (a := ⟨.barrier,()⟩) not_false
  refine MeetsAfter.bind ((meets_pollTurn hdown).mono ?_)
  rintro acts polled t ⟨hdown,rfl⟩
  cases polled with
  | none => exact meetsAfter_ret.mpr ⟨hdown,rfl⟩
  | some spins =>
    refine meetsAfter_request.mpr ?_
    rintro - t rfl
    refine meetsAfter_request.mpr ?_
    rintro - t rfl
    exact meetsAfter_ret.mpr ⟨stands_write.snoc not_false,rfl⟩

/-- How the loop ends. -/
def LockEnd (acts : List Ev) (ret : ℤ) (u : Flags) : Prop :=
  ret = 0 ∧ Entered acts ∧ u.locked = true ∨
    ret = Status.etimedout ∧ Stands 0#8 acts ∧ u.locked = false

theorem meets_lockLoop (h : Stands 1#8 pre) (hs : s.locked = false) :
    MeetsAfter Flags.step pre (lockLoop maxSpins n spins) LockEnd s := by
  induction n generalizing spins pre with
  | zero => exact meetsAfter_request.mpr fun r => r.elim
  | succ n ih =>
    refine meetsAfter_request.mpr ?_
    rintro fw t rfl
    by_cases h0 : fw = 0#8
    · subst h0
      refine meetsAfter_request.mpr ?_
      rintro - t rfl
      refine meetsAfter_request.mpr ?_
      rintro - t rfl
      have hentered : Entered (pre ++ [⟨.read8 offLockFw,0#8⟩]) := ⟨pre,[],h,rfl,by simp⟩
      refine meetsAfter_ret.mpr (.inl ⟨rfl,?_,rfl⟩)
      rw [List.append_assoc]
      exact hentered.append (by simp [IsLockAp])
    rw [if_neg h0]
    have hread := h.snoc (a := ⟨.read8 offLockFw,fw⟩) not_false
    refine MeetsAfter.bind ((meets_yieldTurn hread).mono ?_)
    rintro acts yielded t ⟨hflag,rfl⟩
    cases yielded with
    | none => exact meetsAfter_ret.mpr (.inr ⟨rfl,hflag,hs⟩)
    | some spins =>
      dsimp only
      cases spin maxSpins spins with
      | none =>
        refine meetsAfter_request.mpr ?_
        rintro - t rfl
        refine meetsAfter_request.mpr ?_
        rintro - t rfl
        exact meetsAfter_ret.mpr (.inr ⟨rfl,stands_write.snoc not_false,hs⟩)
      | some spins =>
        refine meetsAfter_request.mpr ?_
        rintro - t rfl
        exact ih (Stands.snoc hflag not_false)

theorem meets_lock (hs : s.locked = false) : MeetsAfter Flags.step [] (lock maxSpins) LockEnd s := by
  refine meetsAfter_request.mpr ?_
  rintro - t rfl
  refine meetsAfter_request.mpr ?_
  rintro - t rfl
  refine meetsAfter_request.mpr ?_
  rintro n t rfl
  have hraised : Stands 1#8 ([] ++ [(⟨.write8 offLockAp 1#8,()⟩ : Ev)]) := stands_write
  have hbarrier := hraised.snoc (a := ⟨.barrier,()⟩) not_false
  exact meets_lockLoop (hbarrier.snoc (a := ⟨.rounds,n⟩) not_false) hs

theorem Locks.initialized {op : Op} (hop : Locks op) (s : Flags) :
    (s.after op).initialized = s.initialized := by
  cases op <;> first | rfl | exact hop.elim

theorem Locks.field {op : Op} (hop : Locks op) (hw : writes op = true) : IsLockAp op := by
  cases op <;> first | exact hop | exact hop.elim | contradiction

theorem run_initialized (h : ∀ a ∈ acts, ∀ s : Flags, (s.after a.op).initialized = s.initialized)
    (s : Flags) : (s.run acts).initialized = s.initialized := by
  induction acts generalizing s with
  | nil => rfl
  | cons a acts ih =>
    obtain ⟨ha,hacts⟩ := List.forall_mem_cons.mp h
    exact (ih hacts _).trans (ha s)

theorem lock_outcome (hs : s.locked = false) (hr : (lock maxSpins).Runs Flags.step s acts ret u) :
    LockOutcome s acts ret u := by
  have hend := hr.after (meets_lock hs)
  have honly := hr.only (only_lock maxSpins)
  obtain rfl := runs_flags hr
  refine ⟨?_,?_,?_,run_initialized (fun a ha => (honly a ha).initialized) s,fun a ha => (honly a ha).field⟩
  · exact hend.imp And.left And.left
  · rintro rfl
    obtain ⟨-,hentered,hlocked⟩ | ⟨hret,-⟩ := hend
    · exact ⟨hentered,hlocked⟩
    · exact absurd hret (by decide)
  · rintro rfl
    obtain ⟨hret,-⟩ | ⟨-,hdown,hlocked⟩ := hend
    · exact absurd hret (by decide)
    · exact ⟨hdown,hlocked⟩

theorem meets_pollMagic (s : Flags) : Program.Meets Flags.step (pollMagic maxSpins n spins)
    (fun acts seen _ => seen = true → ∃ polls, acts = polls ++ [⟨.read64 offMagicFw,magic⟩]) s := by
  induction n generalizing spins s with
  | zero => exact fun r => r.elim
  | succ n ih =>
    intro seen t ht
    change Program.Meets Flags.step (if seen = magic then _ else _) _ _
    by_cases hm : seen = magic
    · subst hm
      rw [if_pos rfl]
      exact fun _ => ⟨[],rfl⟩
    rw [if_neg hm]
    cases spin maxSpins spins with
    | none => exact fun h => by simp at h
    | some spins =>
      intro r u hu
      refine (ih u).mono fun acts b _ h hb => ?_
      obtain ⟨polls,rfl⟩ := h hb
      exact ⟨_ :: _ :: polls,rfl⟩

theorem meets_unlock (s : Flags) : Program.Meets Flags.step unlock
    (fun acts _ u => Stands 0#8 acts ∧ u = { s with locked := false }) s := by
  rintro - t rfl - t rfl - t rfl - t rfl - t rfl - t rfl
  exact ⟨⟨[_,_,_],[_,_],rfl,by simp [IsLockAp]⟩,rfl⟩

theorem Cleared.succ {k : ℕ} (h : Cleared k acts) : Cleared (k+1) (acts ++
    [⟨.write64 (offFlushState k) 0#64,()⟩,⟨.write64 (offFlushAddr k) 0#64,()⟩,
      ⟨.write64 (offFlushSize k) 0#64,()⟩]) := by
  intro slot hlt word hword
  rw [List.mem_append]
  by_cases hk : slot = k
  · subst hk
    simp only [slotWords, List.mem_cons, List.not_mem_nil, or_false] at hword
    rcases hword with rfl | rfl | rfl <;> exact .inr (by simp)
  · exact .inl (h slot (by omega) word hword)

theorem meets_clearSlots (n : ℕ) (s : Flags) :
    MeetsAfter Flags.step [] (Program.forRange n clearSlot)
      (fun acts _ u => u = s ∧ Cleared n acts) s := by
  refine meetsAfter_forRange (fun k acts u => u = s ∧ Cleared k acts) ⟨rfl,by simp [Cleared]⟩ ?_
  rintro k - acts t ⟨rfl,hacts⟩
  refine meetsAfter_request.mpr ?_
  rintro - u rfl
  refine meetsAfter_request.mpr ?_
  rintro - u rfl
  refine meetsAfter_call.mpr ?_
  rintro - u rfl
  refine meetsAfter_ret.mpr ⟨rfl,?_⟩
  rw [List.append_assoc, List.append_assoc]
  exact hacts.succ

theorem clear_runs (hr : (Program.forRange n clearSlot).Runs Flags.step s acts () u) :
    (u = s ∧ Cleared n acts) ∧ ∀ a ∈ acts, ¬ IsLockAp a.op := by
  have honly : Program.Only (fun op => ¬ IsLockAp op) (Program.forRange n clearSlot) :=
    .forRange n fun slot => ⟨not_false,fun _ => ⟨not_false,fun _ => ⟨not_false,fun _ => trivial⟩⟩⟩
  exact ⟨hr.after (meets_clearSlots n s),hr.only honly⟩

/-- Nothing of this touches the flag of the AP, the two flags or a slot. -/
def Idle (op : Op) : Prop := ¬ IsLockAp op ∧ ¬ WritesSlot op ∧ ∀ s : Flags, s.after op = s

theorem Polls.idle {word : ℕ} {op : Op} (hop : Polls word op) : Idle op := by
  cases op <;> first | exact ⟨not_false,not_false,fun _ => rfl⟩ | exact hop.elim

theorem run_idle (h : ∀ a ∈ acts, Idle a.op) (s : Flags) : s.run acts = s := by
  induction acts generalizing s with
  | nil => rfl
  | cons a acts ih =>
    obtain ⟨ha,hacts⟩ := List.forall_mem_cons.mp h
    change (s.after a.op).run acts = s
    rw [ha.2.2]
    exact ih hacts s

theorem Holding.append (h : Holding s acts) (hmore : ∀ a ∈ more, Idle a.op) :
    Holding s (acts ++ more) := by
  refine ⟨h.1.append fun a ha => (hmore a ha).1,?_⟩
  rw [Flags.run_append, run_idle hmore]
  exact h.2

theorem lockAp_outside : ¬ offFlush 0 ≤ offLockAp ∧ ¬ offFlush 0 ≤ offTurn ∧ ¬ offFlush 0 ≤ offMagicAp := by
  decide

theorem Locks.outside {op : Op} (hop : Locks op) : ¬ WritesSlot op := by
  cases op <;> first | exact not_false | exact hop.elim | skip
  obtain rfl := hop
  exact fun h => lockAp_outside.1 h.1

theorem Unlocks.outside {op : Op} (hop : Unlocks op) : ¬ WritesSlot op := by
  cases op <;> first | exact not_false | exact hop.elim | obtain ⟨rfl,-⟩ := hop
  · exact fun h => lockAp_outside.1 h.1
  · exact fun h => lockAp_outside.2.1 h.1

/-- What the handshake does once it has the lock. -/
theorem handshake_locked {seen : Bool} {polls : List Ev} {v : Flags} (hholding : Holding s pre)
    (hinit : t.initialized = s.initialized) (hpoll : (pollMagic maxSpins n 0#32).Runs Flags.step t polls seen v)
    (hr : (unlock >>= fun _ => if !seen then return Status.etimedout else do
      Program.forRange flushSlots clearSlot
      ask (.setInitialized true)
      return 0).Runs Flags.step v acts ret u) (hpre : ∀ a ∈ pre, ¬ WritesSlot a.op) :
    HandshakeOutcome s (pre ++ (⟨.rounds,n⟩ :: (polls ++ acts))) ret u := by
  have hidle : ∀ a ∈ polls, Idle a.op :=
    fun a ha => (hpoll.only (only_pollMagic maxSpins n 0#32) a ha).idle
  have hv : v = t := (runs_flags hpoll).trans (run_idle hidle t)
  subst hv
  obtain ⟨released,_,w,rest,hunlock,hrest,rfl⟩ := hr.of_bind
  obtain ⟨hdown,rfl⟩ := hunlock.post (meets_unlock v)
  have hcut : pre ++ (⟨.rounds,n⟩ :: (polls ++ (released ++ rest))) =
      pre ++ ⟨.rounds,n⟩ :: polls ++ released ++ rest := by simp
  have hstands := hdown.behind (pre ++ ⟨.rounds,n⟩ :: polls)
  cases seen with
  | false =>
    cases hrest
    refine ⟨⟨?_,rfl⟩,fun h => absurd h (by decide),fun _ => ⟨hinit,?_⟩⟩
    · rw [hcut, List.append_nil]
      exact hstands
    · rw [List.append_nil]
      refine List.forall_mem_append.mpr ⟨hpre,List.forall_mem_cons.mpr ⟨not_false,?_⟩⟩
      exact List.forall_mem_append.mpr ⟨fun a ha => (hidle a ha).2.1,
        fun a ha => (hunlock.only only_unlock a ha).outside⟩
  | true =>
    rw [if_neg (by decide)] at hrest
    obtain ⟨clears,_,_,_,hclears,hend,rfl⟩ := hrest.of_bind
    obtain ⟨⟨rfl,hcleared⟩,hclean⟩ := clear_runs hclears
    obtain ⟨_,_,_,rfl,rfl,hret⟩ := hend.of_request
    cases hret
    obtain ⟨polls',rfl⟩ := hpoll.post (meets_pollMagic v) rfl
    refine ⟨⟨?_,rfl⟩,fun _ => ⟨rfl,?_⟩,fun h => absurd rfl h⟩
    · rw [hcut]
      exact hstands.append (List.forall_mem_append.mpr ⟨hclean,by simp [IsLockAp]⟩)
    · refine ⟨pre ++ ⟨.rounds,n⟩ :: polls',released ++ (clears ++ [⟨.setInitialized true,()⟩]),by simp,?_,?_⟩
      · refine hholding.append (List.forall_mem_cons.mpr ⟨⟨not_false,not_false,fun _ => rfl⟩,?_⟩)
        exact fun a ha => hidle a (List.mem_append_left _ ha)
      · intro slot hlt word hword
        exact List.mem_append_right _ (List.mem_append_left _ (hcleared slot hlt word hword))

theorem handshake_outcome (hs : s.locked = false)
    (hr : (waitFirmware maxSpins).Runs Flags.step s acts ret u) : HandshakeOutcome s acts ret u := by
  obtain ⟨_,s,calls,rfl,rfl,hcalls⟩ := hr.of_request
  obtain ⟨lockActs,lockRet,t,rest,hlock,hrest,rfl⟩ := hcalls.of_bind
  have hout := lock_outcome hs hlock
  have houtside : ∀ a ∈ (⟨.write64 offMagicAp magic,()⟩ :: lockActs : List Ev), ¬ WritesSlot a.op :=
    List.forall_mem_cons.mpr ⟨fun h => lockAp_outside.2.2 h.1,
      fun a ha => (hlock.only (only_lock maxSpins) a ha).outside⟩
  by_cases h0 : lockRet = 0
  · subst h0
    obtain ⟨n,_,_,rfl,rfl,hpolled⟩ := hrest.of_request
    obtain ⟨polls,seen,v,_,hpoll,hreleased,rfl⟩ := hpolled.of_bind
    obtain ⟨hentered,hlocked⟩ := hout.entered rfl
    rw [runs_flags hlock] at hlocked
    have hholding : Holding s (⟨.write64 offMagicAp magic,()⟩ :: lockActs) :=
      ⟨hentered.behind [_],hlocked⟩
    exact handshake_locked hholding hout.initialized hpoll hreleased houtside
  · rw [if_pos h0] at hrest
    cases hrest
    have hret := hout.status.resolve_left h0
    obtain ⟨hdown,hlocked⟩ := hout.timedOut hret
    rw [List.append_nil]
    exact ⟨⟨hdown.behind [_],hlocked⟩,fun h => absurd h h0,fun _ => ⟨hout.initialized,houtside⟩⟩

/-- From a lock that is not held, both calls report what they have done, whatever
they read. -/
theorem calls_outcome (maxSpins : U32) (hs : s.locked = false) :
    (∀ acts ret u, (lock maxSpins).Runs Flags.step s acts ret u → LockOutcome s acts ret u) ∧
    ∀ acts ret u, (waitFirmware maxSpins).Runs Flags.step s acts ret u →
      HandshakeOutcome s acts ret u :=
  ⟨fun _ _ _ hr => lock_outcome hs hr,fun _ _ _ hr => handshake_outcome hs hr⟩

/-- A firmware that has booted and wants nothing. -/
def readyPeer (s : Flags) : (op : Op) → Option (Res op × Flags)
  | .read8 _ => some (0#8,s)
  | .read32 _ => some (0#32,s)
  | .read64 _ => some (magic,s)
  | .rounds => some (1,s)
  | .never => none
  | .setLocked value => some ((),{ s with locked := value })
  | .setInitialized value => some ((),{ s with initialized := value })
  | .write8 .. | .write32 .. | .write64 .. | .relax | .barrier | .mark _ | .fwWrite .. | .fwDone _ =>
    some ((),s)

theorem readyPeer_step (s : Flags) (op : Op) (r : Res op) (t : Flags)
    (h : readyPeer s op = some (r,t)) : Flags.step s op r t := by
  cases op with
  | never => contradiction
  | _ =>
    obtain ⟨-,rfl⟩ := Prod.mk.inj (Option.some.inj h)
    rfl

theorem calls_outcome_example : ∃ acts u, (waitFirmware 1#32).Runs Flags.step ⟨false,false⟩ acts 0 u ∧
    HandshakeOutcome ⟨false,false⟩ acts 0 u := by
  have hx : ((waitFirmware 1#32).execute readyPeer ⟨false,false⟩).any (fun x => x.2.1 == 0) = true := by
    decide +kernel
  obtain ⟨acts,ret,u,hr,hret⟩ := Program.execute_any readyPeer_step hx
  obtain rfl := beq_iff_eq.mp hret
  exact ⟨acts,u,hr,(calls_outcome 1#32 rfl).2 acts 0 u hr⟩

end AgxOpen.Handoff
