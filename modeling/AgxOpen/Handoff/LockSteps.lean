import AgxOpen.Handoff.Exclusion
import AgxOpen.Handoff.Outcomes

/-!
# The calls take the machine's steps

The lock, its release and the handshake stand here twice: as programs over bytes and as a
machine with a program counter. Each access of a program is the machine's next step,
whatever others wrote in between, so every run of a call is a run of the machine.
-/
namespace AgxOpen.Handoff
open Function (update)
open Program (Follows follows_request follows_forRange)

variable {s : Memory} {m : Shared} {a b : Ap} {f : Flags} {ret : ℤ}

/-- A 64-bit word of the structure. The third one holds the lock. -/
def IsWord (off : ℕ) : Prop := 8 ∣ off ∧ off ≠ 0x10

/-- The bytes hold the machine's memory. -/
structure Shows (s : Memory) (m : Shared) : Prop where
  lockAp : s.bytes offLockAp = m.lockAp
  lockFw : s.bytes offLockFw = m.lockFw
  turn : BitVec.ofNat 32 (s.bytes.load offTurn 4) = m.turn
  word : ∀ off, IsWord off → s.bytes.load64 off = m.word off

/-- Any bytes hold a memory of the machine. -/
theorem shows_bytes (s : Memory) : Shows s ⟨s.bytes offLockAp,s.bytes offLockFw,
    BitVec.ofNat 32 (s.bytes.load offTurn 4),s.bytes.load64⟩ := ⟨rfl,rfl,rfl,fun _ _ => rfl⟩

theorem IsWord.apart {off : ℕ} (h : IsWord off) : off+8 ≤ offLockAp ∨ offTurn+4 ≤ off := by
  obtain ⟨⟨k,rfl⟩,hne⟩ := h
  simp only [offLockAp, offTurn]
  omega

theorem IsWord.ne_apart {off off' : ℕ} (h : IsWord off) (h' : IsWord off') (hne : off' ≠ off) :
    off'+8 ≤ off ∨ off+8 ≤ off' := by
  obtain ⟨⟨k,rfl⟩,-⟩ := h
  obtain ⟨⟨k',rfl⟩,-⟩ := h'
  omega

theorem Shows.writeLock (h : Shows s m) (value : U8) :
    Shows (s.after (.write8 offLockAp value) ()) { m with lockAp := value } where
  lockAp := by
    change s.bytes.store offLockAp 1 value.toNat offLockAp = value
    simp [Bytes.store]
  lockFw := by
    have hout : offLockFw < offLockAp ∨ offLockAp+1 ≤ offLockFw := by decide
    exact (Bytes.store_outside (m := s.bytes) (x := value.toNat) hout).trans h.lockFw
  turn := by
    have hout : offTurn+4 ≤ offLockAp ∨ offLockAp+1 ≤ offTurn := by decide
    exact (congrArg _ (Bytes.load_store_apart hout)).trans h.turn
  word off ho := by
    have hout : off+8 ≤ offLockAp ∨ offLockAp+1 ≤ off :=
      ho.apart.imp id fun hle => (by decide : offLockAp+1 ≤ offTurn+4).trans hle
    exact (Bytes.load64_store_apart hout).trans (h.word off ho)

theorem Shows.writeTurn (h : Shows s m) (value : U32) :
    Shows (s.after (.write32 offTurn value) ()) { m with turn := value } where
  lockAp := by
    have hout : offLockAp < offTurn ∨ offTurn+4 ≤ offLockAp := by decide
    exact (Bytes.store_outside (m := s.bytes) (x := value.toNat) hout).trans h.lockAp
  lockFw := by
    have hout : offLockFw < offTurn ∨ offTurn+4 ≤ offLockFw := by decide
    exact (Bytes.store_outside (m := s.bytes) (x := value.toNat) hout).trans h.lockFw
  turn := by
    have hpow : 256^4 = 2^32 := by decide
    change BitVec.ofNat 32 ((s.bytes.store offTurn 4 value.toNat).load offTurn 4) = value
    rw [Bytes.load_store_same, hpow, Nat.mod_eq_of_lt value.isLt, BitVec.ofNat_toNat,
      BitVec.setWidth_eq]
  word off ho := by
    have hout : off+8 ≤ offTurn ∨ offTurn+4 ≤ off :=
      ho.apart.imp (fun hle => hle.trans (by decide)) id
    exact (Bytes.load64_store_apart hout).trans (h.word off ho)

theorem Shows.writeWord (h : Shows s m) {off : ℕ} (ho : IsWord off) (value : U64) :
    Shows (s.after (.write64 off value) ()) { m with word := update m.word off value } where
  lockAp := by
    have hout : offLockAp < off ∨ off+8 ≤ offLockAp := by
      obtain hlo | hhi := ho.apart
      · exact .inr hlo
      · exact .inl ((by decide : offLockAp < offTurn+4).trans_le hhi)
    exact (Bytes.store_outside hout).trans h.lockAp
  lockFw := by
    have hout : offLockFw < off ∨ off+8 ≤ offLockFw := by
      obtain hlo | hhi := ho.apart
      · exact .inr (hlo.trans (by decide))
      · exact .inl ((by decide : offLockFw < offTurn+4).trans_le hhi)
    exact (Bytes.store_outside hout).trans h.lockFw
  turn := by
    have hout : offTurn+4 ≤ off ∨ off+8 ≤ offTurn :=
      ho.apart.symm.imp id fun hlo => hlo.trans (by decide)
    exact (congrArg _ (Bytes.load_store_apart hout)).trans h.turn
  word off' ho' := by
    change (s.bytes.store64 off value).load64 off' = update m.word off value off'
    by_cases he : off' = off
    · subst he
      rw [Function.update_self, Bytes.load64_store64_same]
    · rw [Function.update_of_ne he, ← h.word off' ho']
      exact Bytes.load64_store_apart (ho.ne_apart ho' he)

def accesses : Op → Bool
  | .read8 _ | .write8 .. | .read32 _ | .write32 .. | .read64 _ | .write64 .. => true
  | _ => false

/-- The machine next to the two flags of a running call. -/
structure Paired where
  ap : Ap
  flags : Flags

/-- An access is the machine's next step in every memory where it is answered so. Anything
else leaves the machine where it is. -/
def Paired.step (x : Paired) (op : Op) (r : Res op) (y : Paired) : Prop :=
  y.flags = x.flags.after op ∧
    if accesses op then ∀ s m, Shows s m → s.allows op r →
      ∃ m', x.ap.step m = some (m',y.ap) ∧ Shows (s.after op r) m'
    else y.ap = x.ap

theorem paired_silent {op : Op} {r : Res op} (hop : accesses op = false) :
    Paired.step ⟨a,f⟩ op r ⟨a,f.after op⟩ := ⟨rfl,by simp [hop]⟩

theorem isWord_magicAp : IsWord offMagicAp := by
  unfold IsWord
  decide

theorem isWord_magicFw : IsWord offMagicFw := by
  unfold IsWord
  decide

theorem paired_readFw {r : U8} (h : ∀ m, m.lockFw = r → a.step m = some (m,b)) :
    Paired.step ⟨a,f⟩ (.read8 offLockFw) r ⟨b,f⟩ :=
  ⟨rfl,fun _ m hm hr => ⟨m,h m (hm.lockFw.symm.trans (Eq.symm hr)),hm⟩⟩

theorem paired_readTurn {r : U32} (h : ∀ m, m.turn = r → a.step m = some (m,b)) :
    Paired.step ⟨a,f⟩ (.read32 offTurn) r ⟨b,f⟩ :=
  ⟨rfl,fun _ m hm hr => ⟨m,h m (hm.turn.symm.trans (Eq.symm hr)),hm⟩⟩

theorem paired_readMagic {r : U64} (h : ∀ m, m.word offMagicFw = r → a.step m = some (m,b)) :
    Paired.step ⟨a,f⟩ (.read64 offMagicFw) r ⟨b,f⟩ :=
  ⟨rfl,fun _ m hm hr => ⟨m,h m ((hm.word _ isWord_magicFw).symm.trans (Eq.symm hr)),hm⟩⟩

theorem paired_writeLock {value : U8} (h : ∀ m, a.step m = some ({ m with lockAp := value },b)) :
    Paired.step ⟨a,f⟩ (.write8 offLockAp value) () ⟨b,f⟩ :=
  ⟨rfl,fun _ m hm _ => ⟨_,h m,hm.writeLock value⟩⟩

theorem paired_writeTurn {value : U32} (h : ∀ m, a.step m = some ({ m with turn := value },b)) :
    Paired.step ⟨a,f⟩ (.write32 offTurn value) () ⟨b,f⟩ :=
  ⟨rfl,fun _ m hm _ => ⟨_,h m,hm.writeTurn value⟩⟩

theorem paired_writeWord {off : ℕ} {value : U64} (ho : IsWord off)
    (h : ∀ m, a.step m = some ({ m with word := update m.word off value },b)) :
    Paired.step ⟨a,f⟩ (.write64 off value) () ⟨b,f⟩ :=
  ⟨rfl,fun _ m hm _ => ⟨_,h m,hm.writeWord ho value⟩⟩

theorem again_at (a : Ap) (pc : ApPc) : ({ a with pc := pc } : Ap).again = a.again := by
  unfold Ap.again
  cases spin a.maxSpins a.spins <;> rfl

/-- Where the inner loop leaves the machine. -/
def PollEnd (a : Ap) (f : Flags) (r : Option U32) (y : Paired) : Prop := y.flags = f ∧
  match r with
  | none => ∃ spins, y.ap = ({ a with spins := spins } : Ap).leave Status.etimedout
  | some spins => y.ap = { a with pc := .reraise, spins := spins }

theorem follows_pollTurn (n : ℕ) (spins : U32) :
    Follows Paired.step (pollTurn a.maxSpins n spins) (PollEnd a f)
      ⟨{ a with pc := .pollTurn, spins := spins },f⟩ := by
  induction n generalizing spins with
  | zero => exact fun r => r.elim
  | succ n ih =>
    refine follows_request.mpr fun turn => ?_
    by_cases h0 : turn = 0#32
    · refine ⟨⟨{ a with pc := .reraise, spins := spins },f⟩,paired_readTurn fun m hm => ?_,?_⟩
      · simp [Ap.step, hm, h0]
      · rw [if_pos h0]
        exact ⟨rfl,rfl⟩
    rw [if_neg h0]
    cases hspin : spin a.maxSpins spins with
    | none =>
      refine ⟨_,paired_readTurn fun m hm => ?_,rfl,spins,rfl⟩
      simp [Ap.step, hm, h0, hspin, Ap.leave]
    | some next =>
      refine ⟨⟨{ a with pc := .pollTurn, spins := next },f⟩,paired_readTurn fun m hm => ?_,?_⟩
      · simp [Ap.step, hm, h0, hspin]
      · exact fun _ => ⟨_,paired_silent rfl,ih next⟩

/-- A round of the outer loop goes on to the check of its end. -/
def YieldEnd (a : Ap) (f : Flags) (r : Option U32) (y : Paired) : Prop := y.flags = f ∧
  match r with
  | none => ∃ spins, y.ap = ({ a with spins := spins } : Ap).leave Status.etimedout
  | some spins => y.ap = ({ a with spins := spins } : Ap).again

theorem follows_yieldTurn (n : ℕ) (spins : U32) :
    Follows Paired.step (yieldTurn a.maxSpins n spins) (YieldEnd a f)
      ⟨{ a with pc := .readTurn, spins := spins },f⟩ := by
  refine follows_request.mpr fun turn => ?_
  by_cases h0 : turn = 0#32
  · refine ⟨⟨({ a with spins := spins } : Ap).again,f⟩,paired_readTurn fun m hm => ?_,?_⟩
    · simp [Ap.step, hm, h0, ← again_at { a with spins := spins } .readTurn]
    · rw [if_pos h0]
      exact ⟨rfl,rfl⟩
  refine ⟨⟨{ a with pc := .withdraw, spins := spins },f⟩,paired_readTurn fun m hm => ?_,?_⟩
  · simp [Ap.step, hm, h0]
  rw [if_neg h0]
  refine fun _ => ⟨_,paired_writeLock fun _ => rfl,fun _ => ⟨_,paired_silent rfl,?_⟩⟩
  change Follows Paired.step (pollTurn a.maxSpins n spins >>= _) _ _
  refine Follows.bind ((follows_pollTurn n spins).mono ?_)
  rintro polled ⟨b,g⟩ ⟨rfl,hb⟩
  cases polled with
  | none => exact ⟨rfl,hb⟩
  | some spins =>
    obtain rfl : b = { a with pc := .reraise, spins := spins } := hb
    refine fun _ => ⟨_,paired_writeLock fun _ => rfl,fun _ => ⟨_,paired_silent rfl,?_⟩⟩
    exact ⟨rfl,again_at { a with spins := spins } .reraise⟩

/-- Where `agx_handoff_lock` leaves the machine. -/
def LockedEnd (a : Ap) (f : Flags) (ret : ℤ) (y : Paired) : Prop :=
  ret = 0 ∧ y.flags = { f with locked := true } ∧
    (∃ spins, y.ap = ({ a with spins := spins } : Ap).enter) ∨
  ret = Status.etimedout ∧ y.flags = f ∧
    ∃ spins, y.ap = ({ a with spins := spins } : Ap).leave Status.etimedout

theorem follows_lockLoop (n : ℕ) (spins : U32) :
    Follows Paired.step (lockLoop a.maxSpins n spins) (LockedEnd a f)
      ⟨{ a with pc := .readFw, spins := spins },f⟩ := by
  induction n generalizing spins with
  | zero => exact fun r => r.elim
  | succ n ih =>
    refine follows_request.mpr fun fw => ?_
    by_cases h0 : fw = 0#8
    · refine ⟨⟨({ a with spins := spins } : Ap).enter,f⟩,paired_readFw fun m hm => ?_,?_⟩
      · simp [Ap.step, hm, h0, Ap.enter]
      rw [if_pos h0]
      refine fun _ => ⟨_,paired_silent rfl,fun _ => ⟨_,paired_silent rfl,?_⟩⟩
      exact .inl ⟨rfl,rfl,spins,rfl⟩
    refine ⟨⟨{ a with pc := .readTurn, spins := spins },f⟩,paired_readFw fun m hm => ?_,?_⟩
    · simp [Ap.step, hm, h0]
    rw [if_neg h0]
    refine Follows.bind ((follows_yieldTurn n spins).mono ?_)
    rintro yielded ⟨b,g⟩ ⟨rfl,hb⟩
    cases yielded with
    | none => exact .inr ⟨rfl,rfl,hb⟩
    | some spins =>
      obtain rfl : b = ({ a with spins := spins } : Ap).again := hb
      unfold Ap.again
      dsimp only
      cases spin a.maxSpins spins with
      | none =>
        refine fun _ => ⟨_,paired_writeLock fun _ => rfl,fun _ => ⟨_,paired_silent rfl,?_⟩⟩
        exact .inr ⟨rfl,rfl,spins,rfl⟩
      | some next => exact fun _ => ⟨_,paired_silent rfl,ih next⟩

theorem follows_lock : Follows Paired.step (lock a.maxSpins) (LockedEnd a f)
    ⟨{ a with pc := .raise, spins := 0#32 },f⟩ :=
  fun _ => ⟨_,paired_writeLock fun _ => rfl,fun _ => ⟨_,paired_silent rfl,
    fun n => ⟨_,paired_silent rfl,follows_lockLoop n 0#32⟩⟩⟩

/-- The machine behind a release of the lock. -/
def Ap.released (a : Ap) : Ap :=
  if a.waiting ∧ a.ret = Status.ok then { a with pc := .clear 0, locked := false }
  else { a with pc := .idle, waiting := false, locked := false }

theorem follows_unlock : Follows Paired.step unlock
    (fun _ y => y = ⟨a.released,{ f with locked := false }⟩) ⟨{ a with pc := .unlockTurn },f⟩ :=
  fun _ => ⟨_,paired_silent rfl,fun _ => ⟨_,paired_writeTurn fun _ => rfl,
    fun _ => ⟨_,paired_silent rfl,fun _ => ⟨_,paired_writeLock fun _ => rfl,
      fun _ => ⟨_,paired_silent rfl,fun _ => ⟨_,paired_silent rfl,rfl⟩⟩⟩⟩⟩⟩

/-- The machine behind the poll for the firmware's magic. -/
def Ap.polled (a : Ap) (seen : Bool) (spins : U32) : Ap :=
  { a with
    pc := .unlockTurn
    waitSpins := spins
    ret := if seen then Status.ok else Status.etimedout }

theorem follows_pollMagic (n : ℕ) (spins : U32) :
    Follows Paired.step (pollMagic a.maxSpins n spins)
      (fun seen y => y.flags = f ∧ ∃ spins, y.ap = a.polled seen spins)
      ⟨{ a with pc := .pollMagic, waitSpins := spins },f⟩ := by
  induction n generalizing spins with
  | zero => exact fun r => r.elim
  | succ n ih =>
    refine follows_request.mpr fun seen => ?_
    by_cases hm : seen = magic
    · refine ⟨⟨a.polled true spins,f⟩,paired_readMagic fun m hr => ?_,?_⟩
      · simp [Ap.step, hr, hm, Ap.polled]
      · rw [if_pos hm]
        exact ⟨rfl,spins,rfl⟩
    rw [if_neg hm]
    cases hspin : spin a.maxSpins spins with
    | none =>
      refine ⟨⟨a.polled false spins,f⟩,paired_readMagic fun m hr => ?_,rfl,spins,rfl⟩
      simp [Ap.step, hr, hm, hspin, Ap.polled]
    | some next =>
      refine ⟨⟨{ a with pc := .pollMagic, waitSpins := next },f⟩,paired_readMagic fun m hr => ?_,?_⟩
      · simp [Ap.step, hr, hm, hspin]
      · exact fun _ => ⟨_,paired_silent rfl,ih next⟩

/-- The machine in front of a slot of the clearing loop, and behind the last one. -/
def Ap.clearing (a : Ap) (k : ℕ) : Ap :=
  if k < flushSlots then { a with pc := .clear (3*k) }
  else { a with pc := .idle, waiting := false, initialized := true }

theorem flushWord_slot (k : ℕ) : flushWord (3*k) = offFlushState k ∧
    flushWord (3*k+1) = offFlushAddr k ∧ flushWord (3*k+2) = offFlushSize k := by
  have h0 : 3*k%3 = 0 ∧ 3*k/3 = k := by omega
  have h1 : (3*k+1)%3 = 1 ∧ (3*k+1)/3 = k := by omega
  have h2 : (3*k+2)%3 = 2 ∧ (3*k+2)/3 = k := by omega
  simp [flushWord, h0, h1, h2]

theorem isWord_flushWord (i : ℕ) : IsWord (flushWord i) := by
  unfold flushWord IsWord
  split <;> simp only [offFlushState, offFlushAddr, offFlushSize, offFlush] <;> omega

theorem follows_clearSlot {k : ℕ} (hk : k < flushSlots) :
    Follows Paired.step (clearSlot k) (fun _ y => y = ⟨a.clearing (k+1),f⟩) ⟨a.clearing k,f⟩ := by
  obtain ⟨hstate,haddr,hsize⟩ := flushWord_slot k
  have hend : Ap.clearing a (k+1) = if 3*k+2+1 < 3*flushSlots then { a with pc := .clear (3*k+2+1) }
      else { a with pc := .idle, waiting := false, initialized := true } := by
    unfold Ap.clearing
    by_cases hlast : k+1 < flushSlots
    · rw [if_pos hlast, if_pos (by omega), Nat.mul_succ]
    · rw [if_neg hlast, if_neg (by omega)]
  have hbegin : Ap.clearing a k = { a with pc := .clear (3*k) } := if_pos hk
  rw [hbegin]
  refine fun _ => ⟨⟨{ a with pc := .clear (3*k+1) },f⟩,?_,fun _ => ⟨⟨{ a with pc := .clear (3*k+2) },f⟩,?_,
    fun _ => ⟨⟨a.clearing (k+1),f⟩,?_,rfl⟩⟩⟩
  · rw [← hstate]
    refine paired_writeWord (isWord_flushWord _) fun m => ?_
    simp [Ap.step, show 3*k+1 < 3*flushSlots by omega]
  · rw [← haddr]
    refine paired_writeWord (isWord_flushWord _) fun m => ?_
    simp [Ap.step, show 3*k+1+1 < 3*flushSlots by omega]
  · rw [← hsize, hend]
    exact paired_writeWord (isWord_flushWord _) fun _ => rfl

theorem follows_clearing {n : ℕ} (hn : n ≤ flushSlots) :
    Follows Paired.step (Program.forRange n clearSlot) (fun _ y => y = ⟨a.clearing n,f⟩)
      ⟨a.clearing 0,f⟩ := by
  refine follows_forRange (fun k (y : Paired) => y = ⟨a.clearing k,f⟩) rfl ?_
  rintro k hk y rfl
  exact follows_clearSlot (hk.trans_le hn)

theorem clearing_start : a.clearing 0 = { a with pc := .clear 0 } := if_pos (by decide)

theorem clearing_end :
    a.clearing flushSlots = { a with pc := .idle, waiting := false, initialized := true } :=
  if_neg (lt_irrefl flushSlots)

def ApCall.run : ApCall → Prog ℤ
  | .lock maxSpins => Handoff.lock maxSpins
  | .unlock => do
    Handoff.unlock
    return 0
  | .waitFirmware maxSpins => Handoff.waitFirmware maxSpins

/-- Where a call with this result leaves the machine. -/
def ApCall.rest : ApCall → ℤ → ApPc
  | .lock _, ret => if ret = 0 then .critical else .idle
  | _, _ => .idle

/-- The machine is where the call leaves it, with the same result and the same flags. -/
structure Returned (call : ApCall) (ret : ℤ) (y : Paired) : Prop where
  pc : y.ap.pc = call.rest ret
  ret : call ≠ .unlock → y.ap.ret = ret
  flags : y.flags = ⟨y.ap.locked,y.ap.initialized⟩

/-- The handshake from where it holds the lock. -/
theorem follows_locked (n : ℕ) (maxSpins : U32) (hwaiting : a.waiting = true)
    (hf : f = ⟨true,a.initialized⟩) :
    Follows Paired.step (pollMagic a.maxSpins n 0#32 >>= fun seen => unlock >>= fun _ =>
      if !seen then return Status.etimedout
      else do
        Program.forRange flushSlots clearSlot
        ask (.setInitialized true)
        return 0) (Returned (.waitFirmware maxSpins))
      ⟨{ a with pc := .pollMagic, waitSpins := 0#32 },f⟩ := by
  subst hf
  refine Follows.bind ((follows_pollMagic n 0#32).mono ?_)
  rintro seen ⟨b,g⟩ ⟨rfl,waits,rfl⟩
  refine Follows.bind ((follows_unlock (a := a.polled seen waits)).mono ?_)
  rintro - y rfl
  cases seen with
  | false =>
    have hend : (a.polled false waits).released = { a.polled false waits with
        pc := .idle
        waiting := false
        locked := false } := if_neg fun h =>
      absurd (show Status.etimedout = Status.ok from h.2) (by decide)
    rw [hend]
    exact ⟨rfl,fun _ => rfl,rfl⟩
  | true =>
    have hbegin : (a.polled true waits).released =
        ({ a.polled true waits with locked := false } : Ap).clearing 0 := by
      rw [clearing_start]
      exact if_pos ⟨hwaiting,rfl⟩
    rw [hbegin]
    refine Follows.bind ((follows_clearing le_rfl).mono ?_)
    rintro - y rfl
    rw [clearing_end]
    exact fun _ => ⟨_,paired_silent rfl,rfl,fun _ => rfl,rfl⟩

theorem follows_waitFirmware (maxSpins : U32) (hwaiting : a.waiting = true) :
    Follows Paired.step (waitFirmware a.maxSpins) (Returned (.waitFirmware maxSpins))
      ⟨{ a with pc := .magicAp },⟨a.locked,a.initialized⟩⟩ := by
  refine fun _ => ⟨_,paired_writeWord isWord_magicAp fun _ => rfl,?_⟩
  change Follows Paired.step (lock a.maxSpins >>= _) _ _
  refine Follows.bind (follows_lock.mono ?_)
  rintro ret ⟨b,g⟩ (⟨rfl,rfl,spins,hb⟩ | ⟨rfl,rfl,spins,rfl⟩)
  · obtain rfl : b = { a with pc := .pollMagic, spins := spins, locked := true, waitSpins := 0#32 } := by
      exact hb.trans (if_pos hwaiting)
    refine fun n => ⟨_,paired_silent rfl,?_⟩
    exact follows_locked (a := { a with spins := spins, locked := true }) n maxSpins hwaiting rfl
  · exact ⟨rfl,fun _ => rfl,rfl⟩

theorem Ap.step_critical {m' : Shared} (h : a.step m = some (m',b)) (hc : b.pc = .critical) :
    b.waiting = false := by
  have hmove := Ap.step_move h
  rw [hc] at hmove
  generalize hp : a.pc = p at hmove
  cases hmove with
  | enter h0 =>
    simp only [Ap.step, hp, h0, ne_eq, not_true_eq_false, if_false, Option.some.injEq,
      Prod.mk.injEq] at h
    obtain ⟨-,rfl⟩ := h
    unfold Ap.enter at hc ⊢
    split_ifs at hc ⊢ with hw
    simpa using hw

/-- A caller that has the lock from `agx_handoff_lock` is not in the handshake. -/
theorem not_waiting {t : State} (h : system.Reachable t) :
    t.ap.pc = .critical → t.ap.waiting = false := by
  refine h.invariant (P := fun s => s.ap.pc = .critical → s.ap.waiting = false)
    (fun s hs => ?_) fun s l t _ _ hn hs => ?_
  · rw [hs.2.2.1]
    exact fun _ => rfl
  cases l with
  | call c =>
    obtain ⟨a,ha,rfl⟩ := Option.map_eq_some_iff.mp hn
    intro hc
    obtain ⟨-,hp | hp⟩ | ⟨-,hp⟩ := Ap.start_pc ha <;> cases hp.symm.trans hc
  | ap =>
    obtain ⟨⟨m,a⟩,ha,rfl⟩ := Option.map_eq_some_iff.mp hn
    exact Ap.step_critical ha
  | fw =>
    obtain ⟨r,-,rfl⟩ := Option.map_eq_some_iff.mp hn
    exact hs
  | fwLock | fwUnlock =>
    obtain ⟨-,he⟩ := Option.ite_none_right_eq_some.mp hn
    cases he
    exact hs
  | fwWord off value =>
    cases hn
    exact hs

/-- Every call the machine starts follows the program of the call. -/
theorem follows_call {call : ApCall} (h : a.start call = some b)
    (hc : a.pc = .critical → a.waiting = false) :
    Follows Paired.step call.run (Returned call) ⟨b,⟨a.locked,a.initialized⟩⟩ := by
  cases call with
  | lock maxSpins =>
    obtain ⟨-,he⟩ := Option.ite_none_right_eq_some.mp h
    obtain rfl := Option.some.inj he
    refine (follows_lock (a := { a with maxSpins := maxSpins, waiting := false })).mono ?_
    rintro ret ⟨c,g⟩ (⟨rfl,rfl,spins,rfl⟩ | ⟨rfl,rfl,spins,rfl⟩)
    · exact ⟨rfl,fun _ => rfl,rfl⟩
    · exact ⟨rfl,fun _ => rfl,rfl⟩
  | unlock =>
    obtain ⟨hpc,he⟩ := Option.ite_none_right_eq_some.mp h
    obtain rfl := Option.some.inj he
    refine Follows.bind (follows_unlock.mono ?_)
    rintro - y rfl
    have hend : a.released = { a with pc := .idle, waiting := false, locked := false } :=
      if_neg fun hw => by simp [hc hpc] at hw
    rw [hend]
    exact ⟨rfl,fun hne => absurd rfl hne,rfl⟩
  | waitFirmware maxSpins =>
    obtain ⟨-,he⟩ := Option.ite_none_right_eq_some.mp h
    obtain rfl := Option.some.inj he
    exact follows_waitFirmware (a := { a with maxSpins := maxSpins, waiting := true, ret := Status.ok })
      maxSpins rfl

/-- In a reachable state of the machine every run of a call, whatever its reads find, is one
the machine makes access by access, and both come back with the same result and flags. -/
theorem call_steps {E : Type} {env : E → (op : Op) → Res op → E → Prop} {e e' : E} {t : State}
    {call : ApCall} {acts : List Ev} (h : system.Reachable t) (hs : t.ap.start call = some b)
    (hr : call.run.Runs env e acts ret e') :
    ∃ y, call.run.Runs Paired.step ⟨b,⟨t.ap.locked,t.ap.initialized⟩⟩ acts ret y ∧ Returned call ret y :=
  hr.follows (follows_call hs (not_waiting h))

end AgxOpen.Handoff
