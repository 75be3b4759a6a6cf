import AgxOpen.Sequential
import AgxOpen.Handoff.Calls

/-! What the parts of the handshake can do to the shared structure. -/
namespace AgxOpen.Handoff
open Program (Only only_ite)

/-- The operations of `agx_handoff_lock`. -/
def Locks : Op → Prop
  | .read8 offset => offset = offLockFw
  | .read32 offset => offset = offTurn
  | .write8 offset _ => offset = offLockAp
  | .setLocked value => value = true
  | .relax | .barrier | .rounds | .never => True
  | _ => False

/-- The operations of `agx_handoff_unlock`. -/
def Unlocks : Op → Prop
  | .write32 offset value => offset = offTurn ∧ value = 1#32
  | .write8 offset value => offset = offLockAp ∧ value = 0#8
  | .setLocked value => value = false
  | .barrier => True
  | _ => False

/-- The operations of a loop that waits for a 64-bit word. -/
def Polls (word : ℕ) : Op → Prop
  | .read64 offset => offset = word
  | .relax | .rounds | .never => True
  | _ => False

theorem only_never {α : Type} {P : Op → Prop} (hP : P .never) : Only P (never : Prog α) :=
  ⟨hP,by simp⟩

theorem only_pollTurn (maxSpins : U32) (n : ℕ) (spins : U32) :
    Only Locks (pollTurn maxSpins n spins) := by
  induction n generalizing spins with
  | zero => exact only_never trivial
  | succ n ih =>
    refine ⟨rfl,fun turn => only_ite.mpr ⟨fun _ => trivial,fun _ => ?_⟩⟩
    cases spin maxSpins spins with
    | none => trivial
    | some spins => exact ⟨trivial,fun _ => ih spins⟩

theorem only_yieldTurn (maxSpins : U32) (n : ℕ) (spins : U32) :
    Only Locks (yieldTurn maxSpins n spins) := by
  refine ⟨rfl,fun turn => only_ite.mpr ⟨fun _ => trivial,fun _ => ⟨rfl,fun _ => ⟨trivial,fun _ => ?_⟩⟩⟩⟩
  refine (only_pollTurn maxSpins n spins).bind fun polled => ?_
  cases polled with
  | none => trivial
  | some spins => exact ⟨rfl,fun _ => ⟨trivial,fun _ => trivial⟩⟩

theorem only_lockLoop (maxSpins : U32) (n : ℕ) (spins : U32) :
    Only Locks (lockLoop maxSpins n spins) := by
  induction n generalizing spins with
  | zero => exact only_never trivial
  | succ n ih =>
    refine ⟨rfl,fun fw => only_ite.mpr
      ⟨fun _ => ⟨trivial,fun _ => ⟨rfl,fun _ => trivial⟩⟩,fun _ => ?_⟩⟩
    refine (only_yieldTurn maxSpins n spins).bind fun yielded => ?_
    cases yielded with
    | none => trivial
    | some spins =>
      dsimp only
      cases spin maxSpins spins with
      | none => exact ⟨rfl,fun _ => ⟨trivial,fun _ => trivial⟩⟩
      | some spins => exact ⟨trivial,fun _ => ih spins⟩

theorem only_lock (maxSpins : U32) : Only Locks (lock maxSpins) :=
  ⟨rfl,fun _ => ⟨trivial,fun _ => ⟨trivial,fun n => only_lockLoop maxSpins n 0#32⟩⟩⟩

theorem only_unlock : Only Unlocks unlock :=
  ⟨trivial,fun _ => ⟨⟨rfl,rfl⟩,fun _ => ⟨trivial,fun _ => ⟨⟨rfl,rfl⟩,fun _ =>
    ⟨trivial,fun _ => ⟨rfl,fun _ => trivial⟩⟩⟩⟩⟩⟩

theorem only_pollMagic (maxSpins : U32) (n : ℕ) (spins : U32) :
    Only (Polls offMagicFw) (pollMagic maxSpins n spins) := by
  induction n generalizing spins with
  | zero => exact only_never trivial
  | succ n ih =>
    refine ⟨rfl,fun seen => only_ite.mpr ⟨fun _ => trivial,fun _ => ?_⟩⟩
    cases spin maxSpins spins with
    | none => trivial
    | some spins => exact ⟨trivial,fun _ => ih spins⟩

theorem only_pollFlush (context maxSpins : U32) (n : ℕ) (spins : U32) :
    Only (Polls (offFlushState context.toNat)) (pollFlush context maxSpins n spins) := by
  induction n generalizing spins with
  | zero => exact only_never trivial
  | succ n ih =>
    refine ⟨rfl,fun found => only_ite.mpr ⟨fun _ => trivial,fun _ => ?_⟩⟩
    cases spin maxSpins spins with
    | none => trivial
    | some spins => exact ⟨trivial,fun _ => ih spins⟩

end AgxOpen.Handoff
