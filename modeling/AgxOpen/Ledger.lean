import Mathlib.Data.List.Basic
import Mathlib.Tactic.Common

/-!
# Ledgers

Items are handed out and given back. A ledger lists what is outstanding, and a
give-back that matches nothing outstanding has no balance.
-/
namespace AgxOpen

/-- What one event does to the outstanding items. -/
inductive Move (β : Type)
  | take (item : β)
  | give (item : β)
  | keep

variable {β : Type}

section Balance

variable [DecidableEq β]

def post (held : List β) : Move β → Option (List β)
  | .take b => some (b :: held)
  | .give b => if b ∈ held then some (held.erase b) else none
  | .keep => some held

/-- The balance behind a list of moves, oldest first. -/
def settle : List β → List (Move β) → Option (List β)
  | held, [] => some held
  | held, e :: moves => (post held e).bind fun held' => settle held' moves

theorem settle_append (held : List β) (moves moves' : List (Move β)) :
    settle held (moves ++ moves') = (settle held moves).bind fun held' => settle held' moves' := by
  induction moves generalizing held with
  | nil => rfl
  | cons e moves ih =>
    rw [List.cons_append, settle, settle, Option.bind_assoc]
    exact Option.bind_congr fun held' _ => ih held'

end Balance

/-- The list holds each live item once. -/
structure Tallies (live : β → Prop) (held : List β) : Prop where
  nodup : held.Nodup
  mem (b : β) : b ∈ held ↔ live b

variable {live live' : β → Prop} {held : List β} {b : β}

theorem Tallies.congr (h : Tallies live held) (hl : ∀ x, live' x ↔ live x) :
    Tallies live' held := ⟨h.nodup,fun x => (h.mem x).trans (hl x).symm⟩

/-- What a move needs and what it makes of the live items. -/
def Move.Moves (live live' : β → Prop) : Move β → Prop
  | .take b => ¬ live b ∧ ∀ x, live' x ↔ x = b ∨ live x
  | .give b => live b ∧ ∀ x, live' x ↔ x ≠ b ∧ live x
  | .keep => ∀ x, live' x ↔ live x

theorem Tallies.post [DecidableEq β] {e : Move β} (h : Tallies live held) (he : e.Moves live live') :
    ∃ held', post held e = some held' ∧ Tallies live' held' := by
  cases e with
  | take b =>
    refine ⟨b :: held,rfl,List.nodup_cons.mpr ⟨mt (h.mem b).mp he.1,h.nodup⟩,fun x => ?_⟩
    rw [List.mem_cons, he.2, h.mem]
  | give b =>
    refine ⟨held.erase b,if_pos ((h.mem b).mpr he.1),h.nodup.erase b,fun x => ?_⟩
    rw [h.nodup.mem_erase_iff, he.2, h.mem]
  | keep => exact ⟨held,rfl,h.congr he⟩

/-- Where nothing is live nothing is held. -/
theorem Tallies.eq_nil (h : Tallies live held) (hn : ∀ x, ¬ live x) : held = [] :=
  List.eq_nil_iff_forall_not_mem.mpr fun x hx => hn x ((h.mem x).mp hx)

end AgxOpen
