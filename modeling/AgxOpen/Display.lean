import Mathlib.Data.List.Nodup
import Mathlib.Tactic.Common

/-!
# The display broker

`display.c`. Every function holds the broker's lock throughout, so each is one
step on the list of listeners.
-/
namespace AgxOpen.Display

variable {L σ : Type}

/-- `struct agx_display_broker`. A listener's node is in the list at most once. -/
structure Broker (L : Type) where
  listeners : List L
  nodup : listeners.Nodup

/-- `agx_display_broker_init`. -/
def Broker.init : Broker L := ⟨[],List.nodup_nil⟩

inductive Op (L σ : Type)
  | register (listener : L)
  | unregister (listener : L)
  | notify (old new : σ)

/-- A callback with its arguments. -/
abbrev Callback (L σ : Type) := L × σ × σ

theorem Broker.nodup_add {b : Broker L} {listener : L} (h : listener ∉ b.listeners) :
    (b.listeners ++ [listener]).Nodup := by
  refine List.Nodup.append b.nodup (List.nodup_singleton _) ?_
  simpa using h

variable [DecidableEq L]

/-- One call of the broker and the callbacks it makes. A node that is in the list
cannot be added, and only such a node can be deleted. -/
def Broker.step (b : Broker L) : Op L σ → Option (Broker L × List (Callback L σ))
  | .register listener =>
    if h : listener ∈ b.listeners then none
    else some (⟨b.listeners ++ [listener],b.nodup_add h⟩,[])
  | .unregister listener =>
    if listener ∈ b.listeners then some (⟨b.listeners.erase listener,b.nodup.erase _⟩,[]) else none
  | .notify old new => some (b,b.listeners.map fun listener => (listener,old,new))

/-- Calls one after another, with all their callbacks. -/
def Broker.run (b : Broker L) : List (Op L σ) → Option (Broker L × List (Callback L σ))
  | [] => some (b,[])
  | op :: ops =>
    (b.step op).bind fun x => (x.1.run ops).map fun y => (y.1,x.2 ++ y.2)

def seenBy (listener : L) (c : Callback L σ) : Option (σ × σ) :=
  if c.1 = listener then some c.2 else none

/-- The transitions one listener saw. -/
def seen (listener : L) (calls : List (Callback L σ)) : List (σ × σ) :=
  calls.filterMap (seenBy listener)

/-- The transition of a call. -/
def transition : Op L σ → Option (σ × σ)
  | .notify old new => some (old,new)
  | _ => none

theorem seen_append (listener : L) (calls calls' : List (Callback L σ)) :
    seen listener (calls ++ calls') = seen listener calls ++ seen listener calls' :=
  List.filterMap_append

theorem seen_notify {listeners : List L} {listener : L} (hn : listeners.Nodup)
    (hl : listener ∈ listeners) (old new : σ) :
    seen listener (listeners.map fun l => (l,old,new)) = [(old,new)] := by
  induction listeners with
  | nil => contradiction
  | cons l rest ih =>
    obtain ⟨hl',hrest⟩ := List.nodup_cons.mp hn
    by_cases he : l = listener
    · subst he
      have hnone : seen l (rest.map fun l => (l,old,new)) = [] := by
        refine List.filterMap_eq_nil_iff.mpr fun c hc => ?_
        obtain ⟨l',hmem,rfl⟩ := List.mem_map.mp hc
        exact if_neg fun (he : l' = l) => hl' (he ▸ hmem)
      have hself : seenBy l (l,old,new) = some (old,new) := if_pos rfl
      rw [List.map_cons, seen, List.filterMap_cons_some hself]
      exact congrArg _ hnone
    · have hother : seenBy listener (l,old,new) = none := if_neg he
      rw [List.map_cons, seen, List.filterMap_cons_none hother]
      exact ih hrest ((List.mem_cons.mp hl).resolve_left fun h => he h.symm)

/-- What a step does for a listener that stays registered. -/
theorem step_seen {b b' : Broker L} {op : Op L σ} {calls : List (Callback L σ)} {listener : L}
    (h : b.step op = some (b',calls)) (hl : listener ∈ b.listeners)
    (hstay : op ≠ .unregister listener) :
    listener ∈ b'.listeners ∧ seen listener calls = (transition op).toList := by
  cases op with
  | register l =>
    rw [Broker.step] at h
    split at h
    · contradiction
    · cases h
      exact ⟨List.mem_append_left _ hl,rfl⟩
  | unregister l =>
    rw [Broker.step] at h
    split at h
    · cases h
      have hne : listener ≠ l := fun he => hstay (he ▸ rfl)
      exact ⟨(List.mem_erase_of_ne hne).mpr hl,rfl⟩
    · contradiction
  | notify old new =>
    cases h
    exact ⟨hl,seen_notify b.nodup hl old new⟩

/-- A listener that stays registered sees every transition once, in order. -/
theorem run_seen {b b' : Broker L} {ops : List (Op L σ)} {calls : List (Callback L σ)} {listener : L}
    (h : b.run ops = some (b',calls)) (hl : listener ∈ b.listeners)
    (hstay : .unregister listener ∉ ops) : seen listener calls = ops.filterMap transition := by
  induction ops generalizing b calls with
  | nil =>
    cases h
    rfl
  | cons op ops ih =>
    obtain ⟨⟨b₁,calls₁⟩,h₁,h⟩ := Option.bind_eq_some_iff.mp h
    obtain ⟨⟨b₂,calls₂⟩,h₂,he⟩ := Option.map_eq_some_iff.mp h
    cases he
    obtain ⟨hl₁,hs₁⟩ := step_seen h₁ hl fun he => hstay (he ▸ List.mem_cons_self)
    rw [seen_append, hs₁, ih h₂ hl₁ fun hm => hstay (List.mem_cons_of_mem _ hm),
      List.filterMap_cons]
    cases transition op <;> rfl

end AgxOpen.Display
