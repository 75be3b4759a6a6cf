import Mathlib.Logic.Function.Basic
import Mathlib.Tactic.Common

/-!
# Transition systems with labelled steps

A label fixes what a step does, including whatever the environment chose. A
guard on states and labels singles out the runs whose steps all meet it.
-/
namespace AgxOpen

structure System (S L : Type) where
  init : S → Prop
  next : S → L → Option S

namespace System

variable {S L : Type} (A : System S L)

/-- States reached by steps that all meet the guard. -/
inductive Reach (guard : S → L → Prop) : S → Prop
  | init {s : S} (h : A.init s) : Reach guard s
  | step {s t : S} {l : L} (h : Reach guard s) (hg : guard s l) (hn : A.next s l = some t) :
      Reach guard t

/-- States reached by any steps. -/
abbrev Reachable : S → Prop := A.Reach fun _ _ => True

variable {A} {guard guard' : S → L → Prop} {P : S → Prop} {s t : S} {l : L}

theorem Reach.mono (h : A.Reach guard s) (hg : ∀ s l, guard s l → guard' s l) :
    A.Reach guard' s := by
  induction h with
  | init h => exact .init h
  | step _ hl hn ih => exact .step ih (hg _ _ hl) hn

theorem Reach.reachable (h : A.Reach guard s) : A.Reachable s := h.mono fun _ _ _ => trivial

/-- What holds at the start and survives every step holds of whatever is
reached. The step may use that its state is reachable. -/
theorem Reach.invariant (h : A.Reach guard s) (hinit : ∀ s, A.init s → P s)
    (hstep : ∀ s l t, A.Reachable s → guard s l → A.next s l = some t → P s → P t) : P s := by
  induction h with
  | init h => exact hinit _ h
  | step h hl hn ih => exact hstep _ _ _ h.reachable hl hn ih

/-- Take the steps of a list of labels. -/
def run (A : System S L) : S → List L → Option S
  | s, [] => some s
  | s, l :: rest => (A.next s l).bind fun t => A.run t rest

theorem run_reachable {labels : List L} (hs : A.Reachable s) (h : A.run s labels = some t) :
    A.Reachable t := by
  induction labels generalizing s with
  | nil =>
    obtain rfl := Option.some.inj h
    exact hs
  | cons l rest ih =>
    obtain ⟨u,hn,hr⟩ := Option.bind_eq_some_iff.mp h
    exact ih (.step hs trivial hn) hr

end System
end AgxOpen
