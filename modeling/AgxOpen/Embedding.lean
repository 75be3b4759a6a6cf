import AgxOpen.Concurrent

/-!
# Threads around another system

Threads that run the programs of another system with operations of their own in
between. Without their own operations, what they do is a run of that system.
-/
namespace AgxOpen

/-- An operation of the outer system, or one of the inner system. -/
inductive Outer (O Op : Type)
  | own (o : O)
  | inner (op : Op)

variable {ι O Op : Type} {R : O → Type} {Res : Op → Type} {S S' Call Call' α β : Type}

abbrev Outer.Answer (R : O → Type) (Res : Op → Type) : Outer O Op → Type
  | .own o => R o
  | .inner op => Res op

abbrev OuterProgram (O Op : Type) (R : O → Type) (Res : Op → Type) (α : Type) :=
  Program (Outer O Op) (Outer.Answer R Res) α

namespace Program

/-- A program of the inner system. -/
def lift : Program Op Res α → OuterProgram O Op R Res α
  | ret a => ret a
  | call op next => call (.inner op) fun r => (next r).lift

/-- The inner operations of the first program are those of the second. What is left of the
second where the first ends is up to `fin`. -/
inductive Covers (fin : α → Program Op Res β → Prop) :
    OuterProgram O Op R Res α → Program Op Res β → Prop
  | ret {a q} (h : fin a q) : Covers fin (.ret a) q
  | own {o next q} (h : ∀ r, Covers fin (next r) q) : Covers fin (.call (.own o) next) q
  | inner {op next next'} (h : ∀ r, Covers fin (next r) (next' r)) :
      Covers fin (.call (.inner op) next) (.call op next')

variable {fin : α → Program Op Res β → Prop} {p : OuterProgram O Op R Res α} {q : Program Op Res β}

theorem Covers.of_ret {a : α} (h : Covers (R := R) fin (.ret a : OuterProgram O Op R Res α) q) :
    fin a q := by
  cases h with
  | ret h => exact h

theorem Covers.of_own {o : O} {next : R o → OuterProgram O Op R Res α}
    (h : Covers fin (.call (.own o) next) q) (r : R o) : Covers fin (next r) q := by
  cases h with
  | own h => exact h r

theorem Covers.of_inner {op : Op} {next : Res op → OuterProgram O Op R Res α}
    (h : Covers fin (.call (.inner op) next) q) :
    ∃ next', q = .call op next' ∧ ∀ r, Covers fin (next r) (next' r) := by
  cases h with
  | inner h => exact ⟨_,rfl,h⟩

theorem Covers.bind {γ : Type} {fin' : γ → Program Op Res β → Prop}
    {f : α → OuterProgram O Op R Res γ} (h : Covers fin p q)
    (hf : ∀ a q, fin a q → Covers fin' (f a) q) : Covers fin' (p >>= f) q := by
  induction h with
  | ret h => exact hf _ _ h
  | own h ih => exact .own ih
  | inner h ih => exact .inner ih

/-- A lifted program covers itself. -/
theorem covers_lift {γ : Type} {p : Program Op Res γ} {f : γ → OuterProgram O Op R Res α}
    {g : γ → Program Op Res β} (h : ∀ a, Covers fin (f a) (g a)) :
    Covers fin (p.lift >>= f) (p >>= g) := by
  induction p with
  | ret a => exact h a
  | call op next ih => exact .inner ih

theorem covers_self {fin : β → Program Op Res β → Prop} {p : Program Op Res β}
    (h : ∀ a, fin a (.ret a)) : Covers (O := O) (R := R) fin p.lift p := by
  induction p with
  | ret a => exact .ret (h a)
  | call op next ih => exact .inner ih

/-- One own operation, then the rest. -/
theorem covers_own {o : O} {f : R o → OuterProgram O Op R Res α} (h : ∀ r, Covers fin (f r) q) :
    Covers fin (request (.own o) >>= f) q := .own h

end Program

open Program

/-- The inner operation of an act. -/
def innerAct : Act (Outer O Op) (Outer.Answer R Res) → Option (Act Op Res)
  | ⟨.own _,_⟩ => none
  | ⟨.inner op,r⟩ => some ⟨op,r⟩

/-- What was done in the inner system. -/
def innerLog (log : Log ι (Outer O Op) (Outer.Answer R Res)) : Log ι Op Res :=
  log.filterMap fun e => (innerAct e.2).map fun a => (e.1,a)

/-- Every thread covers the thread of the inner system, and its own operations leave the
inner state alone. -/
structure Embeds (T' : Threads ι (Outer O Op) (Outer.Answer R Res) S' Call') (T : Threads ι Op Res S Call)
    (proj : S' → S) (fin : ι → Program Op Res Unit → Prop) : Prop where
  init : ∀ s, T'.init s → T.init (proj s)
  own : ∀ s o r t, T'.step s (.own o) r t → proj t = proj s
  inner : ∀ s op r t, T'.step s (.inner op) r t → T.step (proj s) op r (proj t)
  first : ∀ i, Covers (fun _ => fin i) (T'.first i) (T.first i)
  program : ∀ i call p, T'.program i call = some p → ∃ call' q, T.program i call' = some q ∧
    Covers (fun _ => fin i) p q
  /-- A thread that may start a program again is idle in the inner system too. -/
  idle : ∀ i call p, T'.program i call = some p → ∀ q, fin i q → q = .ret ()

variable [DecidableEq ι] {T' : Threads ι (Outer O Op) (Outer.Answer R Res) S' Call'}
  {T : Threads ι Op Res S Call} {proj : S' → S} {fin : ι → Program Op Res Unit → Prop}
  {guard' : S' → Log ι (Outer O Op) (Outer.Answer R Res) → ι → Outer O Op → Prop}
  {guard : S → Log ι Op Res → ι → Op → Prop} {c : Config ι (Outer O Op) (Outer.Answer R Res) S'}

/-- The inner configuration behind an outer one. -/
structure Shadow (proj : S' → S) (fin : ι → Program Op Res Unit → Prop)
    (c : Config ι (Outer O Op) (Outer.Answer R Res) S') (d : Config ι Op Res S) : Prop where
  state : d.state = proj c.state
  log : d.log = innerLog c.log
  thread : ∀ i, Covers (fun _ => fin i) (c.thread i) (d.thread i)

omit [DecidableEq ι] in
theorem innerLog_inner (i : ι) (op : Op) (r : Res op) (log : Log ι (Outer O Op) (Outer.Answer R Res)) :
    innerLog (R := R) ((i,⟨.inner op,r⟩) :: log) = (i,⟨op,r⟩) :: innerLog log := rfl

/-- Every run has a run of the inner system behind it. -/
theorem Threads.Reach.shadow (E : Embeds T' T proj fin)
    (hguard : ∀ s log i op, guard' s log i (.inner op) → guard (proj s) (innerLog log) i op)
    (h : T'.Reach guard' c) : ∃ d, T.Reach guard d ∧ Shadow proj fin c d := by
  induction h with
  | init h => exact ⟨_,.init (E.init _ h),rfl,rfl,E.first⟩
  | @step c c' h hs ih =>
    obtain ⟨d,hd,hstate,hlog,hthread⟩ := ih
    cases hs with
    | @start i call p hidle hp =>
      obtain ⟨call',q,hq,hcovers⟩ := E.program i call p hp
      have hi := hthread i
      rw [hidle] at hi
      refine ⟨_,hd.step (.start (E.idle i call p hp _ hi.of_ret) hq),hstate,hlog,fun j => ?_⟩
      by_cases hj : j = i
      · subst hj
        simpa using hcovers
      · simpa [hj] using hthread j
    | @act i op next r t hc hg hs =>
      have hi := hthread i
      rw [hc] at hi
      cases op with
      | own o =>
        refine ⟨d,hd,hstate.trans (E.own _ _ _ _ hs).symm,hlog,fun j => ?_⟩
        by_cases hj : j = i
        · subst hj
          simpa using hi.of_own r
        · simpa [hj] using hthread j
      | inner op =>
        obtain ⟨next',hnext,hcovers⟩ := hi.of_inner
        have hs' := E.inner _ _ _ _ hs
        have hg' := hguard _ _ _ _ hg
        rw [← hstate] at hs' hg'
        rw [← hlog] at hg'
        refine ⟨_,hd.step (.act hnext hg' hs'),rfl,?_,fun j => ?_⟩
        · rw [innerLog_inner, hlog]
        · by_cases hj : j = i
          · subst hj
            simpa using hcovers r
          · simpa [hj] using hthread j

end AgxOpen
