import Mathlib.Logic.Function.Basic
import Mathlib.Tactic.Common

/-!
# Programs that call their environment one operation at a time

An environment answers each operation and changes its own state. A run records
every operation with its answer and the state behind it, so that a law about
intermediate states is a law about the recorded events.
-/
namespace AgxOpen

/-- A finite program over the operations `Op`, whose answers have the types `Res`. -/
inductive Program (Op : Type) (Res : Op → Type) (α : Type) : Type
  | ret (value : α)
  | call (op : Op) (next : Res op → Program Op Res α)

/-- One answered operation and the state it leaves. -/
structure Event (Op : Type) (Res : Op → Type) (S : Type) where
  op : Op
  answer : Res op
  state : S

namespace Program

variable {Op : Type} {Res : Op → Type} {S α β γ : Type}

def bind : Program Op Res α → (α → Program Op Res β) → Program Op Res β
  | ret a, f => f a
  | call op next, f => call op fun r => (next r).bind f

instance : Monad (Program Op Res) where
  pure := ret
  bind := bind

/-- Perform one operation and return its answer. -/
def request (op : Op) : Program Op Res (Res op) := call op ret

/-- The loop `for (i = 0; i < n; i++)`. -/
def forRange (n : ℕ) (body : ℕ → Program Op Res Unit) : Program Op Res Unit :=
  match n with
  | 0 => ret ()
  | n+1 => do
    forRange n body
    body n

/-- The loop `for (i = lo; i < lo + n; i++)` whose body leaves the function by
answering `false`. -/
def forUntil (lo : ℕ) : ℕ → (ℕ → Program Op Res Bool) → Program Op Res Bool
  | 0, _ => ret true
  | n+1, body => do
    if ← body lo then forUntil (lo+1) n body else ret false

@[simp] theorem pure_eq (a : α) : (pure a : Program Op Res α) = ret a := rfl

@[simp] theorem ret_bind (a : α) (f : α → Program Op Res β) : ret a >>= f = f a := rfl

@[simp] theorem call_bind (op : Op) (next : Res op → Program Op Res α) (f : α → Program Op Res β) :
    call op next >>= f = call op fun r => next r >>= f := rfl

@[simp] theorem request_bind (op : Op) (f : Res op → Program Op Res β) :
    request op >>= f = call op f := rfl

theorem bind_assoc (p : Program Op Res α) (f : α → Program Op Res β) (g : β → Program Op Res γ) :
    p >>= f >>= g = p >>= fun a => f a >>= g := by
  induction p with
  | ret a => rfl
  | call op next ih =>
    simp only [call_bind]
    congr 1
    funext r
    exact ih r

/-- Replace every operation by a program over other operations. -/
def interp {Op' : Type} {Res' : Op' → Type} (f : (op : Op) → Program Op' Res' (Res op)) :
    Program Op Res α → Program Op' Res' α
  | ret a => ret a
  | call op next => f op >>= fun r => (next r).interp f

/-- Whatever the answers, the program performs only operations of the kind. -/
def Only (P : Op → Prop) : Program Op Res α → Prop
  | ret _ => True
  | call op next => P op ∧ ∀ r, Only P (next r)

section Only

variable {P P' : Op → Prop} {p : Program Op Res α} {f : α → Program Op Res β}

@[simp] theorem only_ret (a : α) : Only P (ret a : Program Op Res α) := trivial

@[simp] theorem only_call {op : Op} {next : Res op → Program Op Res α} :
    Only P (call op next) ↔ P op ∧ ∀ r, Only P (next r) := Iff.rfl

@[simp] theorem only_request {op : Op} : Only P (request op : Program Op Res (Res op)) ↔ P op :=
  and_iff_left fun _ => trivial

@[simp] theorem only_ite {c : Prop} [Decidable c] {q : Program Op Res α} :
    Only P (if c then p else q) ↔ (c → Only P p) ∧ (¬ c → Only P q) := by
  split <;> simp_all

theorem Only.mono (hp : Only P p) (h : ∀ op, P op → P' op) : Only P' p := by
  induction p with
  | ret a => trivial
  | call op next ih => exact ⟨h op hp.1,fun r => ih r (hp.2 r)⟩

theorem Only.bind (hp : Only P p) (hf : ∀ a, Only P (f a)) : Only P (p >>= f) := by
  induction p with
  | ret a => exact hf a
  | call op next ih => exact ⟨hp.1,fun r => ih r (hp.2 r)⟩

theorem Only.forRange {body : ℕ → Program Op Res Unit} (n : ℕ) (h : ∀ i, Only P (body i)) :
    Only P (forRange n body) := by
  induction n with
  | zero => trivial
  | succ n ih => exact ih.bind fun _ => h n

theorem Only.forUntil {body : ℕ → Program Op Res Bool} {lo n : ℕ} (h : ∀ i, Only P (body i)) :
    Only P (forUntil lo n body) := by
  induction n generalizing lo with
  | zero => trivial
  | succ n ih => exact (h lo).bind fun _ => only_ite.mpr ⟨fun _ => ih,fun _ => trivial⟩

end Only

variable (step : S → (op : Op) → Res op → Option S)

/-- A complete run with its recorded events. -/
inductive Exec : Program Op Res α → S → List (Event Op Res S) → α → S → Prop
  | ret (a : α) (s : S) : Exec (ret a) s [] a s
  | call {op next r s t events a u} (h : step s op r = some t)
      (rest : Exec (next r) t events a u) : Exec (call op next) s (⟨op,r,t⟩ :: events) a u

/-- A run so far: what is left of the program and the state reached. -/
inductive Partial : Program Op Res α → S → List (Event Op Res S) → Program Op Res α → S → Prop
  | refl (p : Program Op Res α) (s : S) : Partial p s [] p s
  | call {op next r s t events q u} (h : step s op r = some t)
      (rest : Partial (next r) t events q u) : Partial (call op next) s (⟨op,r,t⟩ :: events) q u

/-- Every run from the state ends, never meets an operation without an answer,
and satisfies the postcondition on its events, its value and its final state. -/
def wp : Program Op Res α → (List (Event Op Res S) → α → S → Prop) → S → Prop
  | ret a, Q, s => Q [] a s
  | call op next, Q, s => (∃ r t, step s op r = some t) ∧
      ∀ r t, step s op r = some t → wp (next r) (fun events a u => Q (⟨op,r,t⟩ :: events) a u) t

variable {step}

@[simp] theorem wp_ret {a : α} {Q : List (Event Op Res S) → α → S → Prop} {s : S} :
    wp step (ret a) Q s ↔ Q [] a s := Iff.rfl

theorem wp_mono {p : Program Op Res α} {Q Q' : List (Event Op Res S) → α → S → Prop} {s : S}
    (h : wp step p Q s) (hQ : ∀ events a u, Q events a u → Q' events a u) : wp step p Q' s := by
  induction p generalizing Q Q' s with
  | ret a => exact hQ _ _ _ h
  | call op next ih => exact ⟨h.1,fun r t hr => ih r (h.2 r t hr) fun events a u => hQ _ a u⟩

theorem wp_bind {p : Program Op Res α} {f : α → Program Op Res β}
    {Q : List (Event Op Res S) → β → S → Prop} {s : S}
    (h : wp step p (fun events a u =>
      wp step (f a) (fun events' b v => Q (events ++ events') b v) u) s) :
    wp step (p >>= f) Q s := by
  induction p generalizing Q s with
  | ret a => exact h
  | call op next ih => exact ⟨h.1,fun r t hr => ih r (h.2 r t hr)⟩

/-- An operation with a single possible answer is a plain state change. -/
theorem wp_call {op : Op} {next : Res op → Program Op Res α}
    {Q : List (Event Op Res S) → α → S → Prop} {s t : S} (r : Res op) (h : step s op r = some t)
    (huniq : ∀ r' t', step s op r' = some t' → r' = r)
    (hnext : wp step (next r) (fun events a u => Q (⟨op,r,t⟩ :: events) a u) t) :
    wp step (call op next) Q s := by
  refine ⟨⟨r,t,h⟩,fun r' t' h' => ?_⟩
  obtain rfl := huniq r' t' h'
  obtain rfl : t = t' := Option.some.inj (h.symm.trans h')
  exact hnext

/-- The loop rule: the invariant speaks about the events recorded so far. -/
theorem wp_forRange {body : ℕ → Program Op Res Unit} {s : S}
    (I : ℕ → List (Event Op Res S) → S → Prop) (n : ℕ) (h0 : I 0 [] s)
    (hstep : ∀ k < n, ∀ events t, I k events t →
      wp step (body k) (fun events' _ u => I (k+1) (events ++ events') u) t) :
    wp step (forRange n body) (fun events _ t => I n events t) s := by
  induction n with
  | zero => exact h0
  | succ n ih =>
    apply wp_bind
    refine wp_mono (ih fun k hk => hstep k (by omega)) ?_
    intro events _ t ht
    exact hstep n (by omega) events t ht

theorem Exec.post {p : Program Op Res α} {Q : List (Event Op Res S) → α → S → Prop} {s u : S}
    {events : List (Event Op Res S)} {a : α} (h : Exec step p s events a u)
    (hp : wp step p Q s) : Q events a u := by
  induction h generalizing Q with
  | ret a s => exact hp
  | call h rest ih => exact ih (hp.2 _ _ h)

theorem wp_exec {p : Program Op Res α} {Q : List (Event Op Res S) → α → S → Prop} {s : S}
    (h : wp step p Q s) : ∃ events a u, Exec step p s events a u ∧ Q events a u := by
  induction p generalizing Q s with
  | ret a => exact ⟨[],a,s,.ret a s,h⟩
  | call op next ih =>
    obtain ⟨r,t,hr⟩ := h.1
    obtain ⟨events,a,u,he,hQ⟩ := ih r (h.2 r t hr)
    exact ⟨_,a,u,.call hr he,hQ⟩

/-- A partial run can always be completed. In particular it is never stuck. -/
theorem Partial.complete {p q : Program Op Res α} {Q : List (Event Op Res S) → α → S → Prop}
    {s t : S} {events : List (Event Op Res S)} (h : Partial step p s events q t)
    (hp : wp step p Q s) :
    ∃ events' a u, Exec step q t events' a u ∧ Q (events ++ events') a u := by
  induction h generalizing Q with
  | refl p s => exact wp_exec hp
  | call h rest ih => exact ih (hp.2 _ _ h)

/-- A partial run stops in its first state or behind one of its events. -/
theorem Partial.state_mem {p q : Program Op Res α} {s t : S} {events : List (Event Op Res S)}
    (h : Partial step p s events q t) : t = s ∨ ∃ e ∈ events, e.state = t := by
  induction h with
  | refl p s => exact .inl rfl
  | call h rest ih =>
    rcases ih with rfl | ⟨e,he,rfl⟩
    · exact .inr ⟨_,List.mem_cons_self,rfl⟩
    · exact .inr ⟨e,List.mem_cons_of_mem _ he,rfl⟩

/-- Every event of a complete run is behind some partial run. -/
theorem Exec.partial_of_mem {p : Program Op Res α} {s u : S} {events : List (Event Op Res S)}
    {a : α} (h : Exec step p s events a u) {e : Event Op Res S} (he : e ∈ events) :
    ∃ events' q, Partial step p s events' q e.state := by
  induction h with
  | ret a s => simp at he
  | @call op next r s t events a u h rest ih =>
    rcases List.mem_cons.mp he with rfl | he
    · exact ⟨_,_,.call h (.refl _ _)⟩
    · obtain ⟨events',q,hq⟩ := ih he
      exact ⟨_,q,.call h hq⟩

/-- Run a program with answers chosen by a function of the state. -/
def runWith (step : S → (op : Op) → Res op → Option S) (choose : S → (op : Op) → Res op) :
    Program Op Res α → S → Option (List (Event Op Res S) × α × S)
  | ret a, s => some ([],a,s)
  | call op next, s =>
    match step s op (choose s op) with
    | none => none
    | some t => (runWith step choose (next (choose s op)) t).map fun x =>
        (⟨op,choose s op,t⟩ :: x.1,x.2)

theorem runWith_exec {choose : S → (op : Op) → Res op} {p : Program Op Res α} {s u : S}
    {events : List (Event Op Res S)} {a : α} (h : runWith step choose p s = some (events,a,u)) :
    Exec step p s events a u := by
  induction p generalizing s events with
  | ret b =>
    simp only [runWith, Option.some.injEq, Prod.mk.injEq] at h
    obtain ⟨rfl,rfl,rfl⟩ := h
    exact .ret _ _
  | call op next ih =>
    rw [runWith] at h
    split at h
    · contradiction
    · rename_i t ht
      obtain ⟨⟨events',a',u'⟩,hx,he⟩ := Option.map_eq_some_iff.mp h
      obtain ⟨rfl,rfl,rfl⟩ : _ ∧ a' = a ∧ u' = u := by simpa using he
      exact .call ht (ih _ hx)

end Program
end AgxOpen
