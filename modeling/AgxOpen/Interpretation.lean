import AgxOpen.Locking

/-!
# Programs carried out by other programs

Each operation of a program is carried out by a program over other operations.
A thread that carries out a program this way follows a run of that program, even
if it sees less of the state than the operations answer with, as long as the
program does not look at the rest. What no program looks at can be changed
without any effect on a run.
-/
namespace AgxOpen

variable {Op Op' : Type} {Res : Op → Type} {Res' : Op' → Type} {S α β γ : Type}

namespace Program

section Interp

variable (φ : (op : Op) → Program Op' Res' (Res op))

theorem bind_ret (p : Program Op Res α) : p >>= ret = p := by
  induction p with
  | ret a => rfl
  | call op next ih =>
    rw [call_bind]
    congr 1
    funext r
    exact ih r

@[simp] theorem interp_ret (a : α) : (ret a : Program Op Res α).interp φ = ret a := rfl

@[simp] theorem interp_request (op : Op) : (request op).interp φ = φ op := bind_ret _

theorem interp_bind (p : Program Op Res α) (f : α → Program Op Res β) :
    (p >>= f).interp φ = p.interp φ >>= fun a => (f a).interp φ := by
  induction p with
  | ret a => rfl
  | call op next ih =>
    rw [call_bind, interp, interp, bind_assoc]
    congr 1
    funext r
    exact ih r

theorem interp_ite (c : Prop) [Decidable c] (p q : Program Op Res α) :
    (if c then p else q).interp φ = if c then p.interp φ else q.interp φ :=
  apply_ite (interp φ) c p q

theorem interp_forUntil (lo n : ℕ) (body : ℕ → Program Op Res Bool) :
    (forUntil lo n body).interp φ = forUntil lo n fun i => (body i).interp φ := by
  induction n generalizing lo with
  | zero => rfl
  | succ n ih =>
    rw [forUntil, forUntil, interp_bind]
    congr 1
    funext go
    rw [interp_ite, ih]
    rfl

end Interp

section Blind

variable {E : (op : Op) → Res op → Res op → Prop} {p : Program Op Res α}

/-- Behind answers that look alike the program goes on alike. -/
def Blind (E : (op : Op) → Res op → Res op → Prop) : Program Op Res α → Prop
  | ret _ => True
  | call op next => (∀ r r', E op r r' → next r = next r') ∧ ∀ r, Blind E (next r)

theorem Blind.bind {f : α → Program Op Res β} (hp : Blind E p) (hf : ∀ a, Blind E (f a)) :
    Blind E (p >>= f) := by
  induction p with
  | ret a => exact hf a
  | call op next ih => exact ⟨fun r r' he => congrArg (· >>= f) (hp.1 r r' he),fun r => ih r (hp.2 r)⟩

theorem Blind.ite {c : Prop} [Decidable c] {q : Program Op Res α} (hp : Blind E p) (hq : Blind E q) :
    Blind E (if c then p else q) := by
  split_ifs
  · exact hp
  · exact hq

theorem Blind.forUntil {body : ℕ → Program Op Res Bool} {lo n : ℕ} (h : ∀ i, Blind E (body i)) :
    Blind E (forUntil lo n body) := by
  induction n generalizing lo with
  | zero => trivial
  | succ n ih => exact (h lo).bind fun _ => ih.ite trivial

theorem Blind.forRange {body : ℕ → Program Op Res Unit} (n : ℕ) (h : ∀ i, Blind E (body i)) :
    Blind E (forRange n body) := by
  induction n with
  | zero => trivial
  | succ n ih => exact ih.bind fun _ => h n

/-- An operation whose answer is seen in full. -/
theorem blind_request {op : Op} (he : ∀ r r', E op r r' → r = r') :
    Blind E (request op : Program Op Res (Res op)) :=
  ⟨fun r r' h => by rw [he r r' h],fun _ => trivial⟩

/-- An operation of whose answer only a part is used. -/
theorem blind_uses {o : Op} {f : Res o → Program Op Res α} (he : ∀ r r', E o r r' → f r = f r')
    (hf : ∀ r, Blind E (f r)) : Blind E (request o >>= f) := ⟨he,hf⟩

end Blind

end Program

open Program

section Follows

variable {law law' : List (Act Op' Res') → Op' → Prop}
  {may : List (Act Op' Res') → (op : Op') → Res' op → Prop} {h : List (Act Op' Res')}

theorem Obeys.law_mono {p : Program Op' Res' α} {Q : List (Act Op' Res') → α → Prop}
    (hp : Obeys law may p Q h) (hl : ∀ h op, law h op → law' h op) : Obeys law' may p Q h := by
  induction p generalizing h with
  | ret a => exact hp
  | call op next ih => exact ⟨hl h op hp.1,fun r hr => ih r (hp.2 r hr)⟩

variable {E : (op : Op) → Res op → Res op → Prop} {φ : (op : Op) → Program Op' Res' (Res op)}
  {step : S → (op : Op) → Res op → S → Prop} {J : List (Act Op Res) → S → List (Act Op' Res') → Prop}

/-- The operation is about to be performed, or was just performed. -/
def Around (step : S → (op : Op) → Res op → S → Prop)
    (J : List (Act Op Res) → S → List (Act Op' Res') → Prop) (op : Op) (acts : List (Act Op Res))
    (s : S) (h : List (Act Op' Res')) : Prop :=
  J acts s h ∨ ∃ r t, step s op r t ∧ J (acts ++ [⟨op,r⟩]) t h

/-- If carrying out one operation keeps the relation between a run so far and the history,
the history of a whole program is that of some run, at every point of it. -/
theorem obeys_interp {p₀ : Program Op Res β} {q : Program Op Res α} {k : α → Program Op Res β}
    {s₀ s : S} {acts : List (Act Op Res)} (hq : Blind E q)
    (hop : ∀ op acts s h, J acts s h → Obeys (fun h _ => Around step J op acts s h) may (φ op)
      (fun h' r => ∃ r' t, E op r r' ∧ step s op r' t ∧ J (acts ++ [⟨op,r'⟩]) t h') h)
    (hrun : Running step p₀ s₀ acts (q >>= k) s) (hJ : J acts s h) :
    Obeys (fun h _ => ∃ acts q s, Running step p₀ s₀ acts q s ∧ J acts s h) may (q.interp φ)
      (fun h' a => ∃ acts s, Running step p₀ s₀ acts (k a) s ∧ J acts s h') h := by
  induction q generalizing acts s h with
  | ret a => exact ⟨acts,s,hrun,hJ⟩
  | call op next ih =>
    refine Obeys.bind ((hop op acts s h hJ).law_mono fun h' _ hJ' => ?_) ?_
    · obtain hJ' | ⟨r,t,hs,hJ'⟩ := hJ'
      · exact ⟨acts,_,s,hrun,hJ'⟩
      · exact ⟨_,_,t,hrun.snoc hs,hJ'⟩
    rintro h' r ⟨r',t,he,hs,hJ'⟩
    rw [hq.1 r r' he]
    exact ih r' (hq.2 r') (hrun.snoc hs) hJ'

end Follows

namespace Threads

section Twins

variable {ι Call : Type} [DecidableEq ι] {T : Threads ι Op Res S Call}
  {E : (op : Op) → Res op → Res op → Prop} {R : S → S → Prop}
  {guard : S → Log ι Op Res → ι → Op → Prop} {c c' d : Config ι Op Res S}

structure Blinded (T : Threads ι Op Res S Call) (E : (op : Op) → Res op → Res op → Prop) : Prop where
  first : ∀ i, Blind E (T.first i)
  program : ∀ i call p, T.program i call = some p → Blind E p

/-- The same operation of the same thread, with answers that look alike. -/
inductive LooksAlike (E : (op : Op) → Res op → Res op → Prop) : ι × Act Op Res → ι × Act Op Res → Prop
  | mk (i : ι) {op : Op} {r r' : Res op} (h : E op r r') : LooksAlike E (i,⟨op,r⟩) (i,⟨op,r'⟩)

/-- Configurations that no thread tells apart. -/
structure Twins (E : (op : Op) → Res op → Res op → Prop) (R : S → S → Prop)
    (c c' : Config ι Op Res S) : Prop where
  state : R c.state c'.state
  thread : c'.thread = c.thread
  log : List.Forall₂ (LooksAlike E) c.log c'.log

theorem Reach.blind (hT : T.Blinded E) (hc : T.Reach guard c) (i : ι) : Blind E (c.thread i) := by
  induction hc with
  | init => exact hT.first i
  | @step c d _ hs ih =>
    cases hs with
    | @start j call p hidle hp =>
      by_cases hj : i = j
      · subst hj
        simpa using hT.program i call p hp
      · simpa [hj] using ih
    | @act j op next r t hthread hg hs =>
      by_cases hj : i = j
      · subst hj
        rw [hthread] at ih
        simpa using ih.2 r
      · simpa [hj] using ih

variable (hT : T.Blinded E) (hstep : ∀ s s' op r t, R s s' → T.step s op r t →
  ∃ r' t', E op r r' ∧ T.step s' op r' t' ∧ R t t')
include hT hstep

/-- Whatever one of them does next, the other one does too. -/
theorem Twins.step (hc : T.Reachable c) (h : Twins E R c c') (hs : T.Step (fun _ _ _ _ => True) c d) :
    ∃ d', T.Step (fun _ _ _ _ => True) c' d' ∧ Twins E R d d' := by
  cases hs with
  | @start i call p hidle hp =>
    refine ⟨_,.start (by rw [h.thread, hidle]) hp,h.state,?_,h.log⟩
    change Function.update c'.thread i p = Function.update c.thread i p
    rw [h.thread]
  | @act i op next r t hthread hg hs =>
    obtain ⟨r',t',he,hs',hR⟩ := hstep _ _ _ _ _ h.state hs
    refine ⟨_,.act (by rw [h.thread, hthread]) trivial hs',hR,?_,.cons (.mk i he) h.log⟩
    have hb := hc.blind hT i
    rw [hthread] at hb
    change Function.update c'.thread i (next r') = Function.update c.thread i (next r)
    rw [h.thread, hb.1 r r' he]

theorem Twins.leads (hc : T.Reachable c) (h : Twins E R c c')
    (hl : T.Leads (fun _ _ _ _ => True) c d) :
    ∃ d', T.Leads (fun _ _ _ _ => True) c' d' ∧ Twins E R d d' := by
  induction hl with
  | refl => exact ⟨c',.refl,h⟩
  | tail hl hs ih =>
    obtain ⟨e',hl',he⟩ := ih
    obtain ⟨d',hs',hd⟩ := he.step hT hstep (hc.leads hl) hs
    exact ⟨d',hl'.tail hs',hd⟩

end Twins

end Threads

end AgxOpen
