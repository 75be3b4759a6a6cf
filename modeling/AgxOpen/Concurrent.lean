import AgxOpen.Program
import Mathlib.Logic.Relation

/-!
# Threads over a shared state

Threads run programs one operation at a time, in any interleaving. The log keeps
every answered operation, newest first, so a law about the order of operations
is a law about the splits of the log. A thread is checked against its own
history alone; what the other threads did enters through the answers it may get.
-/
namespace AgxOpen

/-- One answered operation. -/
structure Act (Op : Type) (Res : Op → Type) where
  op : Op
  answer : Res op

/-- Everything done so far, newest first. -/
abbrev Log (ι Op : Type) (Res : Op → Type) := List (ι × Act Op Res)

structure Threads (ι Op : Type) (Res : Op → Type) (S Call : Type) where
  init : S → Prop
  /-- What an operation does when it is answered so. -/
  step : S → (op : Op) → Res op → S → Prop
  /-- What a thread runs from the start. -/
  first : ι → Program Op Res Unit
  /-- What a thread may start whenever it is idle. -/
  program : ι → Call → Option (Program Op Res Unit)

structure Config (ι Op : Type) (Res : Op → Type) (S : Type) where
  state : S
  thread : ι → Program Op Res Unit
  log : Log ι Op Res

variable {ι Op : Type} {Res : Op → Type} {S Call α β : Type}

section History

variable [DecidableEq ι]

/-- What one thread did, newest first. -/
def own (i : ι) : Log ι Op Res → List (Act Op Res)
  | [] => []
  | (j,a) :: log => if j = i then a :: own i log else own i log

@[simp] theorem own_nil (i : ι) : own i ([] : Log ι Op Res) = [] := rfl

@[simp] theorem own_cons_self (i : ι) (a : Act Op Res) (log : Log ι Op Res) :
    own i ((i,a) :: log) = a :: own i log := if_pos rfl

theorem own_cons_ne {i j : ι} (h : j ≠ i) (a : Act Op Res) (log : Log ι Op Res) :
    own i ((j,a) :: log) = own i log := if_neg h

theorem own_append (i : ι) (later earlier : Log ι Op Res) :
    own i (later ++ earlier) = own i later ++ own i earlier := by
  induction later with
  | nil => rfl
  | cons e later ih =>
    obtain ⟨j,a⟩ := e
    simp only [List.cons_append, own, ih]
    split <;> rfl

theorem own_suffix (i : ι) {earlier log : Log ι Op Res} (h : earlier <:+ log) :
    own i earlier <:+ own i log := by
  obtain ⟨later,rfl⟩ := h
  rw [own_append]
  exact List.suffix_append ..

theorem mem_own {i : ι} {a : Act Op Res} {log : Log ι Op Res} : a ∈ own i log ↔ (i,a) ∈ log := by
  induction log with
  | nil => simp
  | cons e log ih =>
    obtain ⟨j,b⟩ := e
    by_cases hj : j = i
    · subst hj
      simp [ih]
    · simp [own_cons_ne hj, ih, Ne.symm hj]

/-- A split of a thread's history comes from a split of the log. -/
theorem own_split {i : ι} {log : Log ι Op Res} {later earlier : List (Act Op Res)} {a : Act Op Res}
    (h : own i log = later ++ a :: earlier) :
    ∃ after before, log = after ++ (i,a) :: before ∧ own i after = later ∧
      own i before = earlier := by
  induction log generalizing later with
  | nil => simp at h
  | cons e log ih =>
    obtain ⟨j,b⟩ := e
    by_cases hj : j = i
    · subst hj
      rw [own_cons_self] at h
      cases later with
      | nil =>
        obtain ⟨rfl,rfl⟩ := List.cons.inj h
        exact ⟨[],log,rfl,rfl,rfl⟩
      | cons c later =>
        obtain ⟨rfl,ht⟩ := List.cons.inj h
        obtain ⟨after,before,rfl,rfl,rfl⟩ := ih ht
        exact ⟨_ :: after,before,rfl,own_cons_self _ _ _,rfl⟩
    · rw [own_cons_ne hj] at h
      obtain ⟨after,before,rfl,rfl,rfl⟩ := ih h
      exact ⟨_ :: after,before,rfl,own_cons_ne hj _ _,rfl⟩

/-- Of two entries the one that is not behind the other is ahead of it. -/
theorem split_ahead {α : Type} {later later' earlier earlier' : List α} {x y : α}
    (h : later ++ x :: earlier = later' ++ y :: earlier') (hy : y ∉ later) (hne : x ≠ y) :
    ∃ mid, later' = later ++ x :: mid ∧ earlier = mid ++ y :: earlier' := by
  obtain ⟨mid,rfl,he⟩ | ⟨mid,rfl,he⟩ := List.append_eq_append_iff.mp h
  · cases mid with
    | nil => exact absurd (List.cons.inj he).1 hne
    | cons z mid =>
      obtain ⟨rfl,rfl⟩ := List.cons.inj he
      exact ⟨mid,rfl,rfl⟩
  · cases mid with
    | nil => exact absurd (List.cons.inj he).1.symm hne
    | cons z mid =>
      obtain ⟨rfl,rfl⟩ := List.cons.inj he
      exact absurd (List.mem_append_right _ List.mem_cons_self) hy

/-- Every operation in the log was allowed by its thread's own history. -/
def Lawful (law : ι → List (Act Op Res) → Op → Prop) : Log ι Op Res → Prop
  | [] => True
  | (i,a) :: log => law i (own i log) a.op ∧ Lawful law log

variable {law : ι → List (Act Op Res) → Op → Prop} {log later earlier : Log ι Op Res}

theorem Lawful.of_append (h : Lawful law (later ++ earlier)) : Lawful law earlier := by
  induction later with
  | nil => exact h
  | cons e later ih => exact ih h.2

theorem Lawful.split {i : ι} {a : Act Op Res} (h : Lawful law (later ++ (i,a) :: earlier)) :
    law i (own i earlier) a.op := h.of_append.1

theorem Lawful.mem {i : ι} {a : Act Op Res} (h : Lawful law log) (ha : (i,a) ∈ log) :
    ∃ later earlier, log = later ++ (i,a) :: earlier ∧ law i (own i earlier) a.op := by
  obtain ⟨later,earlier,rfl⟩ := List.append_of_mem ha
  exact ⟨later,earlier,rfl,h.split⟩

/-- Every operation of a history was allowed by what came before it. -/
def Along (law : List (Act Op Res) → Op → Prop) : List (Act Op Res) → Prop
  | [] => True
  | a :: h => law h a.op ∧ Along law h

theorem Along.of_append {law : List (Act Op Res) → Op → Prop} {h h' : List (Act Op Res)}
    (ha : Along law (h' ++ h)) : Along law h := by
  induction h' with
  | nil => exact ha
  | cons a h' ih => exact ih ha.2

theorem Lawful.along (h : Lawful law log) (i : ι) : Along (law i) (own i log) := by
  induction log with
  | nil => trivial
  | cons e log ih =>
    obtain ⟨j,a⟩ := e
    by_cases hj : j = i
    · subst hj
      rw [own_cons_self]
      exact ⟨h.1,ih h.2⟩
    · rw [own_cons_ne hj]
      exact ih h.2

end History

section Values

/-- What a history makes of a value that each act changes in its own way. -/
def replay (f : β → Act Op Res → β) (init : β) : List (Act Op Res) → β
  | [] => init
  | a :: h => f (replay f init h) a

/-- The value that the newest act setting it gave. -/
def latest (g : Act Op Res → Option β) (init : β) (h : List (Act Op Res)) : β :=
  (h.findSome? g).getD init

variable {f : β → Act Op Res → β} {g : Act Op Res → Option β} {init b : β} {a : Act Op Res}
  {h : List (Act Op Res)}

@[simp] theorem replay_nil : replay f init [] = init := rfl

@[simp] theorem replay_cons : replay f init (a :: h) = f (replay f init h) a := rfl

@[simp] theorem latest_nil : latest g init [] = init := rfl

@[simp] theorem latest_cons : latest g init (a :: h) = (g a).getD (latest g init h) := by
  rw [latest, List.findSome?_cons]
  cases g a <;> rfl

/-- A value that is not the first one was set, and not set again since. -/
theorem latest_split (hb : latest g init h = b) (hne : b ≠ init) :
    ∃ later a earlier, h = later ++ a :: earlier ∧ g a = some b ∧ ∀ c ∈ later, g c = none := by
  rw [latest] at hb
  cases hf : h.findSome? g with
  | none =>
    rw [hf] at hb
    exact absurd hb.symm hne
  | some c =>
    rw [hf] at hb
    obtain rfl : c = b := hb
    exact List.findSome?_eq_some_iff.mp hf

/-- Once a value was set, it is the value some act gave. -/
theorem latest_mem (g : Act Op Res → Option β) (init : β) (ha : a ∈ h) (hg : g a ≠ none) :
    ∃ c ∈ h, g c = some (latest g init h) := by
  induction h with
  | nil => contradiction
  | cons c h ih =>
    rw [latest_cons]
    cases hc : g c with
    | some v => exact ⟨c,List.mem_cons_self,hc⟩
    | none =>
      have hmem : a ∈ h := (List.mem_cons.mp ha).resolve_left fun he => hg (he ▸ hc)
      obtain ⟨d,hd,hv⟩ := ih hmem
      exact ⟨d,List.mem_cons_of_mem _ hd,hv⟩

/-- The act that set the value, with its thread. -/
theorem latest_log {log : Log ι Op Res} (hb : latest g init (log.map Prod.snd) = b) (hne : b ≠ init) :
    ∃ later i a earlier, log = later ++ (i,a) :: earlier ∧ g a = some b ∧
      ∀ e ∈ later, g e.2 = none := by
  obtain ⟨l,a,m,he,ha,hl⟩ := latest_split hb hne
  obtain ⟨later,rest,rfl,rfl,hrest⟩ := List.map_eq_append_iff.mp he
  obtain ⟨⟨i,a'⟩,earlier,rfl,rfl,rfl⟩ := List.map_eq_cons_iff.mp hrest
  exact ⟨later,i,a',earlier,rfl,ha,fun e he => hl _ (List.mem_map_of_mem he)⟩

variable [DecidableEq ι] {law : ι → List (Act Op Res) → Op → Prop} {log : Log ι Op Res} {i : ι}

/-- Acts of the other threads that leave a value alone can be skipped. -/
theorem Lawful.replay_own (hl : Lawful law log)
    (hother : ∀ j, j ≠ i → ∀ h op r b, law j h op → f b ⟨op,r⟩ = b) :
    replay f init (log.map Prod.snd) = replay f init (own i log) := by
  induction log with
  | nil => rfl
  | cons e log ih =>
    obtain ⟨j,op,r⟩ := e
    rw [List.map_cons, replay_cons, ih hl.2]
    by_cases hj : j = i
    · subst hj
      rw [own_cons_self, replay_cons]
    · rw [own_cons_ne hj, hother j hj _ op r _ hl.1]

theorem Lawful.latest_own (hl : Lawful law log)
    (hother : ∀ j, j ≠ i → ∀ h op r, law j h op → g ⟨op,r⟩ = none) :
    latest g init (log.map Prod.snd) = latest g init (own i log) := by
  induction log with
  | nil => rfl
  | cons e log ih =>
    obtain ⟨j,op,r⟩ := e
    rw [List.map_cons, latest_cons, ih hl.2]
    by_cases hj : j = i
    · subst hj
      rw [own_cons_self, latest_cons]
    · rw [own_cons_ne hj, hother j hj _ op r hl.1, Option.getD_none]

end Values

/-- Whatever the answers it may get, the program does only what its history
allows, and its value and final history satisfy the postcondition. -/
def Obeys (law : List (Act Op Res) → Op → Prop)
    (may : List (Act Op Res) → (op : Op) → Res op → Prop) :
    Program Op Res α → (List (Act Op Res) → α → Prop) → List (Act Op Res) → Prop
  | .ret a, Q, h => Q h a
  | .call op next, Q, h => law h op ∧ ∀ r, may h op r → Obeys law may (next r) Q (⟨op,r⟩ :: h)

section Rules

variable {law : List (Act Op Res) → Op → Prop}
  {may : List (Act Op Res) → (op : Op) → Res op → Prop} {p : Program Op Res α}
  {f : α → Program Op Res β} {h : List (Act Op Res)}

@[simp] theorem obeys_ret {a : α} {Q : List (Act Op Res) → α → Prop} :
    Obeys law may (.ret a) Q h ↔ Q h a := Iff.rfl

/-- Where everything is allowed every program obeys. -/
theorem obeys_true (p : Program Op Res α) :
    Obeys (fun _ _ => True) may p (fun _ _ => True) h := by
  induction p generalizing h with
  | ret a => trivial
  | call op next ih => exact ⟨trivial,fun r _ => ih r⟩

theorem Obeys.mono {Q Q' : List (Act Op Res) → α → Prop} (hp : Obeys law may p Q h)
    (hQ : ∀ h' a, Q h' a → Q' h' a) : Obeys law may p Q' h := by
  induction p generalizing h with
  | ret a => exact hQ _ _ hp
  | call op next ih => exact ⟨hp.1,fun r hr => ih r (hp.2 r hr)⟩

theorem Obeys.bind {Q : List (Act Op Res) → α → Prop} {Q' : List (Act Op Res) → β → Prop}
    (hp : Obeys law may p Q h) (hf : ∀ h' a, Q h' a → Obeys law may (f a) Q' h') :
    Obeys law may (p >>= f) Q' h := by
  induction p generalizing h with
  | ret a => exact hf _ _ hp
  | call op next ih => exact ⟨hp.1,fun r hr => ih r (hp.2 r hr)⟩

/-- One operation, then the rest. -/
theorem Obeys.request {op : Op} {f : Res op → Program Op Res β} {Q : List (Act Op Res) → β → Prop}
    (hl : law h op) (hf : ∀ r, may h op r → Obeys law may (f r) Q (⟨op,r⟩ :: h)) :
    Obeys law may (Program.request op >>= f) Q h := ⟨hl,hf⟩

theorem obeys_forRange {body : ℕ → Program Op Res Unit} (I : ℕ → List (Act Op Res) → Prop) (n : ℕ)
    (h0 : I 0 h) (hstep : ∀ k < n, ∀ h', I k h' → Obeys law may (body k) (fun h' _ => I (k+1) h') h') :
    Obeys law may (Program.forRange n body) (fun h' _ => I n h') h := by
  induction n with
  | zero => exact h0
  | succ n ih =>
    refine (ih fun k hk => hstep k (by omega)).bind ?_
    intro h' _ hI
    exact hstep n (by omega) h' hI

/-- The invariant after `k` rounds, and what holds wherever the body leaves. -/
theorem obeys_forUntil {body : ℕ → Program Op Res Bool} (I : ℕ → List (Act Op Res) → Prop)
    (L : List (Act Op Res) → Prop) {lo n : ℕ} (h0 : I lo h)
    (hstep : ∀ k, lo ≤ k → k < lo+n → ∀ h', I k h' →
      Obeys law may (body k) (fun h' b => if b then I (k+1) h' else L h') h') :
    Obeys law may (Program.forUntil lo n body) (fun h' b => if b then I (lo+n) h' else L h') h := by
  induction n generalizing lo h with
  | zero => simpa [Program.forUntil] using h0
  | succ n ih =>
    refine (hstep lo (by omega) (by omega) h h0).bind ?_
    intro h' b hb
    cases b with
    | false => simpa using hb
    | true =>
      have hrest := ih hb fun k hk hk' => hstep k (by omega) (by omega)
      rwa [Nat.add_assoc, Nat.add_comm 1 n] at hrest

/-- A program whose operations are all of a kind keeps what each of them keeps. -/
theorem obeys_only {P : Op → Prop} (hp : Program.Only P p) (I : List (Act Op Res) → Prop)
    (h0 : I h) (hlaw : ∀ h op, P op → I h → law h op)
    (hstep : ∀ h op r, P op → may h op r → I h → I (⟨op,r⟩ :: h)) :
    Obeys law may p (fun h' _ => I h') h := by
  induction p generalizing h with
  | ret a => exact h0
  | call op next ih =>
    exact ⟨hlaw h op hp.1 h0,fun r hr => ih r (hp.2 r) (hstep h op r hp.1 hr h0)⟩

end Rules

namespace Threads

variable (T : Threads ι Op Res S Call) (guard : S → Log ι Op Res → ι → Op → Prop)

/-- The states behind the operations of a log, taken one by one. -/
inductive Trace : S → Log ι Op Res → Prop
  | init {s} (h : T.init s) : Trace s []
  | act {s log i op r t} (h : Trace s log) (hg : guard s log i op) (hs : T.step s op r t) :
      Trace t ((i,⟨op,r⟩) :: log)

variable {T guard}

/-- The state behind an earlier operation. -/
theorem Trace.split {s : S} {later earlier : Log ι Op Res} {i : ι} {a : Act Op Res}
    (h : T.Trace guard s (later ++ (i,a) :: earlier)) :
    ∃ t u, T.Trace guard t earlier ∧ guard t earlier i a.op ∧
      T.step t a.op a.answer u := by
  induction later generalizing s with
  | nil =>
    cases h with
    | act h hg hs => exact ⟨_,_,h,hg,hs⟩
  | cons e later ih =>
    cases h with
    | act h hg hs => exact ih h

/-- A field that each operation changes in its own way is what the log makes of it. -/
theorem Trace.replay {s : S} {log : Log ι Op Res} (h : T.Trace guard s log) (get : S → β)
    (f : β → Act Op Res → β) (hstep : ∀ s op r t, T.step s op r t → get t = f (get s) ⟨op,r⟩) :
    ∃ s₀, T.init s₀ ∧ get s = AgxOpen.replay f (get s₀) (log.map Prod.snd) := by
  induction h with
  | init h => exact ⟨_,h,rfl⟩
  | act _ hg hs ih =>
    obtain ⟨s₀,h₀,ih⟩ := ih
    refine ⟨s₀,h₀,?_⟩
    rw [hstep _ _ _ _ hs, ih]
    rfl

/-- A field that operations set has the value set last. -/
theorem Trace.latest {s : S} {log : Log ι Op Res} (h : T.Trace guard s log) (get : S → β)
    (g : Act Op Res → Option β)
    (hstep : ∀ s op r t, T.step s op r t → get t = (g ⟨op,r⟩).getD (get s)) :
    ∃ s₀, T.init s₀ ∧ get s = AgxOpen.latest g (get s₀) (log.map Prod.snd) := by
  induction h with
  | init h => exact ⟨_,h,rfl⟩
  | act _ hg hs ih =>
    obtain ⟨s₀,h₀,ih⟩ := ih
    exact ⟨s₀,h₀,by rw [hstep _ _ _ _ hs, ih, List.map_cons, latest_cons]⟩

section Owned

variable [DecidableEq ι] {law : ι → List (Act Op Res) → Op → Prop} {s : S} {log : Log ι Op Res}

/-- A field that only one thread sets is what that thread's history says. -/
theorem Trace.latest_own (i : ι) (h : T.Trace guard s log) (hl : Lawful law log) (get : S → β)
    (g : Act Op Res → Option β)
    (hstep : ∀ s op r t, T.step s op r t → get t = (g ⟨op,r⟩).getD (get s))
    (hother : ∀ j, j ≠ i → ∀ h op r, law j h op → g ⟨op,r⟩ = none) :
    ∃ s₀, T.init s₀ ∧ get s = AgxOpen.latest g (get s₀) (own i log) := by
  obtain ⟨s₀,h₀,he⟩ := h.latest get g hstep
  exact ⟨s₀,h₀,he.trans (hl.latest_own hother)⟩

theorem Trace.replay_own (i : ι) (h : T.Trace guard s log) (hl : Lawful law log) (get : S → β)
    (f : β → Act Op Res → β)
    (hstep : ∀ s op r t, T.step s op r t → get t = f (get s) ⟨op,r⟩)
    (hother : ∀ j, j ≠ i → ∀ h op r b, law j h op → f b ⟨op,r⟩ = b) :
    ∃ s₀, T.init s₀ ∧ get s = AgxOpen.replay f (get s₀) (own i log) := by
  obtain ⟨s₀,h₀,he⟩ := h.replay get f hstep
  exact ⟨s₀,h₀,he.trans (hl.replay_own hother)⟩

end Owned

variable (T guard) [DecidableEq ι]

/-- One thread starts a program or has one operation answered. -/
inductive Step : Config ι Op Res S → Config ι Op Res S → Prop
  | start {c i call p} (hidle : c.thread i = .ret ()) (hp : T.program i call = some p) :
      Step c { c with thread := Function.update c.thread i p }
  | act {c i op next r t} (hc : c.thread i = .call op next) (hg : guard c.state c.log i op)
      (hs : T.step c.state op r t) :
      Step c ⟨t,Function.update c.thread i (next r),(i,⟨op,r⟩) :: c.log⟩

/-- Configurations reached by steps whose operations all meet the guard. -/
inductive Reach : Config ι Op Res S → Prop
  | init {s} (h : T.init s) : Reach ⟨s,T.first,[]⟩
  | step {c d} (h : Reach c) (hs : T.Step guard c d) : Reach d

/-- Configurations reached by any steps. -/
abbrev Reachable : Config ι Op Res S → Prop := T.Reach fun _ _ _ _ => True

variable {T guard}

theorem Reach.trace {c : Config ι Op Res S} (h : T.Reach guard c) :
    T.Trace guard c.state c.log := by
  induction h with
  | init h => exact .init h
  | step _ hs ih =>
    cases hs with
    | start => exact ih
    | act hc hg hs => exact .act ih hg hs

/-- The configuration in front of the newest operation. -/
theorem Reach.before {c : Config ι Op Res S} {i : ι} {op : Op} {r : Res op} {log : Log ι Op Res}
    (h : T.Reach guard c) (hlog : c.log = (i,⟨op,r⟩) :: log) :
    ∃ b, T.Reach guard b ∧ b.log = log ∧ T.step b.state op r c.state := by
  induction h with
  | init => contradiction
  | @step c d h hs ih =>
    cases hs with
    | start => exact ih hlog
    | act hc hg hs =>
      cases hlog
      exact ⟨c,h,rfl,hs⟩

/-- The answers a thread can get, as far as its own history tells. -/
def May (T : Threads ι Op Res S Call) (guard : S → Log ι Op Res → ι → Op → Prop)
    (law : ι → List (Act Op Res) → Op → Prop) (i : ι) (h : List (Act Op Res)) (op : Op)
    (r : Res op) : Prop :=
  ∃ s log t, T.Trace guard s log ∧ Lawful law log ∧ own i log = h ∧ guard s log i op ∧
    T.step s op r t

/-- Every program a thread can run obeys its law. Between two programs the
history of thread `i` satisfies `idle i`. -/
structure Disciplined (T : Threads ι Op Res S Call) (guard : S → Log ι Op Res → ι → Op → Prop)
    (law : ι → List (Act Op Res) → Op → Prop) (idle : ι → List (Act Op Res) → Prop) : Prop where
  first : ∀ i, Obeys (law i) (T.May guard law i) (T.first i) (fun h _ => idle i h) []
  program : ∀ i call p h, T.program i call = some p → idle i h →
    Obeys (law i) (T.May guard law i) p (fun h' _ => idle i h') h

/-- In a disciplined system every operation of every run is lawful. -/
theorem Reach.lawful {law : ι → List (Act Op Res) → Op → Prop}
    {idle : ι → List (Act Op Res) → Prop} (hd : T.Disciplined guard law idle)
    {c : Config ι Op Res S} (h : T.Reach guard c) :
    Lawful law c.log ∧ ∀ i, Obeys (law i) (T.May guard law i) (c.thread i)
      (fun h _ => idle i h) (own i c.log) := by
  induction h with
  | init h => exact ⟨trivial,hd.first⟩
  | @step c d h hs ih =>
    cases hs with
    | @start i call p hidle hp =>
      refine ⟨ih.1,fun j => ?_⟩
      by_cases hj : j = i
      · subst hj
        have hi := ih.2 j
        rw [hidle] at hi
        simpa using hd.program j call p _ hp hi
      · simpa [hj] using ih.2 j
    | @act i op next r t hc hg hs =>
      have hi := ih.2 i
      rw [hc] at hi
      refine ⟨⟨hi.1,ih.1⟩,fun j => ?_⟩
      by_cases hj : j = i
      · subst hj
        simpa using hi.2 r ⟨c.state,c.log,t,h.trace,ih.1,rfl,hg,hs⟩
      · simpa [hj, own_cons_ne (Ne.symm hj)] using ih.2 j

/-- What one thread does obeys a law of its own too, if its programs do with the
answers they can get. -/
theorem Reach.along {law : ι → List (Act Op Res) → Op → Prop}
    {idle : ι → List (Act Op Res) → Prop} (hd : T.Disciplined guard law idle) (i : ι)
    {law' : List (Act Op Res) → Op → Prop} (idle' : List (Act Op Res) → Prop)
    (hfirst : Obeys law' (T.May guard law i) (T.first i) (fun h _ => idle' h) [])
    (hprogram : ∀ call p h, T.program i call = some p → idle' h →
      Obeys law' (T.May guard law i) p (fun h' _ => idle' h') h)
    {c : Config ι Op Res S} (h : T.Reach guard c) :
    Along law' (own i c.log) ∧
      Obeys law' (T.May guard law i) (c.thread i) (fun h _ => idle' h) (own i c.log) := by
  induction h with
  | init h => exact ⟨trivial,hfirst⟩
  | @step c d h hs ih =>
    cases hs with
    | @start j call p hidle hp =>
      refine ⟨ih.1,?_⟩
      by_cases hj : i = j
      · subst hj
        have hi := ih.2
        rw [hidle] at hi
        simpa using hprogram call p _ hp hi
      · simpa [hj] using ih.2
    | @act j op next r t hc hg hs =>
      by_cases hj : j = i
      · subst hj
        have hi := ih.2
        rw [hc] at hi
        refine ⟨by simpa using ⟨hi.1,ih.1⟩,?_⟩
        simpa using hi.2 r ⟨c.state,c.log,t,h.trace,(h.lawful hd).1,rfl,hg,hs⟩
      · rw [own_cons_ne hj]
        simpa [Ne.symm hj] using ih

/-- What one thread does obeys a law, if its programs do with the answers they can get in
the runs whose log is good. -/
theorem Reach.obeys (i : ι) {law' : List (Act Op Res) → Op → Prop}
    {may : List (Act Op Res) → (op : Op) → Res op → Prop} {good : Log ι Op Res → Prop}
    (idle' : List (Act Op Res) → Prop) (hgood : ∀ e log, good (e :: log) → good log)
    (hmay : ∀ c op r t, T.Reach guard c → Along law' (own i c.log) → T.step c.state op r t →
      good ((i,⟨op,r⟩) :: c.log) → may (own i c.log) op r)
    (hfirst : Obeys law' may (T.first i) (fun h _ => idle' h) [])
    (hprogram : ∀ call p h, T.program i call = some p → idle' h →
      Obeys law' may p (fun h' _ => idle' h') h)
    {c : Config ι Op Res S} (h : T.Reach guard c) (hc : good c.log) :
    Along law' (own i c.log) ∧
      Obeys law' may (c.thread i) (fun h _ => idle' h) (own i c.log) := by
  induction h with
  | init h => exact ⟨trivial,hfirst⟩
  | @step c d h hs ih =>
    cases hs with
    | @start j call p hidle hp =>
      obtain ⟨hal,hob⟩ := ih hc
      refine ⟨hal,?_⟩
      by_cases hj : i = j
      · subst hj
        rw [hidle] at hob
        simpa using hprogram call p _ hp hob
      · simpa [hj] using hob
    | @act j op next r t hthread hg hs =>
      obtain ⟨hal,hob⟩ := ih (hgood _ _ hc)
      by_cases hj : j = i
      · subst hj
        rw [hthread] at hob
        refine ⟨by simpa using ⟨hob.1,hal⟩,?_⟩
        simpa using hob.2 r (hmay c op r t h hal hs hc)
      · rw [own_cons_ne hj]
        simpa [Ne.symm hj] using ⟨hal,hob⟩

/-- The same threads from one state. -/
def startingAt (T : Threads ι Op Res S Call) (s : S) : Threads ι Op Res S Call :=
  { T with init := fun t => t = s }

omit [DecidableEq ι] in
theorem Trace.of_startingAt {s t : S} (h₀ : T.init s) {log : Log ι Op Res}
    (h : (T.startingAt s).Trace guard t log) : T.Trace guard t log := by
  induction h with
  | init hs =>
    obtain rfl := hs
    exact .init h₀
  | act _ hg hs ih => exact .act ih hg hs

theorem Reach.of_startingAt {s : S} (h₀ : T.init s) {c : Config ι Op Res S}
    (h : (T.startingAt s).Reach guard c) : T.Reach guard c := by
  induction h with
  | init hs =>
    obtain rfl := hs
    exact .init h₀
  | step _ hs ih =>
    cases hs with
    | start hidle hp => exact .step ih (.start hidle hp)
    | act hc hg hs => exact .step ih (.act hc hg hs)

/-- The second configuration can be reached from the first one. -/
abbrev Leads (T : Threads ι Op Res S Call) (guard : S → Log ι Op Res → ι → Op → Prop) :
    Config ι Op Res S → Config ι Op Res S → Prop := Relation.ReflTransGen (T.Step guard)

theorem Step.mono {guard' : S → Log ι Op Res → ι → Op → Prop} {c d : Config ι Op Res S}
    (h : T.Step guard c d) (hg : ∀ s log i op, guard s log i op → guard' s log i op) :
    T.Step guard' c d := by
  cases h with
  | start hidle hp => exact .start hidle hp
  | act hc h hs => exact .act hc (hg _ _ _ _ h) hs

theorem Reach.leads {c d : Config ι Op Res S} (h : T.Reach guard c) (hl : T.Leads guard c d) :
    T.Reach guard d := by
  induction hl with
  | refl => exact h
  | tail _ hs ih => exact .step ih hs

/-- What is reached from one state. -/
theorem Reach.leads_from {s : S} {c : Config ι Op Res S} (h : (T.startingAt s).Reach guard c) :
    T.Leads guard ⟨s,T.first,[]⟩ c := by
  induction h with
  | init hs =>
    obtain rfl := hs
    exact .refl
  | step _ hs ih =>
    cases hs with
    | start hidle hp => exact ih.tail (.start hidle hp)
    | act hc hg hs => exact ih.tail (.act hc hg hs)

/-- A thread whose next operation can always be brought to its answer gets to its end. -/
theorem leads_end (i : ι) {I Goal : Config ι Op Res S → Prop}
    (hstep : ∀ c op next, I c → c.thread i = .call op next →
      ∃ d, T.Leads guard c d ∧ (Goal d ∨ I d ∧ ∃ r, d.thread i = next r))
    (hend : ∀ c, I c → c.thread i = .ret () → Goal c) {c : Config ι Op Res S} (hc : I c) :
    ∃ d, T.Leads guard c d ∧ Goal d := by
  induction hp : c.thread i generalizing c with
  | ret a => exact ⟨c,.refl,hend c hc hp⟩
  | call op next ih =>
    obtain ⟨d,hl,hgoal | ⟨hd,r,hr⟩⟩ := hstep c op next hc hp
    · exact ⟨d,hl,hgoal⟩
    · obtain ⟨e,hl',hgoal⟩ := ih r hd hr
      exact ⟨e,hl.trans hl',hgoal⟩

/-- What a measure falls towards is reached. -/
theorem leads_falling {I Goal : Config ι Op Res S → Prop} (measure : Config ι Op Res S → ℕ)
    (hstep : ∀ c, I c → Goal c ∨ ∃ d, T.Leads guard c d ∧ I d ∧ measure d < measure c)
    {c : Config ι Op Res S} (hc : I c) : ∃ d, T.Leads guard c d ∧ I d ∧ Goal d := by
  induction hm : measure c using Nat.strongRecOn generalizing c with
  | ind n ih =>
    obtain hgoal | ⟨d,hl,hd,hlt⟩ := hstep c hc
    · exact ⟨c,.refl,hc,hgoal⟩
    · obtain ⟨e,hl',he,hgoal⟩ := ih (measure d) (hm ▸ hlt) hd rfl
      exact ⟨e,hl.trans hl',he,hgoal⟩

/-- One turn of a schedule. The flag says which of two answers is picked
where the environment has a choice. -/
inductive Turn (ι Call : Type)
  | start (i : ι) (call : Call)
  | acts (i : ι) (n : ℕ) (pick : Bool)

variable (T guard) [∀ s log i op, Decidable (guard s log i op)]
  (answer : Bool → S → (op : Op) → Option (Res op × S))

/-- Let one thread have `n` operations answered. -/
def acts (pick : Bool) (i : ι) :
    ℕ → Program Op Res Unit → S → Log ι Op Res →
      Option (Program Op Res Unit × S × Log ι Op Res)
  | 0, p, s, log => some (p,s,log)
  | _+1, .ret _, _, _ => none
  | n+1, .call op next, s, log =>
    if guard s log i op then
      match answer pick s op with
      | some (r,t) => acts pick i n (next r) t ((i,⟨op,r⟩) :: log)
      | none => none
    else none

def turn (c : Config ι Op Res S) : Turn ι Call → Option (Config ι Op Res S)
  | .start i call =>
    match c.thread i, T.program i call with
    | .ret _, some p => some { c with thread := Function.update c.thread i p }
    | _, _ => none
  | .acts i n pick =>
    match acts guard answer pick i n (c.thread i) c.state c.log with
    | some (p,s,log) => some ⟨s,Function.update c.thread i p,log⟩
    | none => none

def turns : Config ι Op Res S → List (Turn ι Call) → Option (Config ι Op Res S)
  | c, [] => some c
  | c, t :: rest => (T.turn guard answer c t).bind fun d => turns d rest

theorem turns_startingAt (s : S) (c : Config ι Op Res S) (l : List (Turn ι Call)) :
    (T.startingAt s).turns guard answer c l = T.turns guard answer c l := by
  induction l generalizing c with
  | nil => rfl
  | cons t rest ih =>
    have ht : (T.startingAt s).turn guard answer c t = T.turn guard answer c t := by
      cases t <;> rfl
    rw [turns, turns, ht]
    exact congrArg _ (funext ih)

variable {T guard answer} (hanswer : ∀ pick s op r t, answer pick s op = some (r,t) → T.step s op r t)
include hanswer

theorem acts_reach {pick : Bool} {i : ι} {n : ℕ} {p q : Program Op Res Unit} {s t : S}
    {log log' : Log ι Op Res} {thread : ι → Program Op Res Unit}
    (h : T.Reach guard ⟨s,Function.update thread i p,log⟩)
    (hn : acts guard answer pick i n p s log = some (q,t,log')) :
    T.Reach guard ⟨t,Function.update thread i q,log'⟩ := by
  induction n generalizing p s log with
  | zero =>
    obtain ⟨rfl,rfl,rfl⟩ : p = q ∧ s = t ∧ log = log' := by simpa [acts] using hn
    exact h
  | succ n ih =>
    cases p with
    | ret _ => simp [acts] at hn
    | call op next =>
      rw [acts] at hn
      split at hn
      · rename_i hg
        split at hn
        · rename_i r u hu
          refine ih ?_ hn
          have hs := Reach.step h (.act (Function.update_self ..) hg (hanswer _ _ _ _ _ hu))
          simpa using hs
        · contradiction
      · contradiction

theorem turn_reach {c d : Config ι Op Res S} {t : Turn ι Call} (h : T.Reach guard c)
    (ht : T.turn guard answer c t = some d) : T.Reach guard d := by
  cases t with
  | start i call =>
    rw [turn] at ht
    split at ht
    · rename_i hi hp
      obtain rfl := Option.some.inj ht
      exact .step h (.start hi hp)
    · contradiction
  | acts i n pick =>
    rw [turn] at ht
    split at ht
    · rename_i p s log hn
      obtain rfl := Option.some.inj ht
      exact acts_reach hanswer (p := c.thread i) (by simpa using h) hn
    · contradiction

theorem turns_reach {c d : Config ι Op Res S} {turns : List (Turn ι Call)} (h : T.Reach guard c)
    (ht : T.turns guard answer c turns = some d) : T.Reach guard d := by
  induction turns generalizing c with
  | nil =>
    obtain rfl := Option.some.inj ht
    exact h
  | cons t rest ih =>
    obtain ⟨u,hu,hr⟩ := Option.bind_eq_some_iff.mp ht
    exact ih (turn_reach hanswer h hu) hr

/-- A schedule that runs through exhibits a configuration reached from its start. -/
theorem reach_of_turns {s : S} {turns : List (Turn ι Call)} {check : Config ι Op Res S → Bool}
    (h : (T.turns guard answer ⟨s,T.first,[]⟩ turns).any check = true) :
    ∃ c, (T.startingAt s).Reach guard c ∧ check c = true := by
  rw [← turns_startingAt T guard answer s] at h
  cases hc : (T.startingAt s).turns guard answer ⟨s,T.first,[]⟩ turns with
  | none =>
    rw [hc] at h
    contradiction
  | some c =>
    rw [hc] at h
    exact ⟨c,turns_reach (T := T.startingAt s) hanswer (.init rfl) hc,h⟩

end Threads
end AgxOpen
