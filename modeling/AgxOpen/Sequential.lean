import AgxOpen.Concurrent

/-!
# Programs run on their own

One program after another over a state, with nobody else in between. A run keeps
the operations with their answers, oldest first.
-/
namespace AgxOpen

variable {Op : Type} {Res : Op → Type} {S Call α β : Type}

namespace Program

/-- A complete run with what it did. -/
inductive Runs (step : S → (op : Op) → Res op → S → Prop) :
    Program Op Res α → S → List (Act Op Res) → α → S → Prop
  | ret (a : α) (s : S) : Runs step (.ret a) s [] a s
  | call {op next r s t acts a u} (h : step s op r t) (rest : Runs step (next r) t acts a u) :
      Runs step (.call op next) s (⟨op,r⟩ :: acts) a u

/-- Every complete run from the state satisfies the postcondition. -/
def Meets (step : S → (op : Op) → Res op → S → Prop) :
    Program Op Res α → (List (Act Op Res) → α → S → Prop) → S → Prop
  | .ret a, Q, s => Q [] a s
  | .call op next, Q, s => ∀ r t, step s op r t →
      Meets step (next r) (fun acts a u => Q (⟨op,r⟩ :: acts) a u) t

variable {step : S → (op : Op) → Res op → S → Prop} {p : Program Op Res α}
  {f : α → Program Op Res β} {s u : S} {acts : List (Act Op Res)} {a : α}

theorem Runs.post {Q : List (Act Op Res) → α → S → Prop} (h : Runs step p s acts a u)
    (hp : Meets step p Q s) : Q acts a u := by
  induction h generalizing Q with
  | ret a s => exact hp
  | call h rest ih => exact ih (hp _ _ h)

theorem Runs.of_request {op : Op} {next : Res op → Program Op Res α}
    (h : Runs step (request op >>= next) s acts a u) :
    ∃ r t rest, acts = ⟨op,r⟩ :: rest ∧ step s op r t ∧ Runs step (next r) t rest a u := by
  rw [request_bind] at h
  cases h with
  | call hs rest => exact ⟨_,_,_,rfl,hs,rest⟩

/-- A run of two programs in sequence is a run of each. -/
theorem Runs.of_bind {b : β} (h : Runs step (p >>= f) s acts b u) :
    ∃ acts₁ a t acts₂, Runs step p s acts₁ a t ∧ Runs step (f a) t acts₂ b u ∧
      acts = acts₁ ++ acts₂ := by
  induction p generalizing s acts with
  | ret a => exact ⟨[],a,s,acts,.ret a s,h,rfl⟩
  | call op next ih =>
    cases h with
    | call hs rest =>
      obtain ⟨acts₁,a,t,acts₂,h₁,h₂,rfl⟩ := ih _ rest
      exact ⟨_,a,t,acts₂,.call hs h₁,h₂,rfl⟩

theorem Runs.only {P : Op → Prop} (h : Runs step p s acts a u) (hp : Only P p) :
    ∀ e ∈ acts, P e.op := by
  induction h with
  | ret a s => simp
  | call h rest ih => exact List.forall_mem_cons.mpr ⟨hp.1,ih (hp.2 _)⟩

@[simp] theorem meets_ret {Q : List (Act Op Res) → α → S → Prop} :
    Meets step (.ret a) Q s ↔ Q [] a s := Iff.rfl

@[simp] theorem meets_call {op : Op} {next : Res op → Program Op Res α}
    {Q : List (Act Op Res) → α → S → Prop} : Meets step (.call op next) Q s ↔
      ∀ r t, step s op r t → Meets step (next r) (fun acts a u => Q (⟨op,r⟩ :: acts) a u) t := Iff.rfl

theorem Meets.mono {Q Q' : List (Act Op Res) → α → S → Prop} (hp : Meets step p Q s)
    (hQ : ∀ acts a u, Q acts a u → Q' acts a u) : Meets step p Q' s := by
  induction p generalizing Q Q' s with
  | ret a => exact hQ _ _ _ hp
  | call op next ih => exact fun r t hr => ih r (hp r t hr) fun acts a u => hQ _ a u

theorem meets_of_forall {Q : List (Act Op Res) → α → S → Prop} (hQ : ∀ acts a u, Q acts a u) :
    Meets step p Q s := by
  induction p generalizing Q s with
  | ret a => exact hQ _ _ _
  | call op next ih => exact fun r t _ => ih r fun acts a u => hQ _ a u

theorem Meets.bind {Q : List (Act Op Res) → β → S → Prop}
    (hp : Meets step p (fun acts a u =>
      Meets step (f a) (fun acts' b v => Q (acts ++ acts') b v) u) s) :
    Meets step (p >>= f) Q s := by
  induction p generalizing Q s with
  | ret a => exact hp
  | call op next ih => exact fun r t hr => ih r (hp r t hr)

/-- What every operation of the kind preserves, the program preserves. -/
theorem Only.meets {P : Op → Prop} (hp : Only P p) (acts : List (Act Op Res))
    (I : List (Act Op Res) → S → Prop) (h0 : I acts s) (hstep : ∀ acts s op r t, P op → step s op r t → I acts s →
      I (acts ++ [⟨op,r⟩]) t) : Meets step p (fun acts' _ u => I (acts ++ acts') u) s := by
  induction p generalizing acts s with
  | ret a => simpa using h0
  | call op next ih =>
    intro r t hr
    have ht := ih r (hp.2 r) (acts ++ [⟨op,r⟩]) (hstep acts s op r t hp.1 hr h0)
    simpa using ht

theorem Only.meets_all {P : Op → Prop} (hp : Only P p) (s : S) :
    Meets step p (fun acts _ _ => ∀ e ∈ acts, P e.op) s := by
  refine hp.meets [] (fun acts _ => ∀ e ∈ acts, P e.op) (by simp) ?_
  intro acts s op r t hop _ hacts e he
  obtain he | he := List.mem_append.mp he
  · exact hacts e he
  · exact List.mem_singleton.mp he ▸ hop

/-- The loop whose body may leave: the invariant holds before every round. -/
theorem meets_forUntil {body : ℕ → Program Op Res Bool} (I : ℕ → List (Act Op Res) → S → Prop)
    (L : List (Act Op Res) → S → Prop) {lo n : ℕ} (acts : List (Act Op Res)) (h0 : I lo acts s)
    (hstep : ∀ k, lo ≤ k → k < lo+n → ∀ acts s, I k acts s →
      Meets step (body k) (fun acts' b u =>
        if b then I (k+1) (acts ++ acts') u else L (acts ++ acts') u) s) :
    Meets step (forUntil lo n body) (fun acts' b u =>
      if b then I (lo+n) (acts ++ acts') u else L (acts ++ acts') u) s := by
  induction n generalizing lo acts s with
  | zero => simpa [forUntil] using h0
  | succ n ih =>
    refine Meets.bind ((hstep lo (by omega) (by omega) acts s h0).mono ?_)
    intro acts1 b t hb
    cases b with
    | false => simpa using hb
    | true =>
      have hrest := ih (acts ++ acts1) hb
        fun k hk hk' => hstep k (by omega) (by omega)
      simpa [Nat.add_assoc, Nat.add_comm 1 n, List.append_assoc] using hrest

/-- Every complete run satisfies the postcondition on all that was done, with what was
done before it. -/
def MeetsAfter (step : S → (op : Op) → Res op → S → Prop) (pre : List (Act Op Res))
    (p : Program Op Res α) (Q : List (Act Op Res) → α → S → Prop) (s : S) : Prop :=
  Meets step p (fun acts a u => Q (pre ++ acts) a u) s

section MeetsAfter

variable {pre : List (Act Op Res)} {Q Q' : List (Act Op Res) → α → S → Prop}

@[simp] theorem meetsAfter_ret : MeetsAfter step pre (.ret a) Q s ↔ Q pre a s := by
  rw [MeetsAfter, meets_ret, List.append_nil]

theorem meetsAfter_call {op : Op} {next : Res op → Program Op Res α} :
    MeetsAfter step pre (.call op next) Q s ↔
      ∀ r t, step s op r t → MeetsAfter step (pre ++ [⟨op,r⟩]) (next r) Q t := by
  simp only [MeetsAfter, meets_call, List.append_assoc, List.singleton_append]

theorem meetsAfter_request {op : Op} {f : Res op → Program Op Res α} :
    MeetsAfter step pre (request op >>= f) Q s ↔
      ∀ r t, step s op r t → MeetsAfter step (pre ++ [⟨op,r⟩]) (f r) Q t :=
  meetsAfter_call

theorem MeetsAfter.mono (hp : MeetsAfter step pre p Q s)
    (hQ : ∀ acts a u, Q acts a u → Q' acts a u) : MeetsAfter step pre p Q' s :=
  Meets.mono hp fun acts => hQ (pre ++ acts)

theorem MeetsAfter.bind {Q : List (Act Op Res) → β → S → Prop}
    (hp : MeetsAfter step pre p (fun acts a u => MeetsAfter step acts (f a) Q u) s) :
    MeetsAfter step pre (p >>= f) Q s := by
  refine Meets.bind (Meets.mono hp fun acts a u h => ?_)
  simpa only [MeetsAfter, List.append_assoc] using h

theorem meetsAfter_forRange {body : ℕ → Program Op Res Unit} {n : ℕ}
    (I : ℕ → List (Act Op Res) → S → Prop) (h0 : I 0 pre s)
    (hstep : ∀ k < n, ∀ acts s, I k acts s →
      MeetsAfter step acts (body k) (fun acts _ u => I (k+1) acts u) s) :
    MeetsAfter step pre (forRange n body) (fun acts _ u => I n acts u) s := by
  induction n with
  | zero => exact meetsAfter_ret.mpr h0
  | succ n ih =>
    refine MeetsAfter.bind ((ih fun k hk => hstep k (by omega)).mono ?_)
    intro acts _ t ht
    exact hstep n (by omega) acts t ht

theorem Runs.after (h : Runs step p s acts a u) (hp : MeetsAfter step [] p Q s) : Q acts a u :=
  h.post hp

end MeetsAfter

/-- Whatever is answered, the state can take the step too, and it ends as the
postcondition says. -/
def Follows (step : S → (op : Op) → Res op → S → Prop) :
    Program Op Res α → (α → S → Prop) → S → Prop
  | .ret a, Q, s => Q a s
  | .call op next, Q, s => ∀ r, ∃ t, step s op r t ∧ Follows step (next r) Q t

section Follows

variable {Q Q' : α → S → Prop}

theorem follows_request {op : Op} {f : Res op → Program Op Res α} :
    Follows step (request op >>= f) Q s ↔ ∀ r, ∃ t, step s op r t ∧ Follows step (f r) Q t := Iff.rfl

theorem Follows.mono (hp : Follows step p Q s) (hQ : ∀ a u, Q a u → Q' a u) :
    Follows step p Q' s := by
  induction p generalizing s with
  | ret a => exact hQ a s hp
  | call op next ih =>
    intro r
    obtain ⟨t,hs,hrest⟩ := hp r
    exact ⟨t,hs,ih r hrest⟩

theorem Follows.bind {Q : β → S → Prop} (hp : Follows step p (fun a u => Follows step (f a) Q u) s) :
    Follows step (p >>= f) Q s := by
  induction p generalizing s with
  | ret a => exact hp
  | call op next ih =>
    intro r
    obtain ⟨t,hs,hrest⟩ := hp r
    exact ⟨t,hs,ih r hrest⟩

theorem follows_forRange {body : ℕ → Program Op Res Unit} {n : ℕ} (I : ℕ → S → Prop) (h0 : I 0 s)
    (hstep : ∀ k < n, ∀ s, I k s → Follows step (body k) (fun _ u => I (k+1) u) s) :
    Follows step (forRange n body) (fun _ u => I n u) s := by
  induction n with
  | zero => exact h0
  | succ n ih => exact Follows.bind ((ih fun k hk => hstep k (by omega)).mono fun _ => hstep n (by omega))

/-- A run in any environment is a run of what follows the program. -/
theorem Runs.follows {E : Type} {env : E → (op : Op) → Res op → E → Prop} {e e' : E}
    (h : Runs env p e acts a e') (hp : Follows step p Q s) : ∃ u, Runs step p s acts a u ∧ Q a u := by
  induction h generalizing s with
  | ret a e => exact ⟨s,.ret a s,hp⟩
  | call hs rest ih =>
    obtain ⟨t,ht,hrest⟩ := hp _
    obtain ⟨u,hu,hQ⟩ := ih hrest
    exact ⟨u,.call ht hu,hQ⟩

end Follows

/-- Run with answers chosen by a function of the state. -/
def execute (answer : S → (op : Op) → Option (Res op × S)) :
    Program Op Res α → S → Option (List (Act Op Res) × α × S)
  | .ret a, s => some ([],a,s)
  | .call op next, s =>
    match answer s op with
    | none => none
    | some (r,t) => (execute answer (next r) t).map fun x => (⟨op,r⟩ :: x.1,x.2)

theorem execute_runs {answer : S → (op : Op) → Option (Res op × S)}
    (hanswer : ∀ s op r t, answer s op = some (r,t) → step s op r t)
    (h : execute answer p s = some (acts,a,u)) : Runs step p s acts a u := by
  induction p generalizing s acts with
  | ret b =>
    obtain ⟨rfl,rfl,rfl⟩ : [] = acts ∧ b = a ∧ s = u := by simpa [execute] using h
    exact .ret _ _
  | call op next ih =>
    rw [execute] at h
    split at h
    · contradiction
    · rename_i r t ht
      obtain ⟨⟨acts',a',u'⟩,hx,he⟩ := Option.map_eq_some_iff.mp h
      obtain ⟨rfl,rfl,rfl⟩ : _ ∧ a' = a ∧ u' = u := by simpa using he
      exact .call (hanswer _ _ _ _ ht) (ih _ hx)

/-- A check of an execution is a check of some run. -/
theorem execute_any {answer : S → (op : Op) → Option (Res op × S)}
    {check : List (Act Op Res) × α × S → Bool}
    (hanswer : ∀ s op r t, answer s op = some (r,t) → step s op r t)
    (h : (execute answer p s).any check = true) :
    ∃ acts a u, Runs step p s acts a u ∧ check (acts,a,u) = true := by
  cases hx : execute answer p s with
  | none =>
    rw [hx] at h
    contradiction
  | some x =>
    rw [hx] at h
    exact ⟨x.1,x.2.1,x.2.2,execute_runs hanswer hx,h⟩

section Ends

variable {answer : S → (op : Op) → Option (Res op × S)}

theorem execute_request {op : Op} {f : Res op → Program Op Res α} :
    execute answer (request op >>= f) s = (answer s op).bind fun x =>
      (execute answer (f x.1) x.2).map fun y => (⟨op,x.1⟩ :: y.1,y.2) := by
  rw [request_bind, execute]
  cases answer s op <;> rfl

theorem execute_bind : execute answer (p >>= f) s = (execute answer p s).bind fun x =>
    (execute answer (f x.2.1) x.2.2).map fun y => (x.1 ++ y.1,y.2) := by
  induction p generalizing s with
  | ret a => simp [execute]
  | call op next ih =>
    rw [call_bind, execute, execute]
    cases answer s op with
    | none => rfl
    | some x =>
      dsimp only
      rw [ih x.1]
      cases execute answer (next x.1) x.2 with
      | none => rfl
      | some y => simp [Option.map_map, Function.comp_def]

/-- The execution ends, with the postcondition on its value and its last state. -/
def Ends (answer : S → (op : Op) → Option (Res op × S)) (p : Program Op Res α) (Q : α → S → Prop)
    (s : S) : Prop :=
  ∃ acts a u, execute answer p s = some (acts,a,u) ∧ Q a u

variable {Q Q' : α → S → Prop}

theorem Ends.ret (h : Q a s) : Ends answer (.ret a) Q s := ⟨[],a,s,rfl,h⟩

theorem Ends.mono (h : Ends answer p Q s) (hQ : ∀ a u, Q a u → Q' a u) : Ends answer p Q' s := by
  obtain ⟨acts,a,u,hx,ha⟩ := h
  exact ⟨acts,a,u,hx,hQ a u ha⟩

theorem Ends.request {op : Op} {next : Res op → Program Op Res α} {r : Res op} {t : S}
    (h : answer s op = some (r,t)) (hnext : Ends answer (next r) Q t) :
    Ends answer (request op >>= next) Q s := by
  obtain ⟨acts,a,u,hx,ha⟩ := hnext
  exact ⟨_,a,u,by rw [execute_request, h, Option.bind_some, hx, Option.map_some],ha⟩

theorem Ends.bind {Q : β → S → Prop} (h : Ends answer p (fun a u => Ends answer (f a) Q u) s) :
    Ends answer (p >>= f) Q s := by
  obtain ⟨acts,a,t,hx,acts',b,u,hy,hb⟩ := h
  exact ⟨_,b,u,by rw [execute_bind, hx, Option.bind_some, hy, Option.map_some],hb⟩

theorem Ends.of_request {op : Op} {next : Res op → Program Op Res α}
    (h : Ends answer (Program.request op >>= next) Q s) :
    ∃ r t, answer s op = some (r,t) ∧ Ends answer (next r) Q t := by
  obtain ⟨acts,a,u,hx,ha⟩ := h
  rw [execute_request] at hx
  obtain ⟨⟨r,t⟩,hr,hx⟩ := Option.bind_eq_some_iff.mp hx
  obtain ⟨⟨acts',a',u'⟩,hy,he⟩ := Option.map_eq_some_iff.mp hx
  obtain ⟨-,rfl,rfl⟩ : _ ∧ a' = a ∧ u' = u := by simpa using he
  exact ⟨r,t,hr,acts',a',u',hy,ha⟩

theorem Ends.of_bind {Q : β → S → Prop} (h : Ends answer (p >>= f) Q s) :
    Ends answer p (fun a u => Ends answer (f a) Q u) s := by
  obtain ⟨acts,b,u,hx,hb⟩ := h
  rw [execute_bind] at hx
  obtain ⟨⟨acts₁,a,t⟩,hp,hx⟩ := Option.bind_eq_some_iff.mp hx
  obtain ⟨⟨acts₂,b',u'⟩,hf,he⟩ := Option.map_eq_some_iff.mp hx
  obtain ⟨-,rfl,rfl⟩ : _ ∧ b' = b ∧ u' = u := by simpa using he
  exact ⟨acts₁,a,t,hp,acts₂,b',u',hf,hb⟩

/-- Operations that are all answered and preserve the invariant make a program that ends. -/
theorem Only.ends {P : Op → Prop} (hp : Only P p) (I : S → Prop) (h0 : I s)
    (hstep : ∀ s op, P op → I s → ∃ r t, answer s op = some (r,t) ∧ I t) :
    Ends answer p (fun _ u => I u) s := by
  induction p generalizing s with
  | ret a => exact .ret h0
  | call op next ih =>
    obtain ⟨r,t,hr,ht⟩ := hstep s op hp.1 h0
    exact Ends.request hr (ih r (hp.2 r) ht)

end Ends

end Program

/-- A completed call. -/
structure Done (Op : Type) (Res : Op → Type) (Call α : Type) where
  call : Call
  acts : List (Act Op Res)
  value : α

/-- Calls one after another, oldest first. -/
inductive Session (step : S → (op : Op) → Res op → S → Prop) (program : Call → Program Op Res α) :
    S → List (Done Op Res Call α) → S → Prop
  | nil (s : S) : Session step program s [] s
  | cons {s t u call acts a rest} (h : (program call).Runs step s acts a t)
      (tail : Session step program t rest u) : Session step program s (⟨call,acts,a⟩ :: rest) u

variable {step : S → (op : Op) → Res op → S → Prop} {program : Call → Program Op Res α} {s t u : S}

/-- Run a list of calls. -/
def sessionOf (answer : S → (op : Op) → Option (Res op × S)) (program : Call → Program Op Res α) :
    S → List Call → Option (List (Done Op Res Call α) × S)
  | s, [] => some ([],s)
  | s, call :: rest =>
    (Program.execute answer (program call) s).bind fun x =>
      (sessionOf answer program x.2.2 rest).map fun y => (⟨call,x.1,x.2.1⟩ :: y.1,y.2)

theorem sessionOf_session {answer : S → (op : Op) → Option (Res op × S)} {cs : List Call}
    {calls : List (Done Op Res Call α)}
    (hanswer : ∀ s op r t, answer s op = some (r,t) → step s op r t)
    (h : sessionOf answer program s cs = some (calls,u)) : Session step program s calls u := by
  induction cs generalizing s calls with
  | nil =>
    obtain ⟨rfl,rfl⟩ : [] = calls ∧ s = u := by simpa [sessionOf] using h
    exact .nil _
  | cons call rest ih =>
    obtain ⟨⟨acts,a,t⟩,hx,h⟩ := Option.bind_eq_some_iff.mp h
    obtain ⟨⟨tail,v⟩,hy,he⟩ := Option.map_eq_some_iff.mp h
    obtain ⟨rfl,rfl⟩ : _ ∧ v = u := by simpa using he
    exact .cons (Program.execute_runs hanswer hx) (ih hy)

theorem sessionOf_any {answer : S → (op : Op) → Option (Res op × S)} {cs : List Call}
    {check : List (Done Op Res Call α) × S → Bool}
    (hanswer : ∀ s op r t, answer s op = some (r,t) → step s op r t)
    (h : (sessionOf answer program s cs).any check = true) :
    ∃ calls u, Session step program s calls u ∧ check (calls,u) = true := by
  cases hx : sessionOf answer program s cs with
  | none =>
    rw [hx] at h
    contradiction
  | some x =>
    rw [hx] at h
    exact ⟨x.1,x.2,sessionOf_session hanswer hx,h⟩

end AgxOpen
