import AgxOpen.Sequential

/-!
# Calls under one lock

Threads whose calls hold one lock from beginning to end. In between every
operation is a step of its own, taken by whoever has the lock. Whatever the
schedule, the calls are those of a session, in the order in which they had the lock.
-/
namespace AgxOpen

variable {ι Op : Type} {Res : Op → Type} {S Call α : Type}

namespace Program

/-- A run so far, with what is left of the program. -/
inductive Running (step : S → (op : Op) → Res op → S → Prop) :
    Program Op Res α → S → List (Act Op Res) → Program Op Res α → S → Prop
  | refl (p : Program Op Res α) (s : S) : Running step p s [] p s
  | call {op next r s t acts q u} (h : step s op r t) (rest : Running step (next r) t acts q u) :
      Running step (.call op next) s (⟨op,r⟩ :: acts) q u

variable {step : S → (op : Op) → Res op → S → Prop} {p q : Program Op Res α} {s t u : S}
  {acts acts' : List (Act Op Res)} {a : α} {Q : List (Act Op Res) → α → S → Prop}

theorem Running.snoc {op : Op} {next : Res op → Program Op Res α} {r : Res op}
    (h : Running step p s acts (.call op next) t) (hs : step t op r u) :
    Running step p s (acts ++ [⟨op,r⟩]) (next r) u := by
  generalize hq : Program.call op next = q at h
  induction h with
  | refl p s =>
    subst hq
    exact .call hs (.refl _ _)
  | call h rest ih => exact .call h (ih hs hq)

theorem Running.runs (h : Running step p s acts (.ret a) t) : Runs step p s acts a t := by
  generalize hq : Program.ret a = q at h
  induction h with
  | refl p s =>
    subst hq
    exact .ret a s
  | call h rest ih => exact .call h (ih hq)

/-- What is left, when it is run, makes the run complete. -/
theorem Running.append (h : Running step p s acts q t) (hq : Runs step q t acts' a u) :
    Runs step p s (acts ++ acts') a u := by
  induction h with
  | refl p s => exact hq
  | call h rest ih => exact .call h (ih hq)

/-- What is left satisfies what is left of the postcondition. -/
theorem Running.meets (h : Running step p s acts q t) (hp : Meets step p Q s) :
    Meets step q (fun acts' a u => Q (acts ++ acts') a u) t := by
  induction h generalizing Q with
  | refl p s => exact hp
  | call h rest ih => exact ih (hp _ _ h)

section Does

variable {answer : S → (op : Op) → Option (Res op × S)}

/-- The execution ends, with the postcondition on what it did. -/
def Does (answer : S → (op : Op) → Option (Res op × S)) (p : Program Op Res α)
    (Q : List (Act Op Res) → α → S → Prop) (s : S) : Prop :=
  ∃ acts a u, execute answer p s = some (acts,a,u) ∧ Q acts a u

theorem Does.ret (h : Q [] a s) : Does answer (.ret a) Q s := ⟨[],a,s,rfl,h⟩

theorem Does.mono {Q' : List (Act Op Res) → α → S → Prop} (h : Does answer p Q s)
    (hQ : ∀ acts a u, Q acts a u → Q' acts a u) : Does answer p Q' s := by
  obtain ⟨acts,a,u,hx,ha⟩ := h
  exact ⟨acts,a,u,hx,hQ acts a u ha⟩

theorem Does.request {op : Op} {f : Res op → Program Op Res α} {r : Res op}
    (h : answer s op = some (r,t))
    (hnext : Does answer (f r) (fun acts a u => Q (⟨op,r⟩ :: acts) a u) t) :
    Does answer (request op >>= f) Q s := by
  obtain ⟨acts,a,u,hx,ha⟩ := hnext
  exact ⟨_,a,u,by rw [execute_request, h, Option.bind_some, hx, Option.map_some],ha⟩

theorem Does.ends (h : Does answer p Q s) : Ends answer p (fun _ _ => True) s := by
  obtain ⟨acts,a,u,hx,-⟩ := h
  exact ⟨acts,a,u,hx,trivial⟩

/-- What is left of a program that ends will end. -/
theorem Running.does (h : Running (fun s op r t => answer s op = some (r,t)) p s acts q t)
    (hp : Does answer p Q s) : Does answer q (fun acts' a u => Q (acts ++ acts') a u) t := by
  induction h generalizing Q with
  | refl p s => exact hp
  | @call op next r s t acts q u h rest ih =>
    obtain ⟨acts',a,v,hx,ha⟩ := hp
    rw [execute, h] at hx
    obtain ⟨⟨acts',a',v'⟩,hy,he⟩ := Option.map_eq_some_iff.mp hx
    obtain ⟨rfl,rfl,rfl⟩ : _ ∧ a' = a ∧ v' = v := by simpa using he
    exact ih (Q := fun acts a v => Q (⟨op,r⟩ :: acts) a v) ⟨acts',a',v',hy,ha⟩

theorem Runs.running {step : S → (op : Op) → Res op → S → Prop} (h : Runs step p s acts a u) :
    Running step p s acts (.ret a) u := by
  induction h with
  | ret a s => exact .refl _ s
  | call h rest ih => exact .call h ih

theorem Runs.does (h : Runs (fun s op r t => answer s op = some (r,t)) p s acts a u)
    (hp : Does answer p Q s) : Q acts a u := by
  obtain ⟨acts',b,v,hx,hq⟩ := h.running.does hp
  obtain ⟨rfl,rfl,rfl⟩ : [] = acts' ∧ a = b ∧ u = v := by simpa [execute] using hx
  simpa using hq

end Does

end Program

section Sessions

variable {step : S → (op : Op) → Res op → S → Prop} {program : Call → Program Op Res α} {s t u : S}
  {calls calls' : List (Done Op Res Call α)}

theorem Session.append (h : Session step program s calls t) (h' : Session step program t calls' u) :
    Session step program s (calls ++ calls') u := by
  induction h with
  | nil s => exact h'
  | cons h tail ih => exact .cons h (ih h')

theorem Session.split (h : Session step program s (calls ++ calls') u) :
    ∃ t, Session step program s calls t ∧ Session step program t calls' u := by
  induction calls generalizing s with
  | nil => exact ⟨s,.nil s,h⟩
  | cons d calls ih =>
    cases h with
    | cons hr tail =>
      obtain ⟨t,ht,htail⟩ := ih tail
      exact ⟨t,.cons hr ht,htail⟩

theorem Session.snoc {call : Call} {acts : List (Act Op Res)} {a : α}
    (h : Session step program s calls t) (hr : (program call).Runs step t acts a u) :
    Session step program s (calls ++ [⟨call,acts,a⟩]) u := h.append (.cons hr (.nil u))

end Sessions

/-- Where a thread is. -/
inductive Stage (Op : Type) (Res : Op → Type) (Call α : Type)
  | idle
  /-- It asks for the lock. -/
  | waiting (call : Call)
  /-- It has the lock. -/
  | inside (call : Call) (rest : Program Op Res α)

/-- The state, who has the lock, where every thread is, the calls that gave the
lock back with their threads, and what the call that has the lock did so far. -/
structure Locked (ι Op : Type) (Res : Op → Type) (S Call α : Type) where
  state : S
  owner : Option ι
  stage : ι → Stage Op Res Call α
  past : List (ι × Done Op Res Call α)
  during : List (Act Op Res)

/-- The calls one thread made, oldest first. -/
def callsOf [DecidableEq ι] (i : ι) (past : List (ι × Done Op Res Call α)) : List Call :=
  (past.filter fun d => d.1 = i).map fun d => d.2.call

namespace Locked

variable [DecidableEq ι] (step : S → (op : Op) → Res op → S → Prop)
  (program : Call → Program Op Res α) (may : ι → List Call → Call → Prop)

def calls (c : Locked ι Op Res S Call α) : List (Done Op Res Call α) := c.past.map Prod.snd

/-- Nobody has called anything. -/
def start (s : S) : Locked ι Op Res S Call α := ⟨s,none,fun _ => .idle,[],[]⟩

def put (c : Locked ι Op Res S Call α) (i : ι) (stage : Stage Op Res Call α) :
    Locked ι Op Res S Call α := { c with stage := Function.update c.stage i stage }

/-- One thread calls what it may call behind its earlier calls, gets the lock,
does one operation, or gives the lock back. -/
inductive Step : Locked ι Op Res S Call α → Locked ι Op Res S Call α → Prop
  | call {c i} (call : Call) (h : c.stage i = .idle) (hmay : may i (callsOf i c.past) call) :
      Step c (c.put i (.waiting call))
  | lock {c i call} (h : c.stage i = .waiting call) (hfree : c.owner = none) :
      Step c { c.put i (.inside call (program call)) with owner := some i }
  | act {c i call op next r t} (h : c.stage i = .inside call (.call op next))
      (hs : step c.state op r t) :
      Step c { c.put i (.inside call (next r)) with
        state := t
        during := c.during ++ [⟨op,r⟩] }
  | unlock {c i call a} (h : c.stage i = .inside call (.ret a)) :
      Step c { c.put i .idle with
        owner := none
        past := c.past ++ [(i,⟨call,c.during,a⟩)]
        during := [] }

inductive Reach (s : S) : Locked ι Op Res S Call α → Prop
  | start : Reach s (start s)
  | step {c d} (h : Reach s c) (hs : Step step program may c d) : Reach s d

/-- The call that has the lock, behind a state that the earlier calls left. -/
structure Holds (c : Locked ι Op Res S Call α) (t : S) (i : ι) (call : Call)
    (rest : Program Op Res α) : Prop where
  owner : c.owner = some i
  stage : c.stage i = .inside call rest
  ran : Program.Running step (program call) t c.during rest c.state

/-- Each call was one its thread might make. -/
def Allowed : List (ι × Done Op Res Call α) → Prop :=
  fun past => ∀ pre d post, past = pre ++ d :: post → may d.1 (callsOf d.1 pre) d.2.call

/-- The calls so far are a session in the order of the lock, and at most one more call is
under way. -/
structure Serial (s : S) (c : Locked ι Op Res S Call α) : Prop where
  session : ∃ t, Session step program s c.calls t ∧
    (c.owner = none ∧ c.during = [] ∧ c.state = t ∨
      ∃ i call rest, Holds step program c t i call rest)
  alone : ∀ i call rest, c.stage i = .inside call rest → c.owner = some i
  allowed : Allowed may c.past
  pending : ∀ i call, c.stage i = .waiting call ∨ (∃ rest, c.stage i = .inside call rest) →
    may i (callsOf i c.past) call

variable {step program may} {c d : Locked ι Op Res S Call α} {s : S} {i j : ι}

@[simp] theorem put_stage_self {stage : Stage Op Res Call α} : (c.put i stage).stage i = stage :=
  Function.update_self ..

theorem put_stage_ne {stage : Stage Op Res Call α} (h : j ≠ i) :
    (c.put i stage).stage j = c.stage j := Function.update_of_ne h ..

theorem callsOf_snoc (i j : ι) (past : List (ι × Done Op Res Call α)) (d : Done Op Res Call α) :
    callsOf i (past ++ [(j,d)]) = callsOf i past ++ if j = i then [d.call] else [] := by
  rw [callsOf, List.filter_append, List.map_append]
  by_cases h : j = i <;> simp [callsOf, h]

theorem callsOf_snoc_self (i : ι) (past : List (ι × Done Op Res Call α)) (d : Done Op Res Call α) :
    callsOf i (past ++ [(i,d)]) = callsOf i past ++ [d.call] := by
  rw [callsOf_snoc, if_pos rfl]

theorem callsOf_snoc_ne (h : j ≠ i) (past : List (ι × Done Op Res Call α))
    (d : Done Op Res Call α) : callsOf i (past ++ [(j,d)]) = callsOf i past := by
  rw [callsOf_snoc, if_neg h, List.append_nil]

theorem Allowed.snoc {past : List (ι × Done Op Res Call α)} {d : Done Op Res Call α}
    (h : Allowed may past) (hd : may i (callsOf i past) d.call) :
    Allowed may (past ++ [(i,d)]) := by
  intro pre e post he
  obtain rfl | ⟨post,x,rfl⟩ := List.eq_nil_or_concat post
  · obtain ⟨rfl,hx⟩ := List.append_inj' he rfl
    obtain rfl := List.cons.inj hx |>.1
    exact hd
  · have he' : past ++ [(i,d)] = pre ++ e :: post ++ [x] := by simpa using he
    exact h _ _ _ (List.append_inj' he' rfl).1

theorem Allowed.of_append {past past' : List (ι × Done Op Res Call α)}
    (h : Allowed may (past ++ past')) : Allowed may past := fun pre d post he =>
  h pre d (post ++ past') (by simp [he])

/-- A thread that has the lock is the one behind the calls so far. -/
theorem Serial.holds {call : Call} {rest : Program Op Res α} (h : Serial step program may s c)
    (hi : c.stage i = .inside call rest) :
    ∃ t, Session step program s c.calls t ∧ Holds step program c t i call rest := by
  obtain ⟨t,hsession,⟨hfree,-,-⟩ | ⟨j,call',rest',hold⟩⟩ := h.session
  · rw [h.alone i call rest hi] at hfree
    contradiction
  · obtain rfl : i = j := Option.some.inj ((h.alone i call rest hi).symm.trans hold.owner)
    obtain ⟨rfl,rfl⟩ : call = call' ∧ rest = rest' := by simpa using hi.symm.trans hold.stage
    exact ⟨t,hsession,hold⟩

theorem Serial.call {call : Call} (h : Serial step program may s c) (hi : c.stage i = .idle)
    (hmay : may i (callsOf i c.past) call) :
    Serial step program may s (c.put i (.waiting call)) where
  session := by
    obtain ⟨t,hsession,hfree | ⟨j,call',rest,hold⟩⟩ := h.session
    · exact ⟨t,hsession,.inl hfree⟩
    · have hj : j ≠ i := by
        rintro rfl
        exact absurd (hi.symm.trans hold.stage) nofun
      exact ⟨t,hsession,.inr ⟨j,call',rest,hold.owner,(put_stage_ne hj).trans hold.stage,hold.ran⟩⟩
  alone j call' rest hj := by
    by_cases hji : j = i
    · subst hji
      rw [put_stage_self] at hj
      contradiction
    · exact h.alone j call' rest ((put_stage_ne hji).symm.trans hj)
  allowed := h.allowed
  pending j call' hj := by
    by_cases hji : j = i
    · subst hji
      rw [put_stage_self] at hj
      obtain hj | ⟨rest,hj⟩ := hj
      · cases hj
        exact hmay
      · contradiction
    · rw [put_stage_ne hji] at hj
      exact h.pending j call' hj

theorem Serial.lock {call : Call} (h : Serial step program may s c)
    (hi : c.stage i = .waiting call) (hfree : c.owner = none) :
    Serial step program may s { c.put i (.inside call (program call)) with owner := some i } where
  session := by
    obtain ⟨t,hsession,⟨-,hduring,rfl⟩ | ⟨j,call',rest,hold⟩⟩ := h.session
    · refine ⟨_,hsession,.inr ⟨i,call,program call,rfl,put_stage_self,?_⟩⟩
      simpa [put, hduring] using Program.Running.refl (program call) c.state
    · rw [hold.owner] at hfree
      contradiction
  alone j call' rest hj := by
    by_cases hji : j = i
    · rw [hji]
    · have hown := h.alone j call' rest ((put_stage_ne hji).symm.trans hj)
      rw [hfree] at hown
      contradiction
  allowed := h.allowed
  pending j call' hj := by
    by_cases hji : j = i
    · subst hji
      rw [put_stage_self] at hj
      obtain hj | ⟨rest,hj⟩ := hj
      · contradiction
      · cases hj
        exact h.pending j call (.inl hi)
    · rw [put_stage_ne hji] at hj
      exact h.pending j call' hj

theorem Serial.act {call : Call} {op : Op} {next : Res op → Program Op Res α} {r : Res op} {t : S}
    (h : Serial step program may s c) (hi : c.stage i = .inside call (.call op next))
    (hs : step c.state op r t) :
    Serial step program may s { c.put i (.inside call (next r)) with
      state := t
      during := c.during ++ [⟨op,r⟩] } where
  session := by
    obtain ⟨u,hsession,hold⟩ := h.holds hi
    exact ⟨u,hsession,.inr ⟨i,call,next r,hold.owner,put_stage_self,hold.ran.snoc hs⟩⟩
  alone j call' rest hj := by
    by_cases hji : j = i
    · rw [hji]
      exact h.alone i call _ hi
    · exact h.alone j call' rest ((put_stage_ne hji).symm.trans hj)
  allowed := h.allowed
  pending j call' hj := by
    by_cases hji : j = i
    · subst hji
      rw [put_stage_self] at hj
      obtain hj | ⟨rest,hj⟩ := hj
      · contradiction
      · cases hj
        exact h.pending j call (.inr ⟨_,hi⟩)
    · rw [put_stage_ne hji] at hj
      exact h.pending j call' hj

theorem Serial.unlock {call : Call} {a : α} (h : Serial step program may s c)
    (hi : c.stage i = .inside call (.ret a)) :
    Serial step program may s { c.put i .idle with
      owner := none
      past := c.past ++ [(i,⟨call,c.during,a⟩)]
      during := [] } where
  session := by
    obtain ⟨u,hsession,hold⟩ := h.holds hi
    refine ⟨_,?_,.inl ⟨rfl,rfl,rfl⟩⟩
    rw [calls, List.map_append]
    exact hsession.snoc hold.ran.runs
  alone j call' rest hj := by
    by_cases hji : j = i
    · subst hji
      rw [put_stage_self] at hj
      contradiction
    · have hown := h.alone j call' rest ((put_stage_ne hji).symm.trans hj)
      exact absurd (Option.some.inj ((h.alone i call _ hi).symm.trans hown)).symm hji
  allowed := h.allowed.snoc (h.pending i call (.inr ⟨_,hi⟩))
  pending j call' hj := by
    by_cases hji : j = i
    · subst hji
      rw [put_stage_self] at hj
      obtain hj | ⟨rest,hj⟩ := hj <;> contradiction
    · rw [put_stage_ne hji] at hj
      have hpend := h.pending j call' hj
      rwa [← callsOf_snoc_ne (Ne.symm hji) c.past ⟨call,c.during,a⟩] at hpend

/-- Calls under one lock happen one after another. -/
theorem Reach.serial (h : Reach step program may s c) : Serial step program may s c := by
  induction h with
  | start =>
    refine ⟨⟨s,.nil s,.inl ⟨rfl,rfl,rfl⟩⟩,nofun,?_,?_⟩
    · intro pre d post he
      exact absurd he (by simp [Locked.start])
    · intro i call hi
      obtain hi | ⟨rest,hi⟩ := hi <;> contradiction
  | step _ hs ih =>
    cases hs with
    | call call hi hmay => exact ih.call hi hmay
    | lock hi hfree => exact ih.lock hi hfree
    | act hi hs => exact ih.act hi hs
    | unlock hi => exact ih.unlock hi

/-- One turn of a schedule. -/
inductive Move (ι Call : Type)
  | call (i : ι) (call : Call)
  | lock (i : ι)
  | acts (i : ι) (n : ℕ)
  | unlock (i : ι)

variable (program may) (answer : S → (op : Op) → Option (Res op × S))
  [∀ i past call, Decidable (may i past call)]

/-- Let the thread that has the lock do `n` operations. -/
def actsOf (c : Locked ι Op Res S Call α) (i : ι) : ℕ → Option (Locked ι Op Res S Call α)
  | 0 => some c
  | n+1 =>
    match c.stage i with
    | .inside call (.call op next) =>
      (answer c.state op).bind fun x =>
        actsOf { c.put i (.inside call (next x.1)) with
          state := x.2
          during := c.during ++ [⟨op,x.1⟩] } i n
    | _ => none

def move (c : Locked ι Op Res S Call α) : Move ι Call → Option (Locked ι Op Res S Call α)
  | .call i call =>
    match c.stage i with
    | .idle => if may i (callsOf i c.past) call then some (c.put i (.waiting call)) else none
    | _ => none
  | .lock i =>
    match c.stage i, c.owner with
    | .waiting call, none =>
      some { c.put i (.inside call (program call)) with owner := some i }
    | _, _ => none
  | .acts i n => actsOf answer c i n
  | .unlock i =>
    match c.stage i with
    | .inside call (.ret a) => some { c.put i .idle with
        owner := none
        past := c.past ++ [(i,⟨call,c.during,a⟩)]
        during := [] }
    | _ => none

def moves : Locked ι Op Res S Call α → List (Move ι Call) → Option (Locked ι Op Res S Call α)
  | c, [] => some c
  | c, m :: rest => (move program may answer c m).bind fun d => moves d rest

variable {program may answer}
  (hanswer : ∀ s op r t, answer s op = some (r,t) → step s op r t)
include hanswer

omit [∀ i past call, Decidable (may i past call)] in
theorem actsOf_reach {n : ℕ} (h : Reach step program may s c) (hn : actsOf answer c i n = some d) :
    Reach step program may s d := by
  induction n generalizing c with
  | zero =>
    obtain rfl := Option.some.inj hn
    exact h
  | succ n ih =>
    rw [actsOf] at hn
    split at hn
    · rename_i call op next hi
      obtain ⟨⟨r,t⟩,hr,hn⟩ := Option.bind_eq_some_iff.mp hn
      exact ih (h.step (.act hi (hanswer _ _ _ _ hr))) hn
    · contradiction

theorem move_reach {m : Move ι Call} (h : Reach step program may s c)
    (hm : move program may answer c m = some d) : Reach step program may s d := by
  cases m with
  | call i call =>
    rw [move] at hm
    split at hm
    · rename_i hi
      split at hm
      · rename_i hmay
        obtain rfl := Option.some.inj hm
        exact h.step (.call call hi hmay)
      · contradiction
    · contradiction
  | lock i =>
    rw [move] at hm
    split at hm
    · rename_i hi hfree
      obtain rfl := Option.some.inj hm
      exact h.step (.lock hi hfree)
    · contradiction
  | acts i n => exact actsOf_reach hanswer h hm
  | unlock i =>
    rw [move] at hm
    split at hm
    · rename_i hi
      obtain rfl := Option.some.inj hm
      exact h.step (.unlock hi)
    · contradiction

theorem moves_reach {ms : List (Move ι Call)} (h : Reach step program may s c)
    (hm : moves program may answer c ms = some d) : Reach step program may s d := by
  induction ms generalizing c with
  | nil =>
    obtain rfl := Option.some.inj hm
    exact h
  | cons m rest ih =>
    obtain ⟨e,he,hr⟩ := Option.bind_eq_some_iff.mp hm
    exact ih (move_reach hanswer h he) hr

/-- A schedule that runs through exhibits a configuration. -/
theorem reach_of_moves {ms : List (Move ι Call)} {check : Locked ι Op Res S Call α → Bool}
    (h : (moves program may answer (start s) ms).any check = true) :
    ∃ c, Reach step program may s c ∧ check c = true := by
  cases hc : moves program may answer (start s) ms with
  | none =>
    rw [hc] at h
    contradiction
  | some c =>
    rw [hc] at h
    exact ⟨c,moves_reach hanswer .start hc,h⟩

end Locked
end AgxOpen
