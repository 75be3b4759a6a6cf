import AgxOpen.Display
import AgxOpen.LinkedList
import AgxOpen.Locking

/-!
# The list of listeners

`display.c` with the list functions it uses, one access to a link at a time. Every
call holds the broker's spinlock from its first access to its last. The list in
memory is the ring that the abstract broker says.
-/
namespace AgxOpen.Display

open Program LinkedList

/-- A `struct list_head`: the broker's own or that of a listener. -/
inductive Node (L : Type)
  | listeners
  | node (listener : L)
  deriving DecidableEq

/-- An access of a call to memory, or a callback. Out of rounds a loop has no answer. -/
inductive Access (L σ : Type)
  | next (p : Option (Node L))
  | prev (p : Option (Node L))
  | setNext (p v : Option (Node L))
  | setPrev (p v : Option (Node L))
  | callback (pos : Node L) (old new : σ)
  | never

abbrev Access.Answer {L σ : Type} : Access L σ → Type
  | .next _ | .prev _ => Option (Node L)
  | _ => Unit

abbrev Prog (L σ : Type) := Program (Access L σ) Access.Answer

variable {L σ : Type}

def ask (op : Access L σ) : Prog L σ op.Answer := request op

section Lists

variable (entry head : Option (Node L))

/-- `INIT_LIST_HEAD`. -/
def initListHead : Prog L σ Unit := do
  ask (.setNext head head)
  ask (.setPrev head head)

/-- `list_add_tail`. -/
def listAddTail : Prog L σ Unit := do
  let last ← ask (.prev head)
  ask (.setPrev entry last)
  ask (.setNext entry head)
  let last ← ask (.prev head)
  ask (.setNext last entry)
  ask (.setPrev head entry)

/-- `list_del`. -/
def listDel : Prog L σ Unit := do
  let before ← ask (.prev entry)
  let behind ← ask (.next entry)
  ask (.setNext before behind)
  let behind ← ask (.next entry)
  let before ← ask (.prev entry)
  ask (.setPrev behind before)
  ask (.setNext entry none)
  ask (.setPrev entry none)

end Lists

def agxDisplayBrokerInit : Prog L σ Unit := initListHead (some .listeners)

def agxDisplayRegister (listener : L) : Prog L σ Unit :=
  listAddTail (some (.node listener)) (some .listeners)

def agxDisplayUnregister (listener : L) : Prog L σ Unit := listDel (some (.node listener))

variable [DecidableEq L]

/-- The rounds of `list_for_each_entry` from the node at `pos`. -/
def notifyFrom (old new : σ) : ℕ → Option (Node L) → Prog L σ Unit
  | _, none => ask (.next none) >>= fun _ => return ()
  | 0, some pos => if pos = .listeners then return () else ask .never
  | n+1, some pos =>
    if pos = .listeners then return ()
    else do
      ask (.callback pos old new)
      let next ← ask (.next (some pos))
      notifyFrom old new n next

/-- `agx_display_notify` with at most `n` rounds. -/
def agxDisplayNotify (n : ℕ) (old new : σ) : Prog L σ Unit := do
  let first ← ask (.next (some .listeners))
  notifyFrom old new n first

def program (n : ℕ) : Op L σ → Prog L σ Unit
  | .register listener => agxDisplayRegister listener
  | .unregister listener => agxDisplayUnregister listener
  | .notify old new => agxDisplayNotify n old new

/-- An access to memory. One through NULL has no answer, and the broker's own node
has no callback. -/
def answer (m : Memory (Node L)) : (op : Access L σ) → Option (op.Answer × Memory (Node L))
  | .next (some p) => some ((m p).next,m)
  | .prev (some p) => some ((m p).prev,m)
  | .setNext (some p) v => some ((),setNext m p v)
  | .setPrev (some p) v => some ((),setPrev m p v)
  | .callback (.node _) _ _ => some ((),m)
  | _ => none

def step (m : Memory (Node L)) (op : Access L σ) (r : op.Answer) (t : Memory (Node L)) : Prop :=
  answer m op = some (r,t)

omit [DecidableEq L] in
/-- The node an access uses. -/
def Access.node : Access L σ → Option (Node L)
  | .next p | .prev p | .setNext p _ | .setPrev p _ => p
  | .callback pos _ _ => some pos
  | .never => none

/-- The callback of an access. -/
def Access.called : Access L σ → Option (Callback L σ)
  | .callback (.node listener) old new => some (listener,old,new)
  | _ => none

/-- The callbacks that were made. -/
def callbacks (acts : List (Act (Access L σ) Access.Answer)) : List (Callback L σ) :=
  acts.filterMap fun e => e.op.called

/-- The list in memory is the broker's. -/
def Represents (m : Memory (Node L)) (b : Broker L) : Prop :=
  Ring m .listeners (b.listeners.map .node)

variable {m : Memory (Node L)} {b b' : Broker L} {e h : Node L} {xs ys : List (Node L)}

/-- The accesses use these nodes alone and call nobody. -/
def Quiet (nodes : List (Node L)) (acts : List (Act (Access L σ) Access.Answer)) : Prop :=
  callbacks acts = [] ∧ ∀ a ∈ acts, ∀ p, a.op.node = some p → p ∈ nodes

omit [DecidableEq L] in
theorem quiet_nil {nodes : List (Node L)} : Quiet (σ := σ) nodes [] := ⟨rfl,by simp⟩

omit [DecidableEq L] in
theorem quiet_cons {nodes : List (Node L)} {a : Act (Access L σ) Access.Answer}
    {acts : List (Act (Access L σ) Access.Answer)} : Quiet nodes (a :: acts) ↔
      (a.op.called = none ∧ ∀ p, a.op.node = some p → p ∈ nodes) ∧ Quiet nodes acts := by
  rw [Quiet, Quiet, callbacks, callbacks, List.filterMap_cons, List.forall_mem_cons]
  cases a.op.called <;> simp; tauto

section Reads

variable {p : Node L} {v : Option (Node L)}

theorem answer_next (h : (m p).next = v) :
    answer m (.next (σ := σ) (some p)) = some (v,m) := by rw [answer, h]

theorem answer_prev (h : (m p).prev = v) :
    answer m (.prev (σ := σ) (some p)) = some (v,m) := by rw [answer, h]

end Reads

theorem listAddTail_does (hm : Ring m h xs) (he : e ∉ h :: xs) :
    Does answer (listAddTail (σ := σ) (some e) (some h))
      (fun acts _ m' => Quiet [e,h,before h xs] acts ∧ m' = addLast m h e (before h xs)) m := by
  have hhe : h ≠ e := fun hh => he (hh ▸ List.mem_cons_self)
  have hlast := hm.seg.prev
  refine Does.request (answer_prev hlast) ?_
  refine Does.request rfl (Does.request rfl ?_)
  refine Does.request (answer_prev (v := some (before h xs)) ?_) ?_
  · rw [setNext_prev, setPrev_prev_ne hhe, hlast]
  refine Does.request rfl (Does.request (f := .ret) rfl (.ret ⟨?_,rfl⟩))
  simp [quiet_cons, quiet_nil, Access.called, Access.node]

theorem listDel_does (hm : Ring m h (xs ++ e :: ys)) :
    Does answer (listDel (σ := σ) (some e))
      (fun acts _ m' => Quiet [e,before h xs,behind ys h] acts ∧
        m' = unlink m e (before h xs) (behind ys h)) m := by
  obtain ⟨hx,hy⟩ := seg_append.mp hm.seg
  refine Does.request (answer_prev hx.prev) (Does.request (answer_next hy.next) ?_)
  refine Does.request rfl ?_
  refine Does.request (answer_next (v := some (behind ys h)) ?_) ?_
  · rw [setNext_next_ne hm.before_ne.symm, hy.next]
  refine Does.request (answer_prev (v := some (before h xs)) ?_) ?_
  · rw [setNext_prev, hx.prev]
  refine Does.request rfl (Does.request rfl (Does.request (f := .ret) rfl (.ret ⟨?_,rfl⟩)))
  simp [quiet_cons, quiet_nil, Access.called, Access.node]

/-- The rounds from behind a node of the ring. -/
theorem notifyFrom_does {a : Node L} {ls : List L} {n : ℕ} {old new : σ}
    (hm : Seg m a (ls.map .node) .listeners) (hn : ls.length ≤ n) :
    Does answer (notifyFrom old new n (some (behind (ls.map .node) .listeners)))
      (fun acts _ m' => m' = m ∧ callbacks acts = (ls.map fun l => (l,old,new)) ∧
        ∀ e ∈ acts, ∀ p, e.op.node = some p → p ∈ ls.map .node) m := by
  induction ls generalizing a n with
  | nil =>
    have hend : notifyFrom old new n (some (behind ([] : List (Node L)) .listeners)) = .ret () := by
      cases n <;> simp [notifyFrom]
    rw [List.map_nil, hend]
    exact .ret ⟨rfl,rfl,by simp⟩
  | cons l ls ih =>
    obtain ⟨n,rfl⟩ : ∃ k, n = k+1 := ⟨n-1,by simp at hn; omega⟩
    rw [List.map_cons, behind_cons, notifyFrom, if_neg nofun]
    refine Does.request rfl (Does.request (answer_next hm.2.2.next) ?_)
    refine (ih hm.2.2 (by simpa using hn)).mono ?_
    rintro acts - m' ⟨rfl,hcalls,hnodes⟩
    refine ⟨rfl,congrArg _ hcalls,?_⟩
    simp only [List.forall_mem_cons, Access.node, Option.some.injEq]
    refine ⟨?_,?_,fun e he p hp => List.mem_cons_of_mem _ (hnodes e he p hp)⟩ <;>
      rintro p rfl <;> exact List.mem_cons_self

/-- The nodes a call may use. -/
def Used (b : Broker L) (op : Op L σ) (p : Node L) : Prop :=
  p ∈ .listeners :: b.listeners.map .node ∨ ∃ l, op = .register l ∧ p = .node l

/-- A call does to the list in memory what the abstract call does to the listeners. -/
theorem program_does {op : Op L σ} {calls : List (Callback L σ)} {n : ℕ}
    (hb : b.step op = some (b',calls)) (hm : Represents m b) (hn : b.listeners.length ≤ n) :
    Does answer (program n op) (fun acts _ m' => Represents m' b' ∧ callbacks acts = calls ∧
      ∀ e ∈ acts, ∀ p, e.op.node = some p → Used b op p) m := by
  cases op with
  | register l =>
    rw [Broker.step] at hb
    split at hb
    · contradiction
    · rename_i hl
      cases hb
      have he : Node.node l ∉ .listeners :: b.listeners.map .node := by simpa using hl
      refine (listAddTail_does hm he).mono ?_
      rintro acts - m' ⟨⟨hcalls,hnodes⟩,rfl⟩
      refine ⟨?_,hcalls,fun e he p hp => ?_⟩
      · simpa [Represents] using hm.addLast he
      · obtain rfl | rfl | rfl : p = .node l ∨ p = .listeners ∨ p = _ := by
          simpa using hnodes e he p hp
        · exact .inr ⟨l,rfl,rfl⟩
        · exact .inl List.mem_cons_self
        · exact .inl (before_mem _ _)
  | unregister l =>
    rw [Broker.step] at hb
    split at hb
    · rename_i hl
      cases hb
      obtain ⟨xs,ys,-,hls,herase⟩ := List.exists_erase_eq hl
      have hm' := hm
      rw [Represents, hls, List.map_append, List.map_cons] at hm'
      refine (listDel_does hm').mono ?_
      rintro acts - m' ⟨⟨hcalls,hnodes⟩,rfl⟩
      refine ⟨?_,hcalls,fun e he p hp => .inl ?_⟩
      · have hring := hm'.unlink
        rwa [← List.map_append, ← herase] at hring
      · have hx := before_mem .listeners (xs.map Node.node)
        have hy := behind_mem (ys.map Node.node) .listeners
        rw [hls, List.map_append, List.map_cons]
        simp only [List.mem_cons, List.mem_append] at hx hy ⊢
        obtain rfl | rfl | rfl : p = .node l ∨ p = _ ∨ p = _ := by simpa using hnodes e he p hp
        · tauto
        · tauto
        · tauto
    · contradiction
  | notify old new =>
    cases hb
    refine Does.request (answer_next hm.seg.next) ((notifyFrom_does hm.seg hn).mono ?_)
    rintro acts - m' ⟨rfl,hcalls,hnodes⟩
    refine ⟨hm,hcalls,?_⟩
    simp only [List.forall_mem_cons, Access.node, Option.some.injEq]
    refine ⟨?_,fun e he p hp => .inl (List.mem_cons_of_mem _ (hnodes e he p hp))⟩
    rintro p rfl
    exact .inl List.mem_cons_self

end AgxOpen.Display
