import Mathlib.Logic.Function.Basic
import Mathlib.Tactic.Common

/-!
# Writes in flight to a memory

One party writes to a memory through a queue. A write may arrive ahead of an
older one to another address, but of no older one to its own address and of no
older barrier. What the party reads itself is the memory as it will be when all
of its writes have arrived.
-/
namespace AgxOpen
open Function (update)

inductive Flight (A V : Type)
  | write (addr : A) (value : V)
  | barrier

/-- A memory and what is on its way to it, oldest first. -/
structure WriteBuffer (A V : Type) where
  memory : A → V
  flight : List (Flight A V)

namespace WriteBuffer

variable {A V : Type} [DecidableEq A] {b : WriteBuffer A V} {m m' : A → V} {x : Flight A V}
  {older newer l : List (Flight A V)} {a : A} {v : V} {D : A → Bool} {P : (A → V) → Prop}

def arrive (m : A → V) : Flight A V → A → V
  | .write a v => update m a v
  | .barrier => m

/-- The memory behind some arrivals. -/
def arriveAll (m : A → V) (l : List (Flight A V)) : A → V := l.foldl arrive m

/-- The memory behind all arrivals. -/
def settled (b : WriteBuffer A V) : A → V := arriveAll b.memory b.flight

def issue (b : WriteBuffer A V) (a : A) (v : V) : WriteBuffer A V :=
  { b with flight := b.flight ++ [.write a v] }

def fence (b : WriteBuffer A V) : WriteBuffer A V := { b with flight := b.flight ++ [.barrier] }

/-- Somebody else changes the memory. -/
def set (b : WriteBuffer A V) (a : A) (v : V) : WriteBuffer A V :=
  { b with memory := update b.memory a v }

/-- The older of the two must arrive first. -/
def HoldsBack : Flight A V → Flight A V → Prop
  | .write a _, .write a' _ => a = a'
  | _, _ => True

instance (y x : Flight A V) : Decidable (HoldsBack y x) :=
  match y, x with
  | .write a _, .write a' _ => inferInstanceAs (Decidable (a = a'))
  | .write .., .barrier | .barrier, _ => isTrue trivial

/-- One arrival: what is in front of it does not hold it back. -/
structure Delivers (b : WriteBuffer A V) (older : List (Flight A V)) (x : Flight A V)
    (newer : List (Flight A V)) (c : WriteBuffer A V) : Prop where
  split : b.flight = older ++ x :: newer
  free : ∀ y ∈ older, ¬ HoldsBack y x
  result : c = ⟨arrive b.memory x,older ++ newer⟩

theorem settled_issue : (b.issue a v).settled = update b.settled a v := by
  rw [settled, issue, arriveAll, List.foldl_append]
  rfl

theorem settled_fence : b.fence.settled = b.settled := by
  rw [settled, fence, arriveAll, List.foldl_append]
  rfl

theorem arrive_comm {y : Flight A V} (h : ¬ HoldsBack y x) :
    arrive (arrive m x) y = arrive (arrive m y) x := by
  cases x with
  | barrier => exact (h (by cases y <;> trivial)).elim
  | write a v =>
    cases y with
    | barrier => exact (h trivial).elim
    | write a' v' => exact Function.update_comm (Ne.symm h) v v' m

theorem arriveAll_append (m : A → V) (older newer : List (Flight A V)) :
    arriveAll m (older ++ newer) = arriveAll (arriveAll m older) newer := List.foldl_append

/-- What may arrive first makes no difference behind the others. -/
theorem arriveAll_arrive (hfree : ∀ y ∈ older, ¬ HoldsBack y x) (m : A → V) :
    arriveAll (arrive m x) older = arrive (arriveAll m older) x := by
  induction older generalizing m with
  | nil => rfl
  | cons y older ih =>
    obtain ⟨hy,hrest⟩ := List.forall_mem_cons.mp hfree
    change arriveAll (arrive (arrive m x) y) older = arrive (arriveAll (arrive m y) older) x
    rw [arrive_comm hy]
    exact ih hrest (arrive m y)

/-- An arrival changes nothing for the writer. -/
theorem Delivers.settled {c : WriteBuffer A V} (h : b.Delivers older x newer c) :
    c.settled = b.settled := by
  obtain ⟨hs,hfree,rfl⟩ := h
  rw [WriteBuffer.settled, WriteBuffer.settled, hs, arriveAll_append, arriveAll_append,
    arriveAll_arrive hfree]
  rfl

/-- A change of the memory shows unless a write on its way covers it. -/
theorem arriveAll_update : arriveAll (update m a v) l = arriveAll m l ∨
    arriveAll (update m a v) l = update (arriveAll m l) a v ∧ arriveAll m l a = m a := by
  induction l generalizing m with
  | nil => exact .inr ⟨rfl,rfl⟩
  | cons y l ih =>
    cases y with
    | barrier => exact ih
    | write a' v' =>
      by_cases ha : a' = a
      · subst ha
        left
        change arriveAll (update (update m a' v) a' v') l = _
        rw [Function.update_idem]
        rfl
      · have hcomm : arrive (update m a v) (.write a' v') = update (update m a' v') a v := by
          rw [arrive, Function.update_comm (Ne.symm ha)]
        have hkeep : update m a' v' a = m a := Function.update_of_ne (Ne.symm ha) v' m
        change arriveAll (arrive (update m a v) (.write a' v')) l = arriveAll (update m a' v') l ∨
          arriveAll (arrive (update m a v) (.write a' v')) l = update (arriveAll (update m a' v') l) a v ∧
            arriveAll (update m a' v') l a = m a
        rw [hcomm, ← hkeep]
        exact ih

theorem settled_set : (b.set a v).settled = b.settled ∨
    (b.set a v).settled = update b.settled a v ∧ b.settled a = b.memory a := arriveAll_update

def touches (D : A → Bool) : Flight A V → Bool
  | .write a _ => D a
  | .barrier => false

/-- The property is about these addresses only. -/
def Local (D : A → Bool) (P : (A → V) → Prop) : Prop :=
  ∀ m m', (∀ a, D a = true → m a = m' a) → P m → P m'

/-- A property of some addresses that holds behind every arrival there, in the order of issue. It
goes on to hold as long as arrivals at these addresses keep the order. -/
def Sound (D : A → Bool) (P : (A → V) → Prop) (b : WriteBuffer A V) : Prop :=
  ∀ early late, b.flight.filter (touches D) = early ++ late → P (arriveAll b.memory early)

theorem Sound.now (h : Sound D P b) : P b.memory := h [] _ rfl

theorem arrive_congr (h : ∀ a, D a = true → m a = m' a) (x : Flight A V) :
    ∀ a, D a = true → arrive m x a = arrive m' x a := by
  intro a ha
  cases x with
  | barrier => exact h a ha
  | write a' v =>
    by_cases he : a = a'
    · subst he
      simp [arrive]
    · simp only [arrive, Function.update_of_ne he]
      exact h a ha

theorem arriveAll_congr (h : ∀ a, D a = true → m a = m' a) :
    ∀ a, D a = true → arriveAll m l a = arriveAll m' l a := by
  induction l generalizing m m' with
  | nil => exact h
  | cons y l ih => exact ih (arrive_congr h y)

theorem arrive_outside (hx : touches D x = false) : ∀ a, D a = true → arrive m x a = m a := by
  intro a ha
  cases x with
  | barrier => rfl
  | write a' v =>
    have hne : a ≠ a' := by
      rintro rfl
      exact Bool.false_ne_true (hx.symm.trans ha)
    exact Function.update_of_ne hne v m

theorem arriveAll_filter (l : List (Flight A V)) (m : A → V) :
    ∀ a, D a = true → arriveAll m (l.filter (touches D)) a = arriveAll m l a := by
  induction l generalizing m with
  | nil => exact fun _ _ => rfl
  | cons y l ih =>
    intro a ha
    cases hy : touches D y with
    | true =>
      rw [List.filter_cons_of_pos hy]
      exact ih (arrive m y) a ha
    | false =>
      rw [List.filter_cons_of_neg (by simp [hy])]
      exact (ih m a ha).trans (arriveAll_congr (fun a ha => (arrive_outside hy a ha).symm) a ha)

theorem Sound.settled (h : Sound D P b) (hl : Local D P) : P b.settled :=
  hl _ _ (arriveAll_filter b.flight b.memory) (h _ [] (List.append_nil _).symm)

theorem Sound.issue (h : Sound D P b) (hl : Local D P) (hP : P (b.issue a v).settled) :
    Sound D P (b.issue a v) := by
  intro early late hs
  rw [WriteBuffer.issue, List.filter_append] at hs
  obtain ⟨mid,rfl,hmid⟩ | ⟨mid,hmid,rfl⟩ := List.append_eq_append_iff.mp hs
  · cases mid with
    | nil =>
      rw [List.append_nil]
      exact h _ [] (List.append_nil _).symm
    | cons y mid =>
      have hall : (b.issue a v).flight.filter (touches D) =
          b.flight.filter (touches D) ++ y :: mid := by
        have hlen : (List.filter (touches D) [Flight.write a v]).length ≤ 1 :=
          List.length_filter_le _ _
        rw [hmid, List.length_append, List.length_cons] at hlen
        have hlate : late = [] := List.eq_nil_of_length_eq_zero (by omega)
        rw [WriteBuffer.issue, List.filter_append, hmid, hlate, List.append_nil]
      rw [← hall]
      exact hl _ _ (fun a ha => (arriveAll_filter _ _ a ha).symm) hP
  · exact h early mid hmid

theorem Sound.fence (h : Sound D P b) : Sound D P b.fence := by
  intro early late hs
  rw [WriteBuffer.fence, List.filter_append, List.filter_cons_of_neg (by simp [touches]),
    List.filter_nil, List.append_nil] at hs
  exact h early late hs

/-- An arrival at the addresses must be the oldest one there. -/
theorem Sound.deliver {c : WriteBuffer A V} (h : Sound D P b) (hl : Local D P)
    (hd : b.Delivers older x newer c)
    (horder : touches D x = true → ∀ y ∈ older, touches D y = false) : Sound D P c := by
  obtain ⟨hs,-,rfl⟩ := hd
  intro early late he
  rw [List.filter_append] at he
  cases hx : touches D x with
  | true =>
    have hnone : older.filter (touches D) = [] :=
      List.filter_eq_nil_iff.mpr fun y hy => by simp [horder hx y hy]
    rw [hnone, List.nil_append] at he
    refine h (x :: early) late ?_
    rw [hs, List.filter_append, hnone, List.filter_cons_of_pos hx, he]
    rfl
  | false =>
    refine hl _ _ (arriveAll_congr fun a ha => (arrive_outside hx a ha).symm) (h early late ?_)
    rw [hs, List.filter_append, List.filter_cons_of_neg (by simp [hx]), he]

theorem Sound.set (h : Sound D P b) (hP : ∀ m, P m → P (update m a v)) : Sound D P (b.set a v) := by
  intro early late he
  obtain hsame | ⟨hset,-⟩ := arriveAll_update (m := b.memory) (a := a) (v := v) (l := early)
  · exact hsame ▸ h early late he
  · exact hset ▸ hP _ (h early late he)

/-- A write of the one kind, when its turn comes, finds a memory of the other kind. -/
def Finds (D : Flight A V → Prop) (P : (A → V) → Prop) (b : WriteBuffer A V) : Prop :=
  ∀ older x newer, b.flight = older ++ x :: newer → D x → P (arriveAll b.memory older)

section Finds

variable {D : Flight A V → Prop} {c : WriteBuffer A V}

theorem finds_nil (h : b.flight = []) : b.Finds D P := by
  intro older x newer hs
  rw [h] at hs
  exact absurd hs.symm (List.append_ne_nil_of_right_ne_nil older (List.cons_ne_nil x newer))

theorem finds_push (h : b.Finds D P) (hflight : c.flight = b.flight ++ [x])
    (hmemory : c.memory = b.memory) (hx : D x → P b.settled) : c.Finds D P := by
  intro older y newer hs hy
  rw [hflight] at hs
  rw [hmemory]
  obtain rfl | ⟨front,last,rfl⟩ := List.eq_nil_or_concat newer
  · obtain ⟨rfl,hlast⟩ := List.append_inj' hs rfl
    obtain rfl := List.singleton_inj.mp hlast
    exact hx hy
  · rw [List.concat_eq_append, ← List.cons_append, ← List.append_assoc] at hs
    exact h older y front (List.append_inj' hs rfl).1 hy

theorem Finds.issue (h : b.Finds D P) (hx : D (.write a v) → P b.settled) : (b.issue a v).Finds D P :=
  finds_push h rfl rfl hx

theorem Finds.fence (h : b.Finds D P) (hx : ¬ D .barrier) : b.fence.Finds D P :=
  finds_push h rfl rfl fun hd => (hx hd).elim

/-- What arrives first must leave the memory as the writes it passes are to find it. -/
theorem Finds.deliver (h : b.Finds D P) (hd : b.Delivers older x newer c)
    (hkeep : ∀ y ∈ older, D y → ∀ m, P m → P (arrive m x)) : c.Finds D P := by
  obtain ⟨hs,hfree,rfl⟩ := hd
  intro front y back he hy
  have hbehind (mid : List (Flight A V)) (hnewer : newer = mid ++ y :: back) :
      P (arriveAll (arrive b.memory x) (older ++ mid)) := by
    have hfind := h (older ++ x :: mid) y back (by rw [hs, hnewer, List.append_assoc]; rfl) hy
    rw [arriveAll_append] at hfind
    rw [arriveAll_append, arriveAll_arrive hfree]
    exact hfind
  obtain ⟨mid,rfl,hnewer⟩ | ⟨mid,rfl,hback⟩ := List.append_eq_append_iff.mp he
  · exact hbehind mid hnewer
  · cases mid with
    | nil =>
      have hfront := hbehind [] hback.symm
      rwa [List.append_nil, List.append_nil] at hfront
    | cons z mid =>
      obtain ⟨rfl,-⟩ := List.cons.inj hback
      have hfind := h front y (mid ++ x :: newer) (by rw [hs, List.append_assoc]; rfl) hy
      change P (arriveAll (arrive b.memory x) front)
      rw [arriveAll_arrive fun z hz => hfree z (List.mem_append_left _ hz)]
      exact hkeep y (List.mem_append_right _ List.mem_cons_self) hy _ hfind

theorem Finds.set (h : b.Finds D P) (hP : ∀ m, P m → m a = b.memory a → P (update m a v)) :
    (b.set a v).Finds D P := by
  intro older x newer hs hx
  have hfind := h older x newer hs hx
  obtain hsame | ⟨hset,hmem⟩ := arriveAll_update (m := b.memory) (a := a) (v := v) (l := older)
  · exact hsame ▸ hfind
  · exact hset ▸ hP _ hfind hmem

end Finds

theorem arriveAll_untouched {D : A → Bool} (h : ∀ y ∈ l, touches D y = false) (m : A → V) {a : A}
    (ha : D a = true) : arriveAll m l a = m a := by
  rw [← arriveAll_filter l m a ha, List.filter_eq_nil_iff.mpr fun y hy => by simp [h y hy]]
  rfl

end WriteBuffer
end AgxOpen
