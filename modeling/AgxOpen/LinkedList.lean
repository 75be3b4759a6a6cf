import Mathlib.Data.List.Nodup
import Mathlib.Logic.Function.Basic
import Mathlib.Tactic.Common

/-!
# Circular doubly linked lists

A memory of links, and what it means that a ring of nodes behind a head is linked
in it. The nodes of the ring are a list, so adding and deleting a node are
operations on that list, and everything else of the memory is a frame.
-/
namespace AgxOpen.LinkedList

/-- The pointers of a node. -/
structure Link (P : Type) where
  next : Option P
  prev : Option P
  deriving DecidableEq

abbrev Memory (P : Type) := P → Link P

variable {P : Type} {m m' : Memory P} {a b e h s : P} {xs ys : List P}

/-- From `a` through the nodes to `b`, by both pointers. -/
def Seg (m : Memory P) : P → List P → P → Prop
  | a, [], b => (m a).next = some b ∧ (m b).prev = some a
  | a, x :: xs, b => (m a).next = some x ∧ (m x).prev = some a ∧ Seg m x xs b

theorem seg_cons {x : P} : Seg m a (x :: xs) b ↔
    (m a).next = some x ∧ (m x).prev = some a ∧ Seg m x xs b := Iff.rfl

theorem seg_append : Seg m a (xs ++ e :: ys) b ↔ Seg m a xs e ∧ Seg m e ys b := by
  induction xs generalizing a with
  | nil => exact and_assoc.symm
  | cons x xs ih =>
    rw [List.cons_append, seg_cons, seg_cons, ih]
    tauto

/-- The last node before the end of a segment. -/
def before (a : P) (xs : List P) : P := xs.getLast?.getD a

@[simp] theorem before_nil (a : P) : before a [] = a := rfl

@[simp] theorem before_cons (a x : P) (xs : List P) : before a (x :: xs) = before x xs := by
  rw [before, before, List.getLast?_cons]
  rfl

theorem before_mem (a : P) (xs : List P) : before a xs ∈ a :: xs := by
  induction xs generalizing a with
  | nil => exact List.mem_cons_self
  | cons x xs ih =>
    rw [before_cons]
    exact List.mem_cons_of_mem _ (ih x)

/-- The first node behind the start of a segment. -/
def behind (xs : List P) (b : P) : P := xs.head?.getD b

@[simp] theorem behind_nil (b : P) : behind [] b = b := rfl

@[simp] theorem behind_cons (x : P) (xs : List P) (b : P) : behind (x :: xs) b = x := rfl

theorem behind_mem (xs : List P) (b : P) : behind xs b ∈ b :: xs := by cases xs <;> simp

theorem Seg.next (hm : Seg m a xs b) : (m a).next = some (behind xs b) := by
  cases xs with
  | nil => exact hm.1
  | cons x xs => exact hm.1

theorem Seg.prev (hm : Seg m a xs b) : (m b).prev = some (before a xs) := by
  induction xs generalizing a with
  | nil => exact hm.2
  | cons x xs ih =>
    rw [before_cons]
    exact ih hm.2.2

/-- A segment whose nodes keep their pointers, led to another end. -/
theorem Seg.relink (hm : Seg m a xs b) (hn : (a :: xs).Nodup)
    (hnext : ∀ p ∈ a :: xs, p ≠ before a xs → (m' p).next = (m p).next)
    (hprev : ∀ p ∈ xs, (m' p).prev = (m p).prev) (hs : (m' (before a xs)).next = some s)
    (hs' : (m' s).prev = some (before a xs)) : Seg m' a xs s := by
  induction xs generalizing a with
  | nil => exact ⟨hs,hs'⟩
  | cons x xs ih =>
    rw [before_cons] at hs hs' hnext
    obtain ⟨ha,hn⟩ := List.nodup_cons.mp hn
    have hne : a ≠ before x xs := fun he => ha (he ▸ before_mem x xs)
    refine ⟨(hnext a List.mem_cons_self hne).trans hm.1,?_,?_⟩
    · exact (hprev x List.mem_cons_self).trans hm.2.1
    · exact ih hm.2.2 hn (fun p hp => hnext p (List.mem_cons_of_mem _ hp))
        (fun p hp => hprev p (List.mem_cons_of_mem _ hp)) hs hs'

/-- A segment is what its own pointers make it. -/
theorem Seg.congr (hm : Seg m a xs b) (hnext : ∀ p ∈ a :: xs, (m' p).next = (m p).next)
    (hprev : ∀ p ∈ xs ++ [b], (m' p).prev = (m p).prev) : Seg m' a xs b := by
  induction xs generalizing a with
  | nil => exact ⟨(hnext a List.mem_cons_self).trans hm.1,(hprev b List.mem_cons_self).trans hm.2⟩
  | cons x xs ih =>
    refine ⟨(hnext a List.mem_cons_self).trans hm.1,(hprev x List.mem_cons_self).trans hm.2.1,?_⟩
    exact ih hm.2.2 (fun p hp => hnext p (List.mem_cons_of_mem _ hp))
      fun p hp => hprev p (List.mem_cons_of_mem _ hp)

/-- The nodes are linked in a ring behind the head. -/
structure Ring (m : Memory P) (h : P) (xs : List P) : Prop where
  nodup : (h :: xs).Nodup
  seg : Seg m h xs h

theorem Ring.congr (hm : Ring m h xs) (hp : ∀ p ∈ h :: xs, m' p = m p) : Ring m' h xs := by
  refine ⟨hm.nodup,hm.seg.congr (fun p h => by rw [hp p h]) fun p h => ?_⟩
  rw [hp p (by simpa [or_comm] using h)]

section Middle

variable (hm : Ring m h (xs ++ e :: ys))
include hm

/-- A node of a ring is not its own neighbour. -/
theorem Ring.before_ne : before h xs ≠ e := by
  have hn : (h :: xs ++ e :: ys).Nodup := hm.nodup
  exact (List.disjoint_of_nodup_append hn · List.mem_cons_self) ∘ (· ▸ before_mem h xs)

end Middle

/-- Every node of a ring has both its neighbours in it. -/
theorem Ring.linked (hm : Ring m h xs) {p : P} (hp : p ∈ h :: xs) :
    ∃ q ∈ h :: xs, ∃ r ∈ h :: xs, (m p).next = some q ∧ (m p).prev = some r := by
  obtain rfl | hp := List.mem_cons.mp hp
  · exact ⟨_,behind_mem xs _,_,before_mem _ xs,hm.seg.next,hm.seg.prev⟩
  · obtain ⟨ys,zs,rfl⟩ := List.append_of_mem hp
    obtain ⟨hy,hz⟩ := seg_append.mp hm.seg
    refine ⟨_,?_,_,?_,hz.next,hy.prev⟩
    · have hmem := behind_mem zs h
      simp only [List.mem_cons, List.mem_append] at hmem ⊢
      tauto
    · have hmem := before_mem h ys
      simp only [List.mem_cons, List.mem_append] at hmem ⊢
      tauto

variable [DecidableEq P]

def setNext (m : Memory P) (p : P) (q : Option P) : Memory P :=
  Function.update m p { m p with next := q }

def setPrev (m : Memory P) (p : P) (q : Option P) : Memory P :=
  Function.update m p { m p with prev := q }

section Updates

variable {p q : P} {v : Option P}

@[simp] theorem setNext_next_self : (setNext m p v p).next = v := by simp [setNext]

theorem setNext_next_ne (hne : q ≠ p) : (setNext m p v q).next = (m q).next := by
  simp [setNext, hne]

@[simp] theorem setNext_prev : (setNext m p v q).prev = (m q).prev := by
  by_cases he : q = p
  · subst he
    simp [setNext]
  · simp [setNext, he]

@[simp] theorem setPrev_prev_self : (setPrev m p v p).prev = v := by simp [setPrev]

theorem setPrev_prev_ne (hne : q ≠ p) : (setPrev m p v q).prev = (m q).prev := by
  simp [setPrev, hne]

@[simp] theorem setPrev_next : (setPrev m p v q).next = (m q).next := by
  by_cases he : q = p
  · subst he
    simp [setPrev]
  · simp [setPrev, he]

end Updates

/-- The node in front of the head, behind the last node. -/
def addLast (m : Memory P) (h e : P) (last : P) : Memory P :=
  setPrev (setNext (setNext (setPrev m e (some last)) e (some h)) last (some e)) h (some e)

theorem Ring.addLast (hm : Ring m h xs) (he : e ∉ h :: xs) :
    Ring (addLast m h e (before h xs)) h (xs ++ [e]) := by
  have hlast := before_mem h xs
  have hle : before h xs ≠ e := fun hl => he (hl ▸ hlast)
  have hhe : h ≠ e := fun hh => he (hh ▸ List.mem_cons_self)
  have hne (p : P) (hp : p ∈ h :: xs) : p ≠ e := fun hpe => he (hpe ▸ hp)
  refine ⟨?_,seg_append.mpr ⟨?_,?_⟩⟩
  · rw [← List.cons_append]
    refine hm.nodup.append (List.nodup_singleton e) ?_
    simpa using he
  · refine hm.seg.relink hm.nodup (fun p hp hpl => ?_) (fun p hp => ?_) ?_ ?_
    · simp [LinkedList.addLast, setNext_next_ne hpl, setNext_next_ne (hne p hp)]
    · have hph : p ≠ h := fun hph => (List.nodup_cons.mp hm.nodup).1 (hph ▸ hp)
      simp [LinkedList.addLast, setPrev_prev_ne hph,
        setPrev_prev_ne (hne p (List.mem_cons_of_mem _ hp))]
    · simp [LinkedList.addLast]
    · simp [LinkedList.addLast, setPrev_prev_ne hhe.symm]
  · refine ⟨?_,?_⟩
    · simp [LinkedList.addLast, setNext_next_ne hle.symm]
    · simp [LinkedList.addLast]

/-- The neighbours of the node linked to each other, and its own pointers cleared. -/
def unlink (m : Memory P) (e p s : P) : Memory P :=
  setPrev (setNext (setPrev (setNext m p (some s)) s (some p)) e none) e none

section Unlink

variable {p q : P}

theorem unlink_next (he : q ≠ e) (hp : q ≠ p) : (unlink m e p s q).next = (m q).next := by
  simp [unlink, setNext_next_ne he, setNext_next_ne hp]

theorem unlink_prev (he : q ≠ e) (hs : q ≠ s) : (unlink m e p s q).prev = (m q).prev := by
  simp [unlink, setPrev_prev_ne he, setPrev_prev_ne hs]

theorem unlink_next_before (he : p ≠ e) : (unlink m e p s p).next = some s := by
  simp [unlink, setNext_next_ne he]

theorem unlink_prev_behind (he : s ≠ e) : (unlink m e p s s).prev = some p := by
  simp [unlink, setPrev_prev_ne he]

end Unlink

theorem Ring.unlink (hm : Ring m h (xs ++ e :: ys)) :
    Ring (unlink m e (before h xs) (behind ys h)) h (xs ++ ys) := by
  obtain ⟨hx,hy⟩ := seg_append.mp hm.seg
  have hn := hm.nodup
  simp only [List.nodup_cons, List.nodup_append', List.mem_append, List.mem_cons, not_or,
    List.disjoint_cons_right] at hn
  obtain ⟨⟨hhx,hhe,hhy⟩,hxn,⟨hey,hyn⟩,hex,hxy⟩ := hn
  have hp := before_mem h xs
  have hpe := hm.before_ne
  have hfront (t : P) (hte : t ≠ e) (htx : t ∉ xs) :
      Seg (LinkedList.unlink m e (before h xs) t) h xs t := by
    refine hx.relink (List.nodup_cons.mpr ⟨hhx,hxn⟩) (fun q hq hqp => ?_) (fun q hq => ?_)
      (unlink_next_before hpe) (unlink_prev_behind hte)
    · refine unlink_next ?_ hqp
      rintro rfl
      exact (List.mem_cons.mp hq).elim (fun he => hhe he.symm) hex
    · exact unlink_prev (fun he => hex (he ▸ hq)) fun ht => htx (ht ▸ hq)
  refine ⟨?_,?_⟩
  · simp only [List.nodup_cons, List.nodup_append', List.mem_append, not_or]
    exact ⟨⟨hhx,hhy⟩,hxn,hyn,hxy⟩
  · cases ys with
    | nil => simpa using hfront h hhe hhx
    | cons y ys =>
      obtain ⟨hyh,hhys⟩ : h ≠ y ∧ h ∉ ys := by simpa using hhy
      obtain ⟨hye,heys⟩ : e ≠ y ∧ e ∉ ys := by simpa using hey
      have hyx : y ∉ xs := fun hyx => hxy hyx List.mem_cons_self
      refine seg_append.mpr ⟨hfront y hye.symm hyx,hy.2.2.congr (fun q hq => ?_) fun q hq => ?_⟩
      · refine unlink_next (fun he => hey (he ▸ hq)) ?_
        rintro rfl
        rcases List.mem_cons.mp hp with hp | hp
        · exact hhy (hp ▸ hq)
        · exact hxy hp hq
      · refine unlink_prev ?_ ?_
        · rintro rfl
          rcases List.mem_append.mp hq with hq | hq
          · exact heys hq
          · exact hhe (List.mem_singleton.mp hq).symm
        · rintro rfl
          rcases List.mem_append.mp hq with hq | hq
          · exact (List.nodup_cons.mp hyn).1 hq
          · exact hyh (List.mem_singleton.mp hq).symm

end AgxOpen.LinkedList
