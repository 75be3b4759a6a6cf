import AgxOpen.Display.Listeners
import Mathlib.Data.Finset.Card

/-!
# Clients of the broker

Any threads call the broker at any time. A listener has an owner, who registers it
only when it is not registered and unregisters it only when it is. What the threads
do together is what the abstract broker does with the calls in the order of the lock.
-/
namespace AgxOpen.Display

open Program LinkedList

variable {L σ ι : Type} [DecidableEq L]

/-- Whether a listener is registered behind a call. -/
def registeredAfter (l : L) (r : Bool) : Op L σ → Bool
  | .register l' => if l' = l then true else r
  | .unregister l' => if l' = l then false else r
  | .notify _ _ => r

/-- Whether the calls left the listener registered. -/
def registered (l : L) (ops : List (Op L σ)) : Bool := ops.foldl (registeredAfter l) false

theorem registered_snoc (l : L) (ops : List (Op L σ)) (op : Op L σ) :
    registered l (ops ++ [op]) = registeredAfter l (registered l ops) op := by
  rw [registered, List.foldl_append]
  rfl

/-- What a client may call behind its earlier calls. The listeners are among those of `U`. -/
def rule (owner : L → ι) (U : Finset L) (i : ι) (past : List (Op L σ)) : Op L σ → Prop
  | .register l => owner l = i ∧ l ∈ U ∧ registered l past = false
  | .unregister l => owner l = i ∧ registered l past = true
  | .notify _ _ => True

variable [DecidableEq ι] {owner : L → ι} {U : Finset L}

instance (i : ι) (past : List (Op L σ)) (op : Op L σ) : Decidable (rule owner U i past op) := by
  cases op <;> unfold rule <;> infer_instance

abbrev Call (L σ : Type) := Done (Access L σ) Access.Answer (Op L σ) Unit

/-- The broker has the listeners that their owners left registered. -/
structure Knows (owner : L → ι) (U : Finset L) (b : Broker L) (past : List (ι × Call L σ)) :
    Prop where
  listeners : ∀ l, l ∈ b.listeners ↔ registered l (callsOf (owner l) past) = true
  bounded : ∀ l ∈ b.listeners, l ∈ U

variable {b b' : Broker L} {past : List (ι × Call L σ)} {i : ι} {n : ℕ} {op : Op L σ}
  {calls : List (Callback L σ)}

theorem Knows.length (hk : Knows owner U b past) : b.listeners.length ≤ U.card := by
  rw [← List.toFinset_card_of_nodup b.nodup]
  exact Finset.card_le_card fun l hl => hk.bounded l (List.mem_toFinset.mp hl)

/-- A call does for a listener the same as for its owner's calls alone. -/
theorem registered_call {d : Call L σ} (hr : rule owner U i (callsOf i past) d.call) (l : L) :
    registered l (callsOf (owner l) (past ++ [(i,d)])) =
      registeredAfter l (registered l (callsOf (owner l) past)) d.call := by
  by_cases hi : owner l = i
  · subst hi
    rw [Locked.callsOf_snoc_self, registered_snoc]
  · rw [Locked.callsOf_snoc_ne (Ne.symm hi)]
    cases hd : d.call with
    | notify old new => rfl
    | register l' | unregister l' =>
      rw [hd] at hr
      exact (if_neg fun (he : l' = l) => hi (he ▸ hr.1)).symm

theorem Broker.mem_step {b b' : Broker L} {op : Op L σ} {calls : List (Callback L σ)}
    (h : b.step op = some (b',calls)) (l : L) :
    l ∈ b'.listeners ↔ registeredAfter l (decide (l ∈ b.listeners)) op = true := by
  cases op with
  | register l' =>
    rw [Broker.step] at h
    split at h
    · contradiction
    · cases h
      by_cases he : l' = l
      · simp [registeredAfter, he]
      · simp [registeredAfter, he, Ne.symm he]
  | unregister l' =>
    rw [Broker.step] at h
    split at h
    · cases h
      by_cases he : l' = l
      · subst he
        simp [registeredAfter, b.nodup.not_mem_erase]
      · simp [registeredAfter, he, List.mem_erase_of_ne (Ne.symm he)]
    · contradiction
  | notify old new =>
    cases h
    simp [registeredAfter]

/-- Behind a call that the rule allows the abstract broker goes on. -/
theorem Knows.step (hk : Knows owner U b past) {d : Call L σ}
    (hr : rule owner U i (callsOf i past) d.call) :
    ∃ b' calls, b.step d.call = some (b',calls) ∧ Knows owner U b' (past ++ [(i,d)]) := by
  have hdec (l : L) : decide (l ∈ b.listeners) = registered l (callsOf (owner l) past) := by
    rw [Bool.eq_iff_iff, decide_eq_true_iff, hk.listeners]
  have hmem (b' : Broker L) (calls : List (Callback L σ)) (h : b.step d.call = some (b',calls))
      (hb : ∀ l ∈ b'.listeners, l ∈ U) : Knows owner U b' (past ++ [(i,d)]) := by
    refine ⟨fun l => ?_,hb⟩
    rw [Broker.mem_step h, registered_call hr, hdec]
  cases hd : d.call with
  | register l =>
    rw [hd] at hr
    obtain ⟨rfl,hU,hnot⟩ := hr
    have hl : l ∉ b.listeners := by simp [hk.listeners, hnot]
    refine ⟨_,_,dif_neg hl,hmem _ _ (by rw [hd]; exact dif_neg hl) fun l' hl' => ?_⟩
    rcases List.mem_append.mp hl' with hl' | hl'
    · exact hk.bounded l' hl'
    · exact List.mem_singleton.mp hl' ▸ hU
  | unregister l =>
    rw [hd] at hr
    obtain ⟨rfl,hreg⟩ := hr
    have hl : l ∈ b.listeners := (hk.listeners l).mpr hreg
    refine ⟨_,_,if_pos hl,hmem _ _ (by rw [hd]; exact if_pos hl) fun l' hl' => ?_⟩
    exact hk.bounded l' (List.mem_of_mem_erase hl')
  | notify old new => exact ⟨_,_,rfl,hmem _ _ (by rw [hd]; rfl) hk.bounded⟩

theorem Broker.run_snoc {ops : List (Op L σ)} {calls' : List (Callback L σ)} {b'' : Broker L}
    (h : b.run ops = some (b',calls)) (hs : b'.step op = some (b'',calls')) :
    b.run (ops ++ [op]) = some (b'',calls ++ calls') := by
  induction ops generalizing b calls with
  | nil =>
    cases h
    simp [Broker.run, hs]
  | cons o ops ih =>
    obtain ⟨⟨b₁,calls₁⟩,h₁,h⟩ := Option.bind_eq_some_iff.mp h
    obtain ⟨⟨b₂,calls₂⟩,h₂,he⟩ := Option.map_eq_some_iff.mp h
    cases he
    simp [Broker.run, h₁, ih h₂]

variable {s u : Memory (Node L)}

/-- Behind calls that the rule allows the list in memory is the abstract broker's,
and the callbacks are those it makes. -/
theorem past_represents (hU : U.card ≤ n) (hs : Represents s Broker.init)
    (ha : Locked.Allowed (rule owner U) past)
    (hsession : Session Display.step (program n) s (past.map Prod.snd) u) :
    ∃ b calls, Broker.init.run (past.map fun d => d.2.call) = some (b,calls) ∧
      (past.flatMap fun d => callbacks d.2.acts) = calls ∧ Knows owner U b past ∧
      Represents u b := by
  induction past using List.reverseRecOn generalizing u with
  | nil =>
    cases hsession
    exact ⟨Broker.init,[],rfl,rfl,⟨fun l => by simp [Broker.init, callsOf, registered],nofun⟩,hs⟩
  | append_singleton past d ih =>
    obtain ⟨i,d⟩ := d
    rw [List.map_append] at hsession
    obtain ⟨t,ht,hlast⟩ := hsession.split
    obtain ⟨b,calls,hrun,hcalls,hk,hr⟩ := ih ha.of_append ht
    obtain ⟨b',calls',hstep,hk'⟩ := hk.step (ha past (i,d) [] rfl)
    cases hlast with
    | cons hd tail =>
      cases tail
      obtain ⟨hr',hc',-⟩ := hd.does (program_does hstep hr (hk.length.trans hU))
      refine ⟨b',calls ++ calls',?_,?_,hk',hr'⟩
      · rw [List.map_append]
        exact Broker.run_snoc hrun hstep
      · rw [List.flatMap_append, hcalls]
        simp [hc']

theorem init_does (m : Memory (Node L)) :
    Does answer (agxDisplayBrokerInit (σ := σ)) (fun _ _ m' => Represents m' Broker.init) m := by
  refine Does.request rfl (Does.request (f := .ret) rfl (.ret ⟨List.nodup_singleton _,?_,?_⟩))
  · simp
  · simp

/-- The transitions of the calls made while the listener is registered. -/
def due (l : L) : Bool → List (Op L σ) → List (σ × σ)
  | _, [] => []
  | r, op :: ops => (if r then (transition op).toList else []) ++ due l (registeredAfter l r op) ops

theorem seen_of_not_mem {b : Broker L} {l : L} (hl : l ∉ b.listeners) (old new : σ) :
    seen l (b.listeners.map fun l' => (l',old,new)) = [] := by
  refine List.filterMap_eq_nil_iff.mpr fun c hc => ?_
  obtain ⟨l',hmem,rfl⟩ := List.mem_map.mp hc
  exact if_neg fun (he : l' = l) => hl (he ▸ hmem)

theorem Broker.step_due (h : b.step op = some (b',calls)) (l : L) :
    seen l calls = if decide (l ∈ b.listeners) then (transition op).toList else [] := by
  cases op with
  | register l' | unregister l' =>
    rw [Broker.step] at h
    split at h
    all_goals
      cases h
      try simp [seen, transition]
  | notify old new =>
    cases h
    by_cases hl : l ∈ b.listeners
    · simp [hl, seen_notify b.nodup hl, transition]
    · simp [hl, seen_of_not_mem hl]

theorem Broker.run_due {ops : List (Op L σ)} (h : b.run ops = some (b',calls)) (l : L) :
    seen l calls = due l (decide (l ∈ b.listeners)) ops := by
  induction ops generalizing b calls with
  | nil =>
    cases h
    rfl
  | cons op ops ih =>
    obtain ⟨⟨b₁,calls₁⟩,h₁,h⟩ := Option.bind_eq_some_iff.mp h
    obtain ⟨⟨b₂,calls₂⟩,h₂,he⟩ := Option.map_eq_some_iff.mp h
    cases he
    have hreg : decide (l ∈ b₁.listeners) = registeredAfter l (decide (l ∈ b.listeners)) op := by
      rw [Bool.eq_iff_iff, decide_eq_true_iff, Broker.mem_step h₁]
    rw [seen_append, due, ← hreg, ← ih h₂, Broker.step_due h₁]

section Schedule

deriving instance DecidableEq for Op

/-- The memory of a broker that has just been set up. -/
def emptyList : Memory (Node Bool) :=
  setPrev (setNext (fun _ => ⟨none,none⟩) .listeners (some .listeners)) .listeners
    (some .listeners)

theorem emptyList_runs : Runs Display.step (agxDisplayBrokerInit (σ := Bool))
    (fun _ => ⟨none,none⟩) [⟨.setNext (some .listeners) (some .listeners),()⟩,
      ⟨.setPrev (some .listeners) (some .listeners),()⟩] () emptyList :=
  .call rfl (.call rfl (.ret _ _))

/-- Two clients: one registers, both notify, one unregisters and the other one has begun to
register. -/
def twoClients : List (Locked.Move Bool (Op Bool Bool)) :=
  [.call true (.register true),.call false (.notify false true),.lock true,.acts true 6,
   .unlock true,.lock false,.call true (.notify true false),.acts false 3,.unlock false,
   .call false (.register false),.lock true,.acts true 3,.unlock true,.call true (.unregister true),
   .lock true,.acts true 8,.unlock true,.lock false,.acts false 2]

theorem twoClients_reach : ∃ c,
    Locked.Reach Display.step (program 2) (rule (fun l : Bool => l) Finset.univ) emptyList c ∧
      c.owner = some false ∧ c.calls.map Done.call =
        [.register true,.notify false true,.notify true false,.unregister true] := by
  have hrun : (Locked.moves (program 2) (rule (fun l : Bool => l) Finset.univ) answer
      (Locked.start emptyList) twoClients).any (fun c => c.owner == some false &&
        c.calls.map Done.call ==
          [.register true,.notify false true,.notify true false,.unregister true]) = true := by
    decide +kernel
  refine (Locked.reach_of_moves (fun _ _ _ _ h => h) hrun).imp fun c hc => ⟨hc.1,?_⟩
  simpa only [Bool.and_eq_true, beq_iff_eq] using hc.2

end Schedule

section Interleaved

variable {m₀ : Memory (Node L)} {acts : List (Act (Access L σ) Access.Answer)}
  {c : Locked ι (Access L σ) Access.Answer (Memory (Node L)) (Op L σ) Unit}

/-- The call that has the lock, in front of what is left of it. -/
theorem inside_does (hU : U.card ≤ n) (hs : Represents s Broker.init)
    (h : Locked.Reach Display.step (program n) (rule owner U) s c) {call : Op L σ}
    {rest : Prog L σ Unit} (hi : c.stage i = .inside call rest) :
    ∃ b b' calls more, Broker.init.run (c.calls.map Done.call) = some (b,calls) ∧
      Knows owner U b c.past ∧ b.step call = some (b',more) ∧
      Does answer rest (fun acts _ m => Represents m b' ∧ callbacks (c.during ++ acts) = more ∧
        ∀ e ∈ c.during ++ acts, ∀ p, e.op.node = some p → Used b call p) c.state := by
  obtain ⟨t,hsession,hold⟩ := h.serial.holds hi
  obtain ⟨b,calls,hrun,-,hk,hr⟩ := past_represents hU hs h.serial.allowed hsession
  have hmay := h.serial.pending i call (.inr ⟨rest,hi⟩)
  obtain ⟨b',more,hstep,-⟩ := hk.step (d := ⟨call,[],()⟩) hmay
  refine ⟨b,b',calls,more,?_,hk,hstep,?_⟩
  · rwa [Locked.calls, List.map_map]
  · exact hold.ran.does (program_does hstep hr (hk.length.trans hU))

/-- The calls did what the abstract broker does with them in the order of the lock, and
what is left of the one that has it will. So no call goes through NULL or round for ever. -/
def Linearizes (c : Locked ι (Access L σ) Access.Answer (Memory (Node L)) (Op L σ) Unit) : Prop :=
  ∃ b calls, Broker.init.run (c.calls.map Done.call) = some (b,calls) ∧
    (c.calls.flatMap fun d => callbacks d.acts) = calls ∧
    (c.owner = none → Represents c.state b) ∧
    ∀ i call rest, c.stage i = .inside call rest → ∃ b' more, b.step call = some (b',more) ∧
      Does answer rest (fun acts _ m => Represents m b' ∧
        callbacks (c.during ++ acts) = more) c.state

/-- Whatever the schedule, the calls linearize. -/
theorem calls_linearize (hinit : Runs Display.step agxDisplayBrokerInit m₀ acts () s)
    (hU : U.card ≤ n) (h : Locked.Reach Display.step (program n) (rule owner U) s c) :
    Linearizes c := by
  have hs := hinit.does (init_does m₀)
  obtain ⟨t,hsession,hlock⟩ := h.serial.session
  obtain ⟨b,calls,hrun,hcalls,hk,hr⟩ := past_represents hU hs h.serial.allowed hsession
  have hrun' : Broker.init.run (c.calls.map Done.call) = some (b,calls) := by
    rwa [Locked.calls, List.map_map]
  refine ⟨b,calls,hrun',?_,fun hfree => ?_,fun i call rest hi => ?_⟩
  · rw [Locked.calls, List.flatMap_map]
    exact hcalls
  · rcases hlock with ⟨-,-,rfl⟩ | ⟨i,call,rest,hold⟩
    · exact hr
    · rw [hold.owner] at hfree
      contradiction
  · obtain ⟨b₁,b',calls₁,more,hrun₁,-,hstep,hdoes⟩ := inside_does hU hs h hi
    obtain ⟨rfl,-⟩ : b = b₁ ∧ calls = calls₁ := by simpa using hrun'.symm.trans hrun₁
    exact ⟨b',more,hstep,hdoes.mono fun acts _ m hm => ⟨hm.1,hm.2.1⟩⟩

theorem calls_linearize_twoClients : ∃ c : Locked Bool (Access Bool Bool) Access.Answer
    (Memory (Node Bool)) (Op Bool Bool) Unit, c.owner = some false ∧ c.calls.length = 4 ∧
      Linearizes c := by
  obtain ⟨c,hc,howner,hcalls⟩ := twoClients_reach
  refine ⟨c,howner,?_,calls_linearize emptyList_runs (by decide) hc⟩
  simpa using congrArg List.length hcalls

/-- Whatever the schedule, a listener sees every transition of the calls made while it was
registered, once and in the order of the lock, and no other. -/
theorem listener_sees_due (hinit : Runs Display.step agxDisplayBrokerInit m₀ acts () s)
    (hU : U.card ≤ n) (h : Locked.Reach Display.step (program n) (rule owner U) s c) (l : L) :
    seen l (c.calls.flatMap fun d => callbacks d.acts) =
      due l false (c.calls.map Done.call) := by
  obtain ⟨t,hsession,-⟩ := h.serial.session
  obtain ⟨b,calls,hrun,hcalls,-⟩ :=
    past_represents hU (hinit.does (init_does m₀)) h.serial.allowed hsession
  rw [Locked.calls, List.flatMap_map, List.map_map]
  exact (congrArg _ hcalls).trans (Broker.run_due hrun l)

theorem listener_sees_due_twoClients : ∃ c : Locked Bool (Access Bool Bool) Access.Answer
    (Memory (Node Bool)) (Op Bool Bool) Unit, c.owner = some false ∧
      seen true (c.calls.flatMap fun d => callbacks d.acts) = [(false,true),(true,false)] := by
  obtain ⟨c,hc,howner,hcalls⟩ := twoClients_reach
  refine ⟨c,howner,?_⟩
  rw [listener_sees_due emptyList_runs (by decide) hc true, hcalls]
  decide

/-- While its owner has a listener unregistered, only the call that registers it uses its
node. -/
def Untouched (owner : L → ι) (l : L)
    (c : Locked ι (Access L σ) Access.Answer (Memory (Node L)) (Op L σ) Unit) : Prop :=
  (∀ pre d post, c.past = pre ++ d :: post → registered l (callsOf (owner l) pre) = false →
    d.2.call ≠ .register l → ∀ e ∈ d.2.acts, e.op.node ≠ some (.node l)) ∧
  ∀ i call rest, c.stage i = .inside call rest → registered l (callsOf (owner l) c.past) = false →
    call ≠ .register l → ∀ e ∈ c.during, e.op.node ≠ some (.node l)

/-- Whatever the schedule, an unregistered listener is left alone, so its memory may go. -/
theorem unregistered_untouched (hinit : Runs Display.step agxDisplayBrokerInit m₀ acts () s)
    (hU : U.card ≤ n) (h : Locked.Reach Display.step (program n) (rule owner U) s c) (l : L) :
    Untouched owner l c := by
  have hs := hinit.does (init_does m₀)
  have hunused {b : Broker L} {past : List (ι × Call L σ)} {call : Op L σ}
      (hk : Knows owner U b past) (hreg : registered l (callsOf (owner l) past) = false)
      (hcall : call ≠ .register l) : ¬ Used b call (.node l) := by
    rintro (hmem | ⟨l',hc,hl⟩)
    · have hl : l ∈ b.listeners := by simpa using hmem
      rw [hk.listeners, hreg] at hl
      contradiction
    · cases hl
      exact hcall hc
  refine ⟨fun pre d post he hreg hcall e hmem hnode => ?_,
    fun i call rest hi hreg hcall e hmem hnode => ?_⟩
  · obtain ⟨i,⟨call,acts',a⟩⟩ := d
    obtain ⟨t,hsession,-⟩ := h.serial.session
    rw [Locked.calls, he, List.map_append] at hsession
    obtain ⟨u,hpre,hrest⟩ := hsession.split
    have hallowed := h.serial.allowed
    have ha : Locked.Allowed (rule owner U) pre := (he ▸ hallowed).of_append
    obtain ⟨b,-,-,-,hk,hr⟩ := past_represents hU hs ha hpre
    obtain ⟨b',more,hstep,-⟩ := hk.step (d := ⟨call,acts',a⟩) (hallowed pre _ post he)
    cases hrest with
    | cons hd tail =>
      have hused := (hd.does (program_does hstep hr (hk.length.trans hU))).2.2
      exact hunused hk hreg hcall (hused e hmem _ hnode)
  · obtain ⟨b,b',-,more,-,hk,-,acts',a,u,-,-,-,hused⟩ := inside_does hU hs h hi
    exact hunused hk hreg hcall (hused e (List.mem_append_left _ hmem) _ hnode)

theorem unregistered_untouched_twoClients : ∃ c : Locked Bool (Access Bool Bool) Access.Answer
    (Memory (Node Bool)) (Op Bool Bool) Unit, c.owner = some false ∧ c.calls.length = 4 ∧
      Untouched (fun l => l) true c := by
  obtain ⟨c,hc,howner,hcalls⟩ := twoClients_reach
  refine ⟨c,howner,?_,unregistered_untouched emptyList_runs (by decide) hc true⟩
  simpa using congrArg List.length hcalls

end Interleaved

end AgxOpen.Display
