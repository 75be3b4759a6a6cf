import AgxOpen.Rtbuddy.Receive
import AgxOpen.Rtkit.Carried
import AgxOpen.Rtkit.Failures

/-!
# The interrupt thread runs the core one message at a time

The boot thread calls the core while the interrupt thread is inside it. Even so
the messages the interrupt thread handled are a session of the core on its own,
and the message it is at is a run so far of that session's next call. What holds
of every session of the core therefore holds of the driver in every run.
-/
namespace AgxOpen.Rtbuddy
open Rtkit

variable {guard : World → RunLog → Party → Op → Prop} {h h' : Hist} {log : RunLog} {s : World}

/-- The driver sets every callback. -/
def everything : Callbacks := ⟨true,true,true⟩

/-- What an operation of the core becomes in the driver. -/
def carriedOut : (op : Rtkit.Op) → Prog (Rtkit.Res op)
  | .load => port.load
  | .store u => port.store u
  | .send endpoint message => port.send endpoint message
  | .buffer endpoint size requestedIova => opsBuffer endpoint size requestedIova
  | .app endpoint message => opsApp endpoint message
  | .crashed => return ()

theorem carries : Carries carriedOut (corePort everything) port where
  load := Program.interp_request _ _
  store _ := Program.interp_request _ _
  send _ _ := Program.interp_request _ _
  buffer := congrArg some (funext fun _ => funext fun _ => funext fun _ =>
    (Program.interp_request carriedOut (.buffer _ _ _)).symm)
  app := congrArg some (funext fun _ => funext fun _ =>
    (Program.interp_request carriedOut (.app _ _)).symm)
  crashed := congrArg some (Program.interp_request carriedOut .crashed).symm

/-- The error of `agx_rtbuddy_ops_buffer` for a request it does not take to the allocator,
behind the buffers given before. -/
def refusal (earlier : List CoreAct) (endpoint : U32) (size requestedIova : U64) : Option ℤ :=
  if shmemSlot endpoint = none ∨ requestedIova ≠ 0#64 ∨ size > shmemMax then some Status.einval
  else if earlier.any (gives endpoint) then some Status.eexist
  else none

def BufferAnswered (earlier : List CoreAct) : (op : Rtkit.Op) → Rtkit.Res op → Prop
  | .buffer endpoint size requestedIova, r =>
    match refusal earlier endpoint size requestedIova with
    | some error => r.1 = error
    | none => r.1 = 0 ∨ r.1 = Status.enomem
  | _, _ => True

/-- Every request for a buffer was answered the way the driver answers it. -/
def Driven (acts : List CoreAct) : Prop :=
  ∀ earlier op r later, acts = earlier ++ ⟨op,r⟩ :: later → BufferAnswered earlier op r

theorem driven_nil : Driven [] := by
  intro earlier op r later he
  simp at he

theorem Driven.snoc {acts : List CoreAct} {op : Rtkit.Op} {r : Rtkit.Res op} (hd : Driven acts)
    (ha : BufferAnswered acts op r) : Driven (acts ++ [⟨op,r⟩]) := by
  intro earlier op' r' later he
  obtain rfl | ⟨rest,a,rfl⟩ := List.eq_nil_or_concat later
  · obtain ⟨rfl,hb⟩ := List.append_inj' he rfl
    cases hb
    exact ha
  · rw [List.concat_eq_append, ← List.cons_append, ← List.append_assoc] at he
    exact hd _ _ _ _ (List.append_inj' he rfl).1

/-- What both tell: stores to the core's structure, sends and coherent memory. -/
inductive Word
  | store (u : Update)
  | send (endpoint : U32) (message : U64) (ret : ℤ)
  /-- Memory for a slot, with its address unless there was none. -/
  | memory (slot : Fin 4) (size : U64) (iova : Option U64)

def word : Ev → Option Word
  | ⟨.rtkit u,_⟩ => some (.store u)
  | ⟨.send endpoint message,r⟩ => some (.send endpoint message r)
  | ⟨.dmaAlloc slot size,r⟩ => some (.memory slot size (if r.1 = 0 then none else some r.2))
  | _ => none

def coreWord : CoreAct → Option Word
  | ⟨.store u,_⟩ => some (.store u)
  | ⟨.send endpoint message,r⟩ => some (.send endpoint message r)
  | ⟨.buffer endpoint size _,r⟩ =>
    if r.1 = 0 then (shmemSlot endpoint).map (.memory · size (some r.2))
    else if r.1 = Status.enomem then (shmemSlot endpoint).map (.memory · size none)
    else none
  | _ => none

/-- What the thread did, oldest first. -/
def words (h : Hist) : List Word := (h.filterMap word).reverse

theorem words_cons (a : Ev) (h : Hist) : words (a :: h) = words h ++ (word a).toList := by
  rw [words, words, List.filterMap_cons]
  cases word a with
  | none => exact (List.append_nil _).symm
  | some w => exact List.reverse_cons

theorem coreWords_snoc (acts : List CoreAct) (a : CoreAct) :
    (acts ++ [a]).filterMap coreWord = acts.filterMap coreWord ++ (coreWord a).toList := by
  rw [List.filterMap_append, List.filterMap_cons]
  cases coreWord a <;> rfl

/-- The core as the thread's own stores leave it. -/
def ownCore (h : Hist) : Rtkit := replay updates .init h

theorem ownCore_endpoints (h : Hist) : (ownCore h).endpoints = endpointsOf h := by
  induction h with
  | nil => rfl
  | cons a h ih =>
    obtain ⟨op,r⟩ := a
    rw [ownCore, endpointsOf, replay_cons, replay_cons, ← endpointsOf, ← ih]
    cases op with
    | rtkit u => cases u <;> rfl
    | _ => rfl

theorem ownCore_buffers (h : Hist) : (ownCore h).buffers = buffersOf h := by
  induction h with
  | nil => rfl
  | cons a h ih =>
    obtain ⟨op,r⟩ := a
    rw [ownCore, buffersOf, replay_cons, replay_cons, ← buffersOf, ← ih]
    cases op with
    | rtkit u => cases u <;> rfl
    | _ => rfl

def rxCall (x : U32 × U64) : Rtkit.Call := .rx x.1 x.2

def actsOf (calls : List CoreDone) : List CoreAct := calls.flatMap fun d => d.acts

/-- The calls done and the acts of the one being made are the thread's history. -/
structure Tracks (h : Hist) (done : List CoreDone) (now : List CoreAct) : Prop where
  given : done.map (fun d => d.call) ++ ((current h).map rxCall).toList = (tally h).given.map rxCall
  words : words h = (actsOf done ++ now).filterMap coreWord
  driven : Driven (actsOf done ++ now)
  filled : ∀ endpoint slot, shmemSlot endpoint = some slot →
    ((shmemOf h slot).cpu ≠ 0 ↔ (actsOf done ++ now).any (gives endpoint) = true)

/-- Where a message is being handled, its call has come so far. -/
def InCall (s : Rtkit) (now : List CoreAct) (t : Rtkit) : Option (U32 × U64) → Prop
  | none => now = [] ∧ t = s
  | some x => ∃ rest, Program.Running step (Rtkit.program everything (rxCall x)) s now rest t

/-- The thread's history is a session of the core on its own. -/
def Following (h : Hist) : Prop := ∃ done s now, CoreRun everything done s ∧
  InCall s now (ownCore h) (current h) ∧ Tracks h done now

/-- Operations of the thread that the core does not tell. -/
def silent : Op → Bool
  | .load | .readI2a | .recv0 | .recv1 | .wakeUp | .irqEnter | .irqExit => true
  | .store .fwEvents | .store .appUnknown | .store (.drainCount _) => true
  | _ => false

section Silent

variable {o : Op} {r : Res o} {done : List CoreDone} {now : List CoreAct} (hop : silent o = true)
include hop

theorem silent_current : current (⟨o,r⟩ :: h) = current h := by
  rw [current, latest_cons]
  cases o with
  | mark => contradiction
  | _ => rfl

theorem silent_core : ownCore (⟨o,r⟩ :: h) = ownCore h := by
  cases o <;> first | rfl | contradiction

theorem Tracks.silent (ht : Tracks h done now) : Tracks (⟨o,r⟩ :: h) done now where
  given := by
    rw [silent_current hop, ht.given, tally_cons]
    cases o with
    | store f => cases f <;> rfl
    | _ => first | rfl | contradiction
  words := by
    rw [words_cons, ← ht.words]
    cases o with
    | store f => exact List.append_nil _
    | _ => first | exact List.append_nil _ | contradiction
  driven := ht.driven
  filled endpoint slot hs := by
    rw [← ht.filled endpoint slot hs]
    cases o with
    | store f => cases f <;> first | rfl | contradiction
    | mark => contradiction
    | _ => first | rfl | contradiction

theorem Following.silent (hf : Following h) : Following (⟨o,r⟩ :: h) := by
  obtain ⟨done,s,now,hrun,hin,ht⟩ := hf
  refine ⟨done,s,now,hrun,?_,ht.silent hop⟩
  rw [silent_core hop, silent_current hop]
  exact hin

end Silent

/-- The thread is inside the core with a message. -/
structure Within (done : List CoreDone) (x : U32 × U64) (now : List CoreAct) (t : Rtkit)
    (h : Hist) : Prop where
  inside : inside h = true
  current : current h = some x
  core : t = ownCore h
  tracks : Tracks h done now

/-- A program of the interrupt thread, checked against the session at every operation. -/
abbrev FollowObeys (guard : World → RunLog → Party → Op → Prop) {α : Type} (law : Hist → Prop)
    (p : Prog α) (Q : Hist → α → Prop) (h : Hist) : Prop :=
  Obeys (fun h _ => law h) (May guard .irq) p Q h

section Operations

variable {done : List CoreDone} {x : U32 × U64} {now : List CoreAct} {t : Rtkit}

/-- How one operation of the core is followed. -/
abbrev Followed (guard : World → RunLog → Party → Op → Prop) (done : List CoreDone) (x : U32 × U64)
    (op : Rtkit.Op) (now : List CoreAct) (t : Rtkit) (h : Hist) : Prop :=
  FollowObeys guard (Around step (Within done x) op now t) (carriedOut op) (fun h' r =>
    ∃ r' t', Alike op r r' ∧ step t op r' t' ∧ Within done x (now ++ [⟨op,r'⟩]) t' h') h

theorem Within.silent {o : Op} {r : Res o} (hop : silent o = true) (ho : handlerMark ⟨o,r⟩ = none)
    (hw : Within done x now t h) : Within done x now t (⟨o,r⟩ :: h) where
  inside := by
    rw [Rtbuddy.inside, latest_cons, ho]
    exact hw.inside
  current := (silent_current hop).trans hw.current
  core := hw.core.trans (silent_core hop).symm
  tracks := hw.tracks.silent hop

/-- The core's own view of an operation that the words do not show. -/
theorem Within.unsaid {op : Rtkit.Op} {r : Rtkit.Res op} (hword : coreWord ⟨op,r⟩ = none)
    (hgives : ∀ e, gives e ⟨op,r⟩ = false) (ha : BufferAnswered (actsOf done ++ now) op r)
    (hw : Within done x now t h) : Within done x (now ++ [⟨op,r⟩]) t h where
  inside := hw.inside
  current := hw.current
  core := hw.core
  tracks :=
    { given := hw.tracks.given
      words := by
        rw [← List.append_assoc, coreWords_snoc, hword, ← hw.tracks.words]
        exact (List.append_nil _).symm
      driven := by
        rw [← List.append_assoc]
        exact hw.tracks.driven.snoc ha
      filled := fun e slot hs => by
        rw [← List.append_assoc, List.any_append, List.any_cons, hgives, List.any_nil, Bool.or_false,
          Bool.or_false]
        exact hw.tracks.filled e slot hs }

theorem follow_load (hw : Within done x now t h) : Followed guard done x .load now t h := by
  refine .request (.inl hw) fun s hs => ?_
  have hload := hs.irq_load hw.inside
  refine ⟨t,t,⟨?_,?_⟩,⟨rfl,rfl⟩,?_⟩
  · rw [hw.core, ownCore_endpoints]
    exact hload.1
  · rw [hw.core, ownCore_buffers]
    exact hload.2.1
  · exact (hw.silent rfl rfl).unsaid rfl (fun _ => rfl) trivial

/-- A store or a send is told alike by both. -/
theorem Within.said {o : Op} {r : Res o} {c : Rtkit.Op} {q : Rtkit.Res c}
    (hword : word ⟨o,r⟩ = coreWord ⟨c,q⟩) (hgives : ∀ e, gives e ⟨c,q⟩ = false)
    (ha : ∀ earlier, BufferAnswered earlier c q) (hh : handlerMark ⟨o,r⟩ = none)
    (hm : messageMark ⟨o,r⟩ = none) (hg : (tally (⟨o,r⟩ :: h)).given = (tally h).given)
    (hs : shmemOf (⟨o,r⟩ :: h) = shmemOf h) (hw : Within done x now t h) :
    Within done x (now ++ [⟨c,q⟩]) (ownCore (⟨o,r⟩ :: h)) (⟨o,r⟩ :: h) where
  inside := by
    rw [Rtbuddy.inside, latest_cons, hh]
    exact hw.inside
  current := by
    rw [Rtbuddy.current, latest_cons, hm]
    exact hw.current
  core := rfl
  tracks :=
    { given := by
        rw [Rtbuddy.current, latest_cons, hm, hg]
        exact hw.tracks.given
      words := by
        rw [words_cons, hw.tracks.words, hword, ← List.append_assoc, coreWords_snoc]
      driven := by
        rw [← List.append_assoc]
        exact hw.tracks.driven.snoc (ha _)
      filled := fun e slot he => by
        rw [← List.append_assoc, List.any_append, List.any_cons, hgives, List.any_nil, Bool.or_false,
          Bool.or_false, hs]
        exact hw.tracks.filled e slot he }

theorem follow_store (u : Update) (hw : Within done x now t h) :
    Followed guard done x (.store u) now t h := by
  refine ⟨.inl hw,fun r _ => ⟨(),u.apply t,rfl,⟨trivial,rfl⟩,?_⟩⟩
  have hw' := hw.said (o := .rtkit u) (r := r) (c := .store u) (q := ()) rfl (fun _ => rfl)
    (fun _ => trivial) rfl rfl (by cases u <;> rfl) rfl
  rw [hw.core]
  exact hw'

theorem follow_send (endpoint : U32) (message : U64) (hw : Within done x now t h) :
    Followed guard done x (.send endpoint message) now t h := by
  refine ⟨.inl hw,fun r _ => ⟨r,t,rfl,⟨trivial,rfl⟩,?_⟩⟩
  have hw' := hw.said (o := .send endpoint message) (r := r) (c := .send endpoint message)
    (q := r) rfl (fun _ => rfl) (fun _ => trivial) rfl rfl rfl rfl
  rw [hw.core]
  exact hw'

theorem follow_app (endpoint : U32) (message : U64) (hw : Within done x now t h) :
    Followed guard done x (.app endpoint message) now t h := by
  change FollowObeys guard _ (opsApp endpoint message) _ h
  rw [opsApp]
  split_ifs
  · exact ⟨.inl hw,fun r _ => ⟨(),t,rfl,⟨trivial,rfl⟩,
      (hw.silent rfl rfl).unsaid rfl (fun _ => rfl) trivial⟩⟩
  · exact ⟨.inl hw,fun r _ => ⟨(),t,rfl,⟨trivial,rfl⟩,
      (hw.silent rfl rfl).unsaid rfl (fun _ => rfl) trivial⟩⟩

/-- The endpoint of a slot. -/
def slotEndpoint (slot : Fin 4) : U32 := [epCrashlog,epSyslog,epIoreport,epOslog].get slot

theorem shmemSlot_iff {e : U32} {slot : Fin 4} : shmemSlot e = some slot ↔ e = slotEndpoint slot := by
  constructor
  · intro he
    rw [shmemSlot] at he
    split_ifs at he <;> obtain rfl := Option.some.inj he <;> assumption
  · rintro rfl
    revert slot
    decide

theorem shmemSlot_inj {e e' : U32} {slot : Fin 4} (h : shmemSlot e = some slot)
    (h' : shmemSlot e' = some slot) : e = e' :=
  (shmemSlot_iff.mp h).trans (shmemSlot_iff.mp h').symm

/-- Recording the size of a buffer changes nothing that the core tells. -/
theorem Within.sized (slot : Fin 4) (size : U64) {r : Unit} (hw : Within done x now t h) :
    Within done x now t (⟨.store (.shmemSize slot size),r⟩ :: h) where
  inside := hw.inside
  current := hw.current
  core := hw.core
  tracks :=
    { given := hw.tracks.given
      words := by
        rw [words_cons, hw.tracks.words]
        exact List.append_nil _
      driven := hw.tracks.driven
      filled := fun e k hk => by
        rw [← hw.tracks.filled e k hk, shmemOf_size]
        split_ifs with hks
        · rw [hks]
        · rfl }

/-- The driver has a slot for the endpoint, and the buffer is told by both. -/
theorem Within.granted {endpoint : U32} {slot : Fin 4} {size requested : U64} {r : Ptr × U64}
    (hslot : shmemSlot endpoint = some slot) (hsmall : ¬ (requested ≠ 0#64 ∨ size > shmemMax))
    (hfree : (shmemOf h slot).cpu = 0) {q : ℤ × U64}
    (hq : q = if r.1 = 0 then (Status.enomem,requested) else (0,r.2))
    (hw : Within done x now t h) :
    Within done x (now ++ [⟨.buffer endpoint size requested,q⟩]) t (⟨.dmaAlloc slot size,r⟩ :: h) where
  inside := hw.inside
  current := hw.current
  core := hw.core
  tracks :=
    { given := hw.tracks.given
      words := by
        rw [words_cons, hw.tracks.words, ← List.append_assoc, coreWords_snoc]
        congr 1
        subst hq
        by_cases hr : r.1 = 0
        · rw [if_pos hr]
          simp [word, coreWord, hr, hslot, Status.enomem]
        · rw [if_neg hr]
          simp [word, coreWord, hr, hslot]
      driven := by
        rw [← List.append_assoc]
        refine hw.tracks.driven.snoc ?_
        have hnone : (actsOf done ++ now).any (gives endpoint) = false := by
          rw [← Bool.not_eq_true, ← hw.tracks.filled endpoint slot hslot]
          exact not_not.mpr hfree
        rw [BufferAnswered, refusal, if_neg (by rw [hslot]; simpa using hsmall), hnone, if_neg (by simp), hq]
        split_ifs
        · exact .inr rfl
        · exact .inl rfl
      filled := fun e k hk => by
        rw [← List.append_assoc, List.any_append, List.any_cons, List.any_nil, Bool.or_false,
          Bool.or_eq_true, ← hw.tracks.filled e k hk, shmemOf_alloc]
        have hgives : gives e ⟨.buffer endpoint size requested,q⟩ = true ↔ k = slot ∧ r.1 ≠ 0 := by
          rw [gives, Bool.and_eq_true, beq_iff_eq, beq_iff_eq, hq]
          refine and_congr ⟨?_,?_⟩ ?_
          · rintro rfl
            exact (Option.some.inj (hslot.symm.trans hk)).symm
          · rintro rfl
            exact shmemSlot_inj hslot hk
          · split_ifs with hr
            · simpa [hr] using show Status.enomem ≠ 0 by decide
            · simpa using hr
        rw [hgives]
        by_cases hks : k = slot
        · subst hks
          rw [if_pos rfl]
          simp [hfree]
        · simp [hks] }

/-- An answer of the callback before it asks for memory. -/
theorem Within.refused {endpoint : U32} {size requested : U64} {error : ℤ}
    (href : refusal (actsOf done ++ now) endpoint size requested = some error)
    (hw : Within done x now t h) :
    ∃ (r' : ℤ × U64) (t' : Rtkit), Alike (.buffer endpoint size requested) (error,requested) r' ∧
      step t (.buffer endpoint size requested) r' t' ∧
      Within done x (now ++ [⟨.buffer endpoint size requested,r'⟩]) t' h := by
  have herr : error ≠ 0 ∧ error ≠ Status.enomem := by
    rw [refusal] at href
    split_ifs at href <;> obtain rfl := Option.some.inj href <;> decide
  refine ⟨(error,requested),t,rfl,⟨trivial,rfl⟩,hw.unsaid ?_ ?_ ?_⟩
  · simp [coreWord, herr.1, herr.2]
  · simp [gives, herr.1]
  · rw [BufferAnswered, href]

theorem follow_buffer (endpoint : U32) (size requested : U64) (hw : Within done x now t h) :
    Followed guard done x (.buffer endpoint size requested) now t h := by
  change FollowObeys guard _ (opsBuffer endpoint size requested) _ h
  rw [opsBuffer]
  cases hslot : shmemSlot endpoint with
  | none => exact hw.refused (by rw [refusal, if_pos (.inl hslot)])
  | some slot =>
    dsimp only
    split_ifs with hreq hsize
    · exact hw.refused (by rw [refusal, if_pos (.inr (.inl hreq))])
    · exact hw.refused (by rw [refusal, if_pos (.inr (.inr hsize))])
    have hsmall : ¬ (requested ≠ 0#64 ∨ size > shmemMax) := fun hb => hb.elim hreq hsize
    refine .request (.inl hw) fun s hs => ?_
    have hw1 := hw.silent (o := .load) (r := s) rfl rfl
    have hshmem : s.shmem = shmemOf h := (hs.irq_load hw.inside).2.2
    split_ifs with hcpu
    · refine hw1.refused ?_
      rw [hshmem, hw.tracks.filled endpoint slot hslot] at hcpu
      rw [refusal, if_neg (by rw [hslot]; simpa using hsmall), if_pos hcpu]
    have hfree : (shmemOf (⟨.load,s⟩ :: h) slot).cpu = 0 := by
      rw [hshmem, not_not] at hcpu
      exact hcpu
    refine .request (.inl hw1) fun r _ => ?_
    split_ifs with hr
    · exact ⟨_,t,rfl,⟨trivial,rfl⟩,hw1.granted hslot hsmall hfree (by rw [if_pos hr])⟩
    · have hw2 := hw1.granted (r := r) hslot hsmall hfree (q := (0,r.2)) (by rw [if_neg hr])
      refine .request (.inr ⟨_,t,⟨trivial,rfl⟩,hw2⟩) fun u _ => ?_
      exact ⟨_,t,rfl,⟨trivial,rfl⟩,hw2.sized slot size⟩

/-- Every operation of the core is followed. -/
theorem follow (op : Rtkit.Op) (hw : Within done x now t h) : Followed guard done x op now t h := by
  cases op with
  | load => exact follow_load hw
  | store u => exact follow_store u hw
  | send endpoint message => exact follow_send endpoint message hw
  | buffer endpoint size requested => exact follow_buffer endpoint size requested hw
  | app endpoint message => exact follow_app endpoint message hw
  | crashed => exact ⟨(),t,rfl,⟨trivial,rfl⟩,hw.unsaid rfl (fun _ => rfl) trivial⟩

end Operations

/-- Between two messages. -/
structure Between (h : Hist) : Prop where
  current : current h = none
  following : Following h

theorem Between.silent {o : Op} {r : Res o} (hop : silent o = true) (hb : Between h) :
    Between (⟨o,r⟩ :: h) := ⟨(silent_current hop).trans hb.current,hb.following.silent hop⟩

theorem between_nil : Between [] :=
  ⟨rfl,[],_,[],.nil _,⟨rfl,rfl⟩,⟨rfl,rfl,driven_nil,fun _ _ _ => by simp [actsOf, shmemOf]⟩⟩

/-- Handling a message makes one call of the core. -/
theorem follow_rx {endpoint : U32} {message : U64} {rest : Prog ℕ} {Q : Hist → ℕ → Prop}
    (hi : inside h = true) (hb : Between h)
    (hrest : ∀ h', inside h' = true → Between h' → FollowObeys guard Following rest Q h') :
    FollowObeys guard Following (do
      mark (.rx endpoint message)
      rx port endpoint message
      mark .rxDone
      rest) Q h := by
  refine .request hb.following fun _ _ => ?_
  obtain ⟨hcur,done,s,now,hrun,hin,ht⟩ := hb
  rw [hcur] at hin
  obtain ⟨rfl,hs⟩ := hin
  have hw : Within done (endpoint,message) [] (ownCore h) (⟨.mark (.rx endpoint message),()⟩ :: h) := by
    refine ⟨hi,rfl,rfl,?_,?_,ht.driven,ht.filled⟩
    · have hgiven := ht.given
      rw [hcur] at hgiven
      change _ = (((tally h).given ++ [(endpoint,message)]).map rxCall)
      rw [List.map_append, ← hgiven]
      simp [current, messageMark]
    · rw [words_cons, ht.words]
      exact List.append_nil _
  rw [← carries.rx]
  have hfollow := obeys_interp (k := fun _ => .ret (0 : ℤ)) (blind_rx endpoint message)
    (fun op now t h hw => (follow op hw : Followed guard done (endpoint,message) op now t h))
    (.refl (Rtkit.program everything (.rx endpoint message)) (ownCore h)) hw
  refine (hfollow.law_mono ?_).bind ?_
  · rintro h1 - ⟨acts,q,t,hrunning,hw1⟩
    obtain rfl := hw1.core
    refine ⟨done,s,acts,hrun,?_,hw1.tracks⟩
    rw [hw1.current, ← hs]
    exact ⟨q,hrunning⟩
  rintro h1 _ ⟨acts,t,hrunning,hw1⟩
  obtain rfl := hw1.core
  have hcall : (Rtkit.program everything (rxCall (endpoint,message))).Runs step s acts 0 (ownCore h1) := by
    rw [← hs]
    exact hrunning.runs
  refine .request ⟨done,s,acts,hrun,?_,hw1.tracks⟩ fun _ _ => hrest _ hw1.inside ⟨rfl,?_⟩
  · rw [hw1.current]
    exact ⟨_,hcall.running⟩
  refine ⟨done ++ [⟨_,acts,0⟩],_,[],hrun.snoc hcall,⟨rfl,rfl⟩,?_,?_,?_,?_⟩
  · have hgiven := hw1.tracks.given
    rw [hw1.current] at hgiven
    rw [List.map_append, tally_cons]
    simpa [current, messageMark, tallyStep] using hgiven
  · rw [words_cons, hw1.tracks.words]
    simp [actsOf, word]
  · simpa [actsOf] using hw1.tracks.driven
  · intro e slot he
    refine (hw1.tracks.filled e slot he).trans ?_
    simp [actsOf]

theorem follow_recv (hi : inside h = true) (hb : Between h) :
    FollowObeys guard Following mailboxRecv (fun h' _ => inside h' = true ∧ Between h') h := by
  refine .request hb.following fun control _ => ?_
  have hb1 := hb.silent (o := .readI2a) (r := control) rfl
  change FollowObeys guard Following (if _ then _ else _) _ _
  split_ifs
  · exact ⟨hi,hb1⟩
  · refine .request hb1.following fun msg0 _ => ?_
    have hb2 := hb1.silent (o := .recv0) (r := msg0) rfl
    exact .request hb2.following fun msg1 _ => ⟨hi,hb2.silent rfl⟩

theorem follow_drain (n : ℕ) (hi : inside h = true) (hb : Between h) :
    FollowObeys guard Following (drain n) (fun h' _ => inside h' = true ∧ Between h') h := by
  induction n generalizing h with
  | zero => exact ⟨hi,hb⟩
  | succ n ih =>
    refine (follow_recv hi hb).bind ?_
    rintro h1 msg ⟨hi1,hb1⟩
    cases msg with
    | none => exact ⟨hi1,hb1⟩
    | some x =>
      refine follow_rx hi1 hb1 fun h2 hi2 hb2 => ?_
      exact (ih hi2 hb2).bind fun h3 _ h3b => h3b

theorem follow_irqThread (hb : Between h) :
    FollowObeys guard Following irqThread (fun h' _ => Between h') h := by
  refine .request hb.following fun _ _ => ?_
  refine (follow_drain drainMax rfl (hb.silent rfl)).bind ?_
  rintro h1 handled ⟨-,hb1⟩
  refine .request hb1.following fun _ _ => ?_
  have hb2 := hb1.silent (o := .store (.drainCount handled)) (r := ()) rfl
  refine .request hb2.following fun _ _ => ?_
  have hb3 := hb2.silent (o := .wakeUp) (r := ()) rfl
  exact .request hb3.following fun _ _ => hb3.silent rfl

theorem follows {c : Config Party Op Res World} (hc : driver.Reach guard c) :
    Along (fun h _ => Following h) (own .irq c.log) ∧
      FollowObeys guard Following (c.thread .irq) (fun h _ => Between h) (own .irq c.log) := by
  refine hc.along disciplined .irq Between between_nil fun call p h hp hb => ?_
  cases call with
  | interrupt =>
    obtain rfl := Option.some.inj hp
    exact follow_irqThread hb
  | _ => contradiction

/-- In every run the interrupt thread follows a session of the core. -/
theorem reach_following {c : Config Party Op Res World} (hc : driver.Reach guard c) :
    Following (own .irq c.log) := by
  obtain ⟨-,hrest⟩ := follows hc
  cases hp : c.thread .irq with
  | ret a =>
    rw [hp] at hrest
    exact Between.following hrest
  | call op next =>
    rw [hp] at hrest
    exact hrest.1

/-- The core without the three fields that the boot thread writes too. -/
def unshared (k : Rtkit) : Rtkit := { k with error := 0, iopAcked := false, apAcked := false }

def unsharedUpdate (k : Rtkit) : Ev → Rtkit
  | ⟨.rtkit (.fail _),_⟩ | ⟨.rtkit (.iopAcked _),_⟩ | ⟨.rtkit (.apAcked _),_⟩ => k
  | ⟨.rtkit u,_⟩ => u.apply k
  | _ => k

theorem after_unshared {op : Op} {r : Res op} :
    unshared (s.after op r).rb.rtkit = unsharedUpdate (unshared s.rb.rtkit) ⟨op,r⟩ := by
  rw [after_rtkit]
  cases op with
  | rtkit u => cases u <;> rfl
  | _ => rfl

theorem unsharedUpdate_foreign {j : Party} {op : Op} {r : Res op} (hj : j ≠ .irq) (hl : law j h op)
    (k : Rtkit) : unsharedUpdate k ⟨op,r⟩ = k := by
  cases op with
  | rtkit u =>
    cases j with
    | irq => contradiction
    | main => cases u <;> first | rfl | exact hl.elim
    | _ => exact hl.elim
  | _ => rfl

theorem unshared_ownCore (h : Hist) : unshared (ownCore h) = replay unsharedUpdate .init h := by
  induction h with
  | nil => rfl
  | cons a h ih =>
    obtain ⟨op,r⟩ := a
    rw [replay_cons, ← ih, ownCore, replay_cons]
    cases op with
    | rtkit u => cases u <;> rfl
    | _ => rfl

theorem unshared_eq (ht : Ran guard s log) (hl : Lawful law log) :
    unshared s.rb.rtkit = unshared (ownCore (own .irq log)) := by
  obtain ⟨s₀,h₀,he⟩ := ht.replay_own .irq hl (fun s => unshared s.rb.rtkit) unsharedUpdate
    (fun s op r t hs => hs.2 ▸ after_unshared) fun _ hj _ _ _ k hlaw => unsharedUpdate_foreign hj hlaw k
  rw [he, unshared_ownCore, h₀.rb]
  rfl

/-- A session of the core on its own, and the call it is at, behind a run of the driver. -/
structure FollowedBy (c : Config Party Op Res World) (done : List CoreDone) (s : Rtkit)
    (now : List CoreAct) (core : Rtkit) : Prop where
  run : CoreRun everything done s
  inCall : InCall s now core (current (own .irq c.log))
  tracks : Tracks (own .irq c.log) done now
  core : unshared c.state.rb.rtkit = unshared core

/-- Whatever the boot thread, the GPU callers and the firmware do in between, the
interrupt thread takes the core through a session of its own: the same messages in the same
order, the same stores, sends and buffers, and the same structure behind them. -/
theorem irq_follows_core {c : Config Party Op Res World} (hc : driver.Reachable c) :
    ∃ done s now core, FollowedBy c done s now core := by
  obtain ⟨done,s,now,hrun,hin,ht⟩ := reach_following hc
  exact ⟨done,s,now,_,hrun,hin,ht,unshared_eq hc.trace (reach_lawful hc)⟩

/-- The thread has the hello behind it and is inside a map message. -/
def insideMap : Schedule :=
  [.acts .main 10 true] ++ delivers helloMsg ++ delivers (epmapMsg 0 0x11e false) ++
    [.start .irq .interrupt,.acts .irq 18 true]

theorem irq_follows_core_insideMap : ∃ c : Config Party Op Res World,
    current (own .irq c.log) = some (epMgmt,epmapMsg 0 0x11e false) ∧
      (tally (own .irq c.log)).given.length = 2 ∧
      ∃ done s now core, FollowedBy c done s now core := by
  obtain ⟨c,hc,he⟩ := reach_of_schedule (fun _ _ _ _ => True) insideMap
    (fun c => current (own .irq c.log) == some (epMgmt,epmapMsg 0 0x11e false) &&
      (tally (own .irq c.log)).given.length == 2) (by decide +kernel)
  simp only [Bool.and_eq_true, beq_iff_eq] at he
  exact ⟨c,he.1,he.2,irq_follows_core hc⟩

end AgxOpen.Rtbuddy
