import AgxOpen.Handoff.FlushSlots
import Mathlib.Data.List.Chain

/-!
# The flush slot protocol

What every run behind a successful `agx_handoff_wait_firmware` makes of the
slots, however the firmware interleaves.
-/
namespace AgxOpen.Handoff

variable {guard : Memory → RunLog → Party → Op → Prop} {maxSpins : U32} {h : Hist} {s t : Memory}
  {log : RunLog} {k : ℕ} {call : FlushCall}

theorem opened_of_current (ha : Along apLaw h) (hc : current h = some call) : Opened h := by
  obtain ⟨later,⟨op,r⟩,earlier,rfl,hm,-⟩ := latest_split hc (by simp)
  cases op with
  | mark m =>
    cases m with
    | called call' =>
      have hopen : Opened earlier := ha.of_append.1
      exact List.mem_append_right _ (hopen.cons _)
    | waited | returned => cases hm
  | _ => cases hm

/-- A store to a word of a slot behind the handshake is one of a call. -/
theorem fills_of_opened {offset : ℕ} {value : U64} (ho : Opened h)
    (hl : apLaw h (.write64 offset value)) : ∃ call, current h = some call ∧
      call.context.toNat < flushSlots ∧ Fills call.context.toNat h offset value := by
  obtain ⟨-,hn⟩ | ⟨hn,-⟩ | hf := hl
  · exact absurd ho hn
  · exact absurd ho hn
  · exact hf

theorem fills_state {j : ℕ} {value : U64} (hf : Fills j h (offFlushState k) value) : j = k ∧
    (stored k h = some flushIdle ∧ (value = flushBusy ∨ value = flushDone) ∨
      value = flushIdle ∧ SawDone k h) := by
  have hjk : j = k := by
    have hw := hf.word
    simp only [SlotWord, offFlushState, offFlushAddr, offFlushSize, offFlush] at hw
    omega
  subst hjk
  obtain ⟨-,ho⟩ | ⟨hs,-,hv⟩ | ⟨-,hv,hd⟩ := hf
  · simp only [offFlushState, offFlushAddr, offFlushSize, offFlush] at ho
    omega
  · exact ⟨rfl,.inl ⟨hs,hv⟩⟩
  · exact ⟨rfl,.inr ⟨hv,hd⟩⟩

/-- A store to the address or the size of a slot finds it idle. -/
theorem fills_other {j other : ℕ} {value : U64} (hf : Fills j h other value)
    (hw : SlotWord k other) (hne : other ≠ offFlushState k) : stored k h = some flushIdle := by
  have hjk : j = k := by
    have hj := hf.word
    simp only [SlotWord, offFlushState, offFlushAddr, offFlushSize, offFlush] at hj hw
    omega
  subst hjk
  obtain ⟨hs,-⟩ | ⟨hs,-⟩ | ⟨ho,-⟩ := hf
  · exact hs
  · exact hs
  · exact absurd ho hne

def Valid (value : U64) : Prop := value = flushIdle ∨ value = flushBusy ∨ value = flushDone

/-- Behind the handshake every slot has a state. -/
theorem stored_valid (ha : Along apLaw h) (ho : Opened h) (hk : k < flushSlots) :
    ∃ value, stored k h = some value ∧ Valid value := by
  induction h with
  | nil => contradiction
  | cons a h ih =>
    obtain ⟨op,r⟩ := a
    obtain ⟨hl,hrest⟩ := ha
    by_cases hopen : Opened h
    · obtain ⟨value,hs,hv⟩ := ih hrest hopen
      cases hst : stateStore k ⟨op,r⟩ with
      | none =>
        refine ⟨value,?_,hv⟩
        rwa [stored, latest_cons, hst]
      | some v =>
        cases op with
        | write64 offset new =>
          by_cases he : offset = offFlushState k
          · subst he
            refine ⟨new,by simp [stored, stateStore],?_⟩
            obtain ⟨call,-,-,hf⟩ := fills_of_opened hopen hl
            obtain ⟨-,⟨-,hb⟩ | ⟨hi,-⟩⟩ := fills_state hf
            · exact .inr hb
            · exact .inl hi
          · simp [stateStore, he] at hst
        | _ => cases hst
    · obtain he | he := List.mem_cons.mp ho
      · cases he
        exact ⟨flushIdle,hl rfl k hk,.inl rfl⟩
      · exact absurd he hopen

theorem requested_outcomes (k : ℕ) (h : Hist) : requested k h = (outcomes k h).head?.getD false := by
  rw [requested, latest, outcomes, List.head?_filterMap]

/-- A call succeeds on a slot when the one before it was of the other kind. -/
theorem outcome_turn {a : Ev} {b : Bool} (hl : apLaw h a.op) (hb : outcome k a = some b) :
    requested k h = !b := by
  obtain ⟨op,r⟩ := a
  cases op with
  | mark m =>
    cases m with
    | returned call ret =>
      rw [outcome] at hb
      split at hb
      · rename_i hret
        obtain ⟨hret,rfl⟩ := hret
        obtain ⟨-,⟨hne,-⟩ | ⟨-,-,hm⟩⟩ := hl
        · exact absurd hret hne
        rw [hb] at hm
        cases b with
        | true => exact hm.1
        | false => exact hm.1
      · contradiction
    | waited | called => contradiction
  | _ => contradiction

/-- Successful calls on a slot take turns. -/
theorem outcomes_chain (ha : Along apLaw h) (k : ℕ) : (outcomes k h).IsChain (· ≠ ·) := by
  induction h with
  | nil => exact .nil
  | cons a h ih =>
    obtain ⟨hl,hrest⟩ := ha
    have hchain := ih hrest
    cases hout : outcome k a with
    | none => rwa [outcomes, List.filterMap_cons_none hout]
    | some b =>
      rw [outcomes, List.filterMap_cons_some hout]
      have hturn := (requested_outcomes k h).symm.trans (outcome_turn hl hout)
      rw [outcomes] at hchain hturn
      cases hrec : h.filterMap (outcome k) with
      | nil => exact .singleton b
      | cons c rest =>
        rw [hrec] at hchain hturn
        obtain rfl : c = !b := hturn
        exact .cons_cons (by simp) hchain

theorem one_between {later mid earlier : List Bool}
    (hc : (later ++ true :: (mid ++ true :: earlier)).IsChain (· ≠ ·)) (hm : true ∉ mid) :
    mid = [false] := by
  have hchain := hc.right_of_append
  cases mid with
  | nil => simp at hchain
  | cons b mid =>
    obtain rfl : b = false := by simpa using (List.ne_of_not_mem_cons hm).symm
    cases mid with
    | nil => rfl
    | cons c mid =>
      obtain rfl : c = false := by simpa using (List.ne_of_not_mem_cons (List.not_mem_of_not_mem_cons hm)).symm
      simp at hchain

/-- What a call changes lies in its slot. -/
theorem since_confined (ha : Along apLaw h) (hc : current h = some call) :
    ∀ a ∈ since h, ∀ (s : Memory) (b : ℕ),
      b < offFlush call.context.toNat ∨ offFlush (call.context.toNat+1) ≤ b →
        (s.after a.op a.answer).bytes b = s.bytes b := by
  induction h with
  | nil => simp [since]
  | cons a h ih =>
    have hopen := opened_of_current ha hc
    obtain ⟨hl,hrest⟩ := ha
    cases hm : callMark a with
    | some m => simp [since, hm]
    | none =>
      have hc' : current h = some call := by rwa [current, latest_cons, hm] at hc
      have hsince : since (a :: h) = a :: since h := by simp [since, hm]
      rw [hsince]
      refine List.forall_mem_cons.mpr ⟨?_,ih hrest hc'⟩
      intro s b hb
      have hopen' := opened_of_current hrest hc'
      obtain ⟨op,r⟩ := a
      cases op with
      | write8 | write32 => exact absurd hopen' hl.2
      | write64 offset value =>
        obtain ⟨call',hcall,-,hf⟩ := fills_of_opened hopen' hl
        obtain rfl : call' = call := Option.some.inj (hcall.symm.trans hc')
        refine Bytes.store_outside ?_
        have hw := hf.word
        simp only [SlotWord, offFlushState, offFlushAddr, offFlushSize, offFlush] at hw hb
        omega
      | fwWrite | fwDone => exact hl.elim
      | _ => rfl

theorem untouched_bytes (hu : Untouched h) :
    ∀ a ∈ since h, ∀ s : Memory, (s.after a.op a.answer).bytes = s.bytes := by
  intro a ha s
  have hw := hu a ha
  obtain ⟨op,r⟩ := a
  cases op <;> first | rfl | contradiction

/-- A BUSY slot stays so until the firmware says DONE. -/
theorem busy_after {i : Party} {op : Op} {r : Res op} (hf : Fits s k (own .ap log))
    (ho : Opened (own .ap log)) (hk : k < flushSlots) (hl : law i (own i log) op)
    (ha : s.allows op r) (hb : s.slot k = flushBusy) :
    (s.after op r).slot k = flushBusy ∨
      i = .firmware ∧ op = .fwDone k ∧ (s.after op r).slot k = flushDone := by
  have hkeep (h64 : ∀ value, op ≠ .write64 (offFlushState k) value) (hd : op ≠ .fwDone k) :
      (s.after op r).slot k = flushBusy :=
    (word_after hl ha hk (.inl rfl) h64 fun he => absurd he hd).trans hb
  cases op with
  | write64 offset value =>
    cases i with
    | firmware => exact hl.elim
    | ap =>
      refine .inl (hkeep ?_ (by simp))
      intro v he
      obtain ⟨rfl,rfl⟩ := Op.write64.inj he
      obtain ⟨call,-,-,hfill⟩ := fills_of_opened ho hl
      obtain ⟨-,⟨hs,-⟩ | ⟨-,hd⟩⟩ := fills_state hfill
      · have hidle := hf.stored _ hs
        simp [hb, flushBusy, flushIdle] at hidle
      · have hdone := hf.saw hd
        simp [hb, flushBusy, flushDone] at hdone
  | fwDone slot =>
    by_cases he : slot = k
    · subst he
      cases i with
      | ap => exact hl.elim
      | firmware => exact .inr ⟨rfl,rfl,Bytes.load64_store64_same flushDone⟩
    · exact .inl (hkeep (by simp) fun h => he (Op.fwDone.inj h))
  | _ => exact .inl (hkeep (by simp) (by simp))

/-- The address and the size of a slot that is not IDLE stay. -/
theorem words_after {i : Party} {op : Op} {r : Res op} {other : ℕ} (hf : Fits s k (own .ap log))
    (ho : Opened (own .ap log)) (hk : k < flushSlots) (hl : law i (own i log) op)
    (ha : s.allows op r) (hb : s.slot k ≠ flushIdle) (hw : SlotWord k other)
    (hne : other ≠ offFlushState k) :
    (s.after op r).bytes.load64 other = s.bytes.load64 other := by
  refine word_after hl ha hk hw ?_ fun _ => hne
  rintro value rfl
  cases i with
  | firmware => exact hl.elim
  | ap =>
    obtain ⟨call,-,-,hfill⟩ := fills_of_opened ho hl
    obtain hi | ⟨he,-⟩ := hf.stored _ (fills_other hfill hw hne)
    · exact hb hi
    · simp [flushIdle, flushBusy] at he

theorem slot_valid (ht : (calls maxSpins).Trace guard s log) (hl : Lawful law log)
    (ho : Opened (own .ap log)) (hk : k < flushSlots) : Valid (s.slot k) := by
  obtain ⟨value,hs,hv⟩ := stored_valid (hl.along .ap) ho hk
  obtain rfl | ⟨-,hd⟩ := (fits_of ht hl hk).stored value hs
  · exact hv
  · exact .inr (.inr hd)

theorem Opened.behind {later : RunLog} {e : Party × Ev} (ho : Opened (own .ap log)) :
    Opened (own .ap (later ++ e :: log)) := by
  rw [List.append_cons, own_append]
  exact List.mem_append_right _ ho

/-- Until the firmware marks it, a slot put to BUSY is BUSY. -/
theorem busy_until {mid earlier : RunLog} {r : Unit}
    (ht : (calls maxSpins).Trace guard s (mid ++ (.ap,⟨.write64 (offFlushState k) flushBusy,r⟩) :: earlier))
    (hl : Lawful law (mid ++ (.ap,⟨.write64 (offFlushState k) flushBusy,r⟩) :: earlier))
    (ho : Opened (own .ap earlier)) (hk : k < flushSlots) (hm : (.firmware,⟨.fwDone k,()⟩) ∉ mid) :
    s.slot k = flushBusy := by
  induction mid generalizing s with
  | nil =>
    cases ht with
    | act _ _ hs =>
      obtain ⟨-,rfl⟩ := hs
      exact Bytes.load64_store64_same flushBusy
  | cons e mid ih =>
    cases ht with
    | @act s _ i op r' _ ht _ hs =>
      obtain ⟨ha,rfl⟩ := hs
      have hbusy := ih ht hl.2 (List.not_mem_of_not_mem_cons hm)
      obtain hstay | ⟨rfl,rfl,-⟩ := busy_after (fits_of ht hl.2 hk) ho.behind hk hl.1 ha hbusy
      · exact hstay
      · exact absurd rfl (List.ne_of_not_mem_cons hm)

/-- What one step makes of a slot. -/
structure SlotStep (k : ℕ) (s t : Memory) : Prop where
  /-- The address and the size stay while the slot is not IDLE. -/
  words : s.slot k ≠ flushIdle →
    t.bytes.load64 (offFlushAddr k) = s.bytes.load64 (offFlushAddr k) ∧
    t.bytes.load64 (offFlushSize k) = s.bytes.load64 (offFlushSize k)
  /-- A BUSY slot stays BUSY or becomes DONE. -/
  busy : s.slot k = flushBusy → t.slot k = flushBusy ∨ t.slot k = flushDone

structure FlushProtocol (guard : Memory → RunLog → Party → Op → Prop) (maxSpins : U32)
    (c : Config Party Op Res Memory) : Prop where
  states : ∀ k < flushSlots, Valid (c.state.slot k)
  steps : ∀ k < flushSlots, ∀ d, (calls maxSpins).Step guard c d → SlotStep k c.state d.state
  /-- From one successful prepare call on a slot to the next there is one
  successful complete call on it. -/
  between : ∀ k later mid earlier,
    outcomes k (own .ap c.log) = later ++ true :: (mid ++ true :: earlier) → true ∉ mid → mid = [false]
  /-- A complete call that succeeds has found the slot DONE. -/
  completes : ∀ later call r earlier,
    own .ap c.log = later ++ ⟨.mark (.returned call 0),r⟩ :: earlier → call.effect = some false →
      ∃ rest, earlier = ⟨.write64 (offFlushState call.context.toNat) flushIdle,()⟩ :: rest ∧
        SawDone call.context.toNat rest
  /-- A slot put to BUSY becomes IDLE behind a firmware's DONE. -/
  done : ∀ k < flushSlots, ∀ later r mid r' earlier,
    c.log = later ++ (.ap,⟨.write64 (offFlushState k) flushIdle,r⟩) ::
      (mid ++ (.ap,⟨.write64 (offFlushState k) flushBusy,r'⟩) :: earlier) →
      (.firmware,⟨.fwDone k,()⟩) ∈ mid
  /-- A call that fails, or whose context has no slot, changes nothing. -/
  failed : ∀ later call ret r earlier,
    own .ap c.log = later ++ ⟨.mark (.returned call ret),r⟩ :: earlier →
      ret ≠ 0 ∨ flushSlots ≤ call.context.toNat →
      ∀ a ∈ since earlier, ∀ s : Memory, (s.after a.op a.answer).bytes = s.bytes
  /-- Any other call changes bytes of its own slot only. -/
  confined : ∀ later earlier call, own .ap c.log = later ++ earlier → current earlier = some call →
    ∀ a ∈ since earlier, ∀ (s : Memory) (b : ℕ),
      b < offFlush call.context.toNat ∨ offFlush (call.context.toNat+1) ≤ b →
        (s.after a.op a.answer).bytes b = s.bytes b

theorem slotStep_of {c d : Config Party Op Res Memory} (hc : (calls maxSpins).Reach guard c)
    (hd : (calls maxSpins).Step guard c d) (ho : Opened (own .ap c.log)) (hk : k < flushSlots) :
    SlotStep k c.state d.state := by
  have hl := (hc.step hd).lawful disciplined |>.1
  have hfits := fits_of hc.trace (hc.lawful disciplined).1 hk
  cases hd with
  | start => exact ⟨fun _ => ⟨rfl,rfl⟩,.inl⟩
  | act _ _ hs =>
    obtain ⟨ha,rfl⟩ := hs
    refine ⟨fun hb => ⟨?_,?_⟩,fun hb => ?_⟩
    · exact words_after hfits ho hk hl.1 ha hb (.inr (.inl rfl)) (by simp [offFlushAddr, offFlushState])
    · exact words_after hfits ho hk hl.1 ha hb (.inr (.inr rfl)) (by simp [offFlushSize, offFlushState])
    · exact (busy_after hfits ho hk hl.1 ha hb).imp_right fun h => h.2.2

theorem done_of {later mid earlier : RunLog} {r r' : Unit}
    (ht : (calls maxSpins).Trace guard s (later ++ (.ap,⟨.write64 (offFlushState k) flushIdle,r⟩) ::
      (mid ++ (.ap,⟨.write64 (offFlushState k) flushBusy,r'⟩) :: earlier)))
    (hl : Lawful law (later ++ (.ap,⟨.write64 (offFlushState k) flushIdle,r⟩) ::
      (mid ++ (.ap,⟨.write64 (offFlushState k) flushBusy,r'⟩) :: earlier)))
    (hk : k < flushSlots) : (.firmware,⟨.fwDone k,()⟩) ∈ mid := by
  by_contra hm
  obtain ⟨t,u,ht,-,-⟩ := ht.split
  have hidle := hl.of_append
  have hbusy := hidle.2.of_append
  have hopen : Opened (own .ap earlier) := by
    obtain ⟨ho,-⟩ | ⟨-,hv,-⟩ | ⟨call,hc,-⟩ := hbusy.1
    · simp [offMagicAp, offFlushState, offFlush] at ho
    · simp [flushBusy] at hv
    · exact opened_of_current (hbusy.2.along .ap) hc
  have hslot := busy_until ht hidle.2 hopen hk hm
  obtain ⟨call,-,-,hfill⟩ := fills_of_opened hopen.behind hidle.1
  obtain ⟨-,⟨-,hv⟩ | ⟨-,hd⟩⟩ := fills_state hfill
  · simp [flushIdle, flushBusy, flushDone] at hv
  · have hdone := (fits_of ht hidle.2 hk).saw hd
    simp [hslot, flushBusy, flushDone] at hdone

/-- Every run keeps to the protocol once `agx_handoff_wait_firmware` has succeeded. -/
theorem flush_protocol {c : Config Party Op Res Memory} (hc : (calls maxSpins).Reach guard c)
    (ho : Opened (own .ap c.log)) : FlushProtocol guard maxSpins c := by
  obtain ⟨hl,-⟩ := hc.lawful disciplined
  have ha : Along apLaw (own .ap c.log) := hl.along .ap
  refine ⟨fun k => slot_valid hc.trace hl ho,fun k hk d hd => slotStep_of hc hd ho hk,?_,?_,?_,?_,?_⟩
  · intro k later mid earlier he hm
    exact one_between (he ▸ outcomes_chain ha k) hm
  · intro later call r earlier he heff
    rw [he] at ha
    obtain ⟨-,⟨hne,-⟩ | ⟨-,-,hret⟩⟩ : Outcome call 0 earlier := ha.of_append.1
    · exact absurd rfl hne
    rw [heff] at hret
    exact hret.2
  · intro k hk later r mid r' earlier he
    have ht := hc.trace
    rw [he] at ht hl
    exact done_of ht hl hk
  · intro later call ret r earlier he hret
    rw [he] at ha
    obtain ⟨-,⟨-,hu⟩ | ⟨hzero,hlt,-⟩⟩ : Outcome call ret earlier := ha.of_append.1
    · exact untouched_bytes hu
    · omega
  · intro later earlier call he hcur
    rw [he] at ha
    exact since_confined ha.of_append hcur

def Memory.reply (s : Memory) : (op : Op) → Option (Res op)
  | .read8 offset => some (s.bytes offset)
  | .read32 offset => some (BitVec.ofNat 32 (s.bytes.load offset 4))
  | .read64 offset => some (s.bytes.load64 offset)
  | .rounds => some (1 : ℕ)
  | .fwWrite offset _ => if offset < offFlush 0 ∨ offFlush flushSlots ≤ offset then some () else none
  | .fwDone slot => if slot < flushSlots ∧ s.slot slot = flushBusy then some () else none
  | .write8 _ _ | .write32 _ _ | .write64 _ _ | .relax | .barrier | .setLocked _
  | .setInitialized _ | .mark _ => some ()
  | .never => none

def Memory.answer (_ : Bool) (s : Memory) (op : Op) : Option (Res op × Memory) :=
  (s.reply op).map fun r => (r,s.after op r)

theorem Memory.answer_step {pick : Bool} {op : Op} {r : Res op} (h : s.answer pick op = some (r,t)) :
    s.step op r t := by
  obtain ⟨r',hr,he⟩ := Option.map_eq_some_iff.mp h
  obtain ⟨rfl,rfl⟩ := Prod.mk.inj he
  refine ⟨?_,rfl⟩
  cases op with
  | read8 | read32 | read64 => exact (Option.some.inj hr).symm
  | fwWrite | fwDone => exact (Option.ite_none_right_eq_some.mp hr).1
  | _ => trivial

/-- The firmware is up and the lock is free. -/
def started : Memory := ⟨Bytes.store64 (fun _ => 0#8) offMagicFw magic,false,false⟩

/-- A cache flush through slot 3 and an unmap behind it. -/
def flushed : List (Threads.Turn Party Step) :=
  [.acts .ap 212 true,.start .ap (.flush (.prepareCacheflush 3#32 0x4000#64 0x1000#64)),.acts .ap 6 true,
   .start .firmware (.done 3),.acts .firmware 1 true,
   .start .ap (.flush (.completeCacheflush 3#32)),.acts .ap 4 true,
   .start .ap (.flush (.prepareUnmap 3#32 0x8000#64 0x1000#64)),.acts .ap 3 true]

theorem flush_protocol_flushed : ∃ c : Config Party Op Res Memory,
    outcomes 3 (own .ap c.log) = [false,true] ∧ c.log.length = 226 ∧
      FlushProtocol (fun _ _ _ _ => True) 0#32 c := by
  have hrun : ((calls 0#32).turns (fun _ _ _ _ => True) Memory.answer
      ⟨started,(calls 0#32).first,[]⟩ flushed).any (fun c =>
        outcomes 3 (own .ap c.log) == [false,true] && c.log.length == 226 &&
          (current (own .ap c.log)).isSome) = true := by decide +kernel
  obtain ⟨c,hc,he⟩ := Threads.reach_of_turns (fun _ _ _ _ _ => Memory.answer_step) hrun
  simp only [Bool.and_eq_true, beq_iff_eq, Option.isSome_iff_exists] at he
  obtain ⟨⟨hout,hlen⟩,call,hcall⟩ := he
  have hreach : (calls 0#32).Reach (fun _ _ _ _ => True) c := hc.of_startingAt (T := calls 0#32) ⟨rfl,rfl⟩
  have ha := ((hreach.lawful disciplined).1.along .ap)
  exact ⟨c,hout,hlen,flush_protocol hreach (opened_of_current ha hcall)⟩

end AgxOpen.Handoff
