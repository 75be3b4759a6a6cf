import AgxOpen.Handoff.Kinds

/-!
# The flush slots

What the AP stored to a slot's state last and what the firmware made of it
decide which calls on the slot succeed.
-/
namespace AgxOpen.Handoff

abbrev Ev := Act Op Res
abbrev Hist := List Ev
abbrev RunLog := Log Party Op Res

variable {guard : Memory → RunLog → Party → Op → Prop} {maxSpins : U32} {h : Hist} {s t : Memory}
  {log : RunLog} {k : ℕ} {call : FlushCall}

/-- `agx_handoff_wait_firmware` returned 0. -/
def Opened (h : Hist) : Prop := (⟨.mark (.waited 0),()⟩ : Ev) ∈ h

def stateStore (k : ℕ) : Ev → Option (Option U64)
  | ⟨.write64 offset value,_⟩ => if offset = offFlushState k then some (some value) else none
  | _ => none

/-- What the AP stored to the state word of a slot last. -/
def stored (k : ℕ) (h : Hist) : Option U64 := latest (stateStore k) none h

def callMark : Ev → Option (Option FlushCall)
  | ⟨.mark (.called call),_⟩ => some (some call)
  | ⟨.mark (.returned _ _),_⟩ => some none
  | _ => none

/-- The call in progress. -/
def current (h : Hist) : Option FlushCall := latest callMark none h

/-- What was done since the call began. -/
def since (h : Hist) : Hist := h.takeWhile fun a => (callMark a).isNone

def writes : Op → Bool
  | .write8 .. | .write32 .. | .write64 .. | .fwWrite .. | .fwDone _ => true
  | _ => false

/-- The call has written nothing. -/
def Untouched (h : Hist) : Prop := ∀ a ∈ since h, writes a.op = false

/-- A prepare call makes a request, a complete call ends it. -/
def FlushCall.effect : FlushCall → Option Bool
  | .prepareCacheflush .. | .prepareUnmap .. => some true
  | .completeCacheflush _ | .completeUnmap _ => some false
  | .waitCacheflush .. => none

def outcome (k : ℕ) : Ev → Option Bool
  | ⟨.mark (.returned call ret),_⟩ => if ret = 0 ∧ call.context.toNat = k then call.effect else none
  | _ => none

/-- The successful calls on a slot, newest first. -/
def outcomes (k : ℕ) (h : Hist) : List Bool := h.filterMap (outcome k)

/-- The newest of them is a prepare. -/
def requested (k : ℕ) (h : Hist) : Bool := latest (outcome k) false h

/-- The AP has just found the slot DONE. -/
def SawDone (k : ℕ) (h : Hist) : Prop := ∃ rest, h = ⟨.read64 (offFlushState k),flushDone⟩ :: rest

/-- A store of the clearing loop. -/
def Clears (h : Hist) (offset : ℕ) (value : U64) : Prop := ¬ Opened h ∧ value = 0#64 ∧
  ∃ k < flushSlots, offset = offFlushState k ∨ offset = offFlushAddr k ∨ offset = offFlushSize k

/-- A store of a call to a slot: to the address and the size of an idle slot, a
request for an idle slot, or the end of one that is done. -/
def Fills (k : ℕ) (h : Hist) (offset : ℕ) (value : U64) : Prop :=
  stored k h = some flushIdle ∧ (offset = offFlushAddr k ∨ offset = offFlushSize k) ∨
  stored k h = some flushIdle ∧ offset = offFlushState k ∧ (value = flushBusy ∨ value = flushDone) ∨
  offset = offFlushState k ∧ value = flushIdle ∧ SawDone k h

/-- What a call leaves behind when it returns. -/
def Outcome (call : FlushCall) (ret : ℤ) (h : Hist) : Prop := current h = some call ∧
  (ret ≠ 0 ∧ Untouched h ∨ ret = 0 ∧ call.context.toNat < flushSlots ∧
    match call.effect with
    | some true => requested call.context.toNat h = false ∧
        (stored call.context.toNat h = some flushBusy ∨ stored call.context.toNat h = some flushDone)
    | some false => requested call.context.toNat h = true ∧ ∃ rest,
        h = ⟨.write64 (offFlushState call.context.toNat) flushIdle,()⟩ :: rest ∧
          SawDone call.context.toNat rest
    | none => Untouched h)

def apLaw (h : Hist) : Op → Prop
  | .write8 offset _ => offset = offLockAp ∧ ¬ Opened h
  | .write32 offset _ => offset = offTurn ∧ ¬ Opened h
  | .write64 offset value => offset = offMagicAp ∧ ¬ Opened h ∨ Clears h offset value ∨
    ∃ call, current h = some call ∧ call.context.toNat < flushSlots ∧
      Fills call.context.toNat h offset value
  | .mark (.waited ret) => ret = 0 → ∀ k < flushSlots, stored k h = some flushIdle
  | .mark (.called _) => Opened h
  | .mark (.returned call ret) => Outcome call ret h
  | .fwWrite .. | .fwDone _ => False
  | _ => True

def firmwareLaw : Op → Prop
  | .fwWrite .. | .fwDone _ => True
  | _ => False

def law : Party → Hist → Op → Prop
  | .ap, h, op => apLaw h op
  | .firmware, _, op => firmwareLaw op

/-- A word of one of the slots. -/
def SlotWord (j offset : ℕ) : Prop :=
  offset = offFlushState j ∨ offset = offFlushAddr j ∨ offset = offFlushSize j

/-- The words at two offsets have no byte in common. -/
def Apart (offset other : ℕ) : Prop := other+8 ≤ offset ∨ offset+8 ≤ other

theorem SlotWord.apart {j offset other : ℕ} (hj : SlotWord j offset) (hk : SlotWord k other)
    (hne : offset ≠ other) : Apart offset other := by
  simp only [SlotWord, Apart, offFlushState, offFlushAddr, offFlushSize, offFlush] at *
  omega

theorem Fills.word {j offset : ℕ} {value : U64} (hf : Fills j h offset value) : SlotWord j offset := by
  obtain ⟨-,ho⟩ | ⟨-,ho,-⟩ | ⟨ho,-⟩ := hf
  · exact .inr ho
  · exact .inl ho
  · exact .inl ho

/-- The AP writes its magic and words of slots. -/
theorem apLaw_apart {offset other : ℕ} {value : U64} (hl : apLaw h (.write64 offset value))
    (hk : SlotWord k other) (hne : offset ≠ other) : Apart offset other := by
  obtain ⟨rfl,-⟩ | ⟨-,-,j,-,hj⟩ | ⟨call,-,-,hf⟩ := hl
  · simp only [SlotWord, Apart, offMagicAp, offFlushState, offFlushAddr, offFlushSize, offFlush] at *
    omega
  · exact SlotWord.apart hj hk hne
  · exact hf.word.apart hk hne

/-- What an operation of the AP or the firmware leaves of a word of a slot. -/
theorem word_after {j : Party} {op : Op} {r : Res op} {other : ℕ} (hl : law j h op)
    (ha : s.allows op r) (hk : k < flushSlots) (hw : SlotWord k other)
    (h64 : ∀ value, op ≠ .write64 other value)
    (hdone : op = .fwDone k → other ≠ offFlushState k) :
    (s.after op r).bytes.load64 other = s.bytes.load64 other := by
  have hlo : 0x20 ≤ other ∧ other+8 ≤ offFlush flushSlots := by
    simp only [SlotWord, offFlushState, offFlushAddr, offFlushSize, offFlush, flushSlots] at *
    omega
  cases op with
  | write8 offset value =>
    cases j with
    | ap =>
      obtain ⟨rfl,-⟩ := hl
      refine Bytes.load64_store_apart ?_
      simp only [offLockAp]
      omega
    | firmware => exact hl.elim
  | write32 offset value =>
    cases j with
    | ap =>
      obtain ⟨rfl,-⟩ := hl
      refine Bytes.load64_store_apart ?_
      simp only [offTurn]
      omega
    | firmware => exact hl.elim
  | write64 offset value =>
    cases j with
    | ap =>
      have hap := apLaw_apart hl hw fun he => h64 value (by rw [he])
      exact Bytes.load64_store_apart hap
    | firmware => exact hl.elim
  | fwWrite offset value =>
    have hout : offset < offFlush 0 ∨ offFlush flushSlots ≤ offset := ha
    refine Bytes.load64_store_apart ?_
    simp only [offFlush] at *
    omega
  | fwDone slot =>
    have hne : offFlushState slot ≠ other := by
      intro he
      have hslot : slot = k := by
        simp only [SlotWord, offFlushState, offFlushAddr, offFlushSize, offFlush] at *
        omega
      exact hdone (by rw [hslot]) (by rw [← he, hslot])
    exact Bytes.load64_store_apart (SlotWord.apart (.inl rfl) hw hne)
  | _ => rfl

/-- The state word is what the AP stored last, or DONE where that was BUSY. -/
structure Fits (s : Memory) (k : ℕ) (h : Hist) : Prop where
  stored : ∀ value, stored k h = some value →
    s.slot k = value ∨ value = flushBusy ∧ s.slot k = flushDone
  saw : SawDone k h → s.slot k = flushDone

theorem not_sawDone {op : Op} {r : Res op} (hop : ∀ offset, op ≠ .read64 offset) :
    ¬ SawDone k (⟨op,r⟩ :: h) := by
  rintro ⟨rest,he⟩
  cases he
  exact hop _ rfl

/-- An operation of the AP that does not store to the state word. -/
theorem Fits.keep {op : Op} {r : Res op} (hf : Fits s k h) (hs : (s.after op r).slot k = s.slot k)
    (hst : stateStore k ⟨op,r⟩ = none) (hop : ∀ offset, op ≠ .read64 offset) :
    Fits (s.after op r) k (⟨op,r⟩ :: h) where
  stored value hv := by
    rw [hs]
    refine hf.stored value ?_
    rwa [Handoff.stored, latest_cons, hst] at hv
  saw hd := absurd hd (not_sawDone hop)

theorem Fits.ap {op : Op} {r : Res op} (hf : Fits s k h) (hl : apLaw h op) (ha : s.allows op r)
    (hk : k < flushSlots) : Fits (s.after op r) k (⟨op,r⟩ :: h) := by
  have hword (h64 : ∀ value, op ≠ .write64 (offFlushState k) value)
      (hdone : op = .fwDone k → offFlushState k ≠ offFlushState k) :
      (s.after op r).slot k = s.slot k :=
    word_after (j := .ap) hl ha hk (.inl rfl) h64 hdone
  cases op with
  | write64 offset value =>
    by_cases he : offset = offFlushState k
    · subst he
      refine ⟨fun v hv => .inl ?_,fun hd => absurd hd (not_sawDone nofun)⟩
      have hval : value = v := by simpa [Handoff.stored, stateStore] using hv
      rw [← hval]
      exact Bytes.load64_store64_same value
    · refine hf.keep (hword (fun v hv => he (Op.write64.inj hv).1) nofun) ?_ nofun
      simp [stateStore, he]
  | read64 offset =>
    refine ⟨hf.stored,?_⟩
    rintro ⟨rest,he⟩
    cases he
    exact (show flushDone = s.slot k from ha).symm
  | fwDone slot => exact hl.elim
  | _ => exact hf.keep (hword nofun nofun) rfl nofun

theorem Fits.firmware {op : Op} {r : Res op} (hf : Fits s k h) (hl : firmwareLaw op)
    (ha : s.allows op r) (hk : k < flushSlots) : Fits (s.after op r) k h := by
  cases op with
  | fwWrite offset value =>
    have hs : (s.after (.fwWrite offset value) r).slot k = s.slot k :=
      word_after (h := h) (j := .firmware) hl ha hk (.inl rfl) nofun nofun
    exact ⟨fun v hv => by rw [hs]; exact hf.stored v hv,fun hd => by rw [hs]; exact hf.saw hd⟩
  | fwDone slot =>
    by_cases he : slot = k
    · subst he
      have hs : (s.after (.fwDone slot) r).slot slot = flushDone := Bytes.load64_store64_same flushDone
      refine ⟨fun v hv => .inr ⟨?_,hs⟩,fun _ => hs⟩
      obtain hv | ⟨hv,-⟩ := hf.stored v hv
      · exact hv.symm.trans ha.2
      · exact hv
    · have hs : (s.after (.fwDone slot) r).slot k = s.slot k := by
        refine word_after (h := h) (j := .firmware) hl ha hk (.inl rfl) nofun fun hop => ?_
        exact absurd (Op.fwDone.inj hop) he
      exact ⟨fun v hv => by rw [hs]; exact hf.stored v hv,fun hd => by rw [hs]; exact hf.saw hd⟩
  | _ => exact hl.elim

theorem own_firmware (a : Ev) (log : RunLog) : own .ap ((.firmware,a) :: log) = own .ap log :=
  own_cons_ne (by simp) a log

theorem fits_of (ht : (calls maxSpins).Trace guard s log) (hl : Lawful law log)
    (hk : k < flushSlots) : Fits s k (own .ap log) := by
  induction ht with
  | init =>
    refine ⟨nofun,?_⟩
    rintro ⟨rest,he⟩
    cases he
  | @act s log i op r t _ _ hs ih =>
    obtain ⟨ha,rfl⟩ := hs
    cases i with
    | ap =>
      rw [own_cons_self]
      exact (ih hl.2).ap hl.1 ha hk
    | firmware =>
      rw [own_firmware]
      exact (ih hl.2).firmware hl.1 ha hk

abbrev ApObeys (guard : Memory → RunLog → Party → Op → Prop) (maxSpins : U32) {α : Type}
    (p : Prog α) (Q : Hist → α → Prop) (h : Hist) : Prop :=
  Obeys apLaw ((calls maxSpins).May guard law .ap) p Q h

/-- The history has no marks. -/
def Early (h : Hist) : Prop := ∀ a ∈ h, ∀ m, a.op ≠ .mark m

theorem Early.cons {o : Op} {r : Res o} (he : Early h) (hop : ∀ m, o ≠ .mark m) :
    Early (⟨o,r⟩ :: h) := List.forall_mem_cons.mpr ⟨hop,he⟩

theorem Early.closed (he : Early h) : ¬ Opened h := fun ho => he _ ho _ rfl

theorem Early.requested (he : Early h) (k : ℕ) : requested k h = false := by
  induction h with
  | nil => rfl
  | cons a h ih =>
    obtain ⟨hm,hrest⟩ := List.forall_mem_cons.mp he
    rw [Handoff.requested, latest_cons]
    obtain ⟨op,r⟩ := a
    cases op with
    | mark m => exact absurd rfl (hm m)
    | _ => exact ih hrest

theorem Early.current (he : Early h) : current h = none := by
  induction h with
  | nil => rfl
  | cons a h ih =>
    obtain ⟨hm,hrest⟩ := List.forall_mem_cons.mp he
    rw [Handoff.current, latest_cons]
    obtain ⟨op,r⟩ := a
    cases op with
    | mark m => exact absurd rfl (hm m)
    | _ => exact ih hrest

/-- The operations of the handshake outside the slots. -/
def shakes : Op → Bool
  | .write8 offset _ => offset == offLockAp
  | .write32 offset _ => offset == offTurn
  | .write64 offset _ => offset == offMagicAp
  | .mark _ | .fwWrite .. | .fwDone _ => false
  | _ => true

abbrev Shakes {α : Type} (p : Prog α) : Prop := Program.Only (fun op => shakes op = true) p

theorem shakes_lock (maxSpins : U32) : Shakes (lock maxSpins) := by
  refine (only_lock maxSpins).mono fun op hop => ?_
  cases op <;> first | rfl | exact beq_iff_eq.mpr hop | exact hop.elim

theorem shakes_unlock : Shakes unlock := by
  refine only_unlock.mono fun op hop => ?_
  cases op <;> first | rfl | exact beq_iff_eq.mpr hop.1 | exact hop.elim

theorem shakes_pollMagic (maxSpins : U32) (n : ℕ) (spins : U32) : Shakes (pollMagic maxSpins n spins) := by
  refine (only_pollMagic maxSpins n spins).mono fun op hop => ?_
  cases op <;> first | rfl | exact hop.elim

theorem shakes_law {op : Op} (hop : shakes op = true) (he : Early h) : apLaw h op := by
  cases op with
  | write8 offset value => exact ⟨beq_iff_eq.mp hop,he.closed⟩
  | write32 offset value => exact ⟨beq_iff_eq.mp hop,he.closed⟩
  | write64 offset value => exact .inl ⟨beq_iff_eq.mp hop,he.closed⟩
  | mark | fwWrite | fwDone => contradiction
  | _ => trivial

theorem ap_shakes {α : Type} {p : Prog α} (hp : Shakes p) (he : Early h) :
    ApObeys guard maxSpins p (fun h' _ => Early h') h := by
  refine obeys_only hp Early he (fun _ _ hop he => shakes_law hop he) fun _ op _ hop _ he => ?_
  refine he.cons fun m hm => ?_
  subst hm
  contradiction

theorem stored_state (j : ℕ) (value : U64) (r : Unit) :
    stored k (⟨.write64 (offFlushState j) value,r⟩ :: h) = if j = k then some value else stored k h := by
  have hinj : offFlushState j = offFlushState k ↔ j = k := by
    simp only [offFlushState, offFlush]
    omega
  rw [stored, latest_cons, stateStore]
  simp only [hinj]
  split <;> rfl

/-- The other words of a slot are none of the state words. -/
theorem stored_other {j offset : ℕ} (value : U64) (r : Unit)
    (ho : offset = offFlushAddr j ∨ offset = offFlushSize j) :
    stored k (⟨.write64 offset value,r⟩ :: h) = stored k h := by
  have hne : offset ≠ offFlushState k := by
    simp only [offFlushState, offFlushAddr, offFlushSize, offFlush] at *
    omega
  rw [stored, latest_cons, stateStore, if_neg hne]
  rfl

theorem ap_clearSlot {j : ℕ} (hj : j < flushSlots) (he : Early h)
    (hs : ∀ k < j, stored k h = some flushIdle) :
    ApObeys guard maxSpins (clearSlot j)
      (fun h' _ => Early h' ∧ ∀ k < j+1, stored k h' = some flushIdle) h := by
  have h1 := he.cons (o := .write64 (offFlushState j) 0#64) (r := ()) (by simp)
  have h2 := h1.cons (o := .write64 (offFlushAddr j) 0#64) (r := ()) (by simp)
  refine .request (.inr (.inl ⟨he.closed,rfl,j,hj,.inl rfl⟩)) fun _ _ => ?_
  refine .request (.inr (.inl ⟨h1.closed,rfl,j,hj,.inr (.inl rfl)⟩)) fun _ _ => ?_
  refine ⟨.inr (.inl ⟨h2.closed,rfl,j,hj,.inr (.inr rfl)⟩),fun _ _ => ⟨h2.cons (by simp),fun k hk => ?_⟩⟩
  rw [stored_other _ _ (.inr rfl), stored_other _ _ (.inl rfl), stored_state]
  split_ifs with hjk
  · rfl
  · exact hs k (by omega)

theorem ap_clearSlots {n : ℕ} (hn : n ≤ flushSlots) (he : Early h) :
    ApObeys guard maxSpins (Program.forRange n clearSlot)
      (fun h' _ => Early h' ∧ ∀ k < n, stored k h' = some flushIdle) h := by
  induction n with
  | zero => exact ⟨he,fun k hk => absurd hk k.not_lt_zero⟩
  | succ n ih => exact (ih (by omega)).bind fun h' _ hI => ap_clearSlot (by omega) hI.1 hI.2

theorem ap_waitFirmware :
    ApObeys guard maxSpins (waitFirmware maxSpins) (fun h' ret => Early h' ∧
      (ret = 0 → ∀ k < flushSlots, stored k h' = some flushIdle)) [] := by
  have h0 : Early [] := nofun
  refine .request (.inl ⟨rfl,h0.closed⟩) fun _ _ => ?_
  refine (ap_shakes (shakes_lock maxSpins) (h0.cons (by simp))).bind fun h1 ret he1 => ?_
  split_ifs with hret
  · exact ⟨he1,fun h => absurd h hret⟩
  refine .request trivial fun n _ => ?_
  refine (ap_shakes (shakes_pollMagic maxSpins n 0#32) (he1.cons (by simp))).bind fun h2 seen he2 => ?_
  refine (ap_shakes shakes_unlock he2).bind fun h3 _ he3 => ?_
  cases seen with
  | false => exact ⟨he3,fun h => absurd h (by decide)⟩
  | true =>
    refine (ap_clearSlots le_rfl he3).bind fun h4 _ hI => ?_
    exact .request trivial fun _ _ => ⟨hI.1.cons (by simp),fun _ => hI.2⟩

/-- What the AP knows of a slot between its calls. -/
def Tracks (k : ℕ) (h : Hist) : Prop :=
  requested k h = false ∧ stored k h = some flushIdle ∨
  requested k h = true ∧ (stored k h = some flushBusy ∨ stored k h = some flushDone)

structure Ready (h : Hist) : Prop where
  opened : Opened h
  current : current h = none
  tracks : ∀ k < flushSlots, Tracks k h

/-- A call that has written nothing yet. -/
structure Running (call : FlushCall) (h : Hist) : Prop where
  opened : Opened h
  current : current h = some call
  untouched : Untouched h
  tracks : ∀ k < flushSlots, Tracks k h

/-- The call may return. -/
structure Finishes (call : FlushCall) (ret : ℤ) (h : Hist) : Prop where
  outcome : Outcome call ret h
  ready : Ready (⟨.mark (.returned call ret),()⟩ :: h)

theorem Opened.cons (ho : Opened h) (a : Ev) : Opened (a :: h) := List.mem_cons_of_mem a ho

theorem requested_returned (call : FlushCall) (ret : ℤ) (h : Hist) (k : ℕ) :
    requested k (⟨.mark (.returned call ret),()⟩ :: h) =
      if ret = 0 ∧ call.context.toNat = k then call.effect.getD (requested k h) else requested k h := by
  rw [requested, latest_cons, outcome]
  split <;> rfl

theorem Ready.called (hr : Ready h) (call : FlushCall) :
    Running call (⟨.mark (.called call),()⟩ :: h) where
  opened := hr.opened.cons _
  current := rfl
  untouched := by simp [Untouched, since, callMark]
  tracks := hr.tracks

/-- The operations of a call that write nothing. -/
def peeks : Op → Bool
  | .read64 _ | .relax | .rounds | .never => true
  | _ => false

theorem Running.peek {o : Op} {r : Res o} (hr : Running call h) (hop : peeks o = true) :
    Running call (⟨o,r⟩ :: h) := by
  have hmark : callMark ⟨o,r⟩ = none ∧ writes o = false ∧ ∀ k, outcome k ⟨o,r⟩ = none ∧
      stateStore k ⟨o,r⟩ = none := by
    cases o <;> first | exact ⟨rfl,rfl,fun _ => ⟨rfl,rfl⟩⟩ | contradiction
  obtain ⟨hm,hw,hk⟩ := hmark
  refine ⟨hr.opened.cons _,?_,?_,fun k hlt => ?_⟩
  · rw [Handoff.current, latest_cons, hm]
    exact hr.current
  · rw [Untouched, since, List.takeWhile_cons, hm]
    exact List.forall_mem_cons.mpr ⟨hw,hr.untouched⟩
  · have hreq : requested k (⟨o,r⟩ :: h) = requested k h := by
      rw [requested, latest_cons, (hk k).1]
      rfl
    have hst : stored k (⟨o,r⟩ :: h) = stored k h := by
      rw [stored, latest_cons, (hk k).2]
      rfl
    rw [Tracks, hreq, hst]
    exact hr.tracks k hlt

/-- A call that made no change leaves the slots as they were. -/
theorem Running.returned {ret : ℤ} (hr : Running call h) (hret : ret ≠ 0 ∨ call.effect = none) :
    Ready (⟨.mark (.returned call ret),()⟩ :: h) := by
  refine ⟨hr.opened.cons _,rfl,fun k hk => ?_⟩
  have hreq : requested k (⟨.mark (.returned call ret),()⟩ :: h) = requested k h := by
    rw [requested_returned]
    obtain hne | heff := hret
    · exact if_neg fun hc => hne hc.1
    · simp [heff]
  rw [Tracks, hreq]
  exact hr.tracks k hk

theorem Running.fails {ret : ℤ} (hr : Running call h) (hret : ret ≠ 0) : Finishes call ret h :=
  ⟨⟨hr.current,.inl ⟨hret,hr.untouched⟩⟩,hr.returned (.inl hret)⟩

theorem einval_ne : Status.einval ≠ 0 := by decide

/-- What the AP reads of a slot's state. -/
theorem found_fits {found : U64} (hk : k < flushSlots)
    (hm : (calls maxSpins).May guard law .ap h (.read64 (offFlushState k)) found) {value : U64}
    (hs : stored k h = some value) : found = value ∨ value = flushBusy ∧ found = flushDone := by
  obtain ⟨s,log,t,ht,hl,rfl,-,ha,-⟩ := hm
  obtain rfl : found = s.slot k := ha
  exact (fits_of ht hl hk).stored value hs

/-- A slot found IDLE has no request. -/
theorem Running.free {found : U64} (hr : Running call h) (hk : k < flushSlots)
    (hm : (calls maxSpins).May guard law .ap h (.read64 (offFlushState k)) found)
    (hf : found = flushIdle) : requested k h = false ∧ stored k h = some flushIdle := by
  obtain hfree | ⟨-,hs | hs⟩ := hr.tracks k hk
  · exact hfree
  · have hbusy := found_fits hk hm hs
    simp [hf, flushIdle, flushBusy, flushDone] at hbusy
  · have hdone := found_fits hk hm hs
    simp [hf, flushIdle, flushBusy, flushDone] at hdone

/-- A slot found DONE has one. -/
theorem Running.taken {found : U64} (hr : Running call h) (hk : k < flushSlots)
    (hm : (calls maxSpins).May guard law .ap h (.read64 (offFlushState k)) found)
    (hf : found = flushDone) : requested k h = true := by
  obtain ⟨-,hs⟩ | ⟨htrue,-⟩ := hr.tracks k hk
  · have hidle := found_fits hk hm hs
    simp [hf, flushIdle, flushBusy, flushDone] at hidle
  · exact htrue

/-- The call stores the last word of its slot's state and returns 0. -/
theorem Running.succeeds (hr : Running call h) {k : ℕ} (hk : k = call.context.toNat)
    {during : Hist} {value : U64}
    (ho : Outcome call 0 (⟨.write64 (offFlushState k) value,()⟩ :: during))
    (hdur : Opened during ∧ ∀ k, requested k during = requested k h ∧ stored k during = stored k h)
    (ht : call.effect = some true ∧ (value = flushBusy ∨ value = flushDone) ∨
      call.effect = some false ∧ value = flushIdle) :
    Finishes call 0 (⟨.write64 (offFlushState k) value,()⟩ :: during) := by
  obtain ⟨hopen,hsame⟩ := hdur
  refine ⟨ho,(hopen.cons _).cons _,rfl,fun j hj => ?_⟩
  have hst : stored j (⟨.mark (.returned call 0),()⟩ :: ⟨.write64 (offFlushState k) value,()⟩ :: during) =
      if k = j then some value else stored j during := stored_state k value ()
  have hreq : requested j (⟨.write64 (offFlushState k) value,()⟩ :: during) = requested j h :=
    (hsame j).1
  rw [Tracks, requested_returned, hst, hreq, (hsame j).2]
  by_cases hkj : k = j
  · rw [if_pos ⟨rfl,hk.symm.trans hkj⟩, if_pos hkj]
    obtain ⟨he,rfl | rfl⟩ | ⟨he,rfl⟩ := ht <;> simp [he]
  · rw [if_neg fun hc => hkj (hk.trans hc.2), if_neg hkj]
    exact hr.tracks j hj

theorem ap_prepare {addr size state : U64} (hcall : call.effect = some true)
    (hstate : state = flushBusy ∨ state = flushDone) (hr : Running call h) :
    ApObeys guard maxSpins (prepare call.context addr size state)
      (fun h' ret => Finishes call ret h') h := by
  rw [prepare]
  split_ifs with hctx
  · exact hr.fails einval_ne
  have hk : call.context.toNat < flushSlots := by omega
  refine .request trivial fun found hfound => ?_
  have hr1 := hr.peek (o := .read64 (offFlushState call.context.toNat)) (r := found) rfl
  split_ifs with hf
  · exact hr1.fails einval_ne
  obtain ⟨hreq,hst⟩ := hr.free hk hfound (not_not.mp hf)
  have hst1 : stored call.context.toNat (⟨.read64 (offFlushState call.context.toNat),found⟩ :: h) =
      some flushIdle := hst
  refine .request (.inr (.inr ⟨call,hr1.current,hk,.inl ⟨hst1,.inl rfl⟩⟩)) fun _ _ => ?_
  have hst2 := (stored_other (j := call.context.toNat) addr () (.inl rfl)).trans hst1
  refine .request (.inr (.inr ⟨call,hr1.current,hk,.inl ⟨hst2,.inr rfl⟩⟩)) fun _ _ => ?_
  have hst3 := (stored_other (j := call.context.toNat) size () (.inr rfl)).trans hst2
  refine .request (.inr (.inr ⟨call,hr1.current,hk,.inr (.inl ⟨hst3,rfl,hstate⟩)⟩)) fun _ _ => ?_
  refine hr.succeeds rfl ⟨hr1.current,.inr ⟨rfl,hk,?_⟩⟩ ⟨((hr1.opened.cons _).cons _),fun j => ⟨rfl,?_⟩⟩
    (.inl ⟨hcall,hstate⟩)
  · rw [hcall]
    refine ⟨hreq,?_⟩
    rw [stored_state, if_pos rfl]
    exact hstate.imp (congrArg some) (congrArg some)
  · rw [stored_other (j := call.context.toNat) size () (.inr rfl),
      stored_other (j := call.context.toNat) addr () (.inl rfl)]
    rfl

theorem ap_complete (hcall : call.effect = some false) (hr : Running call h) :
    ApObeys guard maxSpins (complete call.context) (fun h' ret => Finishes call ret h') h := by
  rw [complete]
  split_ifs with hctx
  · exact hr.fails einval_ne
  have hk : call.context.toNat < flushSlots := by omega
  refine .request trivial fun found hfound => ?_
  have hr1 := hr.peek (o := .read64 (offFlushState call.context.toNat)) (r := found) rfl
  split_ifs with hf
  · exact hr1.fails einval_ne
  obtain rfl : found = flushDone := not_not.mp hf
  have hreq := hr.taken hk hfound rfl
  refine .request (.inr (.inr ⟨call,hr1.current,hk,.inr (.inr ⟨rfl,rfl,h,rfl⟩)⟩)) fun _ _ => ?_
  refine hr.succeeds rfl ⟨hr1.current,.inr ⟨rfl,hk,?_⟩⟩ ⟨hr1.opened,fun j => ⟨rfl,rfl⟩⟩
    (.inr ⟨hcall,rfl⟩)
  rw [hcall]
  exact ⟨hreq,_,rfl,h,rfl⟩

theorem peeks_pollFlush (context maxSpins : U32) (n : ℕ) (spins : U32) :
    Program.Only (fun op => peeks op = true) (pollFlush context maxSpins n spins) := by
  refine (only_pollFlush context maxSpins n spins).mono fun op hop => ?_
  cases op <;> first | rfl | exact hop.elim

theorem peeks_law {op : Op} (hop : peeks op = true) (h : Hist) : apLaw h op := by
  cases op <;> trivial

theorem ap_wait {spins : U32} (hcall : call.effect = none) (hr : Running call h) :
    ApObeys guard maxSpins (waitCacheflush call.context spins) (fun h' ret => Finishes call ret h') h := by
  rw [waitCacheflush]
  split_ifs with hctx
  · exact hr.fails einval_ne
  refine .request trivial fun n _ => ?_
  have hpoll : ApObeys guard maxSpins (pollFlush call.context spins n 0#32)
      (fun h' _ => Running call h') (⟨.rounds,n⟩ :: h) :=
    obeys_only (peeks_pollFlush _ _ _ _) (Running call) (hr.peek rfl)
      (fun h' _ hop _ => peeks_law hop h') (fun _ _ _ hop _ hrun => hrun.peek hop)
  refine hpoll.mono fun h' ret hrun => ⟨⟨hrun.current,?_⟩,hrun.returned (.inr hcall)⟩
  by_cases hret : ret = 0
  · refine .inr ⟨hret,by omega,?_⟩
    rw [hcall]
    exact hrun.untouched
  · exact .inl ⟨hret,hrun.untouched⟩

theorem ap_run (hr : Running call h) :
    ApObeys guard maxSpins call.run (fun h' ret => Finishes call ret h') h := by
  cases call with
  | prepareCacheflush context base size => exact ap_prepare rfl (.inl rfl) hr
  | waitCacheflush context spins => exact ap_wait rfl hr
  | completeCacheflush context => exact ap_complete rfl hr
  | prepareUnmap context base size => exact ap_prepare rfl (.inr rfl) hr
  | completeUnmap context => exact ap_complete rfl hr

def idle : Party → Hist → Prop
  | .ap, h => Ready h
  | .firmware, _ => True

theorem ap_handshake : ApObeys guard maxSpins (handshake maxSpins) (fun h' _ => Ready h') [] := by
  refine ap_waitFirmware.bind fun h ret hw => ?_
  obtain ⟨he,hst⟩ := hw
  refine .request hst fun _ _ => ?_
  split_ifs with hret
  · exact ⟨trivial,fun r => Empty.elim r⟩
  · obtain rfl := not_not.mp hret
    refine ⟨List.mem_cons_self,he.current,fun k hk => .inl ⟨he.requested k,hst rfl k hk⟩⟩

theorem disciplined : (calls maxSpins).Disciplined guard law idle where
  first i := by
    cases i with
    | ap => exact ap_handshake
    | firmware => trivial
  program i step p h hp hi := by
    cases i with
    | ap =>
      cases step with
      | flush call =>
        obtain rfl := Option.some.inj hp
        refine .request hi.opened fun _ _ => ?_
        refine (ap_run (hi.called call)).bind fun h' ret hf => ?_
        exact .request hf.outcome fun _ _ => hf.ready
      | write | done => contradiction
    | firmware =>
      cases step with
      | flush => contradiction
      | write | done =>
        obtain rfl := Option.some.inj hp
        exact ⟨trivial,fun _ _ => trivial⟩

end AgxOpen.Handoff
