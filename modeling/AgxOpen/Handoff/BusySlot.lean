import AgxOpen.Handoff.Publication

/-!
# The words of a slot in use

The firmware reads the state of a slot and then its address and size, one word
after another. The AP writes an address, a size or a state other than 0 only to
a slot it saw idle, so with the state kept in order such a write arrives at a
slot that is idle in the memory too. A slot with a request stays as it is until
the firmware answers or a 0 of the AP arrives.
-/
namespace AgxOpen.Handoff

variable {s t : Bus} {h : Hist} {slot offset : ℕ} {log : BusLog} {i : Agent} {op : Op}
  {c d : Config Agent BusOp BusRes Bus}

/-- A write of an address, a size or a state other than 0. -/
def Loads (slot : ℕ) : Flight ℕ Cell → Prop
  | .write offset cell => Payload slot offset ∨ offset = offFlushState slot ∧ cell.value ≠ 0#64
  | .barrier => False

/-- The state word is 0. -/
def IdleWord (slot : ℕ) (m : ℕ → Cell) : Prop := (m (offFlushState slot)).value = 0#64

/-- What loads a slot arrives while it is idle. -/
abbrev LoadedIdle (slot : ℕ) (s : Bus) : Prop := s.buffer.Finds (Loads slot) (IdleWord slot)

theorem Loads.slotWord {cell : Cell} (hf : Loads slot (.write offset cell)) : SlotWord slot offset := by
  obtain hp | ⟨hs,-⟩ := hf
  · exact .inr hp
  · exact .inl hs

theorem Payload.slot_eq {k : ℕ} (hp : Payload slot offset) (hp' : Payload k offset) : slot = k := by
  simp only [Payload, offFlushAddr, offFlushSize, offFlush] at hp hp'
  omega

theorem state_inj {k : ℕ} (hs : offFlushState slot = offFlushState k) : slot = k := by
  simp only [offFlushState, offFlush] at hs
  omega

theorem idle_update {m : ℕ → Cell} {cell : Cell} (hm : IdleWord slot m) (ho : offset ≠ offFlushState slot) :
    IdleWord slot (Function.update m offset cell) := by
  rw [IdleWord, Function.update_of_ne ho.symm]
  exact hm

/-- A write that loads a slot goes out while the AP saw it idle. -/
theorem idle_of_loads {value : U64} {cell : Cell} (hl : publishes h (.write64 offset value))
    (hvalue : cell.value = value) (hf : Loads slot (.write offset cell)) : idleSlot slot h = true := by
  have hhigh : offFlush 0 ≤ offset := hf.slotWord.high
  obtain rfl | ⟨k,-,⟨hp,hidle⟩ | ⟨rfl,hstate⟩⟩ := hl
  · exact absurd hhigh (by decide)
  · obtain hp' | ⟨hs,-⟩ := hf
    · exact hp'.slot_eq hp ▸ hidle
    · exact absurd hs (hp.ne_state slot)
  · obtain hp' | ⟨hs,hne⟩ := hf
    · exact absurd rfl (hp'.ne_state k)
    · obtain rfl := state_inj hs
      obtain hzero | ⟨hidle,-⟩ := hstate
      · exact absurd (hvalue.trans hzero) hne
      · exact hidle

theorem LoadedIdle.code (hi : LoadedIdle slot s) (ha : Agrees s h) (hslot : slot < flushSlots)
    (hl : publishes h op) : LoadedIdle slot (s.after op) := by
  have hlow {other : ℕ} (ho : other < offFlush 0) (cell : Cell) :
      (s.buffer.issue other cell).Finds (Loads slot) (IdleWord slot) :=
    hi.issue fun hf => absurd hf.slotWord.high (Nat.not_le.mpr ho)
  cases op with
  | write64 other value =>
    exact hi.issue fun hf => ha.idle slot hslot (idle_of_loads hl rfl hf)
  | write8 other value | write32 other value =>
    obtain rfl : other = _ := hl
    exact hlow (by decide) _
  | barrier => exact hi.fence not_false
  | mark m => cases m <;> exact hi
  | fwWrite | fwDone => exact hl.elim
  | read8 | read32 | read64 | relax | setLocked | setInitialized | rounds | never => exact hi

/-- A write that loads a slot is passed by no state of it. -/
theorem loads_passed {x y : Flight ℕ Cell} {m : ℕ → Cell} (hslot : slot < flushSlots)
    (hfree : ¬ WriteBuffer.HoldsBack y x) (htears : ¬ Tears y x) (hy : Loads slot y) (hm : IdleWord slot m) :
    IdleWord slot (WriteBuffer.arrive m x) := by
  cases x with
  | barrier => exact hm
  | write new cell =>
    cases y with
    | barrier => exact hy.elim
    | write old cell' =>
      refine idle_update hm ?_
      rintro rfl
      obtain hp | ⟨hs,-⟩ := hy
      · exact htears ⟨slot,hslot,.inr ⟨hp,rfl⟩⟩
      · exact hfree hs

theorem LoadedIdle.deliver {place : ℕ} (hi : LoadedIdle slot s) (hslot : slot < flushSlots)
    (hg : ordered s log i (.deliver place)) (hr : s.step (.deliver place) () t) : LoadedIdle slot t := by
  obtain ⟨older,x,newer,b,rfl,hd,rfl⟩ := hr
  have htears := ordered_tears hg hd
  refine WriteBuffer.Finds.deliver hi hd fun y hy hf m hm => ?_
  exact loads_passed hslot (hd.free y hy) (htears y hy) hf hm

theorem loadedIdle_of (ht : bus.Trace ordered s log) (hl : Lawful busLaw log) (hslot : slot < flushSlots) :
    LoadedIdle slot s := by
  induction ht with
  | init hi => exact WriteBuffer.finds_nil hi.1
  | @act s log i op r t ht hg hs ih =>
    have hold := ih hl.2
    have hlaw := hl.1
    cases op with
    | code op =>
      cases i with
      | ap =>
        obtain ⟨-,rfl⟩ := hs
        exact hold.code (truthful_of ht hl.2).agrees hslot hlaw
      | bus | firmware => exact hlaw.elim
    | deliver place => exact hold.deliver hslot hg hs
    | fwWrite other value =>
      obtain ⟨ho,rfl⟩ := hs
      refine WriteBuffer.Finds.set hold fun m hm _ => idle_update hm ?_
      have hword : offFlushState slot < offFlush flushSlots ∧ offFlush 0 ≤ offFlushState slot := by
        simp only [offFlushState, offFlush]
        omega
      omega
    | fwDone k =>
      obtain ⟨-,hbusy,rfl⟩ := hs
      refine WriteBuffer.Finds.set hold fun m hm hmem => ?_
      by_cases hk : offFlushState k = offFlushState slot
      · have hzero : s.word (offFlushState k) = 0#64 := by
          rw [Bus.word, ← hmem, hk]
          exact hm
        exact absurd (hbusy.symm.trans hzero) (by decide)
      · exact idle_update hm hk

/-- What loads a slot arrives at an idle one. -/
theorem LoadedIdle.arrives {older newer : List (Flight ℕ Cell)} {x : Flight ℕ Cell}
    {b : WriteBuffer ℕ Cell} (hi : LoadedIdle slot s) (hslot : slot < flushSlots)
    (hd : s.buffer.Delivers older x newer b) (htears : ∀ y ∈ older, ¬ Tears y x)
    (hx : Loads slot x) : s.word (offFlushState slot) = 0#64 := by
  have hidle : IdleWord slot (WriteBuffer.arriveAll s.buffer.memory older) := hi older x newer hd.split hx
  have hnone : ∀ y ∈ older, WriteBuffer.touches (· == offFlushState slot) y = false := by
    intro y hy
    cases y with
    | barrier => rfl
    | write old cell' =>
      cases x with
      | barrier => exact hx.elim
      | write new cell =>
        refine beq_eq_false_iff_ne.mpr ?_
        rintro rfl
        obtain hp | ⟨rfl,-⟩ := hx
        · exact htears _ hy ⟨slot,hslot,.inl ⟨rfl,hp⟩⟩
        · exact hd.free _ hy rfl
  rw [IdleWord, WriteBuffer.arriveAll_untouched hnone s.buffer.memory (beq_self_eq_true _)] at hidle
  exact hidle

/-- Neither the firmware's answer nor a 0 of the AP gets to the state word. -/
def unanswered (slot : ℕ) (s : Bus) (log : BusLog) (i : Agent) : BusOp → Prop
  | .deliver place => ordered s log i (.deliver place) ∧ ∀ cell,
      s.buffer.flight[place]? = some (.write (offFlushState slot) cell) → cell.value ≠ 0#64
  | .fwDone k => k ≠ slot
  | _ => True

theorem unanswered_ordered {op : BusOp} (hg : unanswered slot s log i op) : ordered s log i op := by
  cases op with
  | deliver place => exact hg.1
  | code | fwWrite | fwDone => trivial

theorem after_memory (s : Bus) (op : Op) : (s.after op).buffer.memory = s.buffer.memory := by
  cases op with
  | mark m => cases m <;> rfl
  | _ => rfl

/-- A step that neither answers nor clears a slot in use leaves its words. -/
theorem used_act {op : BusOp} {r : BusRes op} (hi : LoadedIdle slot s) (hslot : slot < flushSlots)
    (hused : s.word (offFlushState slot) ≠ 0#64) (hg : unanswered slot s log i op)
    (hs : s.step op r t) (hw : SlotWord slot offset) : t.buffer.memory offset = s.buffer.memory offset := by
  cases op with
  | code op =>
    obtain ⟨-,rfl⟩ := hs
    rw [after_memory]
  | deliver place =>
    obtain ⟨older,x,newer,b,rfl,hd,rfl⟩ := hs
    have htears := ordered_tears hg.1 hd
    have hnone : ¬ Loads slot x := fun hx => hused (hi.arrives hslot hd htears hx)
    obtain ⟨hsplit,-,rfl⟩ := hd
    cases x with
    | barrier => rfl
    | write new cell =>
      refine Function.update_of_ne ?_ cell s.buffer.memory
      rintro rfl
      obtain rfl | hp := hw
      · exact hnone (.inr ⟨rfl,hg.2 cell (by simp [hsplit])⟩)
      · exact hnone (.inl hp)
  | fwWrite other value =>
    obtain ⟨ho,rfl⟩ := hs
    refine Function.update_of_ne ?_ _ s.buffer.memory
    simp only [SlotWord, offFlushState, offFlushAddr, offFlushSize, offFlush] at hw ho
    omega
  | fwDone k =>
    obtain ⟨-,-,rfl⟩ := hs
    refine Function.update_of_ne ?_ _ s.buffer.memory
    obtain rfl | hp := hw
    · exact fun hk => hg (state_inj hk).symm
    · exact Payload.ne_state hp k

/-- A slot in use keeps its state, its address and its size until it is answered or cleared. -/
theorem used_stays (hc : bus.Reach ordered c) (hslot : slot < flushSlots)
    (hused : c.state.word (offFlushState slot) ≠ 0#64) (hd : bus.Leads (unanswered slot) c d) :
    ∀ offset, SlotWord slot offset → d.state.buffer.memory offset = c.state.buffer.memory offset := by
  have hmono {e e' : Config Agent BusOp BusRes Bus} (h : bus.Step (unanswered slot) e e') :
      bus.Step ordered e e' := h.mono fun _ _ _ _ => unanswered_ordered
  induction hd with
  | refl => exact fun offset _ => rfl
  | @tail e e' hlead hs ih =>
    intro offset hw
    have he : bus.Reach ordered e :=
      hc.leads (Relation.ReflTransGen.mono (fun _ _ => hmono) _ _ hlead)
    have hstill : e.state.word (offFlushState slot) ≠ 0#64 := by
      rw [Bus.word, ih _ (.inl rfl)]
      exact hused
    cases hs with
    | start => exact ih offset hw
    | act _ hg hs =>
      have hl := (he.lawful bus_disciplined).1
      exact (used_act (loadedIdle_of he.trace hl hslot) hslot hstill hg hs hw).trans (ih offset hw)

/-- A firmware that finds a slot BUSY or DONE by a request, and reads its address and its size at
any later time before it is answered or cleared, reads the request. -/
theorem request_read {call : FlushCall} {request : U64 × U64 × U64} (hc : bus.Reach ordered c)
    (hslot : slot < flushSlots) (hreq : call.request = some request)
    (hsource : (c.state.buffer.memory (offFlushState slot)).source = some call)
    (hstate : c.state.word (offFlushState slot) = request.1)
    (hd : bus.Leads (unanswered slot) c d) :
    d.state.word (offFlushState slot) = request.1 ∧ d.state.word (offFlushAddr slot) = request.2.1 ∧
      d.state.word (offFlushSize slot) = request.2.2 := by
  have hl := (hc.lawful bus_disciplined).1
  obtain ⟨haddr,hsize⟩ := (truthful_of hc.trace hl).whole hslot hreq hsource hstate
  have hstays := used_stays hc hslot (hstate ▸ request_ne_zero hreq) hd
  refine ⟨?_,?_,?_⟩
  · rw [Bus.word, hstays _ (.inl rfl)]
    exact hstate
  · rw [Bus.word, hstays _ (.inr (.inl rfl))]
    exact haddr
  · rw [Bus.word, hstays _ (.inr (.inr rfl))]
    exact hsize

end AgxOpen.Handoff
