import AgxOpen.Handoff.Bus
import AgxOpen.Handoff.FlushSlots

/-!
# When a request is published whole

The AP writes the address and the size of a request to a slot it saw idle, and
the state behind them. There is no barrier between, so a bus that delivers the
state first shows the firmware a request that is not all there.
-/
namespace AgxOpen.Handoff
open Program (Only only_ite)

variable {h : Hist} {k slot : ℕ} {call : FlushCall}

/-- The address and the size word of a slot. -/
def Payload (slot offset : ℕ) : Prop := offset = offFlushAddr slot ∨ offset = offFlushSize slot

def idleEvent (slot : ℕ) : Ev → Option Bool
  | ⟨.read64 offset,r⟩ => if offset = offFlushState slot then some (r == 0#64) else none
  | ⟨.write64 offset value,_⟩ => if offset = offFlushState slot then some (value == 0#64) else none
  | _ => none

/-- The AP saw the state word as 0 or wrote it so, whichever came last. -/
def idleSlot (slot : ℕ) (h : Hist) : Bool := latest (idleEvent slot) false h

def writeEvent (offset : ℕ) : Ev → Option (Option U64)
  | ⟨.write64 offset' value,_⟩ => if offset' = offset then some (some value) else none
  | _ => none

/-- What the AP wrote to the offset last. -/
def written (offset : ℕ) (h : Hist) : Option U64 := latest (writeEvent offset) none h

theorem idleSlot_read (offset : ℕ) (r : U64) : idleSlot slot (⟨.read64 offset,r⟩ :: h) =
    if offset = offFlushState slot then r == 0#64 else idleSlot slot h := by
  rw [idleSlot, latest_cons, idleEvent]
  split_ifs <;> rfl

theorem idleSlot_write (offset : ℕ) (value : U64) (r : Unit) :
    idleSlot slot (⟨.write64 offset value,r⟩ :: h) =
      if offset = offFlushState slot then value == 0#64 else idleSlot slot h := by
  rw [idleSlot, latest_cons, idleEvent]
  split_ifs <;> rfl

theorem written_write (offset offset' : ℕ) (value : U64) (r : Unit) :
    written offset (⟨.write64 offset' value,r⟩ :: h) =
      if offset' = offset then some value else written offset h := by
  rw [written, latest_cons, writeEvent]
  split_ifs <;> rfl

theorem Payload.ne_state {offset : ℕ} (hp : Payload slot offset) (k : ℕ) :
    offset ≠ offFlushState k := by
  simp only [Payload, offFlushAddr, offFlushSize, offFlushState, offFlush] at *
  omega

theorem addr_ne_size (slot k : ℕ) : offFlushAddr slot ≠ offFlushSize k := by
  simp only [offFlushAddr, offFlushSize, offFlush]
  omega

/-- The rest of the request is written before its state. -/
def Filled (slot : ℕ) (state : U64) (h : Hist) : Prop := ∃ call addr size, current h = some call ∧
  call.request = some (state,addr,size) ∧ written (offFlushAddr slot) h = some addr ∧
    written (offFlushSize slot) h = some size

/-- What the AP may do behind a history of its own. -/
def publishes (h : Hist) : Op → Prop
  | .write8 offset _ => offset = offLockAp
  | .write32 offset _ => offset = offTurn
  | .write64 offset value => offset = offMagicAp ∨ ∃ slot < flushSlots,
      Payload slot offset ∧ idleSlot slot h = true ∨
        offset = offFlushState slot ∧ (value = 0#64 ∨ idleSlot slot h = true ∧ Filled slot value h)
  | .fwWrite .. | .fwDone _ => False
  | _ => True

/-- No restriction on what the operations answer. -/
abbrev Publishes {α : Type} (p : Prog α) (h : Hist) : Prop :=
  Obeys publishes (fun _ _ _ => True) p (fun _ _ => True) h

theorem Locks.publishes {op : Op} (hop : Locks op) (h : Hist) : publishes h op := by
  cases op <;> first | exact hop | exact hop.elim | trivial

theorem Unlocks.publishes {op : Op} (hop : Unlocks op) (h : Hist) : publishes h op := by
  cases op <;> first | exact hop.1 | exact hop.elim | trivial

theorem Polls.publishes {word : ℕ} {op : Op} (hop : Polls word op) (h : Hist) : publishes h op := by
  cases op <;> first | exact hop.elim | trivial

theorem publishes_only {α : Type} {P : Op → Prop} {p : Prog α} (hp : Only P p)
    (hP : ∀ op, P op → ∀ h, publishes h op) (h : Hist) : Publishes p h :=
  obeys_only hp (fun _ => True) trivial (fun h op hop _ => hP op hop h) fun _ _ _ _ _ _ => trivial

theorem publishes_clearSlots {n : ℕ} (hn : n ≤ flushSlots) (h : Hist) :
    Publishes (Program.forRange n clearSlot) h := by
  refine obeys_forRange (fun _ _ => True) n trivial fun k hk h' _ => ?_
  have hlt : k < flushSlots := by omega
  have haddr : offFlushAddr k ≠ offFlushState k := Payload.ne_state (.inl rfl) k
  refine .request (.inr ⟨k,hlt,.inr ⟨rfl,.inl rfl⟩⟩) fun _ _ => ?_
  refine .request (.inr ⟨k,hlt,.inl ⟨.inl rfl,?_⟩⟩) fun _ _ => ?_
  · rw [idleSlot_write, if_pos rfl]
    rfl
  refine ⟨.inr ⟨k,hlt,.inl ⟨.inr rfl,?_⟩⟩,fun _ _ => trivial⟩
  rw [idleSlot_write, if_neg haddr, idleSlot_write, if_pos rfl]
  rfl

theorem publishes_waitFirmware (maxSpins : U32) (h : Hist) : Publishes (waitFirmware maxSpins) h := by
  refine .request (.inl rfl) fun _ _ => ?_
  refine (publishes_only (only_lock maxSpins) (fun _ hop => hop.publishes) _).bind fun h ret _ => ?_
  split_ifs with hret
  · trivial
  refine .request trivial fun n _ => ?_
  refine (publishes_only (only_pollMagic maxSpins n 0#32) (fun _ hop => hop.publishes) _).bind
    fun h seen _ => ?_
  refine (publishes_only only_unlock (fun _ hop => hop.publishes) h).bind fun h _ _ => ?_
  cases seen with
  | false => trivial
  | true =>
    rw [if_neg (by decide)]
    exact (publishes_clearSlots le_rfl h).bind fun h _ _ => .request trivial fun _ _ => trivial

theorem publishes_prepare {context : U32} {addr size state : U64} (hc : current h = some call)
    (hreq : call.request = some (state,addr,size)) : Publishes (prepare context addr size state) h := by
  rw [prepare]
  split_ifs with hctx
  · trivial
  refine .request trivial fun found _ => ?_
  split_ifs with hf
  · trivial
  have hlt : context.toNat < flushSlots := by omega
  have haddr : offFlushAddr context.toNat ≠ offFlushState context.toNat := Payload.ne_state (.inl rfl) _
  have hsize : offFlushSize context.toNat ≠ offFlushState context.toNat := Payload.ne_state (.inr rfl) _
  have hread : idleSlot context.toNat (⟨.read64 (offFlushState context.toNat),found⟩ :: h) = true := by
    rw [idleSlot_read, if_pos rfl, not_not.mp hf]
    rfl
  refine .request (.inr ⟨_,hlt,.inl ⟨.inl rfl,hread⟩⟩) fun _ _ => ?_
  refine .request (.inr ⟨_,hlt,.inl ⟨.inr rfl,?_⟩⟩) fun _ _ => ?_
  · rw [idleSlot_write, if_neg haddr]
    exact hread
  refine .request (.inr ⟨_,hlt,.inr ⟨rfl,.inr ⟨?_,call,addr,size,hc,hreq,?_,?_⟩⟩⟩) fun _ _ => trivial
  · rw [idleSlot_write, if_neg hsize, idleSlot_write, if_neg haddr]
    exact hread
  · rw [written_write, if_neg (addr_ne_size _ _).symm, written_write, if_pos rfl]
  · rw [written_write, if_pos rfl]

theorem publishes_complete (context : U32) (h : Hist) : Publishes (complete context) h := by
  rw [complete]
  split_ifs with hctx
  · trivial
  refine .request trivial fun found _ => ?_
  split_ifs
  · trivial
  exact .request (.inr ⟨_,by omega,.inr ⟨rfl,.inl rfl⟩⟩) fun _ _ => trivial

theorem publishes_wait (context maxSpins : U32) (h : Hist) : Publishes (waitCacheflush context maxSpins) h := by
  rw [waitCacheflush]
  split_ifs
  · trivial
  refine .request trivial fun n _ => ?_
  exact publishes_only (only_pollFlush context maxSpins n 0#32) (fun _ hop => hop.publishes) _

theorem publishes_run (hc : current h = some call) : Publishes call.run h := by
  cases call with
  | prepareCacheflush context base size => exact publishes_prepare hc rfl
  | waitCacheflush context maxSpins => exact publishes_wait context maxSpins h
  | completeCacheflush context => exact publishes_complete context h
  | prepareUnmap context base size => exact publishes_prepare hc rfl
  | completeUnmap context => exact publishes_complete context h

abbrev BusAct := Act BusOp BusRes
abbrev BusLog := Log Agent BusOp BusRes

def codeAct : BusAct → Option Ev
  | ⟨.code op,r⟩ => some ⟨op,r⟩
  | _ => none

/-- The AP's operations without the bus. -/
def codeActs (h : List BusAct) : Hist := h.filterMap codeAct

def busLaw : Agent → List BusAct → BusOp → Prop
  | .ap, h, .code op => publishes (codeActs h) op
  | .bus, _, .deliver _ | .firmware, _, .fwWrite .. | .firmware, _, .fwDone _ => True
  | _, _, _ => False

theorem obeys_onBus {α : Type} {p : Prog α} {Q : Hist → α → Prop} {h : List BusAct}
    {may : List BusAct → (op : BusOp) → BusRes op → Prop}
    (hp : Obeys publishes (fun _ _ _ => True) p Q (codeActs h)) :
    Obeys (busLaw .ap) may (onBus p) (fun h' a => Q (codeActs h') a) h := by
  induction p generalizing h with
  | ret a => exact hp
  | call op next ih => exact Obeys.request hp.1 fun r _ => ih r (hp.2 r trivial)

theorem publishes_apProgram {call : BusCall} {p : Prog Unit} (hp : apProgram call = some p) (h : Hist) :
    Publishes p h := by
  cases call with
  | flush call =>
    obtain rfl := Option.some.inj hp
    refine .request trivial fun _ _ => ?_
    have hc : current (⟨.mark (.called call),()⟩ :: h) = some call := by
      rw [current, latest_cons]
      rfl
    exact (publishes_run hc).bind fun h ret _ => ⟨trivial,fun _ _ => trivial⟩
  | lock maxSpins =>
    obtain rfl := Option.some.inj hp
    exact (publishes_only (only_lock maxSpins) (fun _ hop => hop.publishes) h).bind fun h _ _ => trivial
  | unlock =>
    obtain rfl := Option.some.inj hp
    exact publishes_only only_unlock (fun _ hop => hop.publishes) h
  | waitFirmware maxSpins =>
    obtain rfl := Option.some.inj hp
    exact (publishes_waitFirmware maxSpins h).bind fun h _ _ => trivial
  | deliver | write | done => contradiction

theorem bus_disciplined {guard : Bus → BusLog → Agent → BusOp → Prop} :
    bus.Disciplined guard busLaw fun _ _ => True where
  first _ := trivial
  program i call p h hp _ := by
    cases i with
    | ap =>
      obtain ⟨q,hq,rfl⟩ := Option.map_eq_some_iff.mp hp
      exact (obeys_onBus (publishes_apProgram hq (codeActs h))).mono fun _ _ _ => trivial
    | bus =>
      cases call <;> try contradiction
      obtain rfl := Option.some.inj hp
      exact ⟨trivial,fun _ _ => trivial⟩
    | firmware =>
      cases call <;> try contradiction
      all_goals
        obtain rfl := Option.some.inj hp
        exact ⟨trivial,fun _ _ => trivial⟩

section Agrees

variable {s t : Bus} {op : Op} {r : Res op}

theorem sees_write (s : Bus) (offset offset' : ℕ) (value : U64) :
    (s.write offset value).sees offset' = if offset' = offset then value else s.sees offset' := by
  rw [Bus.sees, Bus.write, WriteBuffer.settled_issue, Function.update_apply]
  split_ifs <;> rfl

theorem SlotWord.high {offset : ℕ} (hw : SlotWord slot offset) : offFlush 0 ≤ offset := by
  simp only [SlotWord, offFlushState, offFlushAddr, offFlushSize, offFlush] at *
  omega

/-- The history of the AP tells what it sees. -/
structure Agrees (s : Bus) (h : Hist) : Prop where
  calling : s.calling = current h
  idle : ∀ k < flushSlots, idleSlot k h = true → s.sees (offFlushState k) = 0#64
  written : ∀ k < flushSlots, ∀ offset, Payload k offset → ∀ value, written offset h = some value →
    s.sees offset = value

/-- Acts that are neither a read nor a write of a slot. -/
theorem Agrees.keep {a : Ev} (ha : Agrees s h) (hcalling : t.calling = current (a :: h))
    (hsees : ∀ k < flushSlots, ∀ offset, SlotWord k offset → t.sees offset = s.sees offset)
    (hidle : ∀ k < flushSlots, idleEvent k a = none)
    (hwrite : ∀ k < flushSlots, ∀ offset, Payload k offset → writeEvent offset a = none) :
    Agrees t (a :: h) := by
  refine ⟨hcalling,fun k hk hi => ?_,fun k hk offset hp value hv => ?_⟩
  · rw [idleSlot, latest_cons, hidle k hk] at hi
    rw [hsees k hk _ (.inl rfl)]
    exact ha.idle k hk hi
  · rw [Handoff.written, latest_cons, hwrite k hk offset hp] at hv
    rw [hsees k hk _ (.inr hp)]
    exact ha.written k hk offset hp value hv

/-- A write somewhere else. -/
theorem sees_outside {offset : ℕ} (ho : offset < offFlush 0) (value : U64) {other : ℕ}
    (hw : SlotWord k other) : (s.write offset value).sees other = s.sees other := by
  rw [sees_write, if_neg]
  have := hw.high
  omega

theorem current_write {offset : ℕ} {value : U64} {u : Unit} :
    current (⟨.write64 offset value,u⟩ :: h) = current h := by
  rw [current, latest_cons]
  rfl

theorem Agrees.write (ha : Agrees s h) (offset : ℕ) (value : U64) (u : Unit) :
    Agrees (s.write offset value) (⟨.write64 offset value,u⟩ :: h) := by
  refine ⟨ha.calling.trans current_write.symm,fun k hk hi => ?_,fun k hk other hp v hv => ?_⟩
  · rw [idleSlot_write] at hi
    rw [sees_write]
    by_cases ho : offset = offFlushState k
    · rw [if_pos ho] at hi
      rw [if_pos ho.symm]
      exact beq_iff_eq.mp hi
    · rw [if_neg ho] at hi
      rw [if_neg (Ne.symm ho)]
      exact ha.idle k hk hi
  · rw [written_write] at hv
    rw [sees_write]
    by_cases ho : offset = other
    · rw [if_pos ho] at hv
      rw [if_pos ho.symm]
      exact Option.some.inj hv
    · rw [if_neg ho] at hv
      rw [if_neg (Ne.symm ho)]
      exact ha.written k hk other hp v hv

theorem Agrees.read (ha : Agrees s h) (offset : ℕ) :
    Agrees s (⟨.read64 offset,s.sees offset⟩ :: h) := by
  refine ⟨ha.calling.trans ?_,fun k hk hi => ?_,fun k hk other hp v hv => ?_⟩
  · rw [current, current, latest_cons]
    rfl
  · rw [idleSlot_read] at hi
    by_cases ho : offset = offFlushState k
    · rw [if_pos ho] at hi
      rw [← ho]
      exact beq_iff_eq.mp hi
    · rw [if_neg ho] at hi
      exact ha.idle k hk hi
  · rw [Handoff.written, latest_cons] at hv
    exact ha.written k hk other hp v hv

theorem Agrees.code (ha : Agrees s h) (hl : publishes h op) (hr : s.allows op r) :
    Agrees (s.after op) (⟨op,r⟩ :: h) := by
  have hsame (hcalling : (s.after op).calling = current (⟨op,r⟩ :: h))
      (hsees : ∀ k < flushSlots, ∀ offset, SlotWord k offset →
        (s.after op).sees offset = s.sees offset)
      (hop : ∀ k, idleEvent k ⟨op,r⟩ = none ∧ writeEvent k ⟨op,r⟩ = none) :
      Agrees (s.after op) (⟨op,r⟩ :: h) :=
    ha.keep hcalling hsees (fun k _ => (hop k).1) fun k _ offset _ => (hop offset).2
  have hcurrent (hm : callMark ⟨op,r⟩ = none) : s.calling = current (⟨op,r⟩ :: h) := by
    rw [current, latest_cons, hm]
    exact ha.calling
  cases op with
  | write64 offset value => exact ha.write offset value r
  | read64 offset =>
    obtain rfl : r = s.sees offset := hr
    exact ha.read offset
  | write8 offset value | write32 offset value =>
    obtain rfl : offset = _ := hl
    exact hsame (hcurrent rfl) (fun k _ other hw => sees_outside (by decide) _ hw) fun _ => ⟨rfl,rfl⟩
  | barrier =>
    refine hsame (hcurrent rfl) (fun k _ other _ => ?_) fun _ => ⟨rfl,rfl⟩
    exact congrArg (fun m : ℕ → Cell => (m other).value) WriteBuffer.settled_fence
  | mark m =>
    cases m with
    | waited ret => exact hsame (hcurrent rfl) (fun _ _ _ _ => rfl) fun _ => ⟨rfl,rfl⟩
    | called call =>
      refine hsame ?_ (fun _ _ _ _ => rfl) fun _ => ⟨rfl,rfl⟩
      rw [current, latest_cons]
      rfl
    | returned call ret =>
      refine hsame ?_ (fun _ _ _ _ => rfl) fun _ => ⟨rfl,rfl⟩
      rw [current, latest_cons]
      rfl
  | fwWrite | fwDone => exact hl.elim
  | read8 | read32 | relax | setLocked | setInitialized | rounds | never =>
    exact hsame (hcurrent rfl) (fun _ _ _ _ => rfl) fun _ => ⟨rfl,rfl⟩

/-- The others change a word the AP sees only from BUSY to something else. -/
theorem Agrees.others (ha : Agrees s h) (hcalling : t.calling = s.calling)
    (hstate : ∀ k < flushSlots, t.sees (offFlushState k) = s.sees (offFlushState k) ∨
      s.sees (offFlushState k) = flushBusy)
    (hpayload : ∀ k < flushSlots, ∀ offset, Payload k offset → t.sees offset = s.sees offset) :
    Agrees t h := by
  refine ⟨hcalling.trans ha.calling,fun k hk hi => ?_,fun k hk offset hp value hv => ?_⟩
  · have hzero := ha.idle k hk hi
    obtain hs | hbusy := hstate k hk
    · exact hs.trans hzero
    · rw [hzero] at hbusy
      exact absurd hbusy (by decide)
  · exact (hpayload k hk offset hp).trans (ha.written k hk offset hp value hv)

end Agrees

section Told

variable {s t : Bus} {op : Op} {r : Res op} {offset : ℕ} {b : WriteBuffer ℕ Cell}

def pair (slot offset : ℕ) (other : ℕ) : Bool := other == offFlushState slot || other == offset

/-- The word of a request that belongs at the offset. -/
def want (slot offset : ℕ) (request : U64 × U64 × U64) : U64 :=
  if offset = offFlushAddr slot then request.2.1 else request.2.2

/-- If the state is that of a request, the word is of the same request. -/
def Told (slot offset : ℕ) (m : ℕ → Cell) : Prop := ∀ call request,
  (m (offFlushState slot)).source = some call → call.request = some request →
    (m (offFlushState slot)).value = request.1 → (m offset).value = want slot offset request

theorem pair_state : pair slot offset (offFlushState slot) = true := by simp [pair]

theorem pair_word : pair slot offset offset = true := by simp [pair]

theorem pair_outside {other : ℕ} (hstate : other ≠ offFlushState slot) (hword : other ≠ offset) :
    pair slot offset other = false := by
  simp [pair, hstate, hword]

theorem told_local : WriteBuffer.Local (pair slot offset) (Told slot offset) := by
  intro m m' hm htold call request hsource hreq hvalue
  rw [← hm _ pair_state] at hsource hvalue
  rw [← hm _ pair_word]
  exact htold call request hsource hreq hvalue

theorem request_ne_zero {request : U64 × U64 × U64} (hreq : call.request = some request) :
    request.1 ≠ 0#64 := by
  have hbusy : flushBusy ≠ 0#64 := by decide
  have hdone : flushDone ≠ 0#64 := by decide
  cases call with
  | prepareCacheflush =>
    obtain rfl := Option.some.inj hreq
    exact hbusy
  | prepareUnmap =>
    obtain rfl := Option.some.inj hreq
    exact hdone
  | waitCacheflush | completeCacheflush | completeUnmap => contradiction

/-- A slot that is idle tells nothing. -/
theorem told_idle {m : ℕ → Cell} (hidle : (m (offFlushState slot)).value = 0#64) : Told slot offset m := by
  intro call request _ hreq hvalue
  exact absurd (hvalue.symm.trans hidle) (request_ne_zero hreq)

theorem told_unsourced {m : ℕ → Cell} (hsource : (m (offFlushState slot)).source = none) :
    Told slot offset m := by
  intro call request hs
  rw [hsource] at hs
  contradiction

theorem told_outside {m : ℕ → Cell} {other : ℕ} {cell : Cell} (hp : pair slot offset other = false)
    (htold : Told slot offset m) : Told slot offset (Function.update m other cell) := by
  refine told_local m _ (fun a ha => (Function.update_of_ne ?_ cell m).symm) htold
  rintro rfl
  exact Bool.false_ne_true (hp.symm.trans ha)

theorem pair_low {other : ℕ} (hp : Payload slot offset) (ho : other < offFlush 0) :
    pair slot offset other = false := by
  have hstate : offFlush 0 ≤ offFlushState slot := SlotWord.high (.inl rfl)
  have hword : offFlush 0 ≤ offset := SlotWord.high (.inr hp)
  exact pair_outside (by omega) (by omega)

/-- A write that the history allows leaves the pair telling the truth: an address or a size is
written to an idle slot only. -/
theorem told_write {value : U64} (ha : Agrees s h) (hslot : slot < flushSlots)
    (hp : Payload slot offset) {other : ℕ} (hl : publishes h (.write64 other value))
    (htold : Told slot offset s.buffer.settled) :
    Told slot offset (Function.update s.buffer.settled other ⟨value,s.calling⟩) := by
  obtain rfl | ⟨k,hk,⟨hpay,hidle⟩ | ⟨rfl,hvalue⟩⟩ := hl
  · exact told_outside (pair_low hp (by decide)) htold
  · by_cases hsame : slot = k
    · subst hsame
      refine told_idle ?_
      rw [Function.update_of_ne (hpay.ne_state slot).symm]
      exact ha.idle slot hslot hidle
    · refine told_outside (pair_outside (hpay.ne_state slot) ?_) htold
      simp only [Payload, offFlushAddr, offFlushSize, offFlush] at hpay hp
      omega
  · by_cases hsame : slot = k
    · subst hsame
      obtain rfl | ⟨-,call,addr,size,hcurrent,hreq,haddr,hsize⟩ := hvalue
      · exact told_idle (by rw [Function.update_self])
      intro call' request hsource hreq' _
      rw [Function.update_self, ha.calling, hcurrent] at hsource
      obtain rfl := Option.some.inj hsource
      obtain rfl := Option.some.inj (hreq.symm.trans hreq')
      rw [Function.update_of_ne (hp.ne_state slot)]
      obtain rfl | rfl := hp
      · rw [want, if_pos rfl]
        exact ha.written slot hslot _ (.inl rfl) _ haddr
      · rw [want, if_neg (addr_ne_size slot slot).symm]
        exact ha.written slot hslot _ (.inr rfl) _ hsize
    · refine told_outside (pair_outside ?_ (hp.ne_state k).symm) htold
      simp only [offFlushState, offFlush]
      omega

end Told

section Runs

variable {s t : Bus} {op : Op} {r : Res op} {offset : ℕ}

/-- Along every arrival still to come the words of a slot tell the truth. -/
structure Truthful (s : Bus) (h : Hist) : Prop where
  agrees : Agrees s h
  sound : ∀ slot < flushSlots, ∀ offset, Payload slot offset →
    s.buffer.Sound (pair slot offset) (Told slot offset)

theorem Truthful.code (hs : Truthful s h) (hl : publishes h op) (hr : s.allows op r) :
    Truthful (s.after op) (⟨op,r⟩ :: h) := by
  refine ⟨hs.agrees.code hl hr,fun slot hslot offset hp => ?_⟩
  have hsound := hs.sound slot hslot offset hp
  have htold := hsound.settled told_local
  have hlow {other : ℕ} (ho : other < offFlush 0) (cell : Cell) :
      (s.buffer.issue other cell).Sound (pair slot offset) (Told slot offset) := by
    refine hsound.issue told_local ?_
    rw [WriteBuffer.settled_issue]
    exact told_outside (pair_low hp ho) htold
  cases op with
  | write64 other value =>
    refine hsound.issue told_local ?_
    rw [WriteBuffer.settled_issue]
    exact told_write hs.agrees hslot hp hl htold
  | write8 other value | write32 other value =>
    obtain rfl : other = _ := hl
    exact hlow (by decide) _
  | barrier => exact hsound.fence
  | mark m => cases m <;> exact hsound
  | fwWrite | fwDone => exact hl.elim
  | read8 | read32 | read64 | relax | setLocked | setInitialized | rounds | never => exact hsound

theorem pair_true {other : ℕ} (ho : pair slot offset other = true) :
    other = offFlushState slot ∨ other = offset := by
  simpa [pair] using ho

/-- Of two writes of a pair the older one holds the newer back, or the order is kept for them. -/
theorem pair_oldest {x y : Flight ℕ Cell} (hslot : slot < flushSlots) (hp : Payload slot offset)
    (hfree : ¬ WriteBuffer.HoldsBack y x) (htears : ¬ Tears y x)
    (hx : WriteBuffer.touches (pair slot offset) x = true) :
    WriteBuffer.touches (pair slot offset) y = false := by
  cases x with
  | barrier => contradiction
  | write new cell =>
    cases y with
    | barrier => rfl
    | write old cell' =>
      refine Bool.eq_false_iff.mpr fun hy => ?_
      obtain rfl | rfl := pair_true hx <;> obtain rfl | rfl := pair_true hy
      · exact hfree rfl
      · exact htears ⟨slot,hslot,.inr ⟨hp,rfl⟩⟩
      · exact htears ⟨slot,hslot,.inl ⟨rfl,hp⟩⟩
      · exact hfree rfl

/-- What the guard says of one arrival. -/
theorem ordered_tears {log : BusLog} {i : Agent} {older newer : List (Flight ℕ Cell)}
    {x : Flight ℕ Cell} {b : WriteBuffer ℕ Cell} (hg : ordered s log i (.deliver older.length))
    (hd : s.buffer.Delivers older x newer b) : ∀ y ∈ older, ¬ Tears y x := by
  intro y hy
  refine hg y ?_ x ?_
  · rw [hd.split, List.take_left' rfl]
    exact hy
  · simp [hd.split]

theorem Truthful.deliver {log : BusLog} {i : Agent} {place : ℕ} (hs : Truthful s h)
    (hg : ordered s log i (.deliver place)) (hr : s.step (.deliver place) () t) :
    Truthful t h := by
  obtain ⟨older,x,newer,c,rfl,hd,rfl⟩ := hr
  have hsees : c.settled = s.buffer.settled := hd.settled
  have hkeeps := ordered_tears hg hd
  refine ⟨hs.agrees.others rfl (fun k _ => .inl ?_) fun k _ offset _ => ?_,fun slot hslot offset hp => ?_⟩
  · exact congrArg (fun m : ℕ → Cell => (m (offFlushState k)).value) hsees
  · exact congrArg (fun m : ℕ → Cell => (m offset).value) hsees
  · exact (hs.sound slot hslot offset hp).deliver told_local hd fun hx y hy =>
      pair_oldest hslot hp (hd.free y hy) (hkeeps y hy) hx

/-- The firmware's writes outside the slots. -/
theorem Truthful.fwWrite {other : ℕ} {cell : Cell} (hs : Truthful s h)
    (ho : other < offFlush 0 ∨ offFlush flushSlots ≤ other) :
    Truthful { s with buffer := s.buffer.set other cell } h := by
  have hne {slot offset : ℕ} (hslot : slot < flushSlots) (hw : SlotWord slot offset) : offset ≠ other := by
    simp only [SlotWord, offFlushState, offFlushAddr, offFlushSize, offFlush] at *
    omega
  have hsees {slot offset : ℕ} (hslot : slot < flushSlots) (hw : SlotWord slot offset) :
      (s.buffer.set other cell).settled offset = s.buffer.settled offset := by
    obtain hsame | ⟨hset,-⟩ := s.buffer.settled_set (a := other) (v := cell)
    · rw [hsame]
    · rw [hset, Function.update_of_ne (hne hslot hw)]
  refine ⟨hs.agrees.others rfl (fun k hk => .inl ?_) fun k hk offset hp => ?_,
    fun slot hslot offset hp => ?_⟩
  · exact congrArg Cell.value (hsees hk (.inl rfl))
  · exact congrArg Cell.value (hsees hk (.inr hp))
  · refine (hs.sound slot hslot offset hp).set fun m htold => told_outside (pair_outside ?_ ?_) htold
    · exact (hne hslot (.inl rfl)).symm
    · exact (hne hslot (.inr hp)).symm

/-- The firmware's DONE is no request's. -/
theorem Truthful.fwDone {k : ℕ} (hs : Truthful s h) (hbusy : s.word (offFlushState k) = flushBusy) :
    Truthful { s with buffer := s.buffer.set (offFlushState k) ⟨flushDone,none⟩ } h := by
  have hsees := s.buffer.settled_set (a := offFlushState k) (v := ⟨flushDone,none⟩)
  refine ⟨hs.agrees.others rfl (fun j _ => ?_) fun j _ offset hp => ?_,fun slot hslot offset hp => ?_⟩
  · obtain hsame | ⟨hset,hmem⟩ := hsees
    · exact .inl (congrArg (fun m : ℕ → Cell => (m (offFlushState j)).value) hsame)
    · by_cases hj : offFlushState j = offFlushState k
      · right
        rw [hj]
        exact (congrArg Cell.value hmem).trans hbusy
      · left
        have hother := congrFun hset (offFlushState j)
        rw [Function.update_of_ne hj] at hother
        exact congrArg Cell.value hother
  · obtain hsame | ⟨hset,-⟩ := hsees
    · exact congrArg (fun m : ℕ → Cell => (m offset).value) hsame
    · have hother := congrFun hset offset
      rw [Function.update_of_ne (hp.ne_state k)] at hother
      exact congrArg Cell.value hother
  · refine (hs.sound slot hslot offset hp).set fun m htold => ?_
    by_cases hk : offFlushState k = offFlushState slot
    · rw [hk]
      exact told_unsourced (by rw [Function.update_self])
    · exact told_outside (pair_outside hk (hp.ne_state k).symm) htold

theorem truthful_init {s : Bus} (hi : bus.init s) : Truthful s [] := by
  obtain ⟨hflight,hcalling,hsource⟩ := hi
  refine ⟨⟨hcalling,fun _ _ hidle => ?_,fun _ _ _ _ _ hv => ?_⟩,fun slot _ offset _ early late he => ?_⟩
  · exact (Bool.false_ne_true hidle).elim
  · contradiction
  · rw [hflight] at he
    obtain ⟨rfl,-⟩ := List.append_eq_nil_iff.mp he.symm
    exact told_unsourced (hsource _)

theorem truthful_of {log : BusLog} (ht : bus.Trace ordered s log) (hl : Lawful busLaw log) :
    Truthful s (codeActs (own .ap log)) := by
  induction ht with
  | init hi => exact truthful_init hi
  | @act s log i op r t ht hg hs ih =>
    have hold := ih hl.2
    have hlaw := hl.1
    cases i with
    | ap =>
      rw [own_cons_self]
      cases op with
      | code op =>
        obtain ⟨hallow,rfl⟩ := hs
        exact hold.code hlaw hallow
      | deliver | fwWrite | fwDone => exact hlaw.elim
    | bus =>
      rw [own_cons_ne (by decide)]
      cases op with
      | deliver place => exact hold.deliver hg hs
      | code | fwWrite | fwDone => exact hlaw.elim
    | firmware =>
      rw [own_cons_ne (by decide)]
      cases op with
      | fwWrite offset value =>
        obtain ⟨ho,rfl⟩ := hs
        exact hold.fwWrite ho
      | fwDone slot =>
        obtain ⟨-,hbusy,rfl⟩ := hs
        exact hold.fwDone hbusy
      | code | deliver => exact hlaw.elim

/-- A slot that shows the state of a request shows the rest of it. -/
theorem Truthful.whole {request : U64 × U64 × U64} (hs : Truthful s h) (hslot : slot < flushSlots)
    (hreq : call.request = some request)
    (hsource : (s.buffer.memory (offFlushState slot)).source = some call)
    (hstate : s.word (offFlushState slot) = request.1) :
    s.word (offFlushAddr slot) = request.2.1 ∧ s.word (offFlushSize slot) = request.2.2 := by
  have haddr := (hs.sound slot hslot _ (.inl rfl)).now call request hsource hreq hstate
  have hsize := (hs.sound slot hslot _ (.inr rfl)).now call request hsource hreq hstate
  rw [want, if_pos rfl] at haddr
  rw [want, if_neg (addr_ne_size slot slot).symm] at hsize
  exact ⟨haddr,hsize⟩

theorem Truthful.published (hs : Truthful s h) (hslot : slot < flushSlots) : Published s slot where
  flush _ _ _ hbusy hsource := hs.whole hslot rfl hsource hbusy
  unmap _ _ _ hdone hsource := hs.whole hslot rfl hsource hdone

end Runs

/-- As long as the bus delivers the state of a slot and its address and size in the
order they were written, every request is published whole. -/
theorem requests_published {c : Config Agent BusOp BusRes Bus} (hc : bus.Reach ordered c) :
    ∀ slot < flushSlots, Published c.state slot := by
  have hl := (hc.lawful bus_disciplined).1
  exact fun slot hslot => (truthful_of hc.trace hl).published hslot

/-- How an operation is answered on an execution. Wait loops get one round. -/
def Bus.answer (_ : Bool) (s : Bus) : (op : BusOp) → Option (BusRes op × Bus)
  | .code op =>
    match op with
    | .read8 offset => some ((s.sees offset).setWidth 8,s)
    | .read32 offset => some ((s.sees offset).setWidth 32,s)
    | .read64 offset => some (s.sees offset,s)
    | .rounds => some (1,s)
    | .never | .fwWrite .. | .fwDone _ => none
    | .write8 offset value => some ((),s.after (.write8 offset value))
    | .write32 offset value => some ((),s.after (.write32 offset value))
    | .write64 offset value => some ((),s.after (.write64 offset value))
    | .barrier => some ((),s.after .barrier)
    | .mark m => some ((),s.after (.mark m))
    | .relax | .setLocked _ | .setInitialized _ => some ((),s)
  | .deliver place =>
    match s.buffer.flight.drop place with
    | [] => none
    | x :: newer =>
      let older := s.buffer.flight.take place
      if older.length = place ∧ ∀ y ∈ older, ¬ WriteBuffer.HoldsBack y x then
        some ((),{ s with buffer := ⟨WriteBuffer.arrive s.buffer.memory x,older ++ newer⟩ })
      else none
  | .fwWrite .. | .fwDone _ => none

theorem Bus.answer_step (pick : Bool) (s : Bus) (op : BusOp) (r : BusRes op) (t : Bus)
    (ha : s.answer pick op = some (r,t)) : s.step op r t := by
  cases op with
  | code op =>
    cases op with
    | never | fwWrite | fwDone => contradiction
    | _ =>
      obtain ⟨rfl,rfl⟩ := Prod.mk.inj (Option.some.inj ha)
      first | exact ⟨rfl,rfl⟩ | exact ⟨trivial,rfl⟩
  | deliver place =>
    rw [Bus.answer] at ha
    split at ha
    · contradiction
    · rename_i x newer hdrop
      dsimp only at ha
      split_ifs at ha with hc
      obtain ⟨hlen,hfree⟩ := hc
      obtain ⟨-,rfl⟩ := Prod.mk.inj (Option.some.inj ha)
      refine ⟨_,x,newer,_,hlen,⟨?_,hfree,rfl⟩,rfl⟩
      rw [← hdrop, List.take_append_drop]
  | fwWrite | fwDone => contradiction

/-- All words are 0. -/
def Bus.cleared : Bus := ⟨⟨fun _ => ⟨0#64,none⟩,[]⟩,none⟩

/-- A cache flush of one page, with the writes arriving at these places. -/
def flushOnBus (places : List ℕ) : List (Threads.Turn Agent BusCall) :=
  [.start .ap (.flush (.prepareCacheflush 0#32 0x4000#64 0x1000#64)),.acts .ap 6 true] ++
    places.flatMap fun place => [.start .bus (.deliver place),.acts .bus 1 true]

/-- The slot is BUSY by the request, with these words beside it. -/
def busyWith (addr size : U64) (c : Config Agent BusOp BusRes Bus) : Bool :=
  c.state.word (offFlushState 0) == flushBusy &&
    (c.state.buffer.memory (offFlushState 0)).source ==
      some (.prepareCacheflush 0#32 0x4000#64 0x1000#64) &&
    c.state.word (offFlushAddr 0) == addr && c.state.word (offFlushSize 0) == size

theorem busyWith_iff {addr size : U64} {c : Config Agent BusOp BusRes Bus} :
    busyWith addr size c = true ↔ c.state.word (offFlushState 0) = flushBusy ∧
      (c.state.buffer.memory (offFlushState 0)).source =
        some (.prepareCacheflush 0#32 0x4000#64 0x1000#64) ∧
      c.state.word (offFlushAddr 0) = addr ∧ c.state.word (offFlushSize 0) = size := by
  simp [busyWith, and_assoc]

theorem cleared_init : bus.init Bus.cleared := ⟨rfl,rfl,fun _ => rfl⟩

/-- With the state delivered last the firmware finds the request. -/
theorem requests_published_example : ∃ c, bus.Reach ordered c ∧
    c.state.word (offFlushState 0) = flushBusy ∧ c.state.word (offFlushAddr 0) = 0x4000#64 ∧
    c.state.word (offFlushSize 0) = 0x1000#64 := by
  have hx : (bus.turns ordered Bus.answer ⟨Bus.cleared,bus.first,[]⟩ (flushOnBus [1,0,0])).any
      (busyWith 0x4000#64 0x1000#64) = true := by decide +kernel
  obtain ⟨c,hc,hbusy⟩ := Threads.reach_of_turns Bus.answer_step hx
  have hreach := hc.of_startingAt cleared_init
  obtain ⟨hstate,hsource,-⟩ := busyWith_iff.mp hbusy
  obtain ⟨haddr,hsize⟩ := (requests_published hreach 0 (by decide)).flush _ _ _ hstate hsource
  exact ⟨c,hreach,hstate,haddr,hsize⟩

/-- Delivered first, the state shows the firmware a request with the words of before. -/
theorem request_torn : ∃ c, bus.Reachable c ∧ ¬ Published c.state 0 := by
  have hx : (bus.turns (fun _ _ _ _ => True) Bus.answer ⟨Bus.cleared,bus.first,[]⟩
      (flushOnBus [2])).any (busyWith 0#64 0#64) = true := by decide +kernel
  obtain ⟨c,hc,hbusy⟩ := Threads.reach_of_turns Bus.answer_step hx
  obtain ⟨hstate,hsource,haddr,-⟩ := busyWith_iff.mp hbusy
  refine ⟨c,hc.of_startingAt cleared_init,fun hp => ?_⟩
  have hbase := (hp.flush _ _ _ hstate hsource).1
  rw [haddr] at hbase
  exact absurd hbase (by decide)

end AgxOpen.Handoff
