import AgxOpen.Rtbuddy.Fields

/-!
# The interrupt thread obeys its law

One lemma for each function of the protocol core, at the driver's callbacks,
from the message being handled to the message still being handled.
-/
namespace AgxOpen.Rtbuddy
open Rtkit

variable {guard : World → Log Party Op Res → Party → Op → Prop} {h h' h'' : Hist} {α β : Type}

/-- A program of the interrupt thread, checked against its history. -/
abbrev IrqObeys (guard : World → Log Party Op Res → Party → Op → Prop) (p : Prog α)
    (Q : Hist → α → Prop) (h : Hist) : Prop := Obeys irqLaw (May guard .irq) p Q h

/-- Operations that no record of the handler depends on. -/
def plain : Op → Bool
  | .load | .readI2a | .recv0 | .recv1 | .send .. | .wakeUp => true
  | .rtkit (.orEndpoints ..) | .rtkit (.orBuffers _) => false
  | .rtkit _ => true
  | .store .fwEvents | .store .appUnknown | .store (.drainCount _) => true
  | _ => false

/-- The records of the handler are the same, and more was done. -/
structure Kept (h h' : Hist) : Prop where
  inside : inside h' = inside h
  current : current h' = current h
  endpoints : endpointsOf h' = endpointsOf h
  buffers : buffersOf h' = buffersOf h
  shmem : shmemOf h' = shmemOf h
  pending : pending h' = pending h
  since : since h <:+ since h'

theorem Kept.refl (h : Hist) : Kept h h := ⟨rfl,rfl,rfl,rfl,rfl,rfl,List.suffix_rfl⟩

theorem Kept.trans (h1 : Kept h h') (h2 : Kept h' h'') : Kept h h'' where
  inside := h2.inside.trans h1.inside
  current := h2.current.trans h1.current
  endpoints := h2.endpoints.trans h1.endpoints
  buffers := h2.buffers.trans h1.buffers
  shmem := h2.shmem.trans h1.shmem
  pending := h2.pending.trans h1.pending
  since := h1.since.trans h2.since

theorem since_cons {a : Ev} (ha : messageMark a = none) : since (a :: h) = a :: since h := by
  simp [since, ha]

theorem Kept.cons {o : Op} {r : Res o} (hop : plain o = true) (hk : Kept h h') :
    Kept h (⟨o,r⟩ :: h') := by
  refine hk.trans ?_
  have hm : messageMark ⟨o,r⟩ = none := by
    cases o <;> first | rfl | simp [plain] at hop
  constructor
  case since => exact since_cons hm ▸ List.suffix_cons _ _
  case current => simp [Rtbuddy.current, hm]
  all_goals
    cases o with
    | rtkit u => cases u <;> first | rfl | simp [plain] at hop
    | store f => cases f <;> first | rfl | simp [plain] at hop
    | _ => first | rfl | simp [plain] at hop

/-- The handler is at work on a message, and the two buffer records agree. -/
structure Working (endpoint : U32) (message : U64) (h : Hist) : Prop where
  inside : inside h = true
  current : current h = some (endpoint,message)
  pending : pending h = none
  agree : Agree h

theorem Kept.working {endpoint : U32} {message : U64} (hk : Kept h h')
    (hw : Working endpoint message h) : Working endpoint message h' where
  inside := hk.inside.trans hw.inside
  current := hk.current.trans hw.current
  pending := hk.pending.trans hw.pending
  agree slot := by
    rw [hk.buffers, hk.shmem]
    exact hw.agree slot

theorem irqLaw_of {op : Op} (hi : inside h = true) (hs : irqStep h op) : irqLaw h op := .inr ⟨hi,hs⟩

section Core

variable (hi : inside h = true)
include hi

theorem irq_store {u : Update} (hu : irqUpdate h u) (hp : plain (.rtkit u) = true) :
    IrqObeys guard (port.store u) (fun h' _ => Kept h h') h :=
  ⟨irqLaw_of hi hu,fun _ _ => (Kept.refl h).cons hp⟩

theorem irq_fail (error : ℤ) : IrqObeys guard (fail port error) (fun h' _ => Kept h h') h :=
  irq_store hi trivial rfl

theorem irq_send {endpoint : U32} {message : U64} (hs : IrqSend endpoint message) :
    IrqObeys guard (Rtkit.send port endpoint message) (fun h' ret => Kept h h' ∧
      (ret = 0 → (⟨.send endpoint message,(0 : ℤ)⟩ : Ev) ∈ since h')) h := by
  refine .request (irqLaw_of hi hs) fun ret _ => ?_
  have hk : Kept h (⟨.send endpoint message,ret⟩ :: h) := (Kept.refl h).cons rfl
  by_cases h0 : ret = (0 : ℤ)
  · subst h0
    exact ⟨hk,fun _ => by rw [since_cons rfl]; exact List.mem_cons_self⟩
  · rw [if_pos h0]
    refine (irq_fail (hk.inside.trans hi) ret).bind ?_
    intro h' _ hk'
    exact ⟨hk.trans hk',fun h0' => absurd h0' h0⟩

theorem irq_noteUnknown (message : U64) :
    IrqObeys guard (noteUnknown port message) (fun h' _ => Kept h h') h :=
  ⟨irqLaw_of hi trivial,fun _ _ => ⟨irqLaw_of hi trivial,fun _ _ =>
    ((Kept.refl h).cons rfl).cons rfl⟩⟩

theorem irq_hasEndpoint {endpoint : U32} (he : ¬ endpoint ≥ epCount) :
    IrqObeys guard (hasEndpoint port endpoint) (fun h' known => Kept h h' ∧
      known = announcedIn h endpoint) h := by
  simp only [hasEndpoint, he, if_false]
  refine ⟨irqLaw_of hi trivial,fun s hs => ⟨(Kept.refl h).cons rfl,?_⟩⟩
  rw [announcedIn, ← (hs.irq_load hi).1]
  rfl

end Core

theorem isSystem_cases {endpoint : U32} (he : isSystem endpoint = true) :
    endpoint = epCrashlog ∨ endpoint = epSyslog ∨ endpoint = epDebug ∨ endpoint = epIoreport ∨
      endpoint = epOslog := by
  simpa [isSystem, or_assoc] using he

theorem isSystem_small {endpoint : U32} (he : isSystem endpoint = true) : endpoint < epAppStart := by
  obtain rfl | rfl | rfl | rfl | rfl := isSystem_cases he <;> decide

theorem irq_startEndpoint {endpoint : U32} (hi : inside h = true) (he : isSystem endpoint = true) :
    IrqObeys guard (startEndpoint port endpoint) (fun h' ret => Kept h h' ∧
      (ret = 0 → Sent (startepMsg endpoint) (since h'))) h := by
  have hlt := isSystem_small he
  have hc : ¬ endpoint ≥ epCount := system_lt hlt
  rw [startEndpoint, if_neg hc]
  refine (irq_hasEndpoint hi hc).bind ?_
  intro h' known hk
  cases known with
  | false => exact ⟨hk.1,fun h0 => absurd h0 (by decide)⟩
  | true =>
    simp only [Bool.not_true, Bool.false_eq_true, if_false, mayStart, ge_iff_le,
      BitVec.not_le.mpr hlt, Program.pure_eq, Program.ret_bind]
    refine (irq_send (hk.1.inside.trans hi) (.startep he)).mono ?_
    intro h'' ret hs
    exact ⟨hk.1.trans hs.1,hs.2⟩

theorem irq_startSystem {endpoint : U32} (hi : inside h = true) (he : endpoint < epAppStart) :
    IrqObeys guard (startSystem port endpoint) (fun h' all => Kept h h' ∧
      (all = true → isSystem endpoint = true → announcedIn h endpoint = true →
        Sent (startepMsg endpoint) (since h'))) h := by
  have hc : ¬ endpoint ≥ epCount := system_lt he
  refine (irq_hasEndpoint hi hc).bind ?_
  intro h' known hk
  obtain ⟨hk,rfl⟩ := hk
  cases ha : announcedIn h endpoint with
  | false => exact ⟨hk,fun _ _ hf => absurd hf (by decide)⟩
  | true =>
    cases hs : isSystem endpoint with
    | false =>
      refine .request (irqLaw_of (hk.inside.trans hi) trivial) fun _ _ => ?_
      exact ⟨hk.cons rfl,fun _ hf => absurd hf (by decide)⟩
    | true =>
      refine (irq_startEndpoint (hk.inside.trans hi) hs).bind ?_
      intro h'' ret hr
      exact ⟨hk.trans hr.1,fun h0 _ _ => hr.2 (by simpa using h0)⟩

section Mgmt

variable {m : U64} (hw : Working epMgmt m h)
include hw

theorem Working.handles {type : U32} {P : U64 → Prop} (ht : msgType m = type) (hP : P m) :
    Handles h type P := ⟨m,hw.current,ht,hP⟩

theorem irq_rxHello (ht : msgType m = mgmtHello) :
    IrqObeys guard (rxHello port m) (fun h' _ => Working epMgmt m h') h := by
  by_cases hbad : helloMin m > helloMax m ∨ helloMin m > protoMax ∨ helloMax m < protoMin
  · rw [rxHello, if_pos hbad]
    exact (irq_fail hw.inside Status.einval).mono fun h' _ hk => hk.working hw
  · rw [rxHello, if_neg hbad]
    simp only [not_or, gt_iff_lt, BitVec.not_lt] at hbad
    generalize hv : (if helloMax m < protoMax then helloMax m else protoMax) = want
    obtain ⟨hlo,hhi,hmin,hmax⟩ : helloMin m ≤ want ∧ want ≤ helloMax m ∧ protoMin ≤ want ∧
        want ≤ protoMax := by
      rw [← hv]
      split_ifs with hlt
      · exact ⟨hbad.1,BitVec.le_refl _,hbad.2.2,BitVec.le_of_lt hlt⟩
      · exact ⟨hbad.2.1,BitVec.not_lt.mp hlt,by decide,BitVec.le_refl _⟩
    refine .request (irqLaw_of hw.inside ⟨hmin,hmax⟩) fun _ _ => ?_
    have hk1 := (Kept.refl h).cons (o := .rtkit (.version want)) (r := ()) rfl
    refine (irq_send (hk1.inside.trans hw.inside) (.helloReply want)).bind ?_
    intro h2 ret hs
    have hw2 := (hk1.trans hs.1).working hw
    split_ifs with hret
    · exact hw2
    · refine (irq_store (u := .helloDone) hw2.inside ?_ rfl).mono fun h3 _ hk => hk.working hw2
      refine hw2.handles ht ⟨want,hlo,hhi,hmin,hmax,hs.1.since.subset ?_,hs.2 (not_not.mp hret)⟩
      rw [since_cons rfl]
      exact List.mem_cons_self

/-- The loop over the system endpoints: those passed are started if announced. -/
theorem irq_startAll :
    IrqObeys guard (Program.forUntil 1 31 fun i => startSystem port (BitVec.ofNat 32 i))
      (fun h' all => Kept h h' ∧ (all = true → ∀ endpoint, isSystem endpoint = true →
        announcedIn h endpoint = true → Sent (startepMsg endpoint) (since h'))) h := by
  refine (obeys_forUntil (fun n h' => Kept h h' ∧ ∀ endpoint, isSystem endpoint = true →
    endpoint.toNat < n → announcedIn h endpoint = true → Sent (startepMsg endpoint) (since h'))
    (Kept h) ?_ ?_).mono ?_
  · refine ⟨.refl h,fun endpoint he hlt => ?_⟩
    obtain rfl | rfl | rfl | rfl | rfl := isSystem_cases he <;> exact absurd hlt (by decide)
  · intro k hk1 hk2 h' ⟨hk,hd⟩
    have hlt : BitVec.ofNat 32 k < epAppStart := by
      rw [BitVec.lt_def, BitVec.toNat_ofNat, Nat.mod_eq_of_lt (by omega)]
      exact lt_of_lt_of_eq hk2 rfl
    refine (irq_startSystem (hk.inside.trans hw.inside) hlt).mono ?_
    intro h'' all hs
    cases all with
    | false => exact hk.trans hs.1
    | true =>
      refine ⟨hk.trans hs.1,fun endpoint he hle ha => ?_⟩
      by_cases heq : endpoint = BitVec.ofNat 32 k
      · subst heq
        refine hs.2 rfl he ?_
        rwa [announcedIn, hk.endpoints]
      · refine hs.1.since.subset (hd endpoint he ?_ ha)
        have hne : endpoint.toNat ≠ k := by
          rintro rfl
          exact heq (by simp)
        omega
  · intro h' all hs
    cases all with
    | false => exact ⟨hs,fun hf => absurd hf (by decide)⟩
    | true =>
      exact ⟨hs.1,fun _ endpoint he => hs.2 endpoint he (BitVec.lt_def.mp (isSystem_small he))⟩

theorem irq_rxEpmap (ht : msgType m = mgmtEpmap) :
    IrqObeys guard (rxEpmap port m) (fun h' _ => Working epMgmt m h') h := by
  refine .request (irqLaw_of hw.inside (hw.handles ht ⟨rfl,rfl⟩)) fun _ _ => ?_
  generalize hh : (_ :: h : Hist) = h1
  have hw1 : Working epMgmt m h1 := by
    subst hh
    exact ⟨hw.inside,hw.current,hw.pending,hw.agree⟩
  refine (irq_send hw1.inside (.epmapReply (epmapBase m) (epmapIsLast m))).bind ?_
  intro h2 ret hs
  have hw2 := hs.1.working hw1
  split_ifs with hret hlast
  · exact hw2
  · exact hw2
  · refine (irq_startAll hw2).bind ?_
    intro h3 all ha
    have hw3 := ha.1.working hw2
    cases all with
    | false => exact hw3
    | true =>
      refine (irq_store (u := .epmapDone) hw3.inside ?_ rfl).mono fun h4 _ hk => hk.working hw3
      have hl : epmapIsLast m = true := by simpa using hlast
      refine hw3.handles ht ⟨hl,?_,fun endpoint he han => ?_⟩
      · have hrep := hs.2 (not_not.mp hret)
        rw [hl] at hrep
        exact ha.1.since.subset hrep
      · refine ha.2 rfl endpoint he ?_
        rwa [announcedIn, ← ha.1.endpoints]

theorem irq_rxMgmt : IrqObeys guard (rxMgmt port m) (fun h' _ => Working epMgmt m h') h := by
  rw [rxMgmt]
  split_ifs with h1 h2 h3 h4
  · exact irq_rxHello hw h1
  · exact irq_rxEpmap hw h2
  · refine (irq_store (u := .iopPower (powerState m)) hw.inside (hw.handles h3 rfl) rfl).bind ?_
    intro h' _ hk
    have hw' := hk.working hw
    refine (irq_store (u := .iopAcked true) hw'.inside ⟨rfl,hw'.handles h3 trivial⟩ rfl).mono ?_
    exact fun h'' _ hk' => hk'.working hw'
  · refine (irq_store (u := .apPower (powerState m)) hw.inside (hw.handles h4 rfl) rfl).bind ?_
    intro h' _ hk
    have hw' := hk.working hw
    refine (irq_store (u := .apAcked true) hw'.inside ⟨rfl,hw'.handles h4 trivial⟩ rfl).mono ?_
    exact fun h'' _ hk' => hk'.working hw'
  · exact (irq_noteUnknown hw.inside m).mono fun h' _ hk => hk.working hw

end Mgmt

/-- The endpoints of shared buffers. The tables of the core and of the driver
give each of them a bit and a slot of the same number. -/
theorem buffer_tables {endpoint : U32}
    (he : endpoint = epCrashlog ∨ endpoint = epSyslog ∨ endpoint = epIoreport ∨ endpoint = epOslog) :
    isSystem endpoint = true ∧ ∃ slot, shmemSlot endpoint = some slot ∧
      ∀ k : Fin 4, (bufferBit endpoint).getLsbD k = decide (k = slot) := by
  obtain rfl | rfl | rfl | rfl := he
  · exact ⟨rfl,0,rfl,by decide⟩
  · exact ⟨rfl,1,rfl,by decide⟩
  · exact ⟨rfl,2,rfl,by decide⟩
  · exact ⟨rfl,3,rfl,by decide⟩

/-- The driver has recorded a new buffer that the core has not. -/
structure Filled (slot : Fin 4) (endpoint : U32) (message : U64) (h : Hist) : Prop where
  inside : inside h = true
  current : current h = some (endpoint,message)
  pending : pending h = none
  cpu : (shmemOf h slot).cpu ≠ 0
  agree : ∀ k, k ≠ slot → ((buffersOf h).getLsbD k = true ↔ (shmemOf h k).cpu ≠ 0)

section Buffer

variable {endpoint e : U32} {m message : U64} {slot : Fin 4}

/-- A refused buffer leaves the slot empty, a granted one fills it. -/
theorem irq_alloc (hw : Working e m h) (hfree : (shmemOf h slot).cpu = 0) (size iova : U64) :
    IrqObeys guard (do
        let buffer ← ask (.dmaAlloc slot size)
        if buffer.1 = 0 then return (Status.enomem,iova)
        else do
          store (.shmemSize slot size)
          return (0,buffer.2))
      (fun h' r => if r.1 = 0 then Filled slot e m h' else Working e m h') h := by
  have hcur : current h ≠ none := hw.current ▸ Option.some_ne_none _
  refine .request (irqLaw_of hw.inside ⟨hfree,hw.pending,hcur⟩) fun r _ => ?_
  split_ifs with hr
  · refine ⟨hw.inside,hw.current,by simp [pending, allocates, hr],fun k => ?_⟩
    have ha := hw.agree k
    rw [shmemOf_alloc]
    split_ifs with hk
    · subst hk
      rw [hfree] at ha
      exact ha.trans (by rw [hr])
    · exact ha
  · refine .request (irqLaw_of hw.inside ⟨by simp [pending, allocates, hr],hcur⟩) fun _ _ => ?_
    have hcpu : ∀ k, (shmemOf (⟨.store (.shmemSize slot size),()⟩ ::
        ⟨.dmaAlloc slot size,r⟩ :: h) k).cpu = if k = slot then r.1 else (shmemOf h k).cpu := by
      intro k
      rw [shmemOf_size]
      split_ifs with hk
      · rw [shmemOf_alloc, if_pos rfl]
      · rw [shmemOf_alloc, if_neg hk]
    refine ⟨hw.inside,hw.current,rfl,?_,fun k hk => ?_⟩
    · rw [hcpu, if_pos rfl]
      exact hr
    · rw [hcpu, if_neg hk]
      exact hw.agree k

theorem irq_opsBuffer (hw : Working e m h) (hs : shmemSlot endpoint = some slot) (size iova : U64) :
    IrqObeys guard (opsBuffer endpoint size iova)
      (fun h' r => if r.1 = 0 then Filled slot e m h' else Working e m h') h := by
  rw [opsBuffer, hs]
  dsimp only
  split_ifs with hiova hsize
  · exact hw
  · exact hw
  · refine .request (irqLaw_of hw.inside trivial) fun s hload => ?_
    have hw1 := ((Kept.refl h).cons (o := .load) (r := s) rfl).working hw
    split_ifs with hcpu
    · exact hw1
    · refine irq_alloc hw1 ?_ size iova
      have hshm := (hload.irq_load hw.inside).2.2
      rw [hshm] at hcpu
      exact not_not.mp hcpu

theorem irq_getBuffer (hw : Working e m h)
    (he : endpoint = epCrashlog ∨ endpoint = epSyslog ∨ endpoint = epIoreport ∨ endpoint = epOslog) :
    IrqObeys guard (getBuffer port endpoint message) (fun h' _ => Working e m h') h := by
  obtain ⟨hsys,slot,hslot,hbit⟩ := buffer_tables he
  rw [getBuffer]
  simp only [port]
  split_ifs with hsize
  · exact (irq_fail hw.inside Status.einval).mono fun h' _ hk => hk.working hw
  · refine (irq_opsBuffer hw hslot _ _).bind ?_
    intro h1 r hr
    by_cases h0 : r.1 = 0
    · rw [if_pos h0] at hr
      rw [if_neg (not_not.mpr h0)]
      have hcur : current h1 ≠ none := hr.current ▸ Option.some_ne_none _
      refine .request (irqLaw_of hr.inside hcur) fun _ _ => ?_
      have hw2 : Working e m (⟨.rtkit (.orBuffers (bufferBit endpoint)),()⟩ :: h1) := by
        refine ⟨hr.inside,hr.current,hr.pending,fun k => ?_⟩
        have hb : (buffersOf (⟨.rtkit (.orBuffers (bufferBit endpoint)),()⟩ :: h1)).getLsbD k =
            ((buffersOf h1).getLsbD k || decide (k = slot)) := by
          rw [← hbit k]
          exact BitVec.getLsbD_or
        rw [hb]
        change _ ↔ (shmemOf h1 k).cpu ≠ 0
        by_cases hk : k = slot
        · subst hk
          simpa using hr.cpu
        · simpa [hk] using hr.agree k hk
      refine (irq_send hw2.inside (.system _ hsys)).bind ?_
      intro h3 _ hs
      exact hs.1.working hw2
    · rw [if_neg h0] at hr
      rw [if_pos h0]
      exact (irq_fail hr.inside r.1).mono fun h' _ hk => hk.working hr

end Buffer

section Rx

attribute [local irreducible] getBuffer

variable {endpoint e : U32} {m : U64} (hw : Working e m h)
include hw

theorem irq_noteUnknown_working :
    IrqObeys guard (noteUnknown port m) (fun h' _ => Working e m h') h :=
  (irq_noteUnknown hw.inside m).mono fun _ _ hk => hk.working hw

/-- A message sent back on a system endpoint. -/
theorem irq_echo (he : isSystem endpoint = true) :
    IrqObeys guard (Rtkit.send port endpoint m >>= fun _ => return ())
      (fun h' _ => Working e m h') h := by
  refine (irq_send hw.inside (.system m he)).bind ?_
  exact fun _ _ hs => hs.1.working hw

theorem irq_rxCrashlog : IrqObeys guard (rxCrashlog port m) (fun h' _ => Working e m h') h := by
  rw [rxCrashlog]
  split_ifs
  · exact irq_noteUnknown_working hw
  · refine .request (irqLaw_of hw.inside trivial) fun s _ => ?_
    have hw1 := ((Kept.refl h).cons (o := .load) (r := s) rfl).working hw
    change IrqObeys guard (if _ then _ else _) _ _
    split_ifs
    · exact irq_getBuffer hw1 (.inl rfl)
    · refine .request (irqLaw_of hw1.inside trivial) fun _ _ => ?_
      exact ((Kept.refl _).cons rfl).working hw1

theorem irq_rxSyslog : IrqObeys guard (rxSyslog port m) (fun h' _ => Working e m h') h := by
  rw [rxSyslog]
  split_ifs
  · exact irq_getBuffer hw (.inr (.inl rfl))
  · exact hw
  · exact irq_echo hw rfl
  · exact irq_noteUnknown_working hw

theorem irq_rxIoreport : IrqObeys guard (rxIoreport port m) (fun h' _ => Working e m h') h := by
  rw [rxIoreport]
  split_ifs
  · exact irq_getBuffer hw (.inr (.inr (.inl rfl)))
  · exact irq_echo hw rfl
  · exact irq_noteUnknown_working hw

theorem irq_rxOslog : IrqObeys guard (rxOslog port m) (fun h' _ => Working e m h') h := by
  rw [rxOslog]
  split_ifs
  · exact irq_getBuffer hw (.inr (.inr (.inr rfl)))
  · exact irq_noteUnknown_working hw

theorem irq_opsApp : IrqObeys guard (opsApp endpoint m) (fun h' _ => Working e m h') h := by
  rw [opsApp]
  split_ifs
  · exact ⟨irqLaw_of hw.inside trivial,fun _ _ => ((Kept.refl h).cons rfl).working hw⟩
  · exact ⟨irqLaw_of hw.inside trivial,fun _ _ => ((Kept.refl h).cons rfl).working hw⟩

end Rx

/-- The endpoint of a received message is a byte. -/
theorem unpackEndpoint_byte (msg1 : U64) : unpackEndpoint msg1 &&& 0xff#32 = unpackEndpoint msg1 := by
  ext i hi
  simp only [unpackEndpoint, msg1EndpointMask, BitVec.getElem_and, BitVec.getElem_setWidth,
    BitVec.getLsbD_and, BitVec.getLsbD_setWidth]
  rw [BitVec.getLsbD_eq_getElem hi]
  cases (0xff#32)[i] <;> simp

theorem irq_countStray {endpoint : U32} (hi : inside h = true) (he : ¬ endpoint ≥ epCount) :
    IrqObeys guard (countStray port endpoint) (fun h' _ => Kept h h') h := by
  refine (irq_hasEndpoint hi he).bind ?_
  intro h' known hk
  split_ifs
  · refine (irq_store (u := .strayCount) (hk.1.inside.trans hi) trivial rfl).mono ?_
    exact fun _ _ hk' => hk.1.trans hk'
  · exact hk.1

theorem irq_rx {endpoint : U32} {m : U64} (hw : Working endpoint m h)
    (he : endpoint &&& 0xff#32 = endpoint) :
    IrqObeys guard (rx port endpoint m) (fun h' _ => Working endpoint m h') h := by
  have hlt : ¬ endpoint ≥ epCount := he ▸ low_byte_lt endpoint
  rw [rx, he]
  refine .request (irqLaw_of hw.inside trivial) fun _ _ => ?_
  have hw1 := ((Kept.refl h).cons (o := .rtkit .rxCount) (r := ()) rfl).working hw
  refine (irq_countStray hw1.inside hlt).bind ?_
  intro h2 _ hk
  have hw2 := hk.working hw1
  simp only [show port.app = some opsApp from rfl]
  split_ifs with hmgmt
  · subst hmgmt
    exact irq_rxMgmt hw2
  · exact irq_rxCrashlog hw2
  · exact irq_rxSyslog hw2
  · exact irq_rxIoreport hw2
  · exact irq_rxOslog hw2
  · exact irq_opsApp hw2
  · exact irq_noteUnknown_working hw2

/-- The handler runs and no message is being handled. -/
structure Ready (h : Hist) : Prop where
  inside : inside h = true
  settled : Settled h

theorem Kept.ready (hk : Kept h h') (hr : Ready h) : Ready h' where
  inside := hk.inside.trans hr.inside
  settled :=
    { current := hk.current.trans hr.settled.current
      pending := hk.pending.trans hr.settled.pending
      agree := fun slot => by
        rw [hk.buffers, hk.shmem]
        exact hr.settled.agree slot }

theorem irq_mailboxRecv (hi : inside h = true) :
    IrqObeys guard mailboxRecv (fun h' msg => Kept h h' ∧
      ∀ x ∈ msg, x.1 &&& 0xff#32 = x.1) h := by
  refine .request (irqLaw_of hi trivial) fun control _ => ?_
  have hk := (Kept.refl h).cons (o := .readI2a) (r := control) rfl
  change IrqObeys guard (if _ then _ else _) _ _
  split_ifs
  · exact ⟨hk,by simp⟩
  · refine .request (irqLaw_of (hk.inside.trans hi) trivial) fun msg0 _ => ?_
    refine .request (irqLaw_of (hk.inside.trans hi) trivial) fun msg1 _ => ?_
    refine ⟨(hk.cons rfl).cons rfl,?_⟩
    intro x hx
    obtain rfl := Option.some.inj hx
    exact unpackEndpoint_byte msg1

theorem irq_drain (n : ℕ) (hr : Ready h) :
    IrqObeys guard (drain n) (fun h' _ => Ready h') h := by
  induction n generalizing h with
  | zero => exact hr
  | succ n ih =>
    refine (irq_mailboxRecv hr.inside).bind ?_
    intro h1 msg ⟨hk,hbyte⟩
    have hr1 := hk.ready hr
    cases msg with
    | none => exact hr1
    | some x =>
      obtain ⟨endpoint,data⟩ := x
      refine .request (irqLaw_of hr1.inside hr1.settled.current) fun _ _ => ?_
      have hw : Working endpoint data (⟨.mark (.rx endpoint data),()⟩ :: h1) :=
        ⟨hr1.inside,rfl,hr1.settled.pending,hr1.settled.agree⟩
      refine (irq_rx hw (hbyte _ rfl)).bind ?_
      intro h2 _ hw2
      refine .request (irqLaw_of hw2.inside ⟨hw2.pending,hw2.agree⟩) fun _ _ => ?_
      refine (ih (h := ⟨.mark .rxDone,()⟩ :: h2) ⟨hw2.inside,rfl,hw2.pending,hw2.agree⟩).bind ?_
      exact fun h3 _ hr3 => hr3

/-- An invocation of the threaded handler. -/
theorem irq_thread (hs : Settled h) :
    IrqObeys guard irqThread (fun h' _ => inside h' = false ∧ Settled h') h := by
  refine .request (.inl rfl) fun _ _ => ?_
  refine (irq_drain drainMax (h := ⟨.irqEnter,()⟩ :: h) ⟨rfl,hs.current,hs.pending,hs.agree⟩).bind ?_
  intro h1 handled hr
  refine .request (irqLaw_of hr.inside trivial) fun _ _ => ?_
  refine .request (irqLaw_of hr.inside trivial) fun _ _ => ?_
  refine ⟨irqLaw_of hr.inside hr.settled.current,fun _ _ => ⟨rfl,?_⟩⟩
  exact ⟨hr.settled.current,hr.settled.pending,hr.settled.agree⟩

end AgxOpen.Rtbuddy
