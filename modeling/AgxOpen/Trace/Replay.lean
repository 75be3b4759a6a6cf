import AgxOpen.Framing
import AgxOpen.Types

/-!
# The trace validator

`agxtracereplay` reads a file of mailbox messages and checks each of them. The
reading loop ends at the first short read, so what is left of a record that was
cut off goes unnoticed.
-/
namespace AgxOpen.Trace

/-- `agxtrace::magic`, the letters `agxtrc1` and a zero byte. -/
def magic : List U8 := [0x61#8,0x67#8,0x78#8,0x74#8,0x72#8,0x63#8,0x31#8,0x00#8]

/-- `agxtrace::record`. -/
structure Record where
  timestampns : U64
  endpoint : U32
  flags : U32
  data0 : U64
deriving DecidableEq

def endpointManagement : U32 := 0x00#32
def endpointSystemLimit : U32 := 0x20#32
def endpointFirmware : U32 := 0x20#32
def endpointDoorbell : U32 := 0x21#32

def Record.fields : Record ≃ U64 × U32 × U32 × U64 where
  toFun r := (r.timestampns,r.endpoint,r.flags,r.data0)
  invFun x := ⟨x.1,x.2.1,x.2.2.1,x.2.2.2⟩
  left_inv _ := rfl
  right_inv _ := rfl

def word32 : Codec U8 U32 := Codec.word 4 (by decide)
def word64 : Codec U8 U64 := Codec.word 8 (by decide)

/-- A record as it lies in the file, in the byte order of the host. -/
def record : Codec U8 Record := (word64.pair (word32.pair (word32.pair word64))).equiv Record.fields

example : record.size = 24 := rfl

/-- What the program writes to its error stream about a record, with its number. -/
inductive Anomaly
  | backwards (record : ℕ)
  | unknownEndpoint (record : ℕ) (endpoint : U32)
deriving DecidableEq

/-- The variables of `main`, and the anomalies written so far. -/
structure Tally where
  previous : Record
  havePrevious : Bool
  total : ℕ
  anomalies : ℕ
  managementCount : ℕ
  systemCount : ℕ
  doorbellCount : ℕ
  firmwareCount : ℕ
  unknownCount : ℕ
  errors : List Anomaly

def Tally.start : Tally := ⟨⟨0,0,0,0⟩,false,0,0,0,0,0,0,0,[]⟩

/-- The test of the timestamp. -/
def Tally.checkTime (t : Tally) (rec : Record) : Tally :=
  if t.havePrevious && rec.timestampns < t.previous.timestampns then
    { t with errors := t.errors ++ [.backwards t.total], anomalies := t.anomalies + 1 }
  else t

/-- The chain of tests of the endpoint. -/
def Tally.countEndpoint (t : Tally) (rec : Record) : Tally :=
  if rec.endpoint = endpointManagement then { t with managementCount := t.managementCount + 1 }
  else if rec.endpoint < endpointSystemLimit then { t with systemCount := t.systemCount + 1 }
  else if rec.endpoint = endpointDoorbell then { t with doorbellCount := t.doorbellCount + 1 }
  else if rec.endpoint = endpointFirmware then { t with firmwareCount := t.firmwareCount + 1 }
  else { t with
    errors := t.errors ++ [.unknownEndpoint t.total rec.endpoint]
    unknownCount := t.unknownCount + 1
    anomalies := t.anomalies + 1 }

/-- The body of the loop. -/
def Tally.step (t : Tally) (rec : Record) : Tally :=
  let t := { t with total := t.total + 1 }
  let t := (t.checkTime rec).countEndpoint rec
  { t with previous := rec, havePrevious := true }

/-- How `main` ends. -/
inductive Outcome
  | usage
  | couldNotOpen
  | unexpectedHeader
  | replayed (t : Tally)

def Outcome.exitStatus : Outcome → ℤ
  | .replayed t => if t.anomalies = 0 then 0 else 1
  | _ => 1

/-- `readheader`. -/
def readHeader (file : List U8) : Bool :=
  if file.length < 8 then false else file.take 8 == magic

/-- `main` behind the opening of the file. -/
def replay (file : List U8) : Outcome :=
  if readHeader file then .replayed (record.scan Tally.step .start (file.drop 8))
  else .unexpectedHeader

/-- `main`. A file is its bytes. -/
def main (files : String → Option (List U8)) (argv : List String) : Outcome :=
  match argv with
  | [_,path] =>
    match files path with
    | some file => replay file
    | none => .couldNotOpen
  | _ => .usage

/-- How often a timestamp is less than the one before. -/
def backwards : List Record → ℕ
  | a :: b :: rs => (if b.timestampns < a.timestampns then 1 else 0) + backwards (b :: rs)
  | _ => 0

def Record.isUnknown (r : Record) : Bool := 0x21#32 < r.endpoint

def unknowns (rs : List Record) : ℕ := rs.countP Record.isUnknown

/-- Timestamps that never decrease and endpoints of at most `0x21`. -/
structure CleanRecords (rs : List Record) : Prop where
  ordered : rs.IsChain fun a b => a.timestampns ≤ b.timestampns
  known : ∀ r ∈ rs, r.endpoint ≤ 0x21#32

/-- The magic bytes and a whole number of records that are clean. -/
def Clean (file : List U8) : Prop := ∃ rs, file = magic ++ record.frames rs ∧ CleanRecords rs

/-- A clean trace with a last record that was cut off. -/
def CutOff (file : List U8) : Prop :=
  ∃ rs tail, file = magic ++ (record.frames rs ++ tail) ∧ CleanRecords rs ∧
    0 < tail.length ∧ tail.length < record.size

/-- The records of a file behind its header. -/
def records (file : List U8) : List Record := record.items (file.drop 8)

/-- What a validator is to do with a file. -/
structure Validates (file : List U8) (o : Outcome) : Prop where
  accepts : o.exitStatus = 0 ↔ Clean file
  total : ∀ t, o = .replayed t → t.total = t.managementCount + t.systemCount + t.firmwareCount +
    t.doorbellCount + t.unknownCount
  anomalies : ∀ t, o = .replayed t → t.anomalies = backwards (records file) + unknowns (records file)

/-- The record before the next, if there is one. -/
def Tally.seen (t : Tally) : List Record := if t.havePrevious then [t.previous] else []

theorem backwards_eq_zero {rs : List Record} :
    backwards rs = 0 ↔ rs.IsChain fun a b => a.timestampns ≤ b.timestampns := by
  induction rs with
  | nil => simp [backwards]
  | cons a rs ih =>
    cases rs with
    | nil => simp [backwards]
    | cons b rs =>
      rw [backwards, Nat.add_eq_zero_iff, ih, List.isChain_cons_cons]
      refine and_congr_left fun _ => ?_
      rw [← BitVec.not_lt]
      split_ifs with h <;> simp [h]

theorem unknowns_eq_zero {rs : List Record} : unknowns rs = 0 ↔ ∀ r ∈ rs, r.endpoint ≤ 0x21#32 := by
  simp [unknowns, List.countP_eq_zero, Record.isUnknown]

theorem cleanRecords_iff {rs : List Record} :
    CleanRecords rs ↔ backwards rs + unknowns rs = 0 := by
  rw [Nat.add_eq_zero_iff, backwards_eq_zero, unknowns_eq_zero]
  exact ⟨fun h => ⟨h.ordered,h.known⟩,fun h => ⟨h.1,h.2⟩⟩

/-- The endpoints that pass all tests of the chain. -/
theorem isUnknown_iff {r : Record} : r.isUnknown = true ↔ r.endpoint ≠ endpointManagement ∧
    ¬ r.endpoint < endpointSystemLimit ∧ r.endpoint ≠ endpointDoorbell ∧
    r.endpoint ≠ endpointFirmware := by
  simp only [Record.isUnknown, endpointManagement, endpointSystemLimit, endpointDoorbell,
    endpointFirmware, decide_eq_true_eq]
  constructor
  · intro h
    refine ⟨?_,?_,?_,?_⟩ <;> bv_omega
  · rintro ⟨h0,hlimit,h21,h20⟩
    bv_omega

theorem backwards_seen (t : Tally) (r : Record) (rs : List Record) :
    backwards (t.seen ++ r :: rs) =
      (if t.havePrevious && r.timestampns < t.previous.timestampns then 1 else 0) +
        backwards (r :: rs) := by
  unfold Tally.seen
  cases h : t.havePrevious with
  | false => simp
  | true => simp [backwards]

theorem Tally.checkTime_anomalies (t : Tally) (r : Record) : (t.checkTime r).anomalies =
    t.anomalies + if t.havePrevious && r.timestampns < t.previous.timestampns then 1 else 0 := by
  unfold Tally.checkTime
  split_ifs <;> rfl

theorem Tally.countEndpoint_anomalies (t : Tally) (r : Record) :
    (t.countEndpoint r).anomalies = t.anomalies + if r.isUnknown then 1 else 0 := by
  by_cases hu : r.isUnknown = true
  · obtain ⟨h0,hlimit,h21,h20⟩ := isUnknown_iff.mp hu
    rw [if_pos hu, Tally.countEndpoint, if_neg h0, if_neg hlimit, if_neg h21, if_neg h20]
  · have hchain := mt isUnknown_iff.mpr hu
    rw [if_neg hu, Tally.countEndpoint]
    split_ifs <;> first | rfl | exact (hchain ⟨‹_›,‹_›,‹_›,‹_›⟩).elim

/-- One record adds its own anomalies. -/
theorem Tally.step_anomalies (t : Tally) (r : Record) (rs : List Record) :
    (t.step r).anomalies + backwards ((t.step r).seen ++ rs) + unknowns rs =
      t.anomalies + backwards (t.seen ++ r :: rs) + unknowns (r :: rs) := by
  have hstep : (t.step r).anomalies = t.anomalies +
      (if t.havePrevious && r.timestampns < t.previous.timestampns then 1 else 0) +
      if r.isUnknown then 1 else 0 := by
    rw [Tally.step, Tally.countEndpoint_anomalies, Tally.checkTime_anomalies]
  have hseen : (t.step r).seen = [r] := rfl
  rw [hstep, hseen, backwards_seen, unknowns, unknowns, List.countP_cons]
  rw [List.singleton_append]
  omega

/-- The records counted by their endpoint. -/
def Tally.counted (t : Tally) : ℕ :=
  t.managementCount + t.systemCount + t.firmwareCount + t.doorbellCount + t.unknownCount

/-- Every record is in one of the counts, and every anomaly was written. -/
structure Tally.Balanced (t : Tally) : Prop where
  total : t.total = t.counted
  errors : t.errors.length = t.anomalies

theorem Tally.checkTime_counted (t : Tally) (r : Record) :
    (t.checkTime r).total = t.total ∧ (t.checkTime r).counted = t.counted := by
  unfold Tally.checkTime
  split_ifs <;> exact ⟨rfl,rfl⟩

theorem Tally.countEndpoint_counted (t : Tally) (r : Record) :
    (t.countEndpoint r).total = t.total ∧ (t.countEndpoint r).counted = t.counted + 1 := by
  unfold Tally.countEndpoint
  split_ifs <;> refine ⟨rfl,?_⟩ <;> simp only [Tally.counted] <;> omega

theorem Tally.checkTime_errors {t : Tally} (h : t.errors.length = t.anomalies) (r : Record) :
    (t.checkTime r).errors.length = (t.checkTime r).anomalies := by
  unfold Tally.checkTime
  split_ifs
  · rw [List.length_append, h, List.length_singleton]
  · exact h

theorem Tally.countEndpoint_errors {t : Tally} (h : t.errors.length = t.anomalies) (r : Record) :
    (t.countEndpoint r).errors.length = (t.countEndpoint r).anomalies := by
  unfold Tally.countEndpoint
  split_ifs
  case neg => rw [List.length_append, h, List.length_singleton]
  all_goals exact h

theorem Tally.Balanced.step {t : Tally} (h : t.Balanced) (r : Record) : (t.step r).Balanced := by
  let u : Tally := { t with total := t.total + 1 }
  obtain ⟨htime,hsame⟩ := u.checkTime_counted r
  obtain ⟨hend,hone⟩ := (u.checkTime r).countEndpoint_counted r
  constructor
  · change ((u.checkTime r).countEndpoint r).total = ((u.checkTime r).countEndpoint r).counted
    rw [hend, htime, hone, hsame]
    exact congrArg (· + 1) h.total
  · have he : u.errors.length = u.anomalies := h.errors
    exact Tally.countEndpoint_errors (Tally.checkTime_errors he r) r

theorem foldl_balanced {t : Tally} (h : t.Balanced) (rs : List Record) :
    (rs.foldl Tally.step t).Balanced := by
  induction rs generalizing t with
  | nil => exact h
  | cons r rs ih => exact ih (h.step r)

theorem foldl_anomalies (t : Tally) (rs : List Record) :
    (rs.foldl Tally.step t).anomalies = t.anomalies + backwards (t.seen ++ rs) + unknowns rs := by
  induction rs generalizing t with
  | nil =>
    have hseen : backwards (t.seen ++ []) = 0 := by
      unfold Tally.seen
      split_ifs <;> rfl
    rw [hseen]
    rfl
  | cons r rs ih => rw [List.foldl_cons, ih, Tally.step_anomalies]

theorem foldl_total (t : Tally) (rs : List Record) :
    (rs.foldl Tally.step t).total = t.total + rs.length := by
  induction rs generalizing t with
  | nil => rfl
  | cons r rs ih =>
    let u : Tally := { t with total := t.total + 1 }
    have hstep : (t.step r).total = t.total + 1 :=
      ((u.checkTime r).countEndpoint_counted r).1.trans (u.checkTime_counted r).1
    rw [List.foldl_cons, ih, hstep, List.length_cons]
    omega

theorem backwards_le (rs : List Record) : backwards rs ≤ rs.length := by
  induction rs with
  | nil => exact Nat.zero_le _
  | cons a rs ih =>
    cases rs with
    | nil => exact Nat.zero_le _
    | cons b rs =>
      rw [backwards, List.length_cons]
      split_ifs <;> omega

variable {file : List U8}

theorem length_records (file : List U8) : 24 * (records file).length ≤ file.length := by
  have hitems : 24 * (records file).length ≤ (file.drop 8).length := record.length_items _
  rw [List.length_drop] at hitems
  omega

/-- Everything `main` counts. -/
def Tally.counters (t : Tally) : List ℕ :=
  [t.total,t.anomalies,t.managementCount,t.systemCount,t.doorbellCount,t.firmwareCount,
    t.unknownCount]

/-- No counter grows by more than two for the 24 bytes of a record, so none of them
leaves `size_t` while the length of the file is in it. -/
theorem counters_le {t : Tally} (h : replay file = .replayed t) :
    ∀ n ∈ t.counters, 12 * n ≤ file.length := by
  obtain rfl : (records file).foldl Tally.step .start = t := by
    unfold replay at h
    split_ifs at h
    rw [Codec.scan_items] at h
    exact Outcome.replayed.inj h
  have hlen := length_records file
  have hback := backwards_le (records file)
  have hunknown : unknowns (records file) ≤ (records file).length := List.countP_le_length
  have htotal := foldl_total .start (records file)
  have hanomalies : ((records file).foldl Tally.step .start).anomalies =
      0 + backwards (records file) + unknowns (records file) := foldl_anomalies .start (records file)
  have hsum := (foldl_balanced (t := .start) ⟨rfl,rfl⟩ (records file)).total
  have hzero : Tally.start.total = 0 := rfl
  unfold Tally.counted at hsum
  simp only [Tally.counters, List.forall_mem_cons, List.not_mem_nil, false_imp_iff,
    implies_true, and_true]
  omega

theorem readHeader_iff : readHeader file = true ↔ ∃ body, file = magic ++ body := by
  have hlen : magic.length = 8 := rfl
  unfold readHeader
  constructor
  · intro h
    split_ifs at h
    exact ⟨file.drop 8,by rw [← beq_iff_eq.mp h, List.take_append_drop]⟩
  · rintro ⟨body,rfl⟩
    rw [if_neg (by rw [List.length_append]; omega), List.take_left' hlen]
    exact beq_self_eq_true magic

theorem drop_magic (body : List U8) : (magic ++ body).drop 8 = body := List.drop_left' rfl

theorem replay_magic (body : List U8) :
    replay (magic ++ body) = .replayed ((record.items body).foldl Tally.step .start) := by
  rw [replay, if_pos (readHeader_iff.mpr ⟨body,rfl⟩), drop_magic, Codec.scan_items]

theorem replay_other (h : ¬ ∃ body, file = magic ++ body) : replay file = .unexpectedHeader :=
  if_neg (mt readHeader_iff.mp h)

theorem records_magic (body : List U8) : records (magic ++ body) = record.items body := by
  rw [records, drop_magic]

/-- The program accepts a file if its complete records are clean, whatever is behind them. -/
theorem exit_iff {rs : List Record} {tail : List U8} (ht : tail.length < record.size) :
    (replay (magic ++ (record.frames rs ++ tail))).exitStatus = 0 ↔ CleanRecords rs := by
  rw [replay_magic, Codec.items_frames ht, cleanRecords_iff]
  have hfold : (rs.foldl Tally.step .start).anomalies = backwards rs + unknowns rs := by
    rw [foldl_anomalies]
    exact congrArg (· + _) (Nat.zero_add _)
  rw [Outcome.exitStatus, hfold]
  by_cases h : backwards rs + unknowns rs = 0
  · rw [if_pos h]
    exact iff_of_true rfl h
  · rw [if_neg h]
    exact iff_of_false (by decide) h

theorem clean_iff {rs : List Record} {tail : List U8} (ht : tail.length < record.size) :
    Clean (magic ++ (record.frames rs ++ tail)) ↔ CleanRecords rs ∧ tail = [] := by
  constructor
  · rintro ⟨rs',hs,hc⟩
    rw [← List.append_nil (record.frames rs')] at hs
    have hpos : ([] : List U8).length < record.size := record.size_pos
    obtain ⟨rfl,rfl⟩ := Codec.frames_append_inj ht hpos (List.append_cancel_left hs)
    exact ⟨hc,rfl⟩
  · rintro ⟨hc,rfl⟩
    exact ⟨rs,by rw [List.append_nil],hc⟩

theorem cutOff_iff {rs : List Record} {tail : List U8} (ht : tail.length < record.size) :
    CutOff (magic ++ (record.frames rs ++ tail)) ↔ CleanRecords rs ∧ tail ≠ [] := by
  constructor
  · rintro ⟨rs',tail',hs,hc,hpos,ht'⟩
    obtain ⟨rfl,rfl⟩ := Codec.frames_append_inj ht ht' (List.append_cancel_left hs)
    exact ⟨hc,List.ne_nil_of_length_pos hpos⟩
  · rintro ⟨hc,hne⟩
    exact ⟨rs,tail,rfl,hc,List.length_pos_iff.mpr hne,ht⟩

/-- A file is validated as it should be unless it is a clean trace that was cut off in
the middle of a record. -/
theorem validates_iff (file : List U8) (program path : String) :
    Validates file (main (fun _ => some file) [program,path]) ↔ ¬ CutOff file := by
  change Validates file (replay file) ↔ _
  by_cases hm : ∃ body, file = magic ++ body
  · obtain ⟨body,rfl⟩ := hm
    obtain ⟨rs,tail,rfl,ht⟩ := Codec.exists_frames record body
    have hcounts : ∀ t, replay (magic ++ (record.frames rs ++ tail)) = .replayed t →
        t = rs.foldl Tally.step .start := by
      intro t h
      rw [replay_magic, Codec.items_frames ht] at h
      exact (Outcome.replayed.inj h).symm
    rw [cutOff_iff ht]
    constructor
    · rintro ⟨haccepts,-,-⟩ ⟨hc,hne⟩
      rw [exit_iff ht, clean_iff ht] at haccepts
      exact hne (haccepts.mp hc).2
    · intro hcut
      refine ⟨?_,?_,?_⟩
      · rw [exit_iff ht, clean_iff ht]
        exact ⟨fun hc => ⟨hc,not_not.mp fun hne => hcut ⟨hc,hne⟩⟩,And.left⟩
      · intro t h
        obtain rfl := hcounts t h
        exact (foldl_balanced ⟨rfl,rfl⟩ rs).total
      · intro t h
        obtain rfl := hcounts t h
        rw [records_magic, Codec.items_frames ht, foldl_anomalies]
        exact congrArg (· + _) (Nat.zero_add _)
  · refine iff_of_true ?_ ?_
    · rw [replay_other hm]
      refine ⟨?_,by simp,by simp⟩
      refine iff_of_false (by decide) ?_
      rintro ⟨rs,rfl,-⟩
      exact hm ⟨_,rfl⟩
    · rintro ⟨rs,tail,rfl,-⟩
      exact hm ⟨_,rfl⟩

/-- The magic bytes and one byte of a record are accepted. -/
theorem cut_off_accepted : ¬ Validates (magic ++ [0#8])
    (main (fun _ => some (magic ++ [0#8])) ["agxtracereplay","capture.agxtrc"]) := by
  have ht : [0#8].length < record.size := by decide
  have hexit : (replay (magic ++ [0#8])).exitStatus = 0 :=
    (@exit_iff [] _ ht).mpr ⟨.nil,by simp⟩
  intro h
  obtain ⟨-,hnil⟩ := (@clean_iff [] _ ht).mp (h.accepts.mp hexit)
  simp at hnil

end AgxOpen.Trace
