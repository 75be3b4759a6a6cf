import AgxOpen.Columns
import AgxOpen.Trace.Replay

/-!
# The trace printer

`agxtracedump` prints the records of a trace as a table. The table says which records the trace
holds, so it also says what the validator makes of them.
-/
namespace AgxOpen.Trace

/-- A number as a stream prints it under `std::dec`. -/
def dec (n : ℕ) : List Char := Nat.toDigits 10 n

/-- A number behind `0x` as a stream prints it under `std::hex`. -/
def hex (n : ℕ) : List Char := '0' :: 'x' :: Nat.toDigits 16 n

/-- A text as a stream prints it under `std::left << std::setw(width)`. -/
def column (width : ℕ) (text : List Char) : List Char := text.rightpad width ' '

/-- The line of a record without its end. -/
def Record.line (rec : Record) : List Char :=
  column 20 (dec rec.timestampns.toNat) ++ (column 12 (hex rec.endpoint.toNat) ++
    (column 12 (hex rec.flags.toNat) ++ hex rec.data0.toNat))

def heading : List Char :=
  column 20 "timestampns".toList ++ (column 12 "endpoint".toList ++
    (column 12 "flags".toList ++ "data0".toList))

/-- What the loop of `main` has written, and its counter. -/
structure Printer where
  out : List Char
  count : ℕ

def Printer.start : Printer := ⟨heading ++ ['\n'],0⟩

/-- The body of the loop. -/
def Printer.step (p : Printer) (rec : Record) : Printer :=
  ⟨p.out ++ (rec.line ++ ['\n']),p.count + 1⟩

/-- What the program writes behind the loop. -/
def Printer.finish (p : Printer) : List Char :=
  p.out ++ '\n' :: (dec p.count ++ " records\n".toList)

/-- How `main` ends. -/
inductive Dumped
  | usage
  | couldNotOpen
  | unexpectedHeader
  | printed (out : List Char)

def Dumped.exitStatus : Dumped → ℤ
  | .printed _ => 0
  | _ => 1

/-- `main` behind the opening of the file. -/
def dump (file : List U8) : Dumped :=
  if readHeader file then .printed (record.scan Printer.step .start (file.drop 8)).finish
  else .unexpectedHeader

/-- `main`. A file is its bytes. -/
def Dump.main (files : String → Option (List U8)) (argv : List String) : Dumped :=
  match argv with
  | [_,path] =>
    match files path with
    | some file => dump file
    | none => .couldNotOpen
  | _ => .usage

theorem not_mem_dec {n : ℕ} {c : Char} (hc : ∀ d : Fin 16, c ≠ d.val.digitChar) : c ∉ dec n := by
  intro hm
  obtain ⟨d,hd,rfl⟩ := Columns.mem_toDigits (by decide) hm
  exact hc ⟨d,by omega⟩ rfl

theorem not_mem_hex {n : ℕ} {c : Char} (hx : c ≠ 'x') (hc : ∀ d : Fin 16, c ≠ d.val.digitChar) :
    c ∉ hex n := by
  intro hm
  obtain rfl | hm := List.mem_cons.mp hm
  · exact hc 0 rfl
  obtain rfl | hm := List.mem_cons.mp hm
  · exact hx rfl
  obtain ⟨d,hd,rfl⟩ := Columns.mem_toDigits (by decide) hm
  exact hc ⟨d,hd⟩ rfl

theorem dec_inj {n m : ℕ} (h : dec n = dec m) : n = m :=
  Columns.toDigits_inj (by decide) (by decide) h

theorem hex_inj {n m : ℕ} (h : hex n = hex m) : n = m :=
  Columns.toDigits_inj (by decide) le_rfl (List.cons.inj (List.cons.inj h).2).2

/-- A timestamp fits into its column. -/
theorem length_dec (w : U64) : (dec w.toNat).length ≤ 20 :=
  (Nat.length_toDigits_le_iff (by decide) (by decide)).mpr (w.isLt.trans (by decide))

theorem length_hex (w : U32) : (hex w.toNat).length ≤ 12 := by
  have hdigits : (Nat.toDigits 16 w.toNat).length ≤ 8 :=
    (Nat.length_toDigits_le_iff (by decide) (by decide)).mpr w.isLt
  rw [hex, List.length_cons, List.length_cons]
  omega

/-- A line says which record it is about. -/
theorem line_injective : Function.Injective Record.line := by
  intro r s h
  have hdec (n : ℕ) : ' ' ∉ dec n := not_mem_dec (by decide)
  have hhex (n : ℕ) : ' ' ∉ hex n := not_mem_hex (by decide) (by decide)
  obtain ⟨htime,h⟩ := Columns.column_inj (hdec _) (hdec _) (length_dec _) (length_dec _) h
  obtain ⟨hend,h⟩ := Columns.column_inj (hhex _) (hhex _) (length_hex _) (length_hex _) h
  obtain ⟨hflags,hdata⟩ := Columns.column_inj (hhex _) (hhex _) (length_hex _) (length_hex _) h
  cases r
  cases s
  simp only [Record.mk.injEq]
  exact ⟨BitVec.eq_of_toNat_eq (dec_inj htime),BitVec.eq_of_toNat_eq (hex_inj hend),
    BitVec.eq_of_toNat_eq (hex_inj hflags),BitVec.eq_of_toNat_eq (hex_inj hdata)⟩

example : Record.line ⟨18#64,0x21#32,0#32,0x83000000000001#64⟩ =
    "18                  0x21        0x0         0x83000000000001".toList := by decide

theorem line_ne_nil (r : Record) : r.line ≠ [] := by
  have hne : dec r.timestampns.toNat ≠ [] := Nat.toDigits_ne_nil
  exact List.append_ne_nil_of_left_ne_nil (List.append_ne_nil_of_left_ne_nil hne _) _

theorem newline_not_mem_line (r : Record) : '\n' ∉ r.line := by
  have hdec (n : ℕ) : '\n' ∉ dec n := not_mem_dec (by decide)
  have hhex (n : ℕ) : '\n' ∉ hex n := not_mem_hex (by decide) (by decide)
  simp [Record.line, column, List.rightpad, hdec, hhex]

/-- The table of the records. -/
def table (rs : List Record) : List Char :=
  heading ++ '\n' :: (rs.flatMap (fun r => r.line ++ ['\n']) ++
    '\n' :: (dec rs.length ++ " records\n".toList))

theorem foldl_printer (p : Printer) (rs : List Record) : rs.foldl Printer.step p =
    ⟨p.out ++ rs.flatMap (fun r => r.line ++ ['\n']),p.count + rs.length⟩ := by
  induction rs generalizing p with
  | nil => simp
  | cons r rs ih =>
    rw [List.foldl_cons, ih, Printer.step, List.flatMap_cons, List.length_cons,
      List.append_assoc, Nat.add_right_comm, Nat.add_assoc]

/-- The counter of the lines stays in `size_t` like those of the validator. -/
theorem count_le (file : List U8) :
    24 * (record.scan Printer.step .start (file.drop 8)).count ≤ file.length := by
  rw [Codec.scan_items, foldl_printer]
  exact (congrArg (24 * ·) (Nat.zero_add _)).trans_le (length_records file)

/-- The program prints the table of the records it reads. -/
theorem dump_eq (file : List U8) :
    dump file = if readHeader file then .printed (table (records file)) else .unexpectedHeader := by
  rw [dump, Codec.scan_items, foldl_printer]
  refine congrArg (fun out => if readHeader file then Dumped.printed out else .unexpectedHeader) ?_
  simp [Printer.finish, Printer.start, table, records]

theorem table_injective : Function.Injective table := fun _ _ h =>
  Columns.lines_inj line_injective line_ne_nil newline_not_mem_line
    (List.cons.inj (List.append_cancel_left h)).2

theorem dump_eq_iff {file file' : List U8} : dump file = dump file' ↔
    readHeader file = readHeader file' ∧ (readHeader file = true → records file = records file') := by
  rw [dump_eq, dump_eq]
  cases readHeader file <;> cases readHeader file' <;> simp [table_injective.eq_iff]

/-- What the validator says of a file. -/
theorem replay_eq (file : List U8) : replay file =
    if readHeader file then .replayed ((records file).foldl Tally.step .start)
    else .unexpectedHeader := by
  rw [replay, Codec.scan_items, records]

theorem dump_exit (file : List U8) : (dump file).exitStatus = 0 ↔ readHeader file = true := by
  rw [dump_eq]
  cases readHeader file <;> simp [Dumped.exitStatus]

/-- The program prints every file with the header. Two files print the same if and only if neither
has the header, or both have it and the same complete records, and then the validator says the
same of both. -/
theorem dump_tells (file file' : List U8) (program path : String) :
    ((Dump.main (fun _ => some file) [program,path]).exitStatus = 0 ↔ readHeader file = true) ∧
    (Dump.main (fun _ => some file) [program,path] = Dump.main (fun _ => some file') [program,path] ↔
      readHeader file = readHeader file' ∧ (readHeader file = true → records file = records file')) ∧
    (Dump.main (fun _ => some file) [program,path] = Dump.main (fun _ => some file') [program,path] →
      main (fun _ => some file) [program,path] = main (fun _ => some file') [program,path]) := by
  refine ⟨dump_exit file,dump_eq_iff,fun h => ?_⟩
  obtain ⟨hheader,hrecords⟩ := dump_eq_iff.mp h
  change replay file = replay file'
  rw [replay_eq, replay_eq, ← hheader]
  split_ifs with hh
  · rw [hrecords hh]
  · rfl

end AgxOpen.Trace
