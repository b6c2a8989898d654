import Inotispy.Model.Dump
import Inotispy.Model.Script

/-! Which dump files are read back line by line, and which dumps come back as they were.

The loop takes at most 1023 bytes at a time and stops the daemon on a piece that has fewer
than three fields or nothing before its first null byte. So it handles each line as one
entry exactly when every line fits and is complete.
-/

set_option autoImplicit false

namespace Inotispy
open Library
open CString (tokens atoi)

variable {σ : Type} [System σ]

/-! ## One line -/

/-- The fields of a line, up to its newline or its first null byte. -/
def fields (line : Str) : List Str := tokens ',' ((CString.ofBuffer line).takeWhile (· ≠ '\n'))

def entryOf (line : Str) : DumpEntry :=
  let field (index : Nat) : Str := ((fields line)[index]?).getD []
  if atoi (field 1) ≠ 0 ∧ atoi (field 2) ≠ 0 then .root (field 0) (atoi (field 1)) (atoi (field 2)) else .invalid

/-- A line of which the loop can take three fields. -/
structure Complete (line : Str) : Prop where
  starts : line.head? ≠ some '\x00'
  fields : 3 ≤ (fields line).length

instance (line : Str) : Decidable (Complete line) :=
  decidable_of_iff (line.head? ≠ some '\x00' ∧ 3 ≤ (fields line).length) ⟨fun h => ⟨h.1, h.2⟩, fun h => ⟨h.1, h.2⟩⟩

theorem takeWhile_of_plain {body : Str} (plain : '\n' ∉ body) : body.takeWhile (· ≠ '\n') = body :=
  List.takeWhile_eq_self_iff.mpr fun c member => by
    have other : c ≠ '\n' := fun same => plain (same ▸ member)
    simpa using other

theorem stripped {text line : Str} (member : line ∈ Stream.lines text) :
    (if (CString.ofBuffer line).getLast? = some '\n' then (CString.ofBuffer line).dropLast
      else CString.ofBuffer line) = (CString.ofBuffer line).takeWhile (· ≠ '\n') := by
  have ofPlain {cut : Str} (plain : '\n' ∉ cut) :
      (if cut.getLast? = some '\n' then cut.dropLast else cut) = cut.takeWhile (· ≠ '\n') := by
    rw [takeWhile_of_plain plain, if_neg]
    exact fun last => plain (List.mem_of_getLast? last)
  obtain ⟨_, body, plain, rfl | rfl⟩ := Stream.mem_lines member
  -- A null byte in the line hides its newline, and there is nothing to strip.
  · by_cases null : '\x00' ∈ body
    · have cut : CString.ofBuffer (body ++ ['\n']) = CString.ofBuffer body := by
        obtain ⟨before, after, rfl, first⟩ := List.eq_append_cons_of_mem null
        have all : ∀ c ∈ before, decide (c ≠ '\x00') = true := fun c has => by
          have other : c ≠ '\x00' := fun same => first (same ▸ has)
          simpa using other
        simp only [CString.ofBuffer, List.append_assoc, List.takeWhile_append_of_pos all]
        simp
      rw [cut]
      exact ofPlain fun has => plain ((List.takeWhile_sublist _).mem has)
    · have whole : CString.ofBuffer (body ++ ['\n']) = body ++ ['\n'] := by
        apply List.takeWhile_eq_self_iff.mpr
        intro c has
        have other : c ≠ '\x00' := by
          rintro rfl
          rcases List.mem_append.mp has with inside | last
          · exact null inside
          · exact absurd last (by decide)
        simpa using other
      have all : ∀ c ∈ body, decide (c ≠ '\n') = true := fun c has => by
        have other : c ≠ '\n' := fun same => plain (same ▸ has)
        simpa using other
      rw [whole, List.takeWhile_append_of_pos all]
      simp
  · exact ofPlain fun has => plain ((List.takeWhile_sublist _).mem has)

theorem inotifySetupLine_eq_ok {text line : Str} (member : line ∈ Stream.lines text) {entry : DumpEntry} :
    inotifySetupLine line = .ok entry ↔ Complete line ∧ entry = entryOf line := by
  have same := stripped member
  obtain ⟨nonempty, -⟩ := Stream.mem_lines member
  have startsNull : CString.ofBuffer line = [] ↔ line.head? = some '\x00' := by
    cases line with
    | nil => exact absurd rfl nonempty
    | cons c rest => by_cases null : c = '\x00' <;> simp [CString.ofBuffer, null]
  simp only [inotifySetupLine, CString.charAt_last]
  cases last : (CString.ofBuffer line).getLast? with
  | none =>
    have null := startsNull.mp (List.getLast?_eq_none_iff.mp last)
    constructor
    · intro took
      cases took
    · exact fun complete => absurd null complete.1.starts
  | some c =>
    simp only [last, Option.some.injEq] at same
    have starts : line.head? ≠ some '\x00' := by
      intro null
      rw [startsNull.mpr null] at last
      cases last
    have whole : fields line = tokens ',' ((CString.ofBuffer line).takeWhile (· ≠ '\n')) := rfl
    -- The three calls of `strtok` take the first three fields, where there are so many.
    obtain ⟨rest, first, later⟩ := @CString.strtok_tokens ',' ((CString.ofBuffer line).takeWhile (· ≠ '\n'))
    obtain ⟨rest', second, later'⟩ := @CString.strtok_tokens ',' rest
    obtain ⟨_, third, _⟩ := @CString.strtok_tokens ',' rest'
    rw [later] at later' second
    rw [later'] at third
    rw [← whole] at first second third
    simp only [same, first, second, third]
    -- With a field missing, `atoi` is handed a null token.
    have short {outcome : Except DumpFault DumpEntry} (few : (fields line).length < 3)
        (fails : outcome = .error .nullToken) : outcome = .ok entry ↔ Complete line ∧ entry = entryOf line := by
      rw [fails]
      constructor
      · intro took
        cases took
      · exact fun complete => absurd complete.1.fields (by omega)
    cases are : fields line with
    | nil => exact short (by simp [are]) rfl
    | cons path others =>
      cases others with
      | nil => exact short (by simp [are]) rfl
      | cons mask others =>
        cases others with
        | nil => exact short (by simp [are]) rfl
        | cons maxEvents others =>
          have complete : Complete line := ⟨starts, by simp [are]⟩
          have said : entryOf line =
              if atoi mask ≠ 0 ∧ atoi maxEvents ≠ 0 then .root path (atoi mask) (atoi maxEvents) else .invalid := by
            simp [entryOf, are]
          rw [said]
          change (if atoi mask ≠ 0 ∧ atoi maxEvents ≠ 0 then _ else _) = _ ↔ _
          split <;> simp [pure, Except.pure, complete, eq_comm]

/-! ## The loop -/

section
variable {block : Nat} (positive : 0 < block) {file : Str} {stream : Stream}
include positive

theorem fgets_lines {line : Str} {more : List Str} (are : Stream.lines (stream.unread file) = line :: more) :
    ∃ after, stream.fgets block file lineRoom = (line.take lineRoom, after) ∧ line.take lineRoom ≠ [] ∧
      Stream.lines (after.unread file) =
        (if line.length ≤ lineRoom then more else line.drop lineRoom :: more) ∧
      (after.unread file).length < (stream.unread file).length := by
  obtain ⟨after, got, left⟩ := Stream.fgets_unread positive file stream lineRoom
  rw [Stream.takeLine_lines are] at got left
  have nonempty : line ≠ [] := (Stream.mem_lines (are ▸ List.mem_cons_self)).1
  have some_ : (stream.unread file) ≠ [] := fun empty => by simp [empty, Stream.lines] at are
  refine ⟨after, got, by simp [lineRoom, nonempty], ?_, ?_⟩
  · rw [left, Stream.lines_drop are]
  · have here := List.length_pos_iff.mpr nonempty
    have there := List.length_pos_iff.mpr some_
    simp only [left, List.length_drop, List.length_take, lineRoom]
    omega

theorem inotifySetupLoop_end {rounds : Nat} (ended : Stream.lines (stream.unread file) = []) :
    inotifySetupLoop block file (rounds + 1) stream = some (.ok []) := by
  obtain ⟨after, got, _⟩ := Stream.fgets_unread positive file stream lineRoom
  rw [Stream.lines_eq_nil.mp ended] at got
  simp only [inotifySetupLoop, got]
  rfl

theorem inotifySetupLoop_ends {rounds : Nat} (enough : (stream.unread file).length < rounds) :
    ∃ outcome, inotifySetupLoop block file rounds stream = some outcome := by
  induction rounds generalizing stream with
  | zero => omega
  | succ rounds ih =>
    cases are : Stream.lines (stream.unread file) with
    | nil => exact ⟨_, inotifySetupLoop_end positive are⟩
    | cons line more =>
      obtain ⟨after, got, some_, _, less⟩ := fgets_lines positive are
      simp only [inotifySetupLoop, got, if_neg some_]
      cases inotifySetupLine (line.take lineRoom) with
      | error why => exact ⟨_, rfl⟩
      | ok entry =>
        obtain ⟨outcome, rest⟩ := @ih after (by omega)
        exact ⟨_, by rw [rest]; rfl⟩

/-- The loop goes on to the end exactly when it can take every line that it is given. -/
theorem inotifySetupLoop_eq_ok {rounds : Nat} (enough : (stream.unread file).length < rounds)
    (fit : ∀ line ∈ Stream.lines (stream.unread file), line.length ≤ lineRoom) {entries : List DumpEntry} :
    inotifySetupLoop block file rounds stream = some (.ok entries) ↔
      List.Forall₂ (fun line entry => inotifySetupLine line = .ok entry) (Stream.lines (stream.unread file)) entries := by
  induction rounds generalizing stream entries with
  | zero => omega
  | succ rounds ih =>
    cases are : Stream.lines (stream.unread file) with
    | nil => simp [inotifySetupLoop_end positive are, eq_comm]
    | cons line more =>
      obtain ⟨after, got, some_, left, less⟩ := fgets_lines positive are
      rw [are] at fit
      obtain ⟨short, others⟩ := List.forall_mem_cons.mp fit
      rw [if_pos short] at left
      rw [List.take_of_length_le short] at got some_
      simp only [inotifySetupLoop, got, if_neg some_]
      cases took : inotifySetupLine line with
      | error why => simp [List.forall₂_cons_left_iff, took]
      | ok first =>
        have fewer : (after.unread file).length < rounds := by omega
        obtain ⟨outcome, rest⟩ := inotifySetupLoop_ends positive fewer
        have later (entries : List DumpEntry) :
            inotifySetupLoop block file rounds after = some (.ok entries) ↔ _ := ih fewer (by rwa [left])
        simp only [left, rest, Option.some.injEq] at later
        simp only [rest, List.forall₂_cons_left_iff, took, Except.ok.injEq, ← later]
        cases outcome <;> simp [Except.map, eq_comm]

/-- A line that does not fit makes more than one entry. -/
theorem inotifySetupLoop_count {rounds : Nat} {entries : List DumpEntry}
    (ran : inotifySetupLoop block file rounds stream = some (.ok entries)) :
    (Stream.lines (stream.unread file)).length ≤ entries.length ∧
      (entries.length = (Stream.lines (stream.unread file)).length →
        ∀ line ∈ Stream.lines (stream.unread file), line.length ≤ lineRoom) := by
  induction rounds generalizing stream entries with
  | zero => cases ran
  | succ rounds ih =>
    cases are : Stream.lines (stream.unread file) with
    | nil => simp
    | cons line more =>
      obtain ⟨after, got, some_, left, less⟩ := fgets_lines positive are
      simp only [inotifySetupLoop, got, if_neg some_] at ran
      cases took : inotifySetupLine (line.take lineRoom) with
      | error why => rw [took] at ran; cases ran
      | ok first =>
        rw [took] at ran
        obtain ⟨outcome, rest, is⟩ := Option.map_eq_some_iff.mp ran
        cases outcome with
        | error why => cases is
        | ok others =>
          cases is
          obtain ⟨least, short⟩ := ih rest
          rw [left] at least short
          by_cases fits : line.length ≤ lineRoom
          · rw [if_pos fits] at least short
            refine ⟨Nat.succ_le_succ least, fun same => ?_⟩
            exact List.forall_mem_cons.mpr ⟨fits, short (Nat.succ.inj same)⟩
          -- The rest of the line is read as a line of its own, so there is one entry too many.
          · rw [if_neg fits] at least
            simp only [List.length_cons] at least ⊢
            exact ⟨by omega, fun same => by omega⟩

end

/-! ## Whole files -/

theorem inotifySetupEntries_eq_ok {block : Nat} (positive : 0 < block) {file : Str}
    (fit : ∀ line ∈ Stream.lines file, line.length ≤ lineRoom) {entries : List DumpEntry} :
    inotifySetupEntries block file = some (.ok entries) ↔
      List.Forall₂ (fun line entry => inotifySetupLine line = .ok entry) (Stream.lines file) entries := by
  have enough : (Stream.start.unread file).length < file.length + 1 := Nat.lt_succ_self _
  exact inotifySetupLoop_eq_ok positive enough fit

theorem entries_of_lines_iff {block : Nat} (positive : 0 < block) (file : Str) :
    inotifySetupEntries block file = some (.ok ((Stream.lines file).map entryOf)) ↔
      ∀ line ∈ Stream.lines file, line.length ≤ lineRoom ∧ Complete line := by
  have took (fit : ∀ line ∈ Stream.lines file, line.length ≤ lineRoom) :
      inotifySetupEntries block file = some (.ok ((Stream.lines file).map entryOf)) ↔
        ∀ line ∈ Stream.lines file, inotifySetupLine line = .ok (entryOf line) := by
    rw [inotifySetupEntries_eq_ok positive fit, List.forall₂_map_right_iff, List.forall₂_same]
  constructor
  · intro ran line member
    have fit := (inotifySetupLoop_count positive ran).2 (by rw [List.length_map, Stream.unread_start])
    exact ⟨fit line member, ((inotifySetupLine_eq_ok member).mp ((took fit).mp ran line member)).1⟩
  · intro are
    refine (took fun line member => (are line member).1).mpr fun line member => ?_
    exact (inotifySetupLine_eq_ok member).mpr ⟨(are line member).2, rfl⟩

/-! ## Round trips -/

def Root.entry (root : Root) : DumpEntry := .root (percentS root.path) root.mask.toInt32 root.maxEvents

/-- The roots that a dump lists, in the order of the table. -/
def World.dumped (w : World σ) : List Root := (w.roots.inotifyRoots.values.map w.roots.heap).filter (·.rewatch)

structure Root.Watched (root : Root) : Prop where
  absolute : ∃ path, root.path = some path ∧ path.head? = some '/' ∧ '\x00' ∉ path
  mask : root.mask ≠ 0

/-- A root whose line can be read: it fits the buffer, and no comma or newline in the path
and no zero among the numbers gets in the way. -/
structure Root.Plain (root : Root) : Prop where
  comma : ',' ∉ percentS root.path
  newline : '\n' ∉ percentS root.path
  short : (dumpLine root).length ≤ lineRoom
  maxEvents : root.maxEvents ≠ 0

def dumpFields (root : Root) : Str :=
  percentS root.path ++ ',' :: (percentD root.mask.toInt32.toInt ++ ',' :: percentD root.maxEvents.toInt)

theorem dumpLine_eq (root : Root) : dumpLine root = dumpFields root ++ ['\n'] := by
  simp [dumpLine, dumpFields, str]

theorem mem_dumpFields {root : Root} {c : Char} (other : c ≠ '-' ∧ c.isDigit = false) :
    c ∈ dumpFields root ↔ c ∈ percentS root.path ∨ c = ',' := by
  have mask := CString.not_mem_toString root.mask.toInt32.toInt other
  have maxEvents := CString.not_mem_toString root.maxEvents.toInt other
  simp only [dumpFields, List.mem_append, List.mem_cons, percentD, str, mask, maxEvents, false_or, or_false, or_self]

theorem lines_dumped (roots : List Root) :
    Stream.lines (roots.flatMap dumpLine) = roots.flatMap fun root => Stream.lines (dumpLine root) := by
  induction roots with
  | nil => rfl
  | cons root roots ih =>
    rw [List.flatMap_cons, List.flatMap_cons, ← ih, dumpLine_eq, List.append_assoc, List.singleton_append,
      Stream.lines_append]

theorem lines_dumpLine {root : Root} (newline : '\n' ∉ percentS root.path) :
    Stream.lines (dumpLine root) = [dumpLine root] := by
  rw [dumpLine_eq]
  apply Stream.lines_of_plain
  rw [mem_dumpFields (by decide)]
  simpa using newline

theorem newline_of_length {roots : List Root}
    (few : (Stream.lines (roots.flatMap dumpLine)).length ≤ roots.length) :
    ∀ root ∈ roots, '\n' ∉ percentS root.path := by
  have least (roots : List Root) : roots.length ≤ (Stream.lines (roots.flatMap dumpLine)).length := by
    rw [lines_dumped]
    induction roots with
    | nil => exact Nat.zero_le _
    | cons root roots ih =>
      rw [List.flatMap_cons, List.length_append, dumpLine_eq, Stream.length_lines, List.length_cons]
      omega
  induction roots with
  | nil => simp
  | cons root roots ih =>
    have others := least roots
    rw [lines_dumped, List.flatMap_cons, ← lines_dumped, List.length_append, dumpLine_eq, Stream.length_lines,
      List.length_cons] at few
    refine List.forall_mem_cons.mpr ⟨fun inside => ?_, ih (by omega)⟩
    have none : '\n' ∉ dumpFields root := List.count_eq_zero.mp (by omega)
    exact none ((mem_dumpFields (by decide)).mpr (.inl inside))

theorem fields_dumpLine {root : Root} (watched : root.Watched) (comma : ',' ∉ percentS root.path)
    (newline : '\n' ∉ percentS root.path) :
    fields (dumpLine root) =
      [percentS root.path, percentD root.mask.toInt32.toInt, percentD root.maxEvents.toInt] := by
  obtain ⟨path, named, absolute, null⟩ := watched.absolute
  rw [named, percentS] at comma newline ⊢
  have noNull : '\x00' ∉ dumpFields root ++ ['\n'] := by
    rw [List.mem_append, mem_dumpFields (by decide), named]
    simpa [percentS] using null
  have whole : CString.ofBuffer (dumpFields root ++ ['\n']) = dumpFields root ++ ['\n'] :=
    List.takeWhile_eq_self_iff.mpr fun c has => by
      have other : c ≠ '\x00' := fun same => noNull (same ▸ has)
      simpa using other
  have cut : (dumpFields root ++ ['\n']).takeWhile (· ≠ '\n') = dumpFields root := by
    have plain : '\n' ∉ dumpFields root := by
      rw [mem_dumpFields (by decide), named]
      simpa [percentS] using newline
    rw [List.takeWhile_append_of_pos fun c has => ?_]
    · simp
    · have other : c ≠ '\n' := fun same => plain (same ▸ has)
      simpa using other
  have nonempty : path ≠ [] := by rintro rfl; cases absolute
  have number (n : Int) : percentD n ≠ [] ∧ ',' ∉ percentD n :=
    ⟨CString.toString_ne_nil n, CString.not_mem_toString n (by decide)⟩
  rw [fields, dumpLine_eq, whole, cut, dumpFields, named, percentS, CString.tokens_append nonempty comma,
    CString.tokens_append (number _).1 (number _).2, CString.tokens_of_plain (number _).1 (number _).2]

theorem taken_iff {root : Root} (watched : root.Watched) (newline : '\n' ∉ percentS root.path) :
    inotifySetupLine (dumpLine root) = .ok root.entry ↔ ',' ∉ percentS root.path ∧ root.maxEvents ≠ 0 := by
  have member : dumpLine root ∈ Stream.lines (dumpLine root) := by rw [lines_dumpLine newline]; exact List.mem_singleton_self _
  rw [inotifySetupLine_eq_ok member]
  constructor
  · rintro ⟨complete, same⟩
    unfold entryOf Root.entry at same
    dsimp only at same
    split at same
    · next numbers =>
      obtain ⟨path, mask, maxEvents⟩ := DumpEntry.root.inj same
      have first : percentS root.path ∈ fields (dumpLine root) := by
        have some_ : 0 < (fields (dumpLine root)).length := Nat.lt_of_lt_of_le (by decide) complete.fields
        rw [path, List.getElem?_eq_getElem some_]
        exact List.getElem_mem some_
      exact ⟨(CString.mem_tokens first).1, maxEvents ▸ numbers.2⟩
    · cases same
  · rintro ⟨comma, maxEvents⟩
    have are := fields_dumpLine watched comma newline
    have mask : root.mask.toInt32 ≠ 0 := fun zero => watched.mask (by rw [← root.mask.toUInt32_toInt32, zero]; rfl)
    have readMask : atoi (percentD root.mask.toInt32.toInt) = root.mask.toInt32 := CString.atoi_toString _
    have readMaxEvents : atoi (percentD root.maxEvents.toInt) = root.maxEvents := CString.atoi_toString _
    obtain ⟨path, named, absolute, _⟩ := watched.absolute
    refine ⟨⟨?_, by rw [are]; exact Nat.le_refl 3⟩, ?_⟩
    · rw [dumpLine_eq, dumpFields, named, percentS]
      cases path with
      | nil => cases absolute
      | cons c path =>
        cases absolute
        simp
    · simp [entryOf, Root.entry, are, readMask, readMaxEvents, mask, maxEvents]

/-- A dump is read back as the roots it was made from, in order and with nothing else, exactly
when every root in it is plain. -/
theorem dump_round_trips_iff {block : Nat} (positive : 0 < block) {w : World σ} (opened : (System.fopenDump w.sys).1 = true)
    (watched : ∀ root ∈ w.dumped, root.Watched) :
    ∃ w', dumpRootsSection w = .ok ((), w') ∧
      (inotifySetupEntries block w'.output.dumpFile = some (.ok (w.dumped.map Root.entry)) ↔
        ∀ root ∈ w.dumped, root.Plain) := by
  have written : ∃ w', dumpRootsSection w = .ok ((), w') ∧ w'.output.dumpFile = w.dumped.flatMap dumpLine := by
    refine ⟨{ w with
      sys := (System.fopenDump w.sys).2
      output := { w.output with dumpFile := w.dumped.flatMap dumpLine } }, ?_, rfl⟩
    simp only [dumpRootsSection, call_bind, opened, Bool.not_true, Bool.false_eq_true, if_false, Program.read_bind_apply]
    rfl
  obtain ⟨w', ran, file⟩ := written
  refine ⟨w', ran, ?_⟩
  rw [file]
  generalize w.dumped = roots at watched
  have single (newline : ∀ root ∈ roots, '\n' ∉ percentS root.path) :
      Stream.lines (roots.flatMap dumpLine) = roots.map dumpLine := by
    rw [lines_dumped, List.flatMap_congr fun root member => lines_dumpLine (newline root member), ← List.map_eq_flatMap]
  have took (newline : ∀ root ∈ roots, '\n' ∉ percentS root.path) (short : ∀ root ∈ roots, (dumpLine root).length ≤ lineRoom) :
      inotifySetupEntries block (roots.flatMap dumpLine) = some (.ok (roots.map Root.entry)) ↔
        ∀ root ∈ roots, ',' ∉ percentS root.path ∧ root.maxEvents ≠ 0 := by
    have fit : ∀ line ∈ Stream.lines (roots.flatMap dumpLine), line.length ≤ lineRoom := by
      rw [single newline]
      simpa using short
    rw [inotifySetupEntries_eq_ok positive fit, single newline, List.forall₂_map_right_iff,
      List.forall₂_map_left_iff, List.forall₂_same]
    exact forall₂_congr fun root member => taken_iff (watched root member) (newline root member)
  constructor
  · intro same root member
    -- There are as many entries as roots, so each root has one line and it fits.
    obtain ⟨least, fit⟩ := inotifySetupLoop_count positive same
    rw [Stream.unread_start, List.length_map] at least fit
    have newline := newline_of_length least
    rw [single newline, List.length_map] at fit
    have short : ∀ root ∈ roots, (dumpLine root).length ≤ lineRoom := by simpa using fit rfl
    obtain ⟨comma, maxEvents⟩ := (took newline short).mp same root member
    exact ⟨comma, newline root member, short root member, maxEvents⟩
  · intro plain
    exact (took (fun root member => (plain root member).newline) fun root member => (plain root member).short).mpr
      fun root member => ⟨(plain root member).comma, (plain root member).maxEvents⟩

def World.rewatched (path : Str) : World (Script true) :=
  let w : World (Script true) := World.watching ⟨[]⟩ path
  { w with roots := w.roots.setRoot 0 fun root => { root with rewatch := true } }

theorem World.rewatched_dumped (path : Str) :
    (World.rewatched path).dumped =
      [⟨some path, inotifyDefaultMask, 65536, some [], false, false, true, false⟩] := rfl

theorem World.rewatched_watched {path : Str} (absolute : path.head? = some '/') (null : '\x00' ∉ path) :
    ∀ root ∈ (World.rewatched path).dumped, root.Watched := by
  rw [World.rewatched_dumped]
  exact List.forall_mem_singleton.mpr ⟨⟨path, rfl, absolute, null⟩, (by decide : inotifyDefaultMask ≠ 0)⟩

theorem spaced_path_round_trips :
    ∃ w', dumpRootsSection (World.rewatched (str "/srv/my data")) = .ok ((), w') ∧
      inotifySetupEntries 4096 w'.output.dumpFile =
        some (.ok [.root (str "/srv/my data") inotifyDefaultMask.toInt32 65536]) := by
  obtain ⟨w', ran, same⟩ := @dump_round_trips_iff _ _ 4096 (by decide) (World.rewatched (str "/srv/my data")) rfl
    (World.rewatched_watched (by decide) (by decide))
  refine ⟨w', ran, same.mpr ?_⟩
  rw [World.rewatched_dumped]
  exact List.forall_mem_singleton.mpr ⟨by decide, by decide, by decide, by decide⟩

/-- A path with a comma is rejected, though it can be watched. -/
theorem comma_path_does_not_round_trip :
    (∀ root ∈ (World.rewatched (str "/a,b")).dumped, root.Watched) ∧
      ∃ w', dumpRootsSection (World.rewatched (str "/a,b")) = .ok ((), w') ∧
        inotifySetupEntries 4096 w'.output.dumpFile = some (.ok [.invalid]) ∧
        (World.rewatched (str "/a,b")).dumped.map Root.entry =
          [.root (str "/a,b") inotifyDefaultMask.toInt32 65536] := by
  refine ⟨World.rewatched_watched (by decide) (by decide), _, rfl, ?_, rfl⟩
  decide

end Inotispy
