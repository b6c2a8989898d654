import Inotispy.Library.CString

/-! Reading a text file by lines through a buffer.

The file is read in blocks of one size at increasing offsets, each when the buffer before it
is used up, from the text that the file has then. A stream that has met the end stays there.
-/

set_option autoImplicit false

namespace Inotispy.Library

structure Stream where
  buffer : Str
  offset : Nat
  ended : Bool
  deriving DecidableEq, Repr

namespace Stream

def start : Stream := ⟨[], 0, false⟩

def fill (block : Nat) (file : Str) (stream : Stream) : Stream :=
  if stream.buffer ≠ [] ∨ stream.ended then stream
  else
    let got := (file.drop stream.offset).take block
    { buffer := got, offset := stream.offset + got.length, ended := got.isEmpty }

def fgetc (block : Nat) (file : Str) (stream : Stream) : Option Char × Stream :=
  let stream := stream.fill block file
  match stream.buffer with
  | [] => (none, stream)
  | c :: rest => (some c, { stream with buffer := rest })

/-- At most `room` characters, up to the end of a line. With none the end has been met. -/
def fgets (block : Nat) (file : Str) : Nat → Stream → Str × Stream
  | 0, stream => ([], stream)
  | room + 1, stream =>
    match stream.fgetc block file with
    | (none, stream) => ([], stream)
    | (some c, stream) =>
      if c = '\n' then ([c], stream)
      else
        let (line, stream) := fgets block file room stream
        (c :: line, stream)

/-- What is still to be read, if the file stays as it is. -/
def unread (file : Str) (stream : Stream) : Str :=
  if stream.ended then stream.buffer else stream.buffer ++ file.drop stream.offset

theorem unread_start (file : Str) : start.unread file = file := rfl

variable {block : Nat} {file : Str} {stream : Stream}

section
variable (positive : 0 < block)
include positive

theorem unread_fill : (stream.fill block file).unread file = stream.unread file := by
  unfold fill
  split
  · rfl
  · next going =>
    obtain ⟨empty, going⟩ := not_or.mp going
    simp only [unread, not_not.mp empty, going, List.nil_append, Bool.false_eq_true, if_false]
    have whole := List.prefix_iff_eq_append.mp (List.take_prefix block (file.drop stream.offset))
    -- Nothing can be read only at the end, since a block is not empty.
    cases got : (file.drop stream.offset).take block with
    | nil =>
      rw [List.isEmpty_nil, if_pos rfl]
      exact ((List.take_eq_nil_iff.mp got).resolve_left (Nat.ne_of_gt positive)).symm
    | cons c rest =>
      rw [List.isEmpty_cons, if_neg Bool.false_ne_true, ← List.drop_drop]
      rw [got] at whole
      exact whole

omit positive in
theorem ended_of_fill (empty : (stream.fill block file).buffer = []) : (stream.fill block file).ended = true := by
  unfold fill at empty ⊢
  split at empty
  · next stays => exact (if_pos stays) ▸ stays.resolve_left (not_not.mpr empty)
  · next fills =>
    rw [if_neg fills]
    exact List.isEmpty_iff.mpr empty

theorem fgetc_cons {c : Char} {rest : Str} (next : stream.unread file = c :: rest) :
    ∃ after, stream.fgetc block file = (some c, after) ∧ after.unread file = rest := by
  rw [← unread_fill positive] at next
  have ends : (stream.fill block file).buffer = [] → (stream.fill block file).ended = true := ended_of_fill
  unfold fgetc
  generalize stream.fill block file = ready at next ends
  obtain ⟨buffer, offset, ended⟩ := ready
  cases buffer with
  | nil =>
    obtain rfl : ended = true := ends rfl
    cases next
  | cons d more =>
    refine ⟨⟨more, offset, ended⟩, ?_⟩
    cases ended <;> cases next <;> exact ⟨rfl, rfl⟩

theorem fgetc_nil (next : stream.unread file = []) :
    ∃ after, stream.fgetc block file = (none, after) ∧ after.unread file = [] := by
  rw [← unread_fill positive] at next
  unfold fgetc
  generalize stream.fill block file = ready at next
  obtain ⟨buffer, offset, ended⟩ := ready
  cases buffer with
  | nil => exact ⟨_, rfl, next⟩
  | cons d more => cases ended <;> cases next

/-- What one `fgets` takes from a text: a line, or as much of it as there is room for. -/
def takeLine : Nat → Str → Str
  | 0, _ => []
  | _ + 1, [] => []
  | room + 1, c :: text => if c = '\n' then [c] else c :: takeLine room text

/-- However the file comes in blocks, a read takes its text from what is still to be read. -/
theorem fgets_unread (file : Str) (stream : Stream) (room : Nat) :
    ∃ after, stream.fgets block file room = (takeLine room (stream.unread file), after) ∧
      after.unread file = (stream.unread file).drop (takeLine room (stream.unread file)).length := by
  induction room generalizing stream with
  | zero => exact ⟨stream, rfl, rfl⟩
  | succ room ih =>
    cases next : stream.unread file with
    | nil =>
      obtain ⟨after, got, nothing⟩ := fgetc_nil positive next
      exact ⟨after, by simp only [fgets, got, takeLine], nothing⟩
    | cons c rest =>
      obtain ⟨between, got, later⟩ := fgetc_cons positive next
      by_cases newline : c = '\n'
      · exact ⟨between, by simp only [fgets, got, takeLine, if_pos newline],
          by simp only [takeLine, if_pos newline, later, List.length_singleton, List.drop_one, List.tail_cons]⟩
      · obtain ⟨after, line, done⟩ := ih between
        rw [later] at line done
        exact ⟨after, by simp only [fgets, got, line, takeLine, if_neg newline],
          by simp only [takeLine, if_neg newline, done, List.length_cons, List.drop_succ_cons]⟩

end

/-! ## Lines -/

/-- The lines of a text, each with its newline; the last may have none. -/
def lines : Str → List Str
  | [] => []
  | c :: text => if c = '\n' then [c] :: lines text else (c :: (lines text).headD []) :: (lines text).tail

theorem lines_eq_nil {text : Str} : lines text = [] ↔ text = [] := by
  cases text with
  | nil => simp [lines]
  | cons c text => by_cases newline : c = '\n' <;> simp [lines, newline]

theorem takeLine_lines {text line : Str} {more : List Str} (are : lines text = line :: more) (room : Nat) :
    takeLine room text = line.take room := by
  induction text generalizing line more room with
  | nil => simp [lines] at are
  | cons c text ih =>
    cases room with
    | zero => simp [takeLine]
    | succ room =>
      by_cases newline : c = '\n'
      · simp only [lines, if_pos newline, List.cons.injEq] at are
        simp [takeLine, newline, ← are.1]
      · simp only [lines, if_neg newline, List.cons.injEq] at are
        rw [takeLine, if_neg newline, ← are.1, List.take_succ_cons]
        cases later : lines text with
        | nil => cases lines_eq_nil.mp later; cases room <;> simp [takeLine]
        | cons next others => rw [ih later, List.headD_cons]

theorem lines_drop {text line : Str} {more : List Str} (are : lines text = line :: more) (room : Nat) :
    lines (text.drop (line.take room).length) = if line.length ≤ room then more else line.drop room :: more := by
  induction text generalizing line more room with
  | nil => simp [lines] at are
  | cons c text ih =>
    have same := are
    cases room with
    | zero =>
      have nonempty : line ≠ [] := by
        rintro rfl
        by_cases newline : c = '\n' <;> simp [lines, newline] at are
      simp [are, nonempty]
    | succ room =>
      by_cases newline : c = '\n'
      · simp only [lines, if_pos newline, List.cons.injEq] at are
        simp [← are.1, are.2]
      · simp only [lines, if_neg newline, List.cons.injEq] at are
        rw [← are.1, ← are.2, List.take_succ_cons, List.length_cons, List.drop_succ_cons]
        cases later : lines text with
        | nil => cases lines_eq_nil.mp later; simp [lines]
        | cons next others =>
          have cut := ih later room
          simpa using cut

theorem lines_append (text rest : Str) : lines (text ++ '\n' :: rest) = lines (text ++ ['\n']) ++ lines rest := by
  induction text with
  | nil => rfl
  | cons c text ih =>
    by_cases newline : c = '\n'
    · simp only [List.cons_append, lines, if_pos newline, ih]
    · obtain ⟨first, others, are⟩ := List.exists_cons_of_ne_nil (lines_eq_nil.not.mpr (by simp) : lines (text ++ ['\n']) ≠ [])
      simp only [List.cons_append, lines, if_neg newline, ih, are, List.headD_cons, List.tail_cons]

theorem length_lines (text : Str) : (lines (text ++ ['\n'])).length = text.count '\n' + 1 := by
  induction text with
  | nil => rfl
  | cons c text ih =>
    by_cases newline : c = '\n'
    · simp [lines, newline, ih]
    · simp [lines, newline, ih]

theorem lines_of_plain {line : Str} (plain : '\n' ∉ line) : lines (line ++ ['\n']) = [line ++ ['\n']] := by
  induction line with
  | nil => rfl
  | cons c line ih =>
    obtain ⟨other, plain⟩ := not_or.mp (List.mem_cons.not.mp plain)
    simp [lines, Ne.symm other, ih plain]

theorem mem_lines {text line : Str} (member : line ∈ lines text) :
    line ≠ [] ∧ ∃ body, '\n' ∉ body ∧ (line = body ++ ['\n'] ∨ line = body) := by
  induction text generalizing line with
  | nil => cases member
  | cons c text ih =>
    by_cases newline : c = '\n'
    · rw [lines, if_pos newline] at member
      rcases List.mem_cons.mp member with rfl | later
      · exact ⟨by simp, [], by simp, .inl (by simp [newline])⟩
      · exact ih later
    · rw [lines, if_neg newline] at member
      rcases List.mem_cons.mp member with rfl | later
      · refine ⟨by simp, ?_⟩
        cases are : lines text with
        | nil => exact ⟨[c], by simpa using Ne.symm newline, .inr rfl⟩
        | cons first others =>
          obtain ⟨_, body, plain, ends⟩ : first ≠ [] ∧ _ := ih (by simp [are])
          refine ⟨c :: body, by simp [Ne.symm newline, plain], ?_⟩
          exact ends.imp (congrArg (c :: ·)) (congrArg (c :: ·))
      · exact ih (List.mem_of_mem_tail later)

/-! ## Files that are read at once

What a file holds once it has been read does not change with the file. -/

/-- Nothing more is to come from a file that is no longer than this. -/
def Loaded (limit : Nat) (stream : Stream) : Prop := stream.ended = true ∨ limit ≤ stream.offset

section
variable {limit : Nat} (loaded : Loaded limit stream)
include loaded

theorem Loaded.unread (short : file.length ≤ limit) : stream.unread file = stream.buffer := by
  unfold Stream.unread
  rcases loaded with ended | past
  · rw [if_pos ended]
  · split
    · rfl
    · rw [List.drop_eq_nil_of_le (short.trans past), List.append_nil]

theorem Loaded.fill (block : Nat) (file : Str) : Loaded limit (stream.fill block file) := by
  unfold Stream.fill
  split
  · exact loaded
  · next fills =>
    obtain ⟨_, going⟩ := not_or.mp fills
    exact .inr ((loaded.resolve_left going).trans (Nat.le_add_right _ _))

theorem Loaded.fgetc (block : Nat) (file : Str) : Loaded limit (stream.fgetc block file).2 := by
  have filled := loaded.fill block file
  unfold Stream.fgetc
  generalize stream.fill block file = ready at filled
  obtain ⟨buffer, offset, ended⟩ := ready
  cases buffer <;> exact filled

theorem Loaded.fgets (block : Nat) (file : Str) (room : Nat) : Loaded limit (stream.fgets block file room).2 := by
  induction room generalizing stream with
  | zero => exact loaded
  | succ room ih =>
    have next := loaded.fgetc block file
    simp only [Stream.fgets]
    generalize stream.fgetc block file = got at next
    obtain ⟨_ | c, after⟩ := got
    · exact next
    · dsimp only
      split
      · exact next
      · exact ih next

/-- From then on the file may be any other of that length. -/
theorem Loaded.fgets_eq (block : Nat) {other : Str} (short : file.length ≤ limit)
    (short' : other.length ≤ limit) (room : Nat) : stream.fgets block file room = stream.fgets block other room := by
  induction room generalizing stream with
  | zero => rfl
  | succ room ih =>
    have same : stream.fgetc block file = stream.fgetc block other := by
      have filled : stream.fill block file = stream.fill block other := by
        unfold Stream.fill
        split
        · rfl
        · next fills =>
          have past := loaded.resolve_left (not_or.mp fills).2
          rw [List.drop_eq_nil_of_le (short.trans past), List.drop_eq_nil_of_le (short'.trans past)]
      rw [Stream.fgetc, Stream.fgetc, filled]
    have next := loaded.fgetc block other
    simp only [Stream.fgets, same]
    generalize stream.fgetc block other = got at next
    obtain ⟨_ | c, after⟩ := got
    · rfl
    · dsimp only
      rw [ih next]

end

theorem loaded_fgets_start (fits : file.length ≤ block) (room : Nat) :
    Loaded file.length (start.fgets block file (room + 1)).2 := by
  -- Whether the first character is read from a fresh stream or a filled one is the same.
  have filled : Loaded file.length (start.fill block file) := by
    refine .inr ?_
    simp [Stream.fill, start, List.take_of_length_le fits]
  have again : (start.fill block file).fgetc block file = start.fgetc block file := by
    have stays : (start.fill block file).fill block file = start.fill block file := by
      by_cases empty : (start.fill block file).buffer = []
      · exact if_pos (.inr (ended_of_fill empty))
      · exact if_pos (.inl empty)
    simp only [Stream.fgetc, stays]
  have whole := filled.fgets block file (room + 1)
  simp only [Stream.fgets, again] at whole ⊢
  exact whole

/-! ## All reads -/

/-- The lines and pieces of lines that are read, each with the stream after it. -/
def reads (block : Nat) (file : Str) (room : Nat) : Nat → Stream → List (Str × Stream)
  | 0, _ => []
  | rounds + 1, stream =>
    let next := stream.fgets block file room
    if next.1 = [] then [] else next :: reads block file room rounds next.2

theorem loaded_of_mem_reads {limit : Nat} (loaded : Loaded limit stream) {room rounds : Nat} {next : Str × Stream}
    (member : next ∈ reads block file room rounds stream) : Loaded limit next.2 := by
  induction rounds generalizing stream with
  | zero => cases member
  | succ rounds ih =>
    have after := loaded.fgets block file room
    rw [reads] at member
    split at member
    · cases member
    · rcases List.mem_cons.mp member with rfl | later
      · exact after
      · exact ih after later

theorem loaded_of_mem_reads_start (fits : file.length ≤ block) {room rounds : Nat} {next : Str × Stream}
    (member : next ∈ reads block file (room + 1) rounds start) : Loaded file.length next.2 := by
  cases rounds with
  | zero => cases member
  | succ rounds =>
    have after := loaded_fgets_start fits room
    rw [reads] at member
    split at member
    · cases member
    · rcases List.mem_cons.mp member with rfl | later
      · exact after
      · exact loaded_of_mem_reads after later

end Stream
end Inotispy.Library
