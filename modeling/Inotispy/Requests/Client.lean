import Inotispy.Library.Token
import Inotispy.Model.Client
import Inotispy.Requests.Filtering
import Inotispy.Requests.Strings

/-! Which paths the client and the daemon agree on.

The client puts the path into the text of its request as it is. The daemon gets that path
back exactly when every byte of it stands for itself in a JSON string and the filter leaves
it alone: any other byte makes the string that is read shorter than the path, if one is read.
-/

set_option autoImplicit false

namespace Inotispy
open Library
open JsonText (IsObject)
open Inotispyctl (Command)

variable {σ : Type} [System σ]

/-- What is assumed of json-c: it reads the object that a text starts with, and accepts as an
object nothing else. -/
structure ImplementsJson (σ : Type) [System σ] (takes : Char → Bool) : Prop where
  null : takes '\x00' = false
  exact : ∀ text members, System.jsonTokenerParse (σ := σ) text = some (.object members) ↔
    ∃ object rest, text = object ++ rest ∧ IsObject takes object members

/-! ## The text of a request -/

def Inotispyctl.Command.head (command : Command) : Str := str "\x7b\"call\":\"" ++ command.call ++ str "\",\"path\":\""

def Inotispyctl.Command.tail : Command → Str
  | .getEventsRaw count => str ",\"count\":" ++ percentD count.toInt
  | _ => []

theorem Inotispyctl.Command.text_eq (command : Command) (path : Str) :
    command.text path = command.head ++ (path ++ '"' :: (command.tail ++ ['\x7d'])) := by
  cases command <;> simp [Command.text, Command.head, Command.tail, Command.call, Inotispyctl.watch, Inotispyctl.unwatch,
    Inotispyctl.pauseRoot, Inotispyctl.unpauseRoot, Inotispyctl.getQueueSize, Inotispyctl.getEventsRaw,
    Inotispyctl.message, str]

def Inotispyctl.Command.members (command : Command) (path : Str) : List (Str × Json) :=
  (str "call", .string command.call) :: (str "path", .string path) ::
    match command with
    | .getEventsRaw count => [(str "count", .int count.toInt)]
    | _ => []

theorem not_mem_percentD {c : Char} (value : Int) (other : c ≠ '-' ∧ c.isDigit = false) : c ∉ percentD value :=
  CString.not_mem_toString value other

theorem brace_not_mem_head (command : Command) : '\x7d' ∉ command.head := by
  cases command <;> simp [Command.head, Command.call, str]

theorem brace_not_mem_tail (command : Command) : '\x7d' ∉ command.tail := by
  cases command with
  | getEventsRaw count => simp [Command.tail, str, @not_mem_percentD '\x7d' count.toInt (by decide)]
  | _ => exact List.not_mem_nil

theorem command_text_ends (command : Command) {path : Str} (brace : '\x7d' ∉ path) :
    ∃ before, command.text path = before ++ ['\x7d'] ∧ '\x7d' ∉ before :=
  ⟨command.head ++ (path ++ '"' :: command.tail), by simp [Command.text_eq],
    by simp [brace_not_mem_head, brace_not_mem_tail, brace]⟩

theorem null_not_mem_text {command : Command} {path : Str} (null : '\x00' ∉ path) : '\x00' ∉ command.text path := by
  rw [Command.text_eq]
  cases command with
  | getEventsRaw count =>
    simp [Command.head, Command.call, Command.tail, str, @not_mem_percentD '\x00' count.toInt (by decide), null]
  | _ => simp [Command.head, Command.call, Command.tail, str, null]

namespace JsonText

variable {takes : Char → Bool}

/-- The reader before the path: in a string that is to become the member "path". -/
def atPath (call : Str) (pieces : List Piece) : State :=
  .reading [.object [(str "call", .string call)] (str "path")] (.string false pieces .none)

theorem run_head (command : Command) : run takes .start command.head = atPath command.call [] := by
  cases command <;> rfl

/-! ## Reading what was written -/

theorem run_plain {opened : List Container} {asKey : Bool} {pieces : List Piece} {text : Str}
    (all : ∀ c ∈ text, plain takes c = true) :
    run takes (.reading opened (.string asKey pieces .none)) text =
      .reading opened (.string asKey (pieces ++ text.map .byte) .none) := by
  induction text generalizing pieces with
  | nil => simp [run]
  | cons c text ih =>
    obtain ⟨here, later⟩ := List.forall_mem_cons.mp all
    have differs : c ≠ '"' ∧ c ≠ '\\' := by
      simp only [plain, Bool.and_eq_true, decide_eq_true_eq] at here
      exact here.1
    have first : step takes (.reading opened (.string asKey pieces .none)) c =
        .reading opened (.string asKey (pieces ++ [.byte c]) .none) := by
      simp [step, inString, differs, here]
    have rest := @ih (pieces ++ [.byte c]) later
    change run takes (step takes _ c) text = _
    rw [first, rest, List.append_assoc]
    rfl

theorem textOf_bytes (text : Str) : textOf (text.map .byte) = text := by
  induction text with
  | nil => rfl
  | cons c text ih => rw [List.map_cons, textOf, ih]

theorem isNumberChar_of_isDigit {c : Char} (digit : c.isDigit = true) : isNumberChar c = true := by
  simp [isNumberChar, digit]

theorem run_number {opened : List Container} {first text : Str} (all : ∀ c ∈ text, c.isDigit = true) :
    run takes (.reading opened (.number first)) text = .reading opened (.number (first ++ text)) := by
  induction text generalizing first with
  | nil => simp [run]
  | cons c text ih =>
    obtain ⟨here, later⟩ := List.forall_mem_cons.mp all
    change run takes (inNumber opened first c) text = _
    rw [inNumber, if_pos (isNumberChar_of_isDigit here), ih later, List.append_assoc]
    rfl

theorem numberValue_toDigits (text : Str) (negative : Bool) (n : Nat) :
    numberValue text negative (Nat.toDigits 10 n) [] = some (.int (if negative then -n else n)) := by
  have leading : ¬(Nat.toDigits 10 n = [] ∨ (Nat.toDigits 10 n).head? = some '0' ∧ Nat.toDigits 10 n ≠ ['0']) := by
    rintro (empty | ⟨zero, more⟩)
    · exact Nat.toDigits_ne_nil empty
    · rcases Nat.eq_zero_or_pos n with rfl | pos
      · exact more (Nat.toDigits_zero 10)
      · exact CString.head_toDigits pos zero
  rw [numberValue, if_neg leading, if_pos rfl, Nat.ofDigitChars_ten_toDigits]

theorem takeWhile_toDigits (n : Nat) :
    (Nat.toDigits 10 n).takeWhile Char.isDigit = Nat.toDigits 10 n ∧ (Nat.toDigits 10 n).dropWhile Char.isDigit = [] :=
  ⟨List.takeWhile_eq_self_iff.mpr (CString.isDigit_toDigits n), List.dropWhile_eq_nil_iff.mpr (CString.isDigit_toDigits n)⟩

theorem numberOf_percentD (value : Int) : numberOf (percentD value) = some (.int value) := by
  cases value with
  | ofNat n =>
    have text : percentD (.ofNat n) = Nat.toDigits 10 n := CString.toList_toString_ofNat n
    have unsigned : (Nat.toDigits 10 n).head? ≠ some '-' := fun minus =>
      absurd (CString.isDigit_toDigits n '-' (List.mem_of_mem_head? minus)) (by decide)
    rw [text]
    simp [numberOf, unsigned, takeWhile_toDigits, numberValue_toDigits]
  | negSucc n =>
    have text : percentD (.negSucc n) = '-' :: Nat.toDigits 10 (n + 1) := CString.toList_toString_negSucc n
    rw [text]
    simp [numberOf, takeWhile_toDigits, numberValue_toDigits, Int.negSucc_eq]

theorem run_percentD {opened : List Container} (value : Int) {c : Char} (ends : isNumberChar c = false) :
    run takes (.reading opened .value) (percentD value ++ [c]) = afterValue (store (.int value) opened) c := by
  -- Its first byte makes it a number; the others are digits, and `c` ends it.
  have reading (first : Char) (digits : Str) (all : ∀ d ∈ digits, d.isDigit = true) (whole : percentD value = first :: digits)
      (begins : beginValue opened first = .reading opened (.number [first])) :
      run takes (.reading opened .value) (percentD value ++ [c]) = afterValue (store (.int value) opened) c := by
    rw [run_append, whole]
    change step takes (run takes (beginValue opened first) digits) c = _
    rw [begins, run_number all]
    change inNumber opened ([first] ++ digits) c = _
    rw [List.singleton_append, ← whole, inNumber, if_neg (by simp [ends]), numberOf_percentD]
  cases value with
  | ofNat n =>
    have text : percentD (.ofNat n) = Nat.toDigits 10 n := CString.toList_toString_ofNat n
    have all := CString.isDigit_toDigits n
    cases digits : Nat.toDigits 10 n with
    | nil => exact absurd digits Nat.toDigits_ne_nil
    | cons first rest =>
      rw [digits] at all text
      obtain ⟨digit, later⟩ := List.forall_mem_cons.mp all
      have other (d : Char) (not : d.isDigit = false) : first ≠ d := by
        rintro rfl
        rw [digit] at not
        cases not
      refine reading first rest later text ?_
      have blank : isBlank first = false := by
        simp [isBlank, other ' ' rfl, other '\t' rfl, other '\n' rfl, other '\r' rfl]
      simp [beginValue, blank, other '\x7b' rfl, other '[' rfl, other '"' rfl, digit]
  | negSucc n =>
    exact reading '-' _ (CString.isDigit_toDigits (n + 1)) (CString.toList_toString_negSucc n) rfl

/-- A request for a path of which every byte stands for itself is read as it was meant. -/
theorem isObject_text {command : Command} {path : Str} (all : ∀ c ∈ path, plain takes c = true) :
    IsObject takes (command.text path) (command.members path) := by
  rw [IsObject, Command.text_eq, run_append, run_head, run_append, atPath, run_plain all, List.nil_append]
  change run takes (.reading (store (.string (textOf (path.map .byte))) _) .after) (command.tail ++ ['\x7d']) = _
  rw [textOf_bytes]
  cases command with
  | getEventsRaw count =>
    change run takes _ ((str ",\"count\":" ++ percentD count.toInt) ++ ['\x7d']) = _
    rw [List.append_assoc, run_append]
    exact run_percentD count.toInt rfl
  | _ => rfl

/-! ## Reading a path that was not -/

theorem run_tail_failed {command : Command} {opened : List Container} {pieces : List Piece} {before after : Str}
    (split : command.tail ++ ['\x7d'] = before ++ '"' :: after) :
    run takes (.reading opened (.string false pieces .none)) ('"' :: after) = .failed := by
  have next : ∃ c rest, after = c :: rest ∧ (c = 'c' ∨ c = ':') := by
    cases command with
    | getEventsRaw count =>
      have digits : '"' ∉ percentD count.toInt ++ ['\x7d'] := by simp [not_mem_percentD]
      change (str ",\"count\":" ++ percentD count.toInt) ++ ['\x7d'] = _ at split
      rw [List.append_assoc] at split
      rcases List.append_eq_append_iff.mp split with ⟨more, -, rest⟩ | ⟨more, front, rest⟩
      · rw [rest] at digits
        simp at digits
      · cases more with
        | nil =>
          rw [List.nil_append] at rest
          rw [← rest] at digits
          simp at digits
        | cons c more =>
          obtain ⟨rfl, rfl⟩ := List.cons.inj rest
          -- The two quotes of the key "count".
          have quotes : ∀ n < 9, (str ",\"count\":")[n]? = some '"' →
              ((str ",\"count\":").drop (n + 1)).head? = some 'c' ∨ ((str ",\"count\":").drop (n + 1)).head? = some ':' := by
            decide
          have here := quotes before.length (by
            have length := congrArg List.length front
            simp [str] at length
            omega) (by simp [front])
          have drop : (str ",\"count\":").drop (before.length + 1) = more := by simp [front]
          rw [drop] at here
          cases more with
          | nil => simp at here
          | cons d more => exact ⟨d, _, rfl, by simpa using here⟩
    | _ =>
      have length := congrArg List.length split
      cases before with
      | nil => cases split
      | cons c before => cases before <;> cases split
  obtain ⟨c, rest, rfl, is⟩ := next
  have fails (opened : List Container) : afterValue opened c = .failed := by
    rcases is with rfl | rfl <;> rcases opened with _ | ⟨_ | _, _⟩ <;> rfl
  change run takes (step takes (.reading (store _ opened) .after) c) rest = _
  rw [step, fails, run_failed]

theorem member_path {command : Command} {rest found : Str} {members : List (Str × Json)}
    (object : IsObject takes (command.head ++ rest) members) (member : members.lookup (str "path") = some (.string found)) :
    ∃ before after opened pieces, rest = before ++ '"' :: after ∧ found.length ≤ weight pieces ∧
      run takes (atPath command.call []) before = .reading opened (.string false pieces .none) := by
  rw [IsObject, run_append, run_head] at object
  have is : (run takes (atPath command.call []) rest).member (str "path") = some (.string found) := by
    rw [object]
    exact member
  rcases member_run is with sooner | ⟨before, after, opened, pieces, whole, rfl, reading⟩
  · cases sooner
  · exact ⟨before, after, opened, pieces, whole, length_textOf_le pieces, reading⟩

theorem weight_le_of_run {call : Str} {before : Str} {opened : List Container} {pieces : List Piece}
    (reading : run takes (atPath call []) before = .reading opened (.string false pieces .none)) :
    weight pieces ≤ before.length := by
  have size := @size_run takes (atPath call []) before
  rw [reading] at size
  have whole : weight pieces + 0 ≤ 0 + 0 + before.length := size
  omega

/-- Where the path that is read is as long as the one that was written, that one was read as it is. -/
theorem plain_of_isObject {command : Command} {path found : Str} {members : List (Str × Json)}
    (object : IsObject takes (command.text path) members) (member : members.lookup (str "path") = some (.string found))
    (length : path.length ≤ found.length) : ∀ c ∈ path, plain takes c = true := by
  rw [Command.text_eq] at object
  obtain ⟨before, after, opened, pieces, split, short, reading⟩ := member_path object member
  have enough := weight_le_of_run reading
  -- The quote is not inside the path, where less would have been read.
  have reaches : path <+: before :=
    List.prefix_of_prefix_length_le ⟨_, split⟩ (List.prefix_append _ _) (by omega)
  obtain ⟨more, rfl⟩ := reaches
  cases more with
  | nil =>
    rw [List.append_nil] at reading
    by_contra other
    obtain ⟨c, inside, special⟩ : ∃ c ∈ path, plain takes c = false := by simpa using other
    have less := @size_run_lt takes [.object [(str "call", .string command.call)] (str "path")] false [] path
      ⟨c, inside, special⟩
    change (run takes (atPath command.call []) path).size < 0 + path.length at less
    rw [reading] at less
    have less : weight pieces + 0 < 0 + path.length := less
    omega
  | cons c more =>
    -- The string ended behind the path, where the text cannot go on as it does.
    rw [IsObject, run_append, run_head, split, run_append, reading] at object
    rw [List.append_assoc, List.append_cancel_left_eq] at split
    obtain ⟨-, rest⟩ := List.cons.inj split
    rw [run_tail_failed rest] at object
    cases object

end JsonText

/-! ## What the daemon gets -/

theorem objectGet_string {jobj : Json} {key text : Str} (is : jobj.objectGet key = some (.string text)) :
    ∃ members, jobj = .object members ∧ members.lookup key = some (.string text) := by
  unfold Json.objectGet at is
  split at is
  · next members =>
    split at is
    · cases is
    · exact ⟨members, rfl, is⟩
  · cases is

theorem parsed_of_requestOf {text : Str} {req : Request} (is : requestOf σ text = some req) :
    System.jsonTokenerParse (σ := σ) text = some req.parser := by
  unfold requestOf calledObject at is
  split at is
  · obtain ⟨⟨jobj, call⟩, called, rfl⟩ := Option.map_eq_some_iff.mp is
    obtain ⟨value, parsed, found⟩ := Option.bind_eq_some_iff.mp called
    obtain ⟨_, _, same⟩ := Option.map_eq_some_iff.mp found
    cases same
    exact parsed
  · cases is

theorem path_of_requestOf {text path : Str} {req : Request} (is : requestOf σ text = some req)
    (got : requestGetKeyStr req (str "path") = some path) :
    ∃ members found, System.jsonTokenerParse (σ := σ) text = some (.object members) ∧
      members.lookup (str "path") = some (.string found) ∧ path.length ≤ found.length := by
  unfold requestGetKeyStr at got
  split at got
  · next found member =>
    obtain ⟨members, same, lookup⟩ := objectGet_string member
    cases got
    exact ⟨members, found, same ▸ parsed_of_requestOf is, lookup, (List.takeWhile_prefix _).length_le⟩
  · cases got

/-- Where the filter has left a single brace, at the end, json-c has read all of the text. -/
theorem ImplementsJson.whole {takes : Char → Bool} (implements : ImplementsJson σ takes) {before : Str}
    {members : List (Str × Json)} (first : '\x7d' ∉ before)
    (parsed : System.jsonTokenerParse (σ := σ) (before ++ ['\x7d']) = some (.object members)) :
    IsObject takes (before ++ ['\x7d']) members := by
  obtain ⟨object, rest, split, is⟩ := (implements.exact _ _).mp parsed
  cases rest using List.reverseRecOn with
  | nil =>
    rw [split, List.append_nil]
    exact is
  | append_singleton rest c =>
    rw [← List.append_assoc] at split
    -- With something behind the object its own brace would stand before the last one.
    obtain ⟨rfl, -⟩ := List.append_inj' split rfl
    obtain ⟨body, rfl⟩ := is.ends
    simp at first

/-- The daemon gets the call and the path that the client was given exactly when every byte of
the path stands for itself in a JSON string and none is a closing brace. -/
theorem client_path_agrees_iff {takes : Char → Bool} (implements : ImplementsJson σ takes) (succeed : AllocationsSucceed σ)
    {k : Socket} {w : World σ} (start : At false false k w) (command : Command) (path : Str)
    (null : '\x00' ∉ path) (received : k.recv.1 = some (command.text path)) :
    (∃ req, Dispatches w req ∧ req.call = some command.call ∧ requestGetKeyStr req (str "path") = some path) ↔
      ∀ c ∈ path, JsonText.plain takes c = true ∧ c ≠ '\x7d' := by
  have sent : CString.ofBuffer (command.text path) = command.text path := CString.ofBuffer_of_plain (null_not_mem_text null)
  simp only [dispatches_iff succeed start received, sent]
  constructor
  · rintro ⟨req, dispatched, -, got⟩
    obtain ⟨members, found, parsed, member, long⟩ := path_of_requestOf dispatched got
    have brace : '\x7d' ∉ path := by
      intro inside
      obtain ⟨before, after, rfl, first⟩ := List.eq_append_cons_of_mem inside
      have cut : throughBrace (command.text (before ++ '\x7d' :: after)) = command.head ++ before ++ ['\x7d'] := by
        rw [Command.text_eq, List.append_assoc, List.cons_append, ← List.append_assoc, throughBrace_append]
        simp [brace_not_mem_head, first]
      rw [cut] at parsed
      have object := implements.whole (by simp [brace_not_mem_head, first]) parsed
      rw [List.append_assoc] at object
      obtain ⟨short, more, opened, pieces, split, lost, reading⟩ := JsonText.member_path object member
      -- A string that ended in what is left of the path is shorter than the path.
      have enough := JsonText.weight_le_of_run reading
      have lengths := congrArg List.length split
      simp only [List.length_append, List.length_cons, List.length_nil] at lengths long
      omega
    obtain ⟨before, shape, first⟩ := command_text_ends command brace
    rw [shape, throughBrace_append first] at parsed
    have object := implements.whole first parsed
    rw [← shape] at object
    intro c inside
    exact ⟨JsonText.plain_of_isObject object member long c inside, fun same => brace (same ▸ inside)⟩
  · intro all
    have brace : '\x7d' ∉ path := fun inside => (all _ inside).2 rfl
    obtain ⟨before, shape, first⟩ := command_text_ends command brace
    have whole : throughBrace (command.text path) = command.text path := shape ▸ throughBrace_append first []
    have object : IsObject takes (command.text path) (command.members path) :=
      JsonText.isObject_text fun c inside => (all c inside).1
    have parsed : System.jsonTokenerParse (σ := σ) (command.text path) = some (.object (command.members path)) :=
      (implements.exact _ _).mpr ⟨_, [], (List.append_nil _).symm, object⟩
    rw [whole, requestOf_object parsed object rfl]
    refine ⟨_, rfl, ?_, ?_⟩
    · cases command <;> rfl
    · exact congrArg some (CString.ofBuffer_of_plain null)

/-! ## On a computed json-c -/

theorem Reader.implements : ImplementsJson Reader fun _ => false where
  null := rfl
  exact text members := by
    refine JsonText.value?_eq_some.trans ?_
    constructor
    · rintro ⟨object, rest, found, split, ran, same⟩
      cases same
      exact ⟨object, rest, split, ran⟩
    · rintro ⟨object, rest, split, ran⟩
      exact ⟨object, rest, members, split, ran, rfl⟩

theorem odd_path_agrees :
    ∃ req, Dispatches (World.sent ((Command.getEventsRaw (-7)).text (str "/a b,\x7bc"))) req ∧
      req.call = some (Command.getEventsRaw (-7)).call ∧ requestGetKeyStr req (str "path") = some (str "/a b,\x7bc") := by
  have null : '\x00' ∉ str "/a b,\x7bc" := by decide
  have plain : ∀ c ∈ str "/a b,\x7bc", JsonText.plain (fun _ => false) c = true ∧ c ≠ '\x7d' := by simp [str, JsonText.plain]
  exact (client_path_agrees_iff Reader.implements (fun _ => rfl) (World.sent_at _) _ _ null (World.sent_received _)).mpr plain

/-- The client is asked to watch a directory, and the daemon to watch another. -/
theorem quotes_in_path_disagree :
    str "/a\",\"path\":\"/b" ≠ [] ∧ '\x00' ∉ str "/a\",\"path\":\"/b" ∧
      (∃ req, Dispatches (World.sent (Command.watch.text (str "/a\",\"path\":\"/b"))) req ∧
        req.call = some Command.watch.call ∧ requestGetKeyStr req (str "path") = some (str "/b")) ∧
      ¬∃ req, Dispatches (World.sent (Command.watch.text (str "/a\",\"path\":\"/b"))) req ∧
        req.call = some Command.watch.call ∧ requestGetKeyStr req (str "path") = some (str "/a\",\"path\":\"/b") := by
  simp only [dispatches_iff (fun _ => rfl) (World.sent_at _) (World.sent_received _)]
  refine ⟨by decide, by decide, ⟨_, rfl, rfl, rfl⟩, ?_⟩
  rintro ⟨req, dispatched, _, got⟩
  cases dispatched
  exact absurd got (by decide)

end Inotispy
