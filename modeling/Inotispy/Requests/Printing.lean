import Inotispy.Requests.Client

/-! JSON that is printed and read again.

`write` prints a value the way json-c does. The reader gets back every value without doubles
whose objects have distinct keys, whatever bytes are in its strings.
-/

set_option autoImplicit false

namespace Inotispy
open Library

/-- A value that no information is lost from when it is printed. -/
inductive Json.Printable : Json → Prop where
  | null : Printable .null
  | boolean (value : Bool) : Printable (.boolean value)
  | int (value : Int) : Printable (.int value)
  | string (text : Str) : Printable (.string text)
  | array {items : List Json} (all : ∀ item ∈ items, Printable item) : Printable (.array items)
  | object {members : List (Str × Json)} (distinct : (members.map Prod.fst).Nodup)
      (all : ∀ member ∈ members, Printable member.2) : Printable (.object members)

namespace JsonText

/-! ## The writer -/

def hexChar (digit : Nat) : Char := (str "0123456789abcdef").getD digit '0'

/-- `json_escape_str` on one byte -/
def escaped (c : Char) : Str :=
  if c = '\x08' then str "\\b"
  else if c = '\n' then str "\\n"
  else if c = '\r' then str "\\r"
  else if c = '\t' then str "\\t"
  else if c = '\x0c' then str "\\f"
  else if c = '"' then str "\\\""
  else if c = '\\' then str "\\\\"
  else if c = '/' then str "\\/"
  else if c.toNat < 0x20 then str "\\u00" ++ [hexChar (c.toNat / 16), hexChar (c.toNat % 16)]
  else [c]

def quoted (text : Str) : Str := '"' :: (text.flatMap escaped ++ ['"'])

def listed : List Str → Str
  | [] => []
  | [text] => ' ' :: text
  | text :: other :: rest => ' ' :: (text ++ ',' :: listed (other :: rest))

mutual

def write : Json → Str
  | .null => literalText none
  | .boolean value => literalText (some value)
  | .int value => percentD value
  | .double text => text
  | .string text => quoted text
  | .array items => '[' :: (listed (writeItems items) ++ [' ', ']'])
  | .object members => '\x7b' :: (listed (writeMembers members) ++ [' ', '\x7d'])

def writeItems : List Json → List Str
  | [] => []
  | item :: rest => write item :: writeItems rest

def writeMembers : List (Str × Json) → List Str
  | [] => []
  | member :: rest => writeMember member :: writeMembers rest

def writeMember : Str × Json → Str
  | (key, value) => quoted key ++ (str ": " ++ write value)

end

variable {takes : Char → Bool}

/-! ## Strings -/

def pieceOf (c : Char) : Piece :=
  if c.toNat < 0x20 ∧ c ∉ ['\x08', '\n', '\r', '\t', '\x0c'] then .unit c.toNat.toUInt16 else .byte c

theorem hexDigits_byte : ∀ n < 0x20, hexDigit (hexChar (n / 16)) = some (n / 16).toUInt16 ∧
    hexDigit (hexChar (n % 16)) = some (n % 16).toUInt16 ∧
    ((0 * 16 + 0) * 16 + (n / 16).toUInt16) * 16 + (n % 16).toUInt16 = n.toUInt16 := by
  decide

theorem run_escaped (opened : List Container) (asKey : Bool) (pieces : List Piece) (c : Char) :
    run takes (.reading opened (.string asKey pieces .none)) (escaped c) =
      .reading opened (.string asKey (pieces ++ [pieceOf c]) .none) := by
  by_cases simple : c ∈ ['\x08', '\n', '\r', '\t', '\x0c', '"', '\\', '/']
  · simp only [List.mem_cons, List.not_mem_nil, or_false] at simple
    rcases simple with rfl | rfl | rfl | rfl | rfl | rfl | rfl | rfl <;> rfl
  simp only [List.mem_cons, List.not_mem_nil, or_false, not_or] at simple
  obtain ⟨b, n, r, t, f, quote, backslash, slash⟩ := simple
  by_cases control : c.toNat < 0x20
  · obtain ⟨high, low, code⟩ := hexDigits_byte c.toNat control
    have is : pieceOf c = .unit c.toNat.toUInt16 := if_pos ⟨control, by simp [b, n, r, t, f]⟩
    have text : escaped c = str "\\u00" ++ [hexChar (c.toNat / 16), hexChar (c.toNat % 16)] := by
      simp [escaped, b, n, r, t, f, quote, backslash, slash, control]
    have zero : hexDigit '0' = some 0 := rfl
    rw [text, is, ← code]
    simp [run, str, step, inString, zero, high, low]
  · have is : pieceOf c = .byte c := if_neg fun small => control small.1
    have text : escaped c = [c] := by simp [escaped, b, n, r, t, f, quote, backslash, slash, control]
    rw [text, is]
    have here : plain takes c = true := by
      simp [plain, quote, backslash, Nat.le_of_not_lt control]
    simp [run, step, inString, quote, backslash, here]

theorem run_escapes (opened : List Container) (asKey : Bool) (pieces : List Piece) (text : Str) :
    run takes (.reading opened (.string asKey pieces .none)) (text.flatMap escaped) =
      .reading opened (.string asKey (pieces ++ text.map pieceOf) .none) := by
  induction text generalizing pieces with
  | nil => simp [run]
  | cons c text ih => rw [List.flatMap_cons, run_append, run_escaped, ih, List.append_assoc, List.map_cons, List.singleton_append]

theorem textOf_pieceOf (c : Char) (rest : List Piece) : textOf (pieceOf c :: rest) = c :: textOf rest := by
  unfold pieceOf
  split
  · next control =>
    have code : c.toNat.toUInt16.toNat = c.toNat := by
      rw [Nat.toUInt16, UInt16.toNat_ofNat_of_lt' (Nat.lt_trans control.1 (by decide))]
    have alone : isHigh c.toNat.toUInt16 = false ∧ isLow c.toNat.toUInt16 = false := by
      have small : c.toNat < 0x20 := control.1
      simp only [isHigh, isLow, Bool.and_eq_false_iff, decide_eq_false_iff_not, UInt16.not_le, UInt16.lt_iff_toNat_lt, code]
      exact ⟨.inl (Nat.lt_trans small (by decide)), .inl (Nat.lt_trans small (by decide))⟩
    have text : unitText c.toNat.toUInt16 = [c] := by
      have small : c.toNat < 0x80 := Nat.lt_trans control.1 (by decide)
      simp [unitText, alone, code, utf8, small]
    match rest with
    | [] => simp [textOf, text]
    | .byte d :: rest => simp [textOf, text]
    | .unit low :: rest => simp [textOf, text, alone]
  · rfl

theorem textOf_pieces (text : Str) : textOf (text.map pieceOf) = text := by
  induction text with
  | nil => rfl
  | cons c text ih => rw [List.map_cons, textOf_pieceOf, ih]

theorem run_quoted (opened : List Container) (asKey : Bool) (text : Str) :
    run takes (.reading opened (.string asKey [] .none)) (text.flatMap escaped ++ ['"']) = endString opened asKey text := by
  rw [run_append, run_escapes, List.nil_append]
  change endString opened asKey (textOf (text.map pieceOf)) = _
  rw [textOf_pieces]

/-! ## Containers -/

theorem writeItems_eq (items : List Json) : writeItems items = items.map write := by
  induction items with
  | nil => rfl
  | cons item rest ih => rw [writeItems, ih, List.map_cons]

theorem writeMembers_eq (members : List (Str × Json)) : writeMembers members = members.map writeMember := by
  induction members with
  | nil => rfl
  | cons member rest ih => rw [writeMembers, ih, List.map_cons]

theorem run_listed {A : Type} (text : A → Str) (opens : List A → List Container → Prop) {items : List A}
    (reads : ∀ before item after, items = before ++ item :: after → ∀ opened, opens before opened →
      ∀ lexeme, lexeme = .first ∨ lexeme = .item → ∀ c, c = ' ' ∨ c = ',' → ∃ next, opens (before ++ [item]) next ∧
        run takes (.reading opened lexeme) (' ' :: (text item ++ [c])) = afterValue next c)
    {before after : List A} {item : A} (split : items = before ++ item :: after) {opened : List Container}
    (start : opens before opened) {lexeme : Lexeme} (due : lexeme = .first ∨ lexeme = .item) :
    ∃ next, opens items next ∧
      run takes (.reading opened lexeme) (listed ((item :: after).map text) ++ [' ']) = .reading next .after := by
  induction after generalizing before item opened lexeme with
  | nil =>
    obtain ⟨next, holds, ran⟩ := reads before item [] split opened start lexeme due ' ' (.inl rfl)
    exact ⟨next, split ▸ holds, ran⟩
  | cons other rest ih =>
    obtain ⟨next, holds, ran⟩ := reads before item _ split opened start lexeme due ',' (.inr rfl)
    have later : items = (before ++ [item]) ++ other :: rest := by rw [split, List.append_assoc, List.singleton_append]
    obtain ⟨last, all, more⟩ := ih later holds (.inr rfl)
    refine ⟨last, all, ?_⟩
    have shape : listed ((item :: other :: rest).map text) ++ [' '] =
        (' ' :: (text item ++ [','])) ++ (listed ((other :: rest).map text) ++ [' ']) := by
      simp [listed]
    rw [shape, run_append, ran]
    exact more

theorem setMember_new {members : List (Str × Json)} {key : Str} {value : Json} (new : key ∉ members.map Prod.fst) :
    setMember members key value = members ++ [(key, value)] := by
  induction members with
  | nil => rfl
  | cons member rest ih =>
    rw [List.map_cons, List.mem_cons, not_or] at new
    rw [setMember, if_neg (Ne.symm new.1), ih new.2, List.cons_append]

theorem begins_percentD (value : Int) : ∃ c rest, percentD value = c :: rest ∧ c ≠ ']' ∧ isBlank c = false := by
  have some_ : percentD value ≠ [] := CString.toString_ne_nil value
  obtain ⟨c, rest, is⟩ := List.exists_cons_of_ne_nil some_
  have first : c ∈ percentD value := is ▸ List.mem_cons_self
  have other (d : Char) (not : d ≠ '-' ∧ d.isDigit = false) : c ≠ d := by
    rintro rfl
    exact not_mem_percentD value not first
  refine ⟨c, rest, is, other ']' (by decide), ?_⟩
  simp [isBlank, other ' ' (by decide), other '\t' (by decide), other '\n' (by decide), other '\r' (by decide)]

/-- The text is that of the value wherever one is due, and it takes the next byte to see that it ends. -/
structure Reads (takes : Char → Bool) (text : Str) (value : Json) : Prop where
  begins : ∃ c rest, text = c :: rest ∧ c ≠ ']' ∧ isBlank c = false
  read : ∀ opened c, opened ≠ [] → isNumberChar c = false →
    run takes (.reading opened .value) (text ++ [c]) = afterValue (store value opened) c

namespace Reads

variable {text : Str} {value : Json} (reads : Reads takes text value) {outer : List Container} {lexeme : Lexeme}
  (due : lexeme = .first ∨ lexeme = .item) {c : Char} (ends : isNumberChar c = false)
include reads due ends

theorem item (before : List Json) :
    run takes (.reading (.array before :: outer) lexeme) (' ' :: (text ++ [c])) =
      afterValue (.array (before ++ [value]) :: outer) c := by
  have read := reads.read (.array before :: outer) c (List.cons_ne_nil _ _) ends
  obtain ⟨d, rest, rfl, other, visible⟩ := reads.begins
  refine Eq.trans ?_ read
  rcases due with rfl | rfl
  · change run takes (beginFirst (.array before :: outer) d) _ = run takes (beginValue (.array before :: outer) d) _
    simp [beginFirst, visible, other]
  · rfl

theorem member {before : List (Str × Json)} (name : Str) {key : Str} (new : key ∉ before.map Prod.fst) :
    run takes (.reading (.object before name :: outer) lexeme) (' ' :: (quoted key ++ (str ": " ++ text) ++ [c])) =
      afterValue (.object (before ++ [(key, value)]) key :: outer) c := by
  have set : setMember before key value = before ++ [(key, value)] := setMember_new new
  have read := reads.read (.object before key :: outer) c (List.cons_ne_nil _ _) ends
  rw [store, set] at read
  have keyed : run takes (.reading (.object before name :: outer) (.string true [] .none))
      (key.flatMap escaped ++ ['"']) = endString (.object before name :: outer) true key := run_quoted _ true key
  have shape : ' ' :: (quoted key ++ (str ": " ++ text) ++ [c]) =
      ' ' :: '"' :: ((key.flatMap escaped ++ ['"']) ++ (':' :: ' ' :: (text ++ [c]))) := by
    simp [quoted, str]
  have reached : run takes (.reading (.object before name :: outer) lexeme)
      (' ' :: '"' :: ((key.flatMap escaped ++ ['"']) ++ (':' :: ' ' :: (text ++ [c])))) =
        run takes (.reading (.object before name :: outer) (.string true [] .none))
          ((key.flatMap escaped ++ ['"']) ++ (':' :: ' ' :: (text ++ [c]))) := by
    rcases due with rfl | rfl <;> rfl
  rw [shape, reached, run_append, keyed]
  exact read

end Reads

theorem run_array {items : List Json} (reads : ∀ item ∈ items, Reads takes (write item) item) (outer : List Container) :
    run takes (.reading (.array [] :: outer) .first) (listed (writeItems items) ++ [' ', ']']) = closeArray items outer := by
  rw [writeItems_eq]
  cases items with
  | nil => rfl
  | cons item rest =>
    have each : ∀ before other after, item :: rest = before ++ other :: after → ∀ opened,
        opened = .array before :: outer → ∀ lexeme, lexeme = .first ∨ lexeme = .item → ∀ c, c = ' ' ∨ c = ',' →
          ∃ next, next = .array (before ++ [other]) :: outer ∧
            run takes (.reading opened lexeme) (' ' :: (write other ++ [c])) = afterValue next c := by
      rintro before other after split opened rfl lexeme due c ends
      have inside := reads other (split ▸ List.mem_append_right _ List.mem_cons_self)
      exact ⟨_, rfl, inside.item due (by rcases ends with rfl | rfl <;> rfl) before⟩
    obtain ⟨next, rfl, ran⟩ := run_listed write (fun before opened => opened = .array before :: outer) each
      (show item :: rest = [] ++ item :: rest from rfl) rfl (.inl rfl)
    rw [show [' ', ']'] = [' '] ++ [']'] from rfl, ← List.append_assoc, run_append, ran]
    rfl

theorem run_object {members : List (Str × Json)} (distinct : (members.map Prod.fst).Nodup)
    (reads : ∀ member ∈ members, Reads takes (write member.2) member.2) (outer : List Container) :
    run takes (.reading (.object [] [] :: outer) .first) (listed (writeMembers members) ++ [' ', '\x7d']) =
      closeObject members outer := by
  rw [writeMembers_eq]
  cases members with
  | nil => rfl
  | cons member rest =>
    have each : ∀ before other after, member :: rest = before ++ other :: after → ∀ opened,
        (∃ name, opened = .object before name :: outer) → ∀ lexeme, lexeme = .first ∨ lexeme = .item →
          ∀ c, c = ' ' ∨ c = ',' → ∃ next, (∃ name, next = .object (before ++ [other]) name :: outer) ∧
            run takes (.reading opened lexeme) (' ' :: (writeMember other ++ [c])) = afterValue next c := by
      rintro before ⟨key, value⟩ after split opened ⟨name, rfl⟩ lexeme due c ends
      have inside := reads (key, value) (split ▸ List.mem_append_right _ List.mem_cons_self)
      have new : key ∉ before.map Prod.fst := by
        rw [split, List.map_append, List.map_cons, List.nodup_append] at distinct
        exact fun old => distinct.2.2 key old key List.mem_cons_self rfl
      exact ⟨_, ⟨key, rfl⟩, inside.member due (by rcases ends with rfl | rfl <;> rfl) name new⟩
    obtain ⟨next, ⟨name, rfl⟩, ran⟩ := run_listed writeMember
      (fun before opened => ∃ name, opened = .object before name :: outer) each
      (show member :: rest = [] ++ member :: rest from rfl) ⟨[], rfl⟩ (.inl rfl)
    rw [show [' ', '\x7d'] = [' '] ++ ['\x7d'] from rfl, ← List.append_assoc, run_append, ran]
    rfl

/-! ## Round trip -/

theorem reads_write {value : Json} (printable : value.Printable) : Reads takes (write value) value := by
  induction printable with
  | null => exact ⟨⟨_, _, rfl, by decide, rfl⟩, fun _ _ _ _ => rfl⟩
  | boolean value => cases value <;> exact ⟨⟨_, _, rfl, by decide, rfl⟩, fun _ _ _ _ => rfl⟩
  | int value => exact ⟨begins_percentD value, fun opened c _ ends => run_percentD value ends⟩
  | string text =>
    refine ⟨⟨_, _, rfl, by decide, rfl⟩, fun opened c _ _ => ?_⟩
    have shape : write (.string text) ++ [c] = '"' :: ((text.flatMap escaped ++ ['"']) ++ [c]) := by simp [write, quoted]
    rw [shape]
    change run takes (.reading opened (.string false [] .none)) _ = _
    rw [run_append, run_quoted]
    rfl
  | @array items all ih =>
    refine ⟨⟨_, _, rfl, by decide, rfl⟩, fun opened c some_ _ => ?_⟩
    obtain ⟨outer, rest, rfl⟩ := List.exists_cons_of_ne_nil some_
    change run takes (.reading (.array [] :: outer :: rest) .first) ((listed (writeItems items) ++ [' ', ']']) ++ [c]) = _
    rw [run_append, run_array ih]
    rfl
  | @object members distinct all ih =>
    refine ⟨⟨_, _, rfl, by decide, rfl⟩, fun opened c some_ _ => ?_⟩
    obtain ⟨outer, rest, rfl⟩ := List.exists_cons_of_ne_nil some_
    change run takes (.reading (.object [] [] :: outer :: rest) .first)
      ((listed (writeMembers members) ++ [' ', '\x7d']) ++ [c]) = _
    rw [run_append, run_object distinct ih]
    rfl

theorem isObject_write {members : List (Str × Json)} (printable : (Json.object members).Printable) :
    IsObject takes (write (.object members)) members := by
  cases printable with
  | object distinct all =>
    change run takes (.reading [.object [] []] .first) (listed (writeMembers members) ++ [' ', '\x7d']) = _
    rw [run_object distinct fun member inside => reads_write (all member inside)]
    rfl

end JsonText
end Inotispy
