import Inotispy.Requests.Texts

/-! Where the strings of an object come from.

A string member of the finished object was put there by a closing quote. By then the reader
has taken at least as many bytes as the string is long, and more if one of them did not
stand for itself.
-/

set_option autoImplicit false

namespace Inotispy
open Library

namespace JsonText

variable {takes : Char → Bool}

/-! ## The outermost object -/

def rootMembers : List Container → List (Str × Json)
  | [] => []
  | [.array _] => []
  | [.object members _] => members
  | _ :: outer :: rest => rootMembers (outer :: rest)

def State.member (key : Str) : State → Option Json
  | .reading opened _ => (rootMembers opened).lookup key
  | .finished members => members.lookup key
  | _ => none

theorem lookup_cons (name key : Str) (value : Json) (rest : List (Str × Json)) :
    ((name, value) :: rest).lookup key = if key = name then some value else rest.lookup key := by
  by_cases same : key = name
  · simp [same]
  · simp [List.lookup_cons, same, beq_false_of_ne same]

theorem lookup_setMember (members : List (Str × Json)) (key other : Str) (value : Json) :
    (setMember members key value).lookup other = if other = key then some value else members.lookup other := by
  induction members with
  | nil => rw [setMember, lookup_cons]
  | cons member rest ih =>
    obtain ⟨name, old⟩ := member
    by_cases here : name = key
    · rw [setMember, if_pos here, lookup_cons, lookup_cons, here]
      split <;> rfl
    · rw [setMember, if_neg here, lookup_cons, lookup_cons, ih]
      grind

theorem member_store {value found : Json} {opened : List Container} {key : Str}
    (is : (rootMembers (store value opened)).lookup key = some found) :
    (rootMembers opened).lookup key = some found ∨ found = value := by
  cases opened with
  | nil => exact .inl is
  | cons inner outer =>
    cases outer with
    | cons next rest => cases inner <;> exact .inl is
    | nil =>
      cases inner with
      | array items => exact .inl is
      | object members name =>
        have is : (setMember members name value).lookup key = some found := is
        rw [lookup_setMember] at is
        split at is
        · exact .inr (Option.some.inj is).symm
        · exact .inl is

theorem member_closeArray {items : List Json} {outer : List Container} {key text : Str}
    (is : (closeArray items outer).member key = some (.string text)) :
    (rootMembers (.array items :: outer)).lookup key = some (.string text) := by
  unfold closeArray at is
  cases outer with
  | nil => cases is
  | cons next rest =>
    rcases member_store is with same | other
    · exact same
    · cases other

theorem member_closeObject {members : List (Str × Json)} {name : Str} {outer : List Container} {key text : Str}
    (is : (closeObject members outer).member key = some (.string text)) :
    (rootMembers (.object members name :: outer)).lookup key = some (.string text) := by
  unfold closeObject at is
  cases outer with
  | nil => exact is
  | cons next rest =>
    rcases member_store is with same | other
    · exact same
    · cases other

theorem member_afterValue {opened : List Container} {c : Char} {key text : Str}
    (is : (afterValue opened c).member key = some (.string text)) :
    (rootMembers opened).lookup key = some (.string text) := by
  unfold afterValue at is
  split at is
  · exact is
  split at is
  · exact is
  split at is
  · split at is
    · exact member_closeArray is
    · cases is
  · split at is
    · exact member_closeObject is
    · cases is
  · cases is

theorem member_beginValue {opened : List Container} {c : Char} {key text : Str}
    (is : (beginValue opened c).member key = some (.string text)) :
    (rootMembers opened).lookup key = some (.string text) := by
  unfold beginValue at is
  repeat' split at is
  all_goals first | exact is | cases is | cases opened <;> exact is

theorem member_beginItem {opened : List Container} {c : Char} {key text : Str}
    (is : (beginItem opened c).member key = some (.string text)) :
    (rootMembers opened).lookup key = some (.string text) := by
  unfold beginItem at is
  repeat' split at is
  all_goals first | exact is | cases is | exact member_beginValue is

theorem member_beginFirst {opened : List Container} {c : Char} {key text : Str}
    (is : (beginFirst opened c).member key = some (.string text)) :
    (rootMembers opened).lookup key = some (.string text) := by
  unfold beginFirst at is
  split at is
  · exact is
  split at is
  · split at is
    · exact member_closeArray is
    · exact member_beginValue is
  · split at is
    · exact member_closeObject is
    · exact member_beginItem is
  · cases is

theorem numberValue_ne_string {text number whole rest : Str} {negative : Bool} :
    numberValue number negative whole rest ≠ some (.string text) := by
  unfold numberValue
  intro is
  split at is
  · cases is
  split at is
  · cases is
  split at is <;> cases is

/-- A string member is new only when a closing quote has just been read. -/
theorem member_step {state : State} {c : Char} {key text : Str}
    (is : (step takes state c).member key = some (.string text)) :
    state.member key = some (.string text) ∨
      ∃ opened pieces, state = .reading opened (.string false pieces .none) ∧ c = '"' ∧ text = textOf pieces := by
  cases state with
  | start =>
    simp only [step] at is
    repeat' split at is
    all_goals cases is
  | finished members => cases is
  | failed => cases is
  | reading opened lexeme =>
    cases lexeme with
    | first => exact .inl (member_beginFirst is)
    | item => exact .inl (member_beginItem is)
    | colon =>
      simp only [step] at is
      repeat' split at is
      all_goals first | exact .inl is | cases is
    | value => exact .inl (member_beginValue is)
    | after => exact .inl (member_afterValue is)
    | string asKey pieces escape =>
      cases escape with
      | none =>
        simp only [step, inString] at is
        split at is
        · next quote =>
          cases asKey with
          | true =>
            simp only [endString, if_true] at is
            split at is
            · next members name outer => cases outer <;> exact .inl is
            · cases is
          | false =>
            rcases member_store is with same | new
            · exact .inl same
            · exact .inr ⟨opened, pieces, rfl, quote, Json.string.inj new⟩
        repeat' split at is
        all_goals first | exact .inl is | cases is
      | backslash =>
        simp only [step, inString] at is
        repeat' split at is
        all_goals first | exact .inl is | cases is
      | unicode digits code =>
        simp only [step, inString] at is
        repeat' split at is
        all_goals first | exact .inl is | cases is
    | number number =>
      simp only [step, inNumber] at is
      split at is
      · exact .inl is
      split at is
      · next value found =>
        rcases member_store (member_afterValue is) with same | new
        · exact .inl same
        · exact absurd (new ▸ found) numberValue_ne_string
      · cases is
    | literal value read =>
      simp only [step, inLiteral] at is
      repeat' split at is
      · cases is
      · rcases member_store is with same | new
        · exact .inl same
        · cases value <;> cases new
      · exact .inl is

theorem member_run {state : State} {text : Str} {key found : Str}
    (is : (run takes state text).member key = some (.string found)) :
    state.member key = some (.string found) ∨
      ∃ before after opened pieces, text = before ++ '"' :: after ∧ found = textOf pieces ∧
        run takes state before = .reading opened (.string false pieces .none) := by
  induction text generalizing state with
  | nil => exact .inl is
  | cons c text ih =>
    -- What is there after the first byte was there before it, or that byte closed it.
    rcases ih is with sooner | ⟨before, after, opened, pieces, rfl, same, reading⟩
    · rcases member_step sooner with start | ⟨opened, pieces, rfl, rfl, same⟩
      · exact .inl start
      · exact .inr ⟨[], text, opened, pieces, rfl, same, rfl⟩
    · exact .inr ⟨c :: before, after, opened, pieces, rfl, same, reading⟩

/-! ## How long strings are -/

def Piece.weight : Piece → Nat
  | .byte _ => 1
  | .unit _ => 3

def weight (pieces : List Piece) : Nat := (pieces.map Piece.weight).sum

theorem weight_append (pieces more : List Piece) : weight (pieces ++ more) = weight pieces + weight more := by
  simp [weight]

theorem length_utf8_le (code : Nat) : (utf8 code).length ≤ 4 ∧ (code < 0x10000 → (utf8 code).length ≤ 3) := by
  unfold utf8
  dsimp only
  repeat' split
  all_goals
    simp only [List.length_cons, List.length_nil]
    omega

theorem length_unitText_le (code : UInt16) : (unitText code).length ≤ 3 := by
  apply (length_utf8_le _).2
  split
  · decide
  · exact code.toNat_lt

theorem length_textOf_le (pieces : List Piece) : (textOf pieces).length ≤ weight pieces := by
  fun_induction textOf pieces with
  | case1 => exact Nat.zero_le _
  | case2 c rest ih =>
    change _ + 1 ≤ weight ([.byte c] ++ rest)
    rw [weight_append]
    have one : weight [.byte c] = 1 := rfl
    omega
  | case3 code => exact length_unitText_le code
  | case4 high c rest ih =>
    have first := length_unitText_le high
    have whole : weight (.unit high :: .byte c :: rest) = 4 + weight rest := by
      simp [weight, Piece.weight]
      omega
    rw [whole, List.length_append, List.length_cons]
    omega
  | case5 high low rest pair ih =>
    have first := (length_utf8_le (0x10000 + (high.toNat - 0xD800) * 0x400 + (low.toNat - 0xDC00))).1
    -- The pair weighs six and becomes four bytes.
    have whole : weight (.unit high :: .unit low :: rest) = 6 + weight rest := by
      simp [weight, Piece.weight]
      omega
    rw [whole, List.length_append]
    omega
  | case6 high low rest alone ih =>
    have first := length_unitText_le high
    have whole : weight (.unit high :: .unit low :: rest) = 3 + weight (.unit low :: rest) := by
      simp [weight, Piece.weight]
    rw [whole, List.length_append]
    omega

def Escape.size : Escape → Nat
  | .unicode digits _ => digits
  | _ => 0

/-- The length that the string being read can have so far. -/
def State.size : State → Nat
  | .reading _ (.string _ pieces escape) => weight pieces + escape.size
  | _ => 0

theorem size_afterValue (opened : List Container) (c : Char) : (afterValue opened c).size = 0 := by
  unfold afterValue closeArray closeObject
  repeat' split
  all_goals rfl

theorem size_beginValue (opened : List Container) (c : Char) : (beginValue opened c).size = 0 := by
  unfold beginValue
  repeat' split
  all_goals rfl

theorem size_beginItem (opened : List Container) (c : Char) : (beginItem opened c).size = 0 := by
  unfold beginItem
  repeat' split
  all_goals first | exact size_beginValue _ _ | rfl

theorem size_beginFirst (opened : List Container) (c : Char) : (beginFirst opened c).size = 0 := by
  unfold beginFirst closeArray closeObject
  repeat' split
  all_goals first | exact size_beginValue _ _ | exact size_beginItem _ _ | rfl

theorem size_endString (opened : List Container) (asKey : Bool) (text : Str) : (endString opened asKey text).size = 0 := by
  unfold endString
  repeat' split
  all_goals rfl

theorem size_step (state : State) (c : Char) : (step takes state c).size ≤ state.size + 1 := by
  cases state with
  | start =>
    simp only [step]
    repeat' split
    all_goals exact Nat.zero_le _
  | finished members => exact Nat.zero_le _
  | failed => exact Nat.zero_le _
  | reading opened lexeme =>
    cases lexeme with
    | first => exact (size_beginFirst opened c).symm ▸ Nat.zero_le _
    | item => exact (size_beginItem opened c).symm ▸ Nat.zero_le _
    | value => exact (size_beginValue opened c).symm ▸ Nat.zero_le _
    | after => exact (size_afterValue opened c).symm ▸ Nat.zero_le _
    | colon =>
      simp only [step]
      repeat' split
      all_goals exact Nat.zero_le _
    | string asKey pieces escape =>
      have piece (p : Piece) : weight (pieces ++ [p]) = weight pieces + p.weight := by simp [weight]
      cases escape with
      | none =>
        simp only [step, inString]
        split
        · exact (size_endString _ _ _).symm ▸ Nat.zero_le _
        split
        · exact Nat.le_succ _
        split
        · exact (piece (.byte c)).le
        · exact Nat.zero_le _
      | backslash =>
        simp only [step, inString]
        split
        · exact Nat.le_succ _
        split
        · next d _ => exact (piece (.byte d)).le
        · exact Nat.zero_le _
      | unicode digits code =>
        simp only [step, inString]
        split
        · next digit _ =>
          split
          · next last =>
            -- The three digits that were counted become a unit, which weighs three.
            have whole := piece (.unit (code * 16 + digit))
            simp only [State.size, Escape.size, whole, Piece.weight]
            omega
          · exact Nat.le_refl _
        · exact Nat.zero_le _
    | number text =>
      simp only [step, inNumber]
      split
      · exact Nat.zero_le _
      split
      · exact (size_afterValue _ c).symm ▸ Nat.zero_le _
      · exact Nat.zero_le _
    | literal value read =>
      simp only [step, inLiteral]
      repeat' split
      all_goals exact Nat.zero_le _

theorem size_run (state : State) (text : Str) : (run takes state text).size ≤ state.size + text.length := by
  induction text generalizing state with
  | nil => exact Nat.le_refl _
  | cons c text ih =>
    have first := @size_step takes state c
    have rest := ih (step takes state c)
    change (run takes (step takes state c) text).size ≤ _
    rw [List.length_cons]
    omega

theorem size_run_lt {opened : List Container} {asKey : Bool} {pieces : List Piece} {text : Str}
    (other : ∃ c ∈ text, plain takes c = false) :
    (run takes (.reading opened (.string asKey pieces .none)) text).size < weight pieces + text.length := by
  induction text generalizing pieces with
  | nil => simp at other
  | cons c text ih =>
    change (run takes (step takes _ c) text).size < _
    rw [List.length_cons]
    cases here : plain takes c with
    | true =>
      have differs : c ≠ '"' ∧ c ≠ '\\' := by
        simp only [plain, Bool.and_eq_true, decide_eq_true_eq] at here
        exact here.1
      obtain ⟨d, member, special⟩ := other
      have later : ∃ c ∈ text, plain takes c = false := by
        rcases List.mem_cons.mp member with rfl | inside
        · rw [special] at here
          cases here
        · exact ⟨d, inside, special⟩
      have more := @ih (pieces ++ [.byte c]) later
      have whole : weight (pieces ++ [.byte c]) = weight pieces + 1 := weight_append _ _
      simp only [step, inString, if_neg differs.1, if_neg differs.2, here, if_true]
      omega
    | false =>
      -- A quote ends the string, a backslash is no part of it, and all else fails.
      have step_le : (step takes (.reading opened (.string asKey pieces .none)) c).size ≤ weight pieces := by
        simp only [step, inString, here]
        split
        · exact (size_endString _ _ _).symm ▸ Nat.zero_le _
        split
        · exact Nat.le_refl _
        · exact Nat.zero_le _
      have rest := @size_run takes (step takes (.reading opened (.string asKey pieces .none)) c) text
      omega

end JsonText
end Inotispy
