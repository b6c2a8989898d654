import Inotispy.Model.JsonText

/-! What the reader of JSON objects does on the way through a text.

It finishes at a closing brace and at the first one that can be the last, so no proper start
of an object's text is one. A string that it reads is no longer than what was read for it,
and as long only if every byte stood for itself.
-/

set_option autoImplicit false

namespace Inotispy
open Library

namespace JsonText

variable {takes : Char → Bool}

/-! ## Runs -/

theorem run_append (state : State) (text more : Str) : run takes state (text ++ more) = run takes (run takes state text) more :=
  List.foldl_append

theorem run_failed (text : Str) : run takes .failed text = .failed := by
  induction text with
  | nil => rfl
  | cons c text ih => exact ih

theorem run_finished {members done : List (Str × Json)} {text : Str} (ran : run takes (.finished done) text = .finished members) :
    text = [] := by
  cases text with
  | nil => rfl
  | cons c text =>
    change run takes .failed text = _ at ran
    rw [run_failed] at ran
    cases ran

theorem closeArray_cases (items : List Json) (outer : List Container) :
    closeArray items outer = .failed ∨ closeArray items outer = .reading (store (.array items) outer) .after := by
  unfold closeArray
  split
  · exact .inl rfl
  · exact .inr rfl

theorem beginValue_ne_finished {opened : List Container} {c : Char} {members : List (Str × Json)} :
    beginValue opened c ≠ .finished members := by
  unfold beginValue
  repeat' split
  all_goals simp

theorem beginItem_ne_finished {opened : List Container} {c : Char} {members : List (Str × Json)} :
    beginItem opened c ≠ .finished members := by
  unfold beginItem
  repeat' split
  all_goals first | exact beginValue_ne_finished | simp

theorem closeArray_ne_finished {items : List Json} {outer : List Container} {members : List (Str × Json)} :
    closeArray items outer ≠ .finished members := by
  rcases closeArray_cases items outer with is | is <;> simp [is]

theorem afterValue_finished {opened : List Container} {c : Char} {members : List (Str × Json)}
    (ends : afterValue opened c = .finished members) : c = '\x7d' := by
  unfold afterValue at ends
  split at ends
  · cases ends
  split at ends
  · cases ends
  split at ends
  · split at ends
    · exact absurd ends closeArray_ne_finished
    · cases ends
  · split at ends
    · assumption
    · cases ends
  · cases ends

theorem beginFirst_finished {opened : List Container} {c : Char} {members : List (Str × Json)}
    (ends : beginFirst opened c = .finished members) : c = '\x7d' := by
  unfold beginFirst at ends
  split at ends
  · cases ends
  split at ends
  · split at ends
    · exact absurd ends closeArray_ne_finished
    · exact absurd ends beginValue_ne_finished
  · split at ends
    · assumption
    · exact absurd ends beginItem_ne_finished
  · cases ends

theorem step_finished {state : State} {c : Char} {members : List (Str × Json)}
    (ends : step takes state c = .finished members) : c = '\x7d' := by
  cases state with
  | start =>
    simp only [step] at ends
    split at ends
    · cases ends
    · split at ends <;> cases ends
  | finished done => cases ends
  | failed => cases ends
  | reading opened lexeme =>
    cases lexeme with
    | first => exact beginFirst_finished ends
    | item => exact absurd ends beginItem_ne_finished
    | colon =>
      simp only [step] at ends
      split at ends
      · cases ends
      · split at ends <;> cases ends
    | value => exact absurd ends beginValue_ne_finished
    | after => exact afterValue_finished ends
    | string asKey pieces escape =>
      simp only [step, inString, endString] at ends
      repeat' split at ends
      all_goals cases ends
    | number text =>
      simp only [step, inNumber] at ends
      split at ends
      · cases ends
      split at ends
      · exact afterValue_finished ends
      · cases ends
    | literal value read =>
      simp only [step, inLiteral] at ends
      repeat' split at ends
      all_goals cases ends

theorem IsObject.ends {text : Str} {members : List (Str × Json)} (is : IsObject takes text members) :
    ∃ body, text = body ++ ['\x7d'] := by
  cases text using List.reverseRecOn with
  | nil => cases is
  | append_singleton body c =>
    rw [IsObject, run_append] at is
    obtain rfl := step_finished is
    exact ⟨body, rfl⟩

theorem IsIncomplete.not_object {text : Str} (incomplete : IsIncomplete takes text) (members : List (Str × Json)) :
    ¬IsObject takes text members := by
  intro is
  -- A reader that has finished fails at the next byte.
  obtain ⟨rest, whole, more, longer⟩ := incomplete
  rw [IsObject, run_append, is] at longer
  exact more (run_finished longer)

theorem value?_eq_some {state : State} {text : Str} {value : Json} :
    value? takes state text = some value ↔
      ∃ before rest members, text = before ++ rest ∧ run takes state before = .finished members ∧ value = .object members := by
  fun_induction value? takes state text with
  | case1 text members =>
    constructor
    · intro is
      exact ⟨[], text, members, rfl, rfl, (Option.some.inj is).symm⟩
    · rintro ⟨before, rest, done, _, ran, rfl⟩
      cases run_finished ran
      cases ran
      rfl
  | case2 state unfinished =>
    constructor
    · intro is
      cases is
    · rintro ⟨before, rest, members, whole, ran, _⟩
      obtain ⟨rfl, -⟩ := List.append_eq_nil_iff.mp whole.symm
      exact absurd ran (unfinished members)
  | case3 state c text unfinished ih =>
    rw [ih]
    constructor
    · rintro ⟨before, rest, members, rfl, ran, same⟩
      exact ⟨c :: before, rest, members, rfl, ran, same⟩
    · rintro ⟨before, rest, members, whole, ran, same⟩
      cases before with
      | nil => exact absurd ran (unfinished members)
      | cons d before =>
        obtain ⟨rfl, rfl⟩ := List.cons.inj whole
        exact ⟨before, rest, members, rfl, ran, same⟩

theorem IsIncomplete.value? {text : Str} (incomplete : IsIncomplete takes text) : value? takes .start text = none := by
  rw [Option.eq_none_iff_forall_not_mem]
  intro value is
  obtain ⟨before, rest, members, rfl, object, _⟩ := value?_eq_some.mp is
  obtain ⟨more, whole, some, longer⟩ := incomplete
  exact IsIncomplete.not_object ⟨rest ++ more, whole, by simp [some], by simpa using longer⟩ members object

theorem step_null (null : takes '\x00' = false) (state : State) : step takes state '\x00' = .failed := by
  have after (opened : List Container) : afterValue opened '\x00' = .failed := by
    cases opened with
    | nil => rfl
    | cons container outer => cases container <;> rfl
  have item (opened : List Container) : beginItem opened '\x00' = .failed := by
    cases opened with
    | nil => rfl
    | cons container outer => cases container <;> rfl
  cases state with
  | start => rfl
  | finished members => rfl
  | failed => rfl
  | reading opened lexeme =>
    cases lexeme with
    | first =>
      cases opened with
      | nil => rfl
      | cons container outer => cases container <;> rfl
    | item => exact item opened
    | colon => rfl
    | value => rfl
    | after => exact after opened
    | string asKey pieces escape =>
      cases escape with
      -- Only here does it matter which control characters are taken.
      | none => simp [step, inString, plain, null]
      | backslash => rfl
      | unicode digits code => rfl
    | number text =>
      have other : isNumberChar '\x00' = false := rfl
      simp only [step, inNumber, other, Bool.false_eq_true, if_false]
      cases numberOf text with
      | none => rfl
      | some value => exact after _
    | literal value read =>
      have other : (literalText value)[read]? ≠ some '\x00' := fun has => by
        rcases value with _ | _ | _ <;> exact absurd (List.mem_of_getElem? has) (by decide)
      exact if_pos other

theorem IsObject.null_free {text : Str} {members : List (Str × Json)} (null : takes '\x00' = false)
    (is : IsObject takes text members) : '\x00' ∉ text := by
  intro inside
  obtain ⟨before, after, rfl⟩ := List.append_of_mem inside
  have stopped : run takes .start (before ++ '\x00' :: after) = .failed := by
    rw [run_append]
    change run takes (step takes _ '\x00') after = _
    rw [step_null null, run_failed]
  rw [IsObject, stopped] at is
  cases is

end JsonText
end Inotispy
