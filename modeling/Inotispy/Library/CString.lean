import Mathlib.Algebra.Ring.Int.Defs
import Mathlib.Algebra.Ring.Nat
import Mathlib.Data.List.Infix
import Mathlib.Data.List.TakeWhile

/-! Null-terminated strings as lists of characters.

A value of `Str` holds the bytes before the terminator. The functions follow
the C library: a search gives the offset of the first occurrence, and a read at
an index past the terminator or before the start has no value.
-/

set_option autoImplicit false

namespace Inotispy.Library

abbrev Str := List Char

namespace CString

/-- The string a buffer holds: its bytes up to the first null byte. -/
def ofBuffer (buffer : List Char) : Str := buffer.takeWhile (· ≠ '\x00')

/-- Offset of the first occurrence of `pattern` in `text`. -/
def strstr (text pattern : Str) : Option Nat :=
  if pattern.isPrefixOf text then some 0
  else match text with
    | [] => none
    | _ :: rest => (strstr rest pattern).map (· + 1)

/-- The byte at an index; the terminator stands at index `text.length`. -/
def charAt (text : Str) (index : Int) : Option Char :=
  if 0 ≤ index ∧ index ≤ text.length then some (text.getD index.toNat '\x00') else none

/-! ## Strings in buffers -/

theorem null_not_mem_ofBuffer (buffer : List Char) : '\x00' ∉ ofBuffer buffer := by
  intro inside
  have other := List.mem_takeWhile_imp inside
  simp at other

theorem ofBuffer_append {text : Str} (plain : '\x00' ∉ text) (rest : List Char) :
    ofBuffer (text ++ rest) = text ++ ofBuffer rest :=
  List.takeWhile_append_of_pos fun c member => by
    have other : c ≠ '\x00' := fun same => plain (same ▸ member)
    simpa using other

theorem ofBuffer_of_plain {text : Str} (plain : '\x00' ∉ text) : ofBuffer text = text := by
  have whole := ofBuffer_append plain []
  rw [List.append_nil] at whole
  exact whole.trans (List.append_nil text)

theorem ofBuffer_terminated {text : Str} (plain : '\x00' ∉ text) (rest : List Char) :
    ofBuffer (text ++ '\x00' :: rest) = text := by
  rw [ofBuffer_append plain]
  exact List.append_nil text

theorem terminator (buffer : List Char) : ∃ rest, buffer ++ ['\x00'] = ofBuffer buffer ++ '\x00' :: rest := by
  have whole : buffer = ofBuffer buffer ++ buffer.dropWhile (· ≠ '\x00') := (List.takeWhile_append_dropWhile).symm
  cases left : buffer.dropWhile (· ≠ '\x00') with
  | nil =>
    rw [left, List.append_nil] at whole
    exact ⟨[], by rw [← whole]⟩
  | cons c rest =>
    have null : c = '\x00' := by
      have stops := List.head?_dropWhile_not (fun c : Char => decide (c ≠ '\x00')) buffer
      rw [left] at stops
      simpa using stops
    rw [left, null] at whole
    refine ⟨rest ++ ['\x00'], ?_⟩
    conv_lhs => rw [whole]
    rw [List.append_assoc, List.cons_append]

/-! ## Searching -/

theorem strstr_eq_zero (text pattern : Str) :
    strstr text pattern = some 0 ↔ pattern <+: text := by
  unfold strstr
  split
  · simpa using List.isPrefixOf_iff_prefix.mp ‹_›
  · have differs : ¬pattern <+: text := fun start => ‹¬_› (List.isPrefixOf_iff_prefix.mpr start)
    cases text with
    | nil => simpa using differs
    | cons first rest => cases found : strstr rest pattern <;> simp [differs]

theorem strstr_isSome (text pattern : Str) :
    (strstr text pattern).isSome ↔ pattern <:+: text := by
  induction text with
  | nil =>
    unfold strstr
    split
    · simpa using List.prefix_nil.mp (List.isPrefixOf_iff_prefix.mp ‹_›)
    · have differs : ¬pattern <+: ([] : Str) := fun start => ‹¬_› (List.isPrefixOf_iff_prefix.mpr start)
      simpa using differs
  | cons first rest ih =>
    unfold strstr
    split
    · simpa using (List.isPrefixOf_iff_prefix.mp ‹_›).isInfix
    · have differs : ¬pattern <+: first :: rest :=
        fun start => ‹¬_› (List.isPrefixOf_iff_prefix.mpr start)
      simp only [Option.isSome_map, ih, List.infix_cons_iff, differs, false_or]

theorem strstr_eq_none (text pattern : Str) :
    strstr text pattern = none ↔ ¬pattern <:+: text := by
  rw [← strstr_isSome, Option.not_isSome_iff_eq_none]

theorem prefix_at_end_iff {pattern text : Str} (nonempty : pattern ≠ []) (start : pattern <+: text) :
    pattern.length = text.length ↔ pattern <:+ text ∧ ¬pattern <:+: text.dropLast := by
  constructor
  · intro same
    obtain rfl := start.eq_of_length same
    refine ⟨List.suffix_refl _, fun inside => ?_⟩
    have le := inside.length_le
    have positive := List.length_pos_iff.mpr nonempty
    rw [List.length_dropLast] at le
    omega
  · rintro ⟨_, before⟩
    by_contra differs
    apply before
    have le := start.length_le
    refine (List.prefix_of_prefix_length_le start (List.dropLast_prefix text) ?_).isInfix
    rw [List.length_dropLast]
    omega

/-- The first occurrence stands at the end: the pattern ends the text, and does not occur before. -/
theorem strstr_at_end_iff {pattern : Str} (nonempty : pattern ≠ []) (text : Str) :
    (∃ i, strstr text pattern = some i ∧ i + pattern.length = text.length) ↔
      pattern <:+ text ∧ ¬pattern <:+: text.dropLast := by
  induction text with
  | nil =>
    have missing : strstr [] pattern = none := (strstr_eq_none [] pattern).mpr (by simpa using nonempty)
    simp [missing, nonempty]
  | cons first rest ih =>
    by_cases start : pattern <+: first :: rest
    · rw [(strstr_eq_zero _ _).mpr start, ← prefix_at_end_iff nonempty start]
      simp
    · have step : strstr (first :: rest) pattern = (strstr rest pattern).map (· + 1) := by
        rw [strstr, if_neg (fun is => start (List.isPrefixOf_iff_prefix.mp is))]
      have ends : pattern <:+ first :: rest ↔ pattern <:+ rest := by
        rw [List.suffix_cons_iff]
        exact or_iff_right fun same => start (same ▸ List.prefix_refl _)
      have before : pattern <:+: (first :: rest).dropLast ↔ pattern <:+: rest.dropLast := by
        cases rest with
        | nil => rfl
        | cons second rest =>
          rw [List.dropLast_cons_cons, List.infix_cons_iff]
          exact or_iff_right fun inside => start (inside.trans (List.dropLast_prefix (first :: second :: rest)))
      rw [ends, before, ← ih, step]
      constructor
      · rintro ⟨i, found, last⟩
        obtain ⟨j, there, rfl⟩ := Option.map_eq_some_iff.mp found
        rw [List.length_cons] at last
        exact ⟨j, there, by omega⟩
      · rintro ⟨j, there, last⟩
        exact ⟨j + 1, by rw [there]; rfl, by rw [List.length_cons]; omega⟩

theorem charAt_last (text : Str) : charAt text (text.length - 1) = text.getLast? := by
  cases text with
  | nil => rfl
  | cons first rest =>
    have inside : (0 : Int) ≤ ((first :: rest).length : Int) - 1 ∧
        ((first :: rest).length : Int) - 1 ≤ (first :: rest).length := by
      simp only [List.length_cons]
      omega
    have place : (((first :: rest).length : Int) - 1).toNat = rest.length := by
      simp only [List.length_cons]
      omega
    rw [charAt, if_pos inside, place, List.getLast?_eq_getElem?]
    simp

end CString
end Inotispy.Library
