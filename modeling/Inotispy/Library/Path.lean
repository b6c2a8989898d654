import Inotispy.Library.CString
import Mathlib.Data.List.DropRight

/-! Absolute paths as lists of names.

A name carries the proof that it can be an entry of a directory, so joining names
with slashes keeps them apart: "lies below" on texts is "is a longer list" on names.
-/

set_option autoImplicit false

namespace Inotispy.Library

structure Name where
  text : Str
  nonempty : text ≠ []
  noSlash : '/' ∉ text
  deriving DecidableEq

namespace Path

/-- A base followed by names, each after a slash. -/
def join (base : Str) (names : List Name) : Str := base ++ names.flatMap fun name => '/' :: name.text

@[simp] theorem join_nil (base : Str) : join base [] = base := by simp [join]

theorem join_cons (base : Str) (name : Name) (names : List Name) :
    join base (name :: names) = base ++ '/' :: name.text ++ join [] names := by simp [join]

theorem join_append (base : Str) (names more : List Name) :
    join base (names ++ more) = join (join base names) more := by simp [join]

theorem join_base (base : Str) (names : List Name) : join base names = base ++ join [] names := by
  simp [join]

theorem takeWhile_noSlash {text rest : Str} (noSlash : '/' ∉ text) :
    (text ++ '/' :: rest).takeWhile (· ≠ '/') = text := by
  rw [List.takeWhile_append_of_pos]
  · simp
  · rintro c member
    simpa using ne_of_mem_of_not_mem member noSlash

theorem join_slash (names : List Name) : ∃ rest, join [] names ++ ['/'] = '/' :: rest := by
  cases names with
  | nil => exact ⟨[], rfl⟩
  | cons name names => exact ⟨_, by rw [join_cons]; rfl⟩

theorem text_eq_of_prefix {first second : Name} {rest : Str} {more : List Name}
    (start : first.text ++ '/' :: rest <+: second.text ++ join [] more) :
    first = second ∧ '/' :: rest <+: join [] more := by
  obtain ⟨tail, same⟩ := start
  have texts : first.text = second.text := by
    have left : ((first.text ++ '/' :: rest) ++ tail).takeWhile (· ≠ '/') = first.text := by
      rw [List.append_assoc]
      exact takeWhile_noSlash first.noSlash
    rw [← left, same]
    cases more with
    | nil =>
      have slash : '/' ∈ second.text := by
        rw [join_nil, List.append_nil] at same
        simp [← same]
      exact absurd slash second.noSlash
    | cons name names =>
      rw [join_cons]
      exact takeWhile_noSlash second.noSlash
  refine ⟨?_, tail, ?_⟩
  · cases first
    cases second
    cases texts
    rfl
  · rw [texts, List.append_assoc] at same
    exact List.append_cancel_left same

theorem slash_prefix_iff (base : Str) (upper lower : List Name) :
    join base upper ++ ['/'] <+: join base lower ↔ ∃ name names, lower = upper ++ name :: names := by
  constructor
  · intro start
    rw [join_base, join_base base lower, List.append_assoc, List.prefix_append_right_inj] at start
    induction upper generalizing lower with
    | nil =>
      cases lower with
      | nil => simp [join] at start
      | cons name names => exact ⟨name, names, rfl⟩
    | cons first upper ih =>
      cases lower with
      | nil => simp [join] at start
      | cons second lower =>
        obtain ⟨rest, slash⟩ := join_slash upper
        have start : first.text ++ '/' :: rest <+: second.text ++ join [] lower := by
          rw [join_cons, join_cons, List.append_assoc, slash] at start
          simpa using start
        obtain ⟨rfl, after⟩ := text_eq_of_prefix start
        obtain ⟨name, names, rfl⟩ := ih lower (slash ▸ after)
        exact ⟨name, names, rfl⟩
  · rintro ⟨name, names, rfl⟩
    rw [join_append, join_cons, List.append_assoc]
    exact List.prefix_append_right_inj _ |>.mpr (by simp)

theorem join_injective {base : Str} {first second : List Name} (same : join base first = join base second) :
    first = second := by
  -- One more name makes each list one that lies below the other.
  have within {upper lower : List Name} (same : join base upper = join base lower) :
      ∃ more, lower ++ [⟨['a'], by decide, by decide⟩] = upper ++ more ∧ 0 < more.length := by
    have below : join base upper ++ ['/'] <+: join base (lower ++ [⟨['a'], by decide, by decide⟩]) := by
      rw [same]
      exact (slash_prefix_iff base lower _).mpr ⟨_, [], rfl⟩
    obtain ⟨name, names, is⟩ := (slash_prefix_iff base upper _).mp below
    exact ⟨name :: names, is, Nat.succ_pos _⟩
  obtain ⟨more, is, some_⟩ := within same
  obtain ⟨_, is', some_'⟩ := within same.symm
  have lengths := congrArg List.length is
  have lengths' := congrArg List.length is'
  simp only [List.length_append, List.length_singleton] at lengths lengths'
  exact (List.append_inj is (by omega)).1.symm

/-! ## The last component -/

def lastComponent (path : Str) : Str := path.rtakeWhile (· ≠ '/')

theorem lastComponent_append {text : Str} (noSlash : '/' ∉ text) (front : Str) :
    lastComponent (front ++ text) = lastComponent front ++ text := by
  have names : ∀ c ∈ text.reverse, decide (c ≠ '/') = true := by
    intro c member
    simpa using ne_of_mem_of_not_mem (List.mem_reverse.mp member) noSlash
  rw [lastComponent, List.rtakeWhile, List.reverse_append, List.takeWhile_append_of_pos names, List.reverse_append,
    List.reverse_reverse]
  rfl

theorem suffix_lastComponent_iff {text : Str} (noSlash : '/' ∉ text) (path : Str) :
    text <:+ lastComponent path ↔ text <:+ path := by
  constructor
  · intro ends
    exact ends.trans (List.rtakeWhile_suffix _ path)
  · rintro ⟨front, rfl⟩
    rw [lastComponent_append noSlash]
    exact List.suffix_append _ _

theorem lastComponent_slash {text : Str} (noSlash : '/' ∉ text) (front : Str) :
    lastComponent (front ++ '/' :: text) = text := by
  have slash : front ++ '/' :: text = (front ++ ['/']) ++ text := by simp
  rw [slash, lastComponent_append noSlash]
  simp [lastComponent]

/-! ## Ancestors -/

/-- The directory at one path is an ancestor of the one at the other. -/
def Ancestor (above below : Str) : Prop :=
  (above = ['/'] ∧ below ≠ ['/']) ∨ above ++ ['/'] <+: below

instance (above below : Str) : Decidable (Ancestor above below) := inferInstanceAs (Decidable (_ ∨ _))

def absolute (names : List Name) : Str := if names = [] then ['/'] else join [] names

theorem not_ancestor_self (path : Str) : ¬Ancestor path path := by
  rintro (⟨top, differs⟩ | below)
  · exact differs top
  · have long := below.length_le
    rw [List.length_append, List.length_singleton] at long
    omega

theorem two_le_length_join {names : List Name} (more : names ≠ []) : 2 ≤ (join [] names).length := by
  cases names with
  | nil => exact absurd rfl more
  | cons name names =>
    have text := List.length_pos_iff.mpr name.nonempty
    simp only [join_cons, List.nil_append, List.length_append, List.length_cons]
    omega

/-- On paths made of names, the ancestors are the shorter lists. -/
theorem ancestor_iff (above below : List Name) :
    Ancestor (absolute above) (absolute below) ↔ ∃ name names, below = above ++ name :: names := by
  have longer : ∀ {names : List Name}, names ≠ [] → join [] names ≠ ['/'] := by
    intro names more same
    have long := two_le_length_join more
    rw [same, List.length_singleton] at long
    omega
  unfold Ancestor absolute
  by_cases top : above = []
  · subst top
    by_cases bottom : below = []
    · subst bottom
      simp
    · obtain ⟨name, names, rfl⟩ := List.exists_cons_of_ne_nil bottom
      simp [longer]
  · rw [if_neg top]
    simp only [longer top, false_and, false_or]
    by_cases bottom : below = []
    · subst bottom
      have long := two_le_length_join top
      constructor
      · intro start
        have short := start.length_le
        rw [if_pos rfl, List.length_append, List.length_singleton] at short
        omega
      · rintro ⟨name, names, same⟩
        simp at same
    · rw [if_neg bottom]
      exact slash_prefix_iff [] above below

end Path
end Inotispy.Library
