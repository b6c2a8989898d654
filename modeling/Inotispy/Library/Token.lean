import Mathlib.Data.List.TakeWhile
import Inotispy.Library.CString

/-! Splitting a C string into tokens and reading numbers from it. -/

set_option autoImplicit false

namespace Inotispy.Library.CString

/-- `strtok` with one delimiter: the next token, and the text that the following call goes on with. -/
def strtok (delim : Char) (text : Str) : Option Str × Str :=
  let rest := text.dropWhile (· = delim)
  if rest = [] then (none, [])
  else (some (rest.takeWhile (· ≠ delim)), (rest.dropWhile (· ≠ delim)).drop 1)

/-- The tokens of a text, as repeated calls of `strtok` give them. -/
def tokens (delim : Char) (text : Str) : List Str := (text.splitOn delim).filter (· ≠ [])

section
variable {delim : Char}

@[simp] theorem tokens_nil : tokens delim [] = [] := by simp [tokens]

theorem tokens_delim (text : Str) : tokens delim (delim :: text) = tokens delim text := by
  have split := List.splitOn_append_cons_self (a := delim) [] text
  rw [List.nil_append] at split
  simp [tokens, split]

theorem tokens_append {token : Str} (nonempty : token ≠ []) (plain : delim ∉ token) (rest : Str) :
    tokens delim (token ++ delim :: rest) = token :: tokens delim rest := by
  simp [tokens, List.splitOn_append_cons_self, List.splitOn_eq_singleton plain, nonempty]

theorem tokens_of_plain {token : Str} (nonempty : token ≠ []) (plain : delim ∉ token) :
    tokens delim token = [token] := by
  simp [tokens, List.splitOn_eq_singleton plain, nonempty]

theorem mem_tokens {text token : Str} (member : token ∈ tokens delim text) :
    delim ∉ token ∧ ∀ c ∈ token, c ∈ text := by
  replace member : token ∈ text.splitOn delim := List.mem_of_mem_filter member
  -- What follows the first delimiter is a shorter text with the other tokens.
  induction size : text.length using Nat.strong_induction_on generalizing text with
  | h size ih =>
    by_cases inside : delim ∈ text
    · obtain ⟨before, after, rfl, plain⟩ := List.eq_append_cons_of_mem inside
      rw [List.splitOn_append_cons_self, List.splitOn_eq_singleton plain, List.singleton_append] at member
      rcases List.mem_cons.mp member with rfl | later
      · exact ⟨plain, fun c => List.mem_append_left _⟩
      · obtain ⟨free, within⟩ := ih after.length (by simp [← size]; omega) later rfl
        exact ⟨free, fun c has => List.mem_append_right _ (List.mem_cons_of_mem _ (within c has))⟩
    · rw [List.splitOn_eq_singleton inside] at member
      cases List.mem_singleton.mp member
      exact ⟨inside, fun c => id⟩

theorem tokens_dropWhile (text : Str) : tokens delim (text.dropWhile (· = delim)) = tokens delim text := by
  induction text with
  | nil => rfl
  | cons c text ih =>
    by_cases same : c = delim
    · subst same
      rw [List.dropWhile_cons_of_pos (by simp), ih, tokens_delim]
    · rw [List.dropWhile_cons_of_neg (by simpa using same)]

theorem strtok_tokens (text : Str) :
    ∃ rest, strtok delim text = ((tokens delim text).head?, rest) ∧ tokens delim rest = (tokens delim text).tail := by
  rw [← tokens_dropWhile text]
  unfold strtok
  cases start : text.dropWhile (· = delim) with
  | nil => exact ⟨[], by simp⟩
  | cons c more =>
    have other : c ≠ delim := by
      have first := List.head_dropWhile_not (· = delim) (l := text) (by simp [start])
      simpa [start] using first
    have nonempty : (c :: more).takeWhile (· ≠ delim) ≠ [] := by simp [other]
    have plain : delim ∉ (c :: more).takeWhile (· ≠ delim) := fun inside => by
      simpa using List.mem_takeWhile_imp inside
    refine ⟨((c :: more).dropWhile (· ≠ delim)).drop 1, ?_⟩
    rw [if_neg (by simp)]
    have whole := List.takeWhile_append_dropWhile (p := (· ≠ delim)) (l := c :: more)
    generalize (c :: more).takeWhile (· ≠ delim) = token at nonempty plain whole
    cases ends : (c :: more).dropWhile (· ≠ delim) with
    | nil =>
      rw [ends, List.append_nil] at whole
      rw [← whole, tokens_of_plain nonempty plain]
      simp
    | cons d rest =>
      have is : d = delim := by
        have first := List.head_dropWhile_not (· ≠ delim) (l := c :: more) (by rw [ends]; simp)
        simp only [ends] at first
        exact not_not.mp (of_decide_eq_false first)
      subst is
      rw [ends] at whole
      rw [← whole, tokens_append nonempty plain]
      simp

end

def isSpace (c : Char) : Bool := c = ' ' || ('\t' ≤ c && c ≤ '\r')

/-- `atoi`: as `strtol`, which stops at the bounds of a 64-bit integer, cut to 32 bits. -/
def atoi (text : Str) : Int32 :=
  let text := text.dropWhile isSpace
  let (negative, text) := match text with
    | '-' :: rest => (true, rest)
    | '+' :: rest => (false, rest)
    | rest => (false, rest)
  let value : Int := Nat.ofDigitChars 10 (text.takeWhile Char.isDigit) 0
  let value := if negative then -value else value
  Int32.ofInt (max (-2 ^ 63) (min value (2 ^ 63 - 1)))

section
variable {digits : Str} (are : ∀ c ∈ digits, c.isDigit = true)
include are

theorem atoi_digits : atoi digits = Int32.ofInt (max (-2 ^ 63) (min (Nat.ofDigitChars 10 digits 0) (2 ^ 63 - 1))) := by
  have taken : digits.takeWhile Char.isDigit = digits := List.takeWhile_eq_self_iff.mpr are
  cases digits with
  | nil => rfl
  | cons first rest =>
    have digit := are first List.mem_cons_self
    have start : (first :: rest).dropWhile isSpace = first :: rest := by
      apply List.dropWhile_cons_of_neg
      intro space
      simp only [isSpace, Char.isDigit, Bool.or_eq_true, Bool.and_eq_true, decide_eq_true_eq] at space digit
      rcases space with rfl | ⟨_, small⟩
      · exact absurd digit (by decide)
      · have between : '0' ≤ '\r' := Char.le_trans digit.1 small
        exact absurd between (by decide)
    unfold atoi
    rw [start]
    dsimp only
    split
    · next is => cases is; exact absurd digit (by decide)
    · next is => cases is; exact absurd digit (by decide)
    · rw [taken]
      rfl

theorem atoi_minus :
    atoi ('-' :: digits) = Int32.ofInt (max (-2 ^ 63) (min (-Nat.ofDigitChars 10 digits 0) (2 ^ 63 - 1))) := by
  have taken : digits.takeWhile Char.isDigit = digits := List.takeWhile_eq_self_iff.mpr are
  have start : ('-' :: digits).dropWhile isSpace = '-' :: digits := rfl
  unfold atoi
  rw [start]
  simp only [taken, if_true]

end

theorem isDigit_toDigits (n : Nat) : ∀ c ∈ Nat.toDigits 10 n, c.isDigit = true :=
  fun _ member => Nat.isDigit_of_mem_toDigits (by decide) (by decide) member

theorem head_toDigits {n : Nat} (pos : 0 < n) : (Nat.toDigits 10 n).head? ≠ some '0' := by
  induction n using Nat.strongRecOn with
  | ind n ih =>
    by_cases small : n < 10
    · rw [Nat.toDigits_of_lt_base small]
      have digit : ∀ m < 10, 0 < m → m.digitChar ≠ '0' := by decide
      simpa using digit n small pos
    · have fewer := ih (n / 10) (by omega) (by omega)
      rw [Nat.toDigits_of_base_le (by decide) (by omega), List.head?_append_of_ne_nil _ Nat.toDigits_ne_nil]
      exact fewer

theorem toList_toString_ofNat (m : Nat) : (toString (Int.ofNat m)).toList = Nat.toDigits 10 m := Nat.toList_repr

theorem toList_toString_negSucc (m : Nat) : (toString (Int.negSucc m)).toList = '-' :: Nat.toDigits 10 (m + 1) := by
  change ("-" ++ (m + 1).repr).toList = _
  rw [String.toList_append, Nat.toList_repr]
  rfl

theorem toString_ne_nil (n : Int) : (toString n).toList ≠ [] := by
  cases n with
  | ofNat m => rw [toList_toString_ofNat]; exact Nat.toDigits_ne_nil
  | negSucc m => rw [toList_toString_negSucc]; exact List.cons_ne_nil _ _

theorem not_mem_toString {c : Char} (n : Int) (other : c ≠ '-' ∧ c.isDigit = false) : c ∉ (toString n).toList := by
  intro member
  have digit (m : Nat) (is : c ∈ Nat.toDigits 10 m) : False := by
    have := isDigit_toDigits m c is
    rw [other.2] at this
    cases this
  cases n with
  | ofNat m => exact digit m (toList_toString_ofNat m ▸ member)
  | negSucc m =>
    rw [toList_toString_negSucc] at member
    exact (List.mem_cons.mp member).elim other.1 (digit (m + 1))

/-- A number that was printed is read again. -/
theorem atoi_toString (n : Int32) : atoi (toString n.toInt).toList = n := by
  have low := n.le_toInt
  have high := n.toInt_lt
  cases value : n.toInt with
  | ofNat m =>
    rw [toList_toString_ofNat, atoi_digits (isDigit_toDigits m), Nat.ofDigitChars_ten_toDigits]
    rw [value] at low high
    have inside : max (-2 ^ 63) (min (m : Int) (2 ^ 63 - 1)) = n.toInt := by
      rw [value]
      change _ = (m : Int)
      have : (m : Int) < 2 ^ 31 := high
      omega
    rw [inside, Int32.ofInt_toInt]
  | negSucc m =>
    rw [toList_toString_negSucc, atoi_minus (isDigit_toDigits (m + 1)), Nat.ofDigitChars_ten_toDigits]
    rw [value] at low high
    have inside : max (-2 ^ 63) (min (-((m + 1 : Nat) : Int)) (2 ^ 63 - 1)) = n.toInt := by
      rw [value, Int.negSucc_eq]
      rw [Int.negSucc_eq] at low
      omega
    rw [inside, Int32.ofInt_toInt]

end Inotispy.Library.CString
