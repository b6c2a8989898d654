import Mathlib.Data.List.DropRight
import Inotispy.Model.InPlace
import Inotispy.Model.Script

/-! Which paths are trimmed inside their strings.

The loop of `request_get_path` stops at the last character that is no slash. If there is none it
goes on before the string. The trimming for `unwatch` looks at the last character, which the empty
path does not have.
-/

set_option autoImplicit false

namespace Inotispy
open Library

def stripSlashes (text : Str) : Str := text.rdropWhile (· = '/')

theorem stripSlashes_concat (text : Str) (c : Char) :
    stripSlashes (text ++ [c]) = if c = '/' then stripSlashes text else text ++ [c] := by
  rw [stripSlashes, List.rdropWhile_concat]
  simp only [decide_eq_true_eq, stripSlashes]

theorem stripSlashes_idem (text : Str) : stripSlashes (stripSlashes text) = stripSlashes text :=
  List.rdropWhile_idempotent _ text

theorem stripSlashes_eq_nil {text : Str} : stripSlashes text = [] ↔ ∀ c ∈ text, c = '/' := by
  simp [stripSlashes]

/-- What a path comes to: the top if there is nothing but slashes in it. -/
def canonicalPath (text : Str) : Str := if text ≠ [] ∧ stripSlashes text = [] then str "/" else stripSlashes text

theorem trimLoop_eq_stripSlashes (text : Str) : trimLoop text text.length = stripSlashes text := by
  induction text using List.reverseRecOn with
  | nil => rfl
  | append_singleton text c ih =>
    have last : (text ++ [c]).getD text.length '\x00' = c := by simp
    rw [List.length_append, List.length_singleton, trimLoop, last, List.take_left, ih, stripSlashes_concat]

/-! ## The loop -/

section
variable {text : Str} (after : List Char)

theorem trimRound_slash {i : Int} (place : i = text.length) :
    trimRound i (text ++ '/' :: after) = .ok (.inl (i - 1), text ++ '\x00' :: after) := by
  rw [trimRound, Program.bind_ok _ _ _ _ _ (OnBuffer.get_at place), if_pos rfl,
    Program.bind_ok _ _ _ _ _ (OnBuffer.put_at place), Program.pure_apply]

theorem trimRound_other {c : Char} (other : c ≠ '/') {i : Int} (place : i = text.length) :
    trimRound i (text ++ c :: after) = .ok (.inr (), text ++ c :: after) := by
  rw [trimRound, Program.bind_ok _ _ _ _ _ (OnBuffer.get_at place), if_neg other, Program.pure_apply]

theorem trimRound_before (buffer : List Char) : trimRound (-1) buffer = .error ⟨-1⟩ := by
  have outside : ¬OnBuffer.Inside buffer (-1) := fun inside => absurd inside.1 (by decide)
  rw [trimRound, Program.bind_apply, OnBuffer.get_outside outside]

theorem concat_buffer (text : Str) (c : Char) :
    ((text ++ [c]).length : Int) - 1 = text.length ∧
      text ++ [c] ++ '\x00' :: after = text ++ c :: '\x00' :: after := by
  simp

theorem trimLoop_ends (other : stripSlashes text ≠ []) (after : List Char) :
    ∃ rest, Ends trimRound (text.length - 1) (text ++ '\x00' :: after) () (stripSlashes text ++ '\x00' :: rest) := by
  induction text using List.reverseRecOn generalizing after with
  | nil => exact absurd rfl other
  | append_singleton text c ih =>
    obtain ⟨place, buffer⟩ := concat_buffer after text c
    rw [stripSlashes_concat] at other ⊢
    rw [place, buffer]
    by_cases slash : c = '/'
    · rw [if_pos slash] at other ⊢
      obtain ⟨rest, ends⟩ := ih other ('\x00' :: after)
      subst slash
      exact ⟨rest, .step (trimRound_slash _ rfl) ends⟩
    · rw [if_neg slash]
      refine ⟨after, ?_⟩
      rw [buffer]
      exact .last (trimRound_other _ slash rfl)

theorem trimLoop_stays (stripped : stripSlashes text = text) (some_text : text ≠ []) :
    Ends trimRound (text.length - 1) (text ++ '\x00' :: after) () (text ++ '\x00' :: after) := by
  obtain rfl | ⟨text, c, rfl⟩ := List.eq_nil_or_concat' text
  · exact absurd rfl some_text
  · obtain ⟨place, buffer⟩ := concat_buffer after text c
    have other : c ≠ '/' := by
      rintro rfl
      rw [stripSlashes_concat, if_pos rfl] at stripped
      have shorter := (List.rdropWhile_prefix (· = '/') text).length_le
      rw [← stripSlashes, stripped, List.length_append, List.length_singleton] at shorter
      omega
    rw [place, buffer]
    exact .last (trimRound_other _ other rfl)

/-- In a text of slashes the loop gets past the start. -/
theorem trimLoop_past (slashes : stripSlashes text = []) (after final : List Char) :
    ¬Ends trimRound (text.length - 1) (text ++ '\x00' :: after) () final := by
  induction text using List.reverseRecOn generalizing after with
  | nil =>
    intro ends
    obtain ⟨answer, ran⟩ := ends.first
    exact absurd ((trimRound_before _).symm.trans ran) nofun
  | append_singleton text c ih =>
    intro ends
    obtain ⟨place, buffer⟩ := concat_buffer after text c
    rw [stripSlashes_concat] at slashes
    rw [place, buffer] at ends
    by_cases slash : c = '/'
    · rw [if_pos slash] at slashes
      subst slash
      exact ih slashes ('\x00' :: after) (ends.rest (trimRound_slash _ rfl))
    · rw [if_neg slash] at slashes
      exact absurd slashes (by simp)

end

/-! ## The two functions -/

section
variable {text : Str} (plain : '\x00' ∉ text) (after : List Char)
include plain

theorem requestGetPathInPlace_short (short : text = [] ∨ text = str "/") (rounds : Nat) :
    requestGetPathInPlace rounds (text ++ '\x00' :: after) = .ok (some (), text ++ '\x00' :: after) := by
  have skips : ¬(0 < text.length ∧ text ≠ str "/") := by
    rintro ⟨some_text, below⟩
    rcases short with rfl | top
    · exact absurd some_text (by decide)
    · exact below top
  rw [requestGetPathInPlace, Program.bind_ok _ _ _ _ _ (OnBuffer.string_terminated plain after), if_neg skips,
    Program.pure_apply]

theorem requestGetPathInPlace_long (some_text : text ≠ []) (below : text ≠ str "/") (rounds : Nat) :
    requestGetPathInPlace rounds (text ++ '\x00' :: after) =
      Program.loop trimRound rounds (text.length - 1) (text ++ '\x00' :: after) := by
  rw [requestGetPathInPlace, Program.bind_ok _ _ _ _ _ (OnBuffer.string_terminated plain after),
    if_pos ⟨List.length_pos_iff.mpr some_text, below⟩]

theorem unwatchTreeInPlace_eq :
    unwatchTreeInPlace (text ++ '\x00' :: after) = (do
      if (← OnBuffer.get (text.length - 1)) = '/' then OnBuffer.put (text.length - 1) '\x00' : OnBuffer Unit)
        (text ++ '\x00' :: after) := by
  rw [unwatchTreeInPlace, Program.bind_ok _ _ _ _ _ (OnBuffer.strlen_terminated plain after)]

theorem unwatchTreeInPlace_returns (some_text : text ≠ []) :
    ∃ final, unwatchTreeInPlace (text ++ '\x00' :: after) = .ok ((), final) := by
  rw [unwatchTreeInPlace_eq plain]
  obtain rfl | ⟨text, c, rfl⟩ := List.eq_nil_or_concat' text
  · exact absurd rfl some_text
  · obtain ⟨place, buffer⟩ := concat_buffer after text c
    rw [place, buffer, Program.bind_ok _ _ _ _ _ (OnBuffer.get_at rfl)]
    by_cases slash : c = '/'
    · rw [if_pos slash]
      exact ⟨_, OnBuffer.put_at rfl⟩
    · rw [if_neg slash]
      exact ⟨_, rfl⟩

end

theorem unwatchTreeInPlace_empty (after : List Char) : unwatchTreeInPlace ('\x00' :: after) = .error ⟨-1⟩ := by
  have outside : ¬OnBuffer.Inside ('\x00' :: after) (([] : Str).length - 1) := fun inside => absurd inside.1 (by decide)
  have same := unwatchTreeInPlace_eq (by simp : '\x00' ∉ ([] : Str)) after
  rw [List.nil_append, Program.bind_apply, OnBuffer.get_outside outside] at same
  exact same

/-! ## Requests -/

/-- The trimming of the path in a request, in the memory where json-c holds the text: it ends
inside, with the canonical path, and a second time it leaves everything as it is. -/
structure PathTrimmed (req : Request) (text : List Char) : Prop where
  trims : ∃ buffer, (∃ rounds, requestGetPathInPlace rounds (text ++ ['\x00']) = .ok (some (), buffer)) ∧
    CString.ofBuffer buffer = canonicalPath (CString.ofBuffer text) ∧
    (∃ rounds, requestGetPathInPlace rounds buffer = .ok (some (), buffer)) ∧
    (req.call = some (str "unwatch") → ∃ final, unwatchTreeInPlace buffer = .ok ((), final))
  returned : requestGetPath req = some (canonicalPath (CString.ofBuffer text))

def OnlySlashes (text : Str) : Prop := 2 ≤ text.length ∧ ∀ c ∈ text, c = '/'

-- The characters of the text are looked at, and not all characters.
instance (text : Str) : Decidable (OnlySlashes text) :=
  @instDecidableAnd _ _ inferInstance (List.decidableBAll (· = '/') text)

theorem stripSlashes_ne_nil {text : Str} (other : ¬OnlySlashes text) (some_text : text ≠ [])
    (below : text ≠ str "/") : stripSlashes text ≠ [] := by
  intro slashes
  rw [stripSlashes_eq_nil] at slashes
  match text with
  | [] => exact some_text rfl
  | [c] => exact below (by rw [slashes c (by simp)]; rfl)
  | _ :: _ :: _ => exact other ⟨by simp, slashes⟩

section
variable {req : Request} {text : List Char}

theorem requestGetPath_canonical (field : req.parser.objectGet (str "path") = some (.string text))
    (other : ¬OnlySlashes (CString.ofBuffer text)) :
    requestGetPath req = some (canonicalPath (CString.ofBuffer text)) := by
  rw [requestGetPath, requestGetKeyStr, field, Option.map_some]
  congr 1
  by_cases short : CString.ofBuffer text = [] ∨ CString.ofBuffer text = str "/"
  · rcases short with empty | top
    · rw [empty]
      rfl
    · rw [top]
      rfl
  · obtain ⟨some_text, below⟩ := not_or.mp short
    have kept := stripSlashes_ne_nil other some_text below
    rw [if_pos ⟨List.length_pos_iff.mpr some_text, below⟩, trimLoop_eq_stripSlashes, canonicalPath,
      if_neg fun slashes => kept slashes.2]

theorem requestGetPathInPlace_trims {text : Str} (plain : '\x00' ∉ text) (after : List Char)
    (other : ¬OnlySlashes text) : ∃ rest,
      (∃ rounds, requestGetPathInPlace rounds (text ++ '\x00' :: after) =
        .ok (some (), canonicalPath text ++ '\x00' :: rest)) ∧
      (∃ rounds, requestGetPathInPlace rounds (canonicalPath text ++ '\x00' :: rest) =
        .ok (some (), canonicalPath text ++ '\x00' :: rest)) ∧
      '\x00' ∉ canonicalPath text ∧ (text ≠ [] → canonicalPath text ≠ []) := by
  by_cases short : text = [] ∨ text = str "/"
  · have same : canonicalPath text = text := by
      rcases short with rfl | rfl <;> rfl
    have stays := requestGetPathInPlace_short plain after short 0
    rw [same]
    exact ⟨after, ⟨0, stays⟩, ⟨0, stays⟩, plain, id⟩
  · obtain ⟨some_text, below⟩ := not_or.mp short
    have kept := stripSlashes_ne_nil other some_text below
    have is : canonicalPath text = stripSlashes text := if_neg fun slashes => kept slashes.2
    have start : '\x00' ∉ stripSlashes text := fun null => plain ((List.rdropWhile_prefix _ text).subset null)
    have differs : stripSlashes text ≠ str "/" := by
      intro top
      have again := stripSlashes_idem text
      rw [top] at again
      exact absurd again (by decide)
    obtain ⟨rest, rounds, ended⟩ := trimLoop_ends kept after
    obtain ⟨more, stayed⟩ := trimLoop_stays rest (stripSlashes_idem text) kept
    rw [is]
    refine ⟨rest, ⟨rounds, ?_⟩, ⟨more, ?_⟩, start, fun _ => kept⟩
    · rw [requestGetPathInPlace_long plain after some_text below, ended]
    · rw [requestGetPathInPlace_long start rest kept differs, stayed]

theorem PathTrimmed.not_onlySlashes (trimmed : PathTrimmed req text) : ¬OnlySlashes (CString.ofBuffer text) := by
  rintro ⟨long, slashes⟩
  obtain ⟨after, whole⟩ := CString.terminator text
  obtain ⟨buffer, ⟨rounds, ran⟩, _⟩ := trimmed.trims
  have some_text : CString.ofBuffer text ≠ [] := by
    intro empty
    rw [empty] at long
    cases long
  have below : CString.ofBuffer text ≠ str "/" := by
    intro top
    rw [top] at long
    exact absurd long (by decide)
  rw [whole, requestGetPathInPlace_long (CString.null_not_mem_ofBuffer text) after some_text below] at ran
  exact trimLoop_past (stripSlashes_eq_nil.mpr slashes) after buffer ⟨rounds, ran⟩

theorem PathTrimmed.unwatch_ne_nil (trimmed : PathTrimmed req text) (unwatches : req.call = some (str "unwatch")) :
    CString.ofBuffer text ≠ [] := by
  intro empty
  obtain ⟨after, whole⟩ := CString.terminator text
  obtain ⟨buffer, ⟨rounds, ran⟩, _, _, reads⟩ := trimmed.trims
  have stays := requestGetPathInPlace_short (by simp : '\x00' ∉ ([] : Str)) after (.inl rfl) rounds
  rw [whole, empty, stays] at ran
  cases ran
  obtain ⟨final, read⟩ := reads unwatches
  exact absurd ((unwatchTreeInPlace_empty after).symm.trans read) nofun

/-- The path of a request is trimmed as it should be, unless it is two or more slashes and nothing
else, or empty in a request to unwatch. -/
theorem pathTrimmed_iff (field : req.parser.objectGet (str "path") = some (.string text)) :
    PathTrimmed req text ↔ ¬OnlySlashes (CString.ofBuffer text) ∧
      (req.call = some (str "unwatch") → CString.ofBuffer text ≠ []) := by
  constructor
  · exact fun trimmed => ⟨trimmed.not_onlySlashes, trimmed.unwatch_ne_nil⟩
  · rintro ⟨other, filled⟩
    obtain ⟨after, whole⟩ := CString.terminator text
    obtain ⟨rest, trims, again, start, kept⟩ :=
      requestGetPathInPlace_trims (CString.null_not_mem_ofBuffer text) after other
    refine ⟨⟨_, whole ▸ trims, CString.ofBuffer_terminated start rest, again, fun unwatches => ?_⟩,
      requestGetPath_canonical field other⟩
    exact unwatchTreeInPlace_returns start rest (kept (filled unwatches))

end

/-- A path with two slashes behind it, in a request to unwatch. -/
theorem slashes_behind_path_trimmed : PathTrimmed (Request.about "unwatch" "/a//") (str "/a//") :=
  (pathTrimmed_iff rfl).mpr (by decide)

/-- Two slashes are read and cut, and then the byte before them is read. Of the empty path that byte
is read to unwatch it. -/
theorem two_slashes_leave_string :
    requestGetPathInPlace 3 (str "//" ++ ['\x00']) = .error ⟨-1⟩ ∧
      ¬PathTrimmed (Request.about "get_events" "//") (str "//") ∧
      ¬PathTrimmed (Request.about "unwatch" "") (str "") := by
  refine ⟨rfl, fun trimmed => ?_, fun trimmed => ?_⟩
  · exact trimmed.not_onlySlashes (by decide)
  · exact trimmed.unwatch_ne_nil rfl rfl

end Inotispy
