import Inotispy.Library.CString
import Inotispy.Library.Loop

/-! Characters in memory, where every access is checked.

Code on a buffer stops with a fault when it reads or writes a byte that is not part of it. So code
that returns has stayed inside.
-/

set_option autoImplicit false

namespace Inotispy.Library

/-- An access at an index that the buffer does not have. -/
structure OutOfBounds where
  index : Int
  deriving DecidableEq, Repr

abbrev OnBuffer := Program OutOfBounds (List Char)

namespace OnBuffer

def Inside (buffer : List Char) (index : Int) : Prop := 0 ≤ index ∧ index < buffer.length

instance (buffer : List Char) (index : Int) : Decidable (Inside buffer index) := inferInstanceAs (Decidable (_ ∧ _))

def get (index : Int) : OnBuffer Char := fun buffer =>
  if Inside buffer index then .ok (buffer.getD index.toNat '\x00', buffer) else .error ⟨index⟩

def put (index : Int) (c : Char) : OnBuffer Unit := fun buffer =>
  if Inside buffer index then .ok ((), buffer.set index.toNat c) else .error ⟨index⟩

/-- The string at the start of the buffer, which is read up to its terminator. -/
def string : OnBuffer Str := fun buffer =>
  if '\x00' ∈ buffer then .ok (CString.ofBuffer buffer, buffer) else .error ⟨buffer.length⟩

def strlen : OnBuffer Int := do
  let text ← string
  return text.length

section
variable {before after : List Char} {c d : Char} {index : Int}

theorem inside_of_place (place : index = before.length) : Inside (before ++ c :: after) index := by
  constructor
  · omega
  · rw [List.length_append, List.length_cons]
    omega

theorem get_at (place : index = before.length) :
    get index (before ++ c :: after) = .ok (c, before ++ c :: after) := by
  rw [get, if_pos (inside_of_place place), place]
  simp

theorem put_at (place : index = before.length) :
    put index d (before ++ c :: after) = .ok ((), before ++ d :: after) := by
  rw [put, if_pos (inside_of_place place), place]
  simp

theorem get_outside {buffer : List Char} (outside : ¬Inside buffer index) : get index buffer = .error ⟨index⟩ :=
  if_neg outside

end

theorem string_terminated {text : Str} (plain : '\x00' ∉ text) (rest : List Char) :
    string (text ++ '\x00' :: rest) = .ok (text, text ++ '\x00' :: rest) := by
  rw [string, if_pos (by simp), CString.ofBuffer_terminated plain]

theorem strlen_terminated {text : Str} (plain : '\x00' ∉ text) (rest : List Char) :
    strlen (text ++ '\x00' :: rest) = .ok ((text.length : Int), text ++ '\x00' :: rest) := by
  rw [strlen, Program.bind_ok _ _ _ _ _ (string_terminated plain rest), Program.pure_apply]

end OnBuffer
end Inotispy.Library
