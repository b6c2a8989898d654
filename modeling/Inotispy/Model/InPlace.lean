import Inotispy.Library.CBuffer
import Inotispy.Model.Zeromq

/-! The code that changes strings in place, byte by byte.

The functions on whole strings elsewhere say what these come to as long as they stay inside.
-/

set_option autoImplicit false

namespace Inotispy
open Library

/-- A round of the loop in `request_get_path`. It has no lower bound for its index. -/
def trimRound (i : Int) : OnBuffer (Int ⊕ Unit) := do
  if (← OnBuffer.get i) = '/' then
    OnBuffer.put i '\x00'
    return .inl (i - 1)
  return .inr ()

/-- `request_get_path` on the string that json-c hands out. -/
def requestGetPathInPlace (rounds : Nat) : OnBuffer (Option Unit) := do
  let path ← OnBuffer.string
  if 0 < path.length ∧ path ≠ str "/" then Program.loop trimRound rounds (path.length - 1)
  else return some ()

/-- The trimming of `inotify_unwatch_tree`. -/
def unwatchTreeInPlace : OnBuffer Unit := do
  let last := (← OnBuffer.strlen) - 1
  if (← OnBuffer.get last) = '/' then OnBuffer.put last '\x00'

/-- A round of the loop in `zmq_handle_event` that cuts a message, with `i` and `nil`. It takes
the length anew every time. -/
def junkRound : Int × Bool → OnBuffer ((Int × Bool) ⊕ Unit)
  | (i, nil) => do
    if i < (← OnBuffer.strlen) then
      if nil then
        OnBuffer.put i '\x00'
        return .inl (i + 1, nil)
      let c ← OnBuffer.get i
      return .inl (i + 1, c == '\x7d')
    return .inr ()

end Inotispy
