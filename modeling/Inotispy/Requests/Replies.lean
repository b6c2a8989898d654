import Inotispy.Model.Zeromq
import Inotispy.Roots.Search

/-! What the functions of `reply.c` do: each hands one message to the socket if its allocations
succeed, and leaves the daemon's own state alone. -/

set_option autoImplicit false

namespace Inotispy
open Library

variable {σ : Type} [System σ]

theorem replySendMessage_run (succeed : AllocationsSucceed σ) (message : Str) (w : World σ) :
    ∃ s, replySendMessage message w =
      .ok ((), { w with sys := s, socket := (w.socket.send message).2 }) := by
  simp only [replySendMessage, malloc_bind, succeed w.sys, Program.ite_apply]
  exact ⟨_, rfl⟩

theorem replySendFormatted_run (succeed : AllocationsSucceed σ) (text : Str) (w : World σ) :
    ∃ s, replySendFormatted text w =
      .ok ((), { w with sys := s, socket := (w.socket.send text).2 }) := by
  simp only [replySendFormatted, mkString_bind_allocated succeed, deref, Program.pure_bind_apply]
  exact replySendMessage_run succeed text _

theorem replySendMessage_socket {message : Str} {w w' : World σ} {a : Unit}
    (ran : replySendMessage message w = .ok (a, w')) :
    w'.socket = (w.socket.send message).2 ∨ (w'.socket = w.socket ∧ ¬AllocationsSucceed σ) := by
  simp only [replySendMessage, malloc_bind, Program.ite_eq_ok, Program.pure_eq_ok, modifySocket_bind] at ran
  obtain ⟨failed, _, rfl⟩ | ⟨_, _, rfl⟩ := ran
  · exact .inr ⟨rfl, fun succeed => by simp [succeed w.sys] at failed⟩
  · exact .inl rfl

theorem replySendFormatted_socket {text : Str} {w w' : World σ} {a : Unit}
    (ran : replySendFormatted text w = .ok (a, w')) :
    w'.socket = (w.socket.send text).2 ∨ (w'.socket = w.socket ∧ ¬AllocationsSucceed σ) := by
  simp only [replySendFormatted, mkString_bind, deref_bind_eq_ok] at ran
  obtain ⟨message, copied, ran⟩ := ran
  split at copied
  · cases copied
    exact replySendMessage_socket (w := { w with sys := (System.malloc w.sys).2 }) ran
  · cases copied

def errorText (err : InotispyError) : Str :=
  str "\x7b\"error\": \x7b\"code\":" ++ percentD err.code ++ str ", \"message\":\"" ++
    errorToString err ++ str "\"\x7d\x7d"

theorem replySendError_socket {err : InotispyError} {w w' : World σ} {a : Unit}
    (ran : replySendError err w = .ok (a, w')) :
    w'.socket = (w.socket.send (errorText err)).2 ∨ (w'.socket = w.socket ∧ ¬AllocationsSucceed σ) :=
  replySendFormatted_socket ran

end Inotispy
