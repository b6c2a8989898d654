import Inotispy.Model.Script
import Inotispy.Requests.Handlers

/-! Requests and replies in lockstep.

The socket hands out a request only when the one before has been answered. A call of
`zmq_handle_event` answers every request except those that hold no text. -/

set_option autoImplicit false

namespace Inotispy
open Library

variable {σ : Type} [System σ] {i z : Bool} {k : Socket}

section
variable (succeed : AllocationsSucceed σ)
include succeed

theorem zmqDispatchEvent_sends (req : Request) (named : req.call.isSome) :
    Returns (At (σ := σ) false false k) (zmqDispatchEvent req) fun _ => Answered false false k := by
  apply Returns.bind (deref_stays named)
  intro call
  repeat'
    apply Returns.ite' <;> intro _
  · exact replySendMessage_sends succeed _
  · exact eventStatus_sends succeed
  · exact eventWatch_sends succeed req
  · exact eventPause_sends succeed req
  · exact eventUnpause_sends succeed req
  · exact eventSubscribe_sends succeed req
  · exact eventUnwatch_sends succeed req
  · exact eventGetEvents_sends succeed req
  · exact eventGetQueueSize_sends succeed req
  · exact eventGetRoots_sends succeed
  · exact replySendError_sends succeed _

theorem requestParse_stays (json : Str) :
    Returns (At (σ := σ) i z k) (requestParse json) fun parsed w =>
      (∀ req, parsed = .request req → req.call.isSome) ∧ At i z k w := by
  unfold requestParse
  split
  · exact Returns.pure' fun _ start => ⟨nofun, start⟩
  · exact Returns.pure' fun _ start => ⟨nofun, start⟩
  split
  · apply Returns.bind (call_stays _)
    intro _
    apply Returns.ite'
    · intro _
      exact Returns.pure' fun _ start => ⟨nofun, start⟩
    intro _
    apply Returns.bind (mkString_stays succeed _)
    intro call
    apply Returns.given
    rintro rfl
    apply Returns.bind (mkString_stays succeed _)
    intro copy
    apply Returns.given
    intro _
    apply Returns.pure'
    intro w start
    refine ⟨?_, start⟩
    rintro req same
    cases same
    rfl
  · exact Returns.pure' fun _ start => ⟨nofun, start⟩

omit succeed in
/-- The message has a first byte, and it is not null. -/
def holdsText : List Char → Bool
  | [] => false
  | first :: _ => first ≠ '\x00'

theorem text_sends {json : Str} (text : json ≠ []) :
    Returns (At (σ := σ) false true k)
      (do
        if json.length = 0 then return ← unlock .zmq
        let json := junkLoop json.length json 0 false
        if !looksLikeJson json then
          replySendError .jsonInvalid
          return ← unlock .zmq
        match ← requestParse json with
        | .failed =>
          replySendError .memoryAllocation
          unlock .zmq
        | .null =>
          replySendError .jsonParse
          unlock .zmq
        | .request req =>
          unlock .zmq
          zmqDispatchEvent req)
      fun _ => Answered false false k := by
  apply Returns.ite'
  · intro empty
    exact absurd (List.length_eq_zero_iff.mp empty) text
  intro _
  apply Returns.ite'
  · intro _
    apply Returns.bind (replySendError_sends succeed _)
    intro _
    exact unlock_zmq_answered succeed
  intro _
  apply Returns.bind (requestParse_stays succeed _)
  intro parsed
  apply Returns.given
  intro named
  cases parsed with
  | failed =>
    apply Returns.bind (replySendError_sends succeed _)
    intro _
    exact unlock_zmq_answered succeed
  | null =>
    apply Returns.bind (replySendError_sends succeed _)
    intro _
    exact unlock_zmq_answered succeed
  | request req =>
    apply Returns.bind (unlock_zmq succeed)
    intro _
    exact zmqDispatchEvent_sends succeed req (named req rfl)

/-- The call answers what it received, or says that it received nothing, unless the message
holds no text. -/
theorem zmqHandleEvent_run {w : World σ} (start : At false false k w) :
    ∃ w', zmqHandleEvent w = .ok ((), w') ∧
      if k.recv.1.all holdsText then Answered false false k.recv.2 w'
      else At false false k.recv.2 w' := by
  obtain ⟨_, v, locking, locked⟩ := lock_zmq succeed w start
  have asked : At false true k.recv.2 { v with socket := k.recv.2 } :=
    ⟨locked.inotify, locked.zmq, rfl, locked.whole.of_same rfl rfl⟩
  -- What follows starts from the world in which the message has been taken.
  have finish : ∀ {x : M σ Unit} {post : World σ → Prop},
      Returns (At false true k.recv.2) x (fun _ => post) →
      ∃ w', x { v with socket := k.recv.2 } = .ok ((), w') ∧ post w' := by
    intro x post returns
    obtain ⟨_, w', ran, final⟩ := returns _ asked
    exact ⟨w', ran, final⟩
  rw [zmqHandleEvent, Program.bind_ok _ _ _ _ _ locking, modifySocket_bind, locked.socket]
  cases k.recv.1 with
  | none =>
    apply finish
    apply Returns.bind (replySendError_sends succeed _)
    intro _
    exact unlock_zmq_answered succeed
  | some request =>
    cases request with
    -- An empty message is dropped without a reply.
    | nil => exact finish (unlock_zmq succeed)
    | cons first rest =>
      have nonempty : ¬(first :: rest).length = 0 := by simp
      simp only [nonempty, if_false]
      -- So is one that begins with a null byte, since the copy of it ends there.
      by_cases nul : first = '\x00'
      · have no : (some (first :: rest)).all holdsText = false := by simp [holdsText, nul]
        simp only [no, Bool.false_eq_true, if_false]
        apply finish
        apply Returns.bind (malloc_stays succeed)
        intro allocated
        apply Returns.given
        rintro rfl
        simp only [CString.ofBuffer, nul]
        exact unlock_zmq succeed
      · have yes : (some (first :: rest)).all holdsText = true := by simp [holdsText, nul]
        have text : CString.ofBuffer (first :: rest) ≠ [] := by simp [CString.ofBuffer, nul]
        simp only [yes, if_true]
        apply finish
        apply Returns.bind (malloc_stays succeed)
        intro allocated
        apply Returns.given
        rintro rfl
        exact text_sends succeed text

end

/-! ## The socket -/

namespace Socket

theorem replies_recv (k : Socket) : k.recv.2.replies = k.replies := by
  unfold recv
  split
  · rfl
  · split <;> rfl

theorem pending_of_recv_some {k : Socket} {message : List Char} (received : k.recv.1 = some message) :
    k.recv.2.pending = true := by
  unfold recv at received ⊢
  split at received
  · cases received
  · rename_i idle
    rw [if_neg idle]
    split at received <;> simp_all

theorem pending_of_recv_none {k : Socket} (idle : k.pending = false) (received : k.recv.1 = none) :
    k.recv.2.pending = false := by
  unfold recv at received ⊢
  rw [if_neg (by simp [idle])] at received ⊢
  split at received <;> simp_all

theorem send_idle {k : Socket} (idle : k.pending = false) (message : Str) : (k.send message).2 = k := by
  simp [send, idle]

theorem send_pending {k : Socket} (waiting : k.pending = true) (message : Str) :
    (k.send message).2.pending = false ∧
      (k.send message).2.replies.length = k.replies.length + 1 := by
  simp [send, waiting]

end Socket

end Inotispy
