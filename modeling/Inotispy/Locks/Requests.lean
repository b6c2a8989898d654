import Inotispy.Locks.Trees
import Inotispy.Model.Zeromq

/-! The balance of the request handlers. -/

set_option autoImplicit false

namespace Inotispy
open Library

variable {σ : Type} [System σ] {i z : Bool}

/-! ## Replies -/

theorem replySendMessage_lockless (message : Str) : Lockless (σ := σ) (replySendMessage message) := by
  apply Lockless.bind malloc_lockless
  intro allocated
  apply Lockless.ite'
  · exact fun _ => pure_lockless _
  intro _
  apply Lockless.bind (socket_lockless _)
  exact fun _ => pure_lockless _

theorem replySendFormatted_lockless (text : Str) : Lockless (σ := σ) (replySendFormatted text) := by
  apply Lockless.bind (mkString_lockless text)
  intro reply
  apply Lockless.bind (deref_lockless reply)
  exact fun message => replySendMessage_lockless message

theorem replySendError_lockless (err : InotispyError) : Lockless (σ := σ) (replySendError err) :=
  replySendFormatted_lockless _

theorem replySendSuccess_lockless : Lockless (σ := σ) replySendSuccess  := replySendMessage_lockless _

theorem unlock_zmq_after {x : M σ Unit} (balanced : Balanced false true x) :
    Takes (σ := σ) false true (do x; unlock .zmq) false false :=
  Spares.bind balanced fun _ => unlock_zmq_takes

/-! ## Handlers -/

theorem eventWatch_balanced (req : Request) : Balanced (σ := σ) false false (eventWatch req) := by
  apply Spares.bind (mkString_lockless _).balanced
  intro copy
  cases copy with
  | none => exact (replySendError_lockless _).balanced
  | some path =>
    apply Spares.ite'
    · exact fun _ => (replySendError_lockless _).balanced
    intro _
    apply Spares.bind lock_zmq_takes
    intro _
    apply Spares.bind (inotifyIsRoot_lockless path).balanced
    intro found
    apply Spares.ite'
    · exact fun _ => unlock_zmq_after (replySendError_lockless _).balanced
    intro _
    apply Spares.bind unlock_zmq_takes
    intro _
    apply Spares.bind (read_lockless _).balanced
    intro defaultEvents
    apply Spares.bind (inotifyWatchTree_balanced path _ _ _)
    intro code
    cases code with
    | some err => exact (replySendError_lockless err).balanced
    | none => exact replySendSuccess_lockless.balanced

theorem eventSubscribe_balanced (req : Request) : Balanced (σ := σ) false false (eventSubscribe req) := by
  unfold eventSubscribe
  cases requestGetPath req with
  | none => exact (replySendError_lockless _).balanced
  | some path =>
    apply Spares.bind lock_zmq_takes
    intro _
    apply Spares.bind (inotifyIsRoot_lockless path).balanced
    intro found
    apply Spares.ite'
    · exact fun _ => unlock_zmq_after (replySendError_lockless _).balanced
    intro _
    apply Spares.bind unlock_zmq_takes
    exact fun _ => (replySendFormatted_lockless _).balanced

theorem eventUnwatch_balanced (req : Request) : Balanced (σ := σ) false false (eventUnwatch req) := by
  unfold eventUnwatch
  cases requestGetPath req with
  | none => exact (replySendError_lockless _).balanced
  | some path =>
    apply Spares.bind (inotifyUnwatchTree_balanced path)
    intro code
    cases code with
    | some err => exact (replySendError_lockless err).balanced
    | none => exact replySendSuccess_lockless.balanced

omit [System σ] in
theorem eventsToJarr_lockless (items : List Event) : Lockless (σ := σ) (eventsToJarr items) := by
  induction items with
  | nil => exact pure_lockless _
  | cons event rest ih =>
    apply Lockless.bind
    · apply Lockless.bind (deref_lockless event.path)
      intro path
      apply Lockless.bind (deref_lockless event.name)
      exact fun name => pure_lockless _
    intro first
    apply Lockless.bind ih
    exact fun later => pure_lockless _

theorem eventGetQueueSize_balanced {req : Request} (asked : (requestGetPath req).isSome) :
    Balanced (σ := σ) false false (eventGetQueueSize req) := by
  obtain ⟨path, asked⟩ := Option.isSome_iff_exists.mp asked
  unfold eventGetQueueSize
  rw [asked]
  apply Spares.bind lock_zmq_takes
  intro _
  apply Spares.bind (inotifyIsRoot_lockless path).balanced
  intro found
  cases found with
  | none => exact unlock_zmq_after (replySendError_lockless _).balanced
  | some root =>
    apply Spares.bind (read_lockless _).balanced
    intro r
    apply Spares.ite'
    · exact fun _ => unlock_zmq_after (replySendMessage_lockless _).balanced
    intro _
    apply Spares.bind (rootQueue_lockless root).balanced
    exact fun queue => unlock_zmq_after (replySendFormatted_lockless _).balanced

theorem eventStatus_lockless : Lockless (σ := σ) eventStatus  := by
  apply Lockless.bind (read_lockless _)
  intro pid
  apply Lockless.bind (read_lockless _)
  intro secs
  apply Lockless.bind (read_lockless _)
  exact fun numWatches => replySendFormatted_lockless _

theorem eventPause_balanced (req : Request) : Balanced (σ := σ) false false (eventPause req) := by
  unfold eventPause
  cases requestGetPath req with
  | none => exact (replySendError_lockless _).balanced
  | some path =>
    apply Spares.bind (inotifyIsRoot_lockless path).balanced
    intro found
    apply Spares.ite'
    · exact fun _ => (replySendError_lockless _).balanced
    intro _
    apply Spares.bind (setPause_balanced true path)
    intro code
    cases code with
    | some err => exact (replySendError_lockless err).balanced
    | none =>
      apply Spares.bind (inotifyGetEvents_balanced path 0)
      exact fun _ => replySendSuccess_lockless.balanced

theorem eventUnpause_balanced (req : Request) : Balanced (σ := σ) false false (eventUnpause req) := by
  unfold eventUnpause
  cases requestGetPath req with
  | none => exact (replySendError_lockless _).balanced
  | some path =>
    apply Spares.bind (inotifyIsRoot_lockless path).balanced
    intro found
    apply Spares.ite'
    · exact fun _ => (replySendError_lockless _).balanced
    intro _
    apply Spares.bind (setPause_balanced false path)
    intro code
    cases code with
    | some err => exact (replySendError_lockless err).balanced
    | none => exact replySendSuccess_lockless.balanced

theorem eventGetEvents_balanced (req : Request) : Balanced (σ := σ) false false (eventGetEvents req) := by
  unfold eventGetEvents
  cases requestGetPath req with
  | none => exact (replySendError_lockless _).balanced
  | some path =>
    apply Spares.bind (inotifyIsRoot_lockless path).balanced
    intro found
    apply Spares.ite'
    · exact fun _ => (replySendError_lockless _).balanced
    intro _
    apply Spares.ite'
    · exact fun _ => (replySendError_lockless _).balanced
    intro _
    apply Spares.bind (inotifyGetEvents_balanced path _)
    intro taken
    cases taken with
    | failed => exact (replySendError_lockless _).balanced
    | null => exact (replySendMessage_lockless _).balanced
    | events items =>
      apply Spares.bind (eventsToJarr_lockless items).balanced
      exact fun jarr => (replySendMessage_lockless _).balanced

theorem mapM_mkString_lockless (keys : List Str) : Lockless (σ := σ) (keys.mapM mkString) := by
  induction keys with
  | nil => exact pure_lockless _
  | cons key keys ih =>
    rw [List.mapM_cons]
    apply Lockless.bind (mkString_lockless key)
    intro copy
    apply Lockless.bind ih
    exact fun copies => pure_lockless _

theorem inotifyGetRoots_balanced : Balanced (σ := σ) false z inotifyGetRoots := by
  apply Spares.bind lock_inotify_takes
  intro _
  apply Spares.bind (read_lockless _).balanced
  intro keys
  apply Spares.bind malloc_lockless.balanced
  intro allocated
  apply Spares.ite'
  · exact fun _ => unlock_pure _
  intro _
  apply Spares.bind (mapM_mkString_lockless keys).balanced
  intro roots
  apply Spares.bind (mkString_lockless _).balanced
  exact fun eol => unlock_pure _

omit [System σ] in
theorem rootsUntilEol_lockless (roots : List (Option Str)) : Lockless (σ := σ) (rootsUntilEol roots) := by
  induction roots with
  | nil => exact pure_lockless _
  | cons root roots ih =>
    apply Lockless.bind (deref_lockless root)
    intro path
    apply Lockless.ite'
    · exact fun _ => pure_lockless _
    intro _
    apply Lockless.bind ih
    exact fun later => pure_lockless _

theorem eventGetRoots_balanced : Balanced (σ := σ) false z eventGetRoots := by
  apply Spares.bind (read_lockless _).balanced
  intro count
  apply Spares.ite'
  · exact fun _ => (replySendMessage_lockless _).balanced
  intro _
  apply Spares.bind inotifyGetRoots_balanced
  intro roots
  cases roots with
  | none => exact (replySendError_lockless _).balanced
  | some roots =>
    apply Spares.bind (rootsUntilEol_lockless roots).balanced
    exact fun jarr => (replySendMessage_lockless _).balanced

theorem requestParse_lockless (json : Str) : Lockless (σ := σ) (requestParse json) := by
  unfold requestParse
  split
  · exact pure_lockless _
  · exact pure_lockless _
  split
  · apply Lockless.bind malloc_lockless
    intro allocated
    apply Lockless.ite'
    · exact fun _ => pure_lockless _
    intro _
    apply Lockless.bind (mkString_lockless _)
    intro call
    apply Lockless.bind (mkString_lockless _)
    exact fun copy => pure_lockless _
  · exact pure_lockless _

/-- A request for the size of a queue that does not say which. -/
def Request.Pathless (req : Request) : Prop := req.call = some (str "get_queue_size") ∧ requestGetPath req = none

theorem zmqDispatchEvent_balanced {req : Request} (asked : ¬req.Pathless) :
    Balanced (σ := σ) false false (zmqDispatchEvent req) := by
  unfold zmqDispatchEvent
  cases called : req.call with
  | none =>
    have stops : Spares Fault.Crash (Holds (σ := σ) false false) (deref (none : Option Str)) fun _ _ => False :=
      Spares.fault' trivial
    exact Spares.bind stops fun _ _ stop => stop.elim
  | some call =>
    rw [deref, pure_bind]
    repeat'
      apply Spares.ite' <;> intro _
    · exact (replySendMessage_lockless _).balanced
    · exact eventStatus_lockless.balanced
    · exact eventWatch_balanced req
    · exact eventPause_balanced req
    · exact eventUnpause_balanced req
    · exact eventSubscribe_balanced req
    · exact eventUnwatch_balanced req
    · exact eventGetEvents_balanced req
    · apply eventGetQueueSize_balanced
      rw [Option.isSome_iff_ne_none]
      exact fun pathless => asked ⟨by rw [called, ‹call = str "get_queue_size"›], pathless⟩
    · exact eventGetRoots_balanced
    · exact (replySendError_lockless _).balanced

end Inotispy
