import Inotispy.Locks.Requests
import Inotispy.Model.Signals

/-! The code of the main thread does what its functions do, and locks no mutex twice.

Each function is rendered by its code: run without interruption the code is the function, and
on its way it locks `inotify_mutex` when that is free and leaves it as it was. The allocation
of a node is taken to succeed, since `inotify_enqueue` keeps the mutex otherwise.
-/

set_option autoImplicit false

namespace Inotispy
open Library

variable {σ : Type} [System σ] {i : Bool}

structure Held where
  main : Bool
  inotify : Bool

/-- What an operation asks of these mutexes and makes of them. -/
def Operation.next {A : Type} : Operation σ A → Held → (A → Held → Prop) → Prop
  | .piece x, h, after => Lockless x ∧ ∀ a, after a h
  | .yieldMain, h, after => after () h
  | .acquire .inotify, h, after => h.inotify = false ∧ after () { h with inotify := true }
  | .acquire .zmq, h, after => after () h
  | .release .inotify, h, after => after () { h with inotify := false }
  | .release .zmq, h, after => after () h
  | .acquireMain, h, after => h.main = false ∧ after () { h with main := true }
  | .releaseMain, h, after => after () { h with main := false }
  | .mallocNode, h, after => after true h
  | .exit, _, _ => True

omit [System σ] in
theorem next_monotone : Code.Monotone fun {B : Type} => Operation.next (σ := σ) (A := B) := by
  intro B op h after after' weaker next
  cases op with
  | piece x => exact ⟨next.1, fun a => weaker a h (next.2 a)⟩
  | acquire mutex =>
    cases mutex with
    | inotify => exact ⟨next.1, weaker _ _ next.2⟩
    | zmq => exact weaker _ _ next
  | release mutex => cases mutex <;> exact weaker _ _ next
  | acquireMain => exact ⟨next.1, weaker _ _ next.2⟩
  | exit => trivial
  | _ => exact weaker _ _ next

/-! ## Programs for the world -/

omit [System σ] in
theorem onWorld_bind {A B : Type} (x : M σ A) (f : A → M σ B) :
    onWorld (x >>= f) = (do
      let a ← onWorld x
      onWorld (f a)) := by
  funext d
  rw [Program.bind_apply, onWorld, onWorld, Program.bind_apply]
  cases x d.world <;> rfl

omit [System σ] in
theorem onWorld_forEach {A : Type} (body : A → M σ Unit) (items : List A) :
    onWorld (Program.forEach body items) = Program.forEach (fun a => onWorld (body a)) items := by
  induction items with
  | nil => rfl
  | cons first rest ih => rw [Program.forEach, onWorld_bind, ih, Program.forEach]

/-! ## Rendering -/

/-- The code is the program when nothing interrupts it, and takes the main thread from one state
of `inotify_mutex` to another. -/
structure Renders {A : Type} (i : Bool) (code : Stepwise.Code σ A) (x : M σ A) (i' : Bool) : Prop where
  program : code.run Operation.does = onWorld x
  safe : ∀ main, code.Safe Operation.next ⟨main, i⟩ fun _ h => h = ⟨main, i'⟩

namespace Renders

variable {A B : Type} {m i' : Bool}

theorem pure' (a : A) : Renders (σ := σ) i (pure a) (pure a) i := ⟨rfl, fun _ => rfl⟩

theorem bind {code : Stepwise.Code σ A} {f : A → Stepwise.Code σ B} {x : M σ A} {g : A → M σ B}
    (first : Renders i code x m) (rest : ∀ a, Renders m (f a) (g a) i') : Renders i (code >>= f) (x >>= g) i' where
  program := by
    rw [Code.run_bind, first.program, onWorld_bind]
    exact bind_congr fun a => (rest a).program
  safe main := (first.safe main).andThen next_monotone fun a => (rest a).safe main

theorem ite' {c : Prop} [Decidable c] {code code' : Stepwise.Code σ A} {x y : M σ A}
    (yes : c → Renders i code x i') (no : ¬c → Renders i code' y i') :
    Renders i (if c then code else code') (if c then x else y) i' := by
  by_cases is : c
  · rw [if_pos is, if_pos is]
    exact yes is
  · rw [if_neg is, if_neg is]
    exact no is

theorem piece {x : M σ A} (lockless : Lockless x) : Renders i (Stepwise.piece x) x i :=
  ⟨Code.run_perform _ _, fun _ => ⟨lockless, fun _ => rfl⟩⟩

theorem yieldMain : Renders (σ := σ) i (.perform .yieldMain) yieldMain i := ⟨Code.run_perform _ _, fun _ => rfl⟩

theorem lock_inotify : Renders (σ := σ) false (Stepwise.lock .inotify) (lock .inotify) true :=
  bind yieldMain fun _ => ⟨Code.run_perform _ _, fun _ => ⟨rfl, rfl⟩⟩

theorem unlock_inotify : Renders (σ := σ) true (Stepwise.unlock .inotify) (unlock .inotify) false :=
  bind ⟨Code.run_perform _ _, fun _ => rfl⟩ fun _ => yieldMain

theorem lock_zmq : Renders (σ := σ) i (Stepwise.lock .zmq) (lock .zmq) i :=
  bind yieldMain fun _ => ⟨Code.run_perform _ _, fun _ => rfl⟩

theorem unlock_zmq : Renders (σ := σ) i (Stepwise.unlock .zmq) (unlock .zmq) i :=
  bind ⟨Code.run_perform _ _, fun _ => rfl⟩ fun _ => yieldMain

theorem node {f : Bool → Stepwise.Code σ A} {g : Bool → M σ A} (failed : (f false).run Operation.does = onWorld (g false))
    (allocated : Renders i (f true) (g true) i') : Renders i (.perform .mallocNode >>= f) (malloc >>= g) i' where
  program := by
    rw [Code.run_bind, Code.run_perform, onWorld_bind]
    exact bind_congr fun a => by
      cases a with
      | false => exact failed
      | true => exact allocated.program
  -- The failure is a case of the program, but not of the view.
  safe := allocated.safe

theorem unlock_pure (a : A) :
    Renders (σ := σ) true (do Stepwise.unlock .inotify; return a) (do unlock .inotify; return a) false :=
  bind unlock_inotify fun _ => pure' a

theorem unlock_zmq_after {x : M σ Unit} (lockless : Lockless x) :
    Renders i (do Stepwise.piece x; Stepwise.unlock .zmq) (do x; unlock .zmq) i :=
  bind (piece lockless) fun _ => unlock_zmq

theorem forEach {body : A → Stepwise.Code σ Unit} {program : A → M σ Unit} (each : ∀ a, Renders i (body a) (program a) i)
    (items : List A) : Renders i (.forEach body items) (Program.forEach program items) i where
  program := (Code.run_forEach _ (fun a => (each a).program) items).trans (onWorld_forEach _ _).symm
  safe main := Code.safe_forEach next_monotone (fun a => (each a).safe main) items

end Renders

/-! ## Trees -/

theorem inotifyDumpRoots_renders : Renders (σ := σ) false Stepwise.inotifyDumpRoots inotifyDumpRoots false := by
  apply Renders.bind .lock_inotify
  intro _
  apply Renders.bind (.piece dumpRootsSection_lockless)
  exact fun _ => .unlock_inotify

theorem watchTreeCheck_renders (path : Str) :
    Renders (σ := σ) false (Stepwise.watchTreeCheck path) (watchTreeCheck path) false := by
  apply Renders.bind .lock_inotify
  intro _
  apply Renders.bind (.piece (inotifyPathToRoot_lockless path))
  intro found
  cases found with
  | some root =>
    apply Renders.bind .unlock_inotify
    intro _
    apply Renders.bind (.piece (read_lockless _))
    intro r
    apply Renders.bind (.piece (deref_lockless _))
    intro rootPath
    apply Renders.ite'
    · intro _
      apply Renders.ite' <;> exact fun _ => .pure' _
    · exact fun _ => .pure' _
  | none =>
    apply Renders.bind (.piece (inotifyIsParent_lockless path))
    exact fun subPath => .unlock_pure _

theorem watchTreeInsert_renders (path : Str) (mask : UInt32) (maxEvents : Int32) (rewatch : Bool) :
    Renders (σ := σ) false (Stepwise.watchTreeInsert path mask maxEvents rewatch)
      (watchTreeInsert path mask maxEvents rewatch) false := by
  apply Renders.bind .lock_inotify
  intro _
  apply Renders.bind (.piece (makeRoot_lockless path mask maxEvents rewatch))
  intro made
  cases made with
  | none => exact .unlock_pure _
  | some newRoot =>
    apply Renders.bind (.piece (modifyRoots_lockless _))
    exact fun _ => .unlock_pure _

theorem inotifyWatchTree_renders (path : Str) (mask : UInt32) (maxEvents : Int32) (rewatch : Bool) :
    Renders (σ := σ) false (Stepwise.inotifyWatchTree path mask maxEvents rewatch)
      (inotifyWatchTree path mask maxEvents rewatch) false := by
  apply Renders.bind (watchTreeCheck_renders _)
  intro code
  cases code with
  | some err => exact .pure' _
  | none =>
    apply Renders.bind (.piece (call_lockless _))
    intro opened
    apply Renders.ite'
    · exact fun _ => .pure' _
    intro _
    apply Renders.bind (watchTreeInsert_renders _ mask maxEvents rewatch)
    intro made
    cases made with
    | none => exact .pure' _
    | some newRoot =>
      apply Renders.bind inotifyDumpRoots_renders
      intro _
      apply Renders.bind (.piece (read_lockless _))
      exact fun r => .piece (doWatchTree_lockless _ newRoot false)

theorem inotifyUnwatchTree_renders (path : Str) :
    Renders (σ := σ) i (Stepwise.inotifyUnwatchTree path) (inotifyUnwatchTree path) i := by
  apply Renders.bind (.piece (inotifyIsRoot_lockless _))
  intro found
  cases found with
  | none => exact .pure' _
  | some root =>
    apply Renders.bind (.piece (read_lockless _))
    intro r
    apply Renders.ite'
    · exact fun _ => .pure' _
    intro _
    apply Renders.bind (.piece (modifyRoots_lockless _))
    intro _
    apply Renders.bind .yieldMain
    intro _
    apply Renders.bind (.piece (spawn_lockless _))
    intro started
    apply Renders.ite' <;> exact fun _ => .pure' _

theorem setPause_renders (pause : Bool) (path : Str) :
    Renders (σ := σ) false (Stepwise.setPause pause path) (setPause pause path) false := by
  apply Renders.bind .lock_inotify
  intro _
  apply Renders.bind (.piece (inotifyIsRoot_lockless path))
  intro found
  cases found with
  | none => exact .unlock_pure _
  | some root =>
    apply Renders.bind (.piece (modifyRoots_lockless _))
    exact fun _ => .unlock_pure _

theorem inotifyRewatchRoots_renders :
    Renders (σ := σ) false Stepwise.inotifyRewatchRoots inotifyRewatchRoots false := by
  apply Renders.bind (.piece (read_lockless _))
  intro rewatching
  apply Renders.ite'
  · exact fun _ => .pure' _
  intro _
  apply Renders.bind .lock_inotify
  intro _
  apply Renders.bind (.piece (read_lockless _))
  intro roots
  apply Renders.bind .unlock_inotify
  intro _
  apply Renders.forEach
  intro root
  apply Renders.bind (.piece (read_lockless _))
  intro r
  apply Renders.bind (.piece (doWatchTree_lockless _ root true))
  exact fun _ => .pure' _

/-! ## Queues -/

theorem inotifyEnqueue_renders (root : RootRef) (event : InEvent) (path : Str) :
    Renders (σ := σ) false (Stepwise.inotifyEnqueue root event path) (inotifyEnqueue root event path) false := by
  apply Renders.bind .lock_inotify
  intro _
  apply Renders.bind (.piece (rootQueue_lockless root))
  intro queue
  apply Renders.bind (.piece (read_lockless _))
  intro r
  apply Renders.ite'
  · exact fun _ => .unlock_pure _
  intro _
  apply Renders.node
  · rfl
  apply Renders.bind (.piece (mkString_lockless _))
  intro name
  apply Renders.bind (.piece (mkString_lockless _))
  intro copy
  apply Renders.bind (.piece (modifyRoots_lockless _))
  exact fun _ => .unlock_pure _

theorem inotifyDequeue_renders (root : RootRef) (count : Int32) :
    Renders (σ := σ) false (Stepwise.inotifyDequeue root count) (inotifyDequeue root count) false := by
  apply Renders.bind .lock_inotify
  intro _
  apply Renders.bind (.piece (rootQueue_lockless root))
  intro queue
  apply Renders.ite'
  · exact fun _ => .unlock_pure _
  intro _
  apply Renders.bind (.piece malloc_lockless)
  intro allocated
  apply Renders.ite'
  · exact fun _ => .unlock_pure _
  intro _
  apply Renders.bind (.piece (modifyRoots_lockless _))
  exact fun _ => .unlock_pure _

theorem inotifyGetEvents_renders (path : Str) (count : Int32) :
    Renders (σ := σ) false (Stepwise.inotifyGetEvents path count) (inotifyGetEvents path count) false := by
  apply Renders.bind (.piece (inotifyIsRoot_lockless path))
  intro found
  cases found with
  | none => exact .pure' _
  | some root => exact inotifyDequeue_renders root count

/-! ## Records -/

theorem handleGone_renders (event : InEvent) (absPath : Option Str) :
    Renders (σ := σ) false (Stepwise.handleGone event absPath) (handleGone event absPath) false := by
  have below (path : Str) : Renders (σ := σ) true (do
      if hasBit event.mask inMovedFrom then
        let keys ← Stepwise.piece (Program.read (·.watches.inotifyPathToWatch.keys))
        let tmp ← Stepwise.piece (mkString (path ++ str "/"))
        Stepwise.piece (unwatchBelow tmp keys)
      Stepwise.unlock .inotify
      return true) (do
      if hasBit event.mask inMovedFrom then
        let keys ← Program.read (·.watches.inotifyPathToWatch.keys)
        let tmp ← mkString (path ++ str "/")
        unwatchBelow tmp keys
      unlock .inotify
      return true) false := by
    apply Renders.ite'
    · intro _
      apply Renders.bind (.piece (read_lockless _))
      intro keys
      apply Renders.bind (.piece (mkString_lockless _))
      intro tmp
      apply Renders.bind (.piece (unwatchBelow_lockless tmp keys))
      exact fun _ => .unlock_pure _
    · exact fun _ => .unlock_pure _
  apply Renders.bind .lock_inotify
  intro _
  apply Renders.bind (.piece (deref_lockless absPath))
  intro path
  apply Renders.bind (.piece (read_lockless _))
  intro found
  cases found with
  | none => exact .unlock_pure _
  | some delete =>
    apply Renders.bind (.piece (call_lockless _))
    intro _
    apply Renders.bind (.piece (modifyWatches_lockless _))
    intro _
    apply Renders.ite'
    · intro _
      apply Renders.bind (.piece (modifyWatches_lockless _))
      exact fun _ => below path
    · exact fun _ => below path

theorem handleDirectory_renders (event : InEvent) (path : Str) (absPath : Option Str) (root : RootRef) :
    Renders (σ := σ) false (Stepwise.handleDirectory event path absPath root)
      (handleDirectory event path absPath root) false := by
  apply Renders.ite'
  · exact fun _ => .pure' _
  intro _
  apply Renders.ite'
  · intro _
    apply Renders.ite'
    · exact fun _ => .pure' _
    intro _
    apply Renders.bind .yieldMain
    intro _
    apply Renders.bind (.piece (doWatchTree_lockless absPath root false))
    exact fun _ => .pure' _
  intro _
  apply Renders.ite'
  · exact fun _ => handleGone_renders event absPath
  · exact fun _ => .pure' _

theorem lookupEvent_renders (wd : Int) :
    Renders (σ := σ) false (Stepwise.lookupEvent wd) (lookupEvent wd) false := by
  apply Renders.bind .lock_inotify
  intro _
  apply Renders.bind (.piece (read_lockless _))
  intro known
  cases known with
  | none => exact .unlock_pure _
  | some watch =>
    apply Renders.bind (.piece malloc_lockless)
    intro allocated
    apply Renders.ite'
    · exact fun _ => .unlock_pure _
    intro _
    apply Renders.bind (.piece (inotifyPathToRoot_lockless watch.path))
    intro found
    cases found with
    | none => exact .unlock_pure _
    | some root =>
      apply Renders.bind (.piece (read_lockless _))
      intro r
      apply Renders.bind .unlock_inotify
      intro _
      apply Renders.ite' <;> exact fun _ => .pure' _

theorem inotifyHandleRecord_renders (event : InEvent) :
    Renders (σ := σ) false (Stepwise.inotifyHandleRecord event) (inotifyHandleRecord event) false := by
  apply Renders.ite'
  · exact fun _ => .pure' _
  intro _
  apply Renders.ite'
  · intro _
    apply Renders.bind (.piece (modifyOutput_lockless _))
    exact fun _ => .pure' _
  intro _
  apply Renders.ite'
  · exact fun _ => .pure' _
  intro _
  apply Renders.bind (lookupEvent_renders event.wd)
  intro target
  cases target with
  | none => exact .pure' _
  | some target =>
    apply Renders.bind (.piece (mkString_lockless _))
    intro absPath
    apply Renders.bind (handleDirectory_renders event target.1 absPath target.2)
    intro queued
    apply Renders.ite'
    · exact fun _ => .pure' _
    intro _
    apply Renders.bind (.piece (read_lockless _))
    intro r
    apply Renders.ite'
    · exact fun _ => .pure' _
    intro _
    apply Renders.bind (inotifyEnqueue_renders target.2 event target.1)
    exact fun code => .pure' _

theorem inotifyHandleEvent_renders (events : List InEvent) :
    Renders (σ := σ) false (Stepwise.inotifyHandleEvent events) (inotifyHandleEvent events) false := by
  apply Renders.forEach
  intro event
  apply Renders.bind (inotifyHandleRecord_renders event)
  exact fun _ => .pure' _

/-! ## Requests -/

theorem eventWatch_renders (req : Request) :
    Renders (σ := σ) false (Stepwise.eventWatch req) (eventWatch req) false := by
  apply Renders.bind (.piece (mkString_lockless _))
  intro copy
  cases copy with
  | none => exact .piece (replySendError_lockless _)
  | some path =>
    apply Renders.ite'
    · exact fun _ => .piece (replySendError_lockless _)
    intro _
    apply Renders.bind .lock_zmq
    intro _
    apply Renders.bind (.piece (inotifyIsRoot_lockless path))
    intro found
    apply Renders.ite'
    · exact fun _ => .unlock_zmq_after (replySendError_lockless _)
    intro _
    apply Renders.bind .unlock_zmq
    intro _
    apply Renders.bind (.piece (read_lockless _))
    intro defaultEvents
    apply Renders.bind (inotifyWatchTree_renders path _ _ _)
    intro code
    cases code with
    | some err => exact .piece (replySendError_lockless err)
    | none => exact .piece replySendSuccess_lockless

theorem eventSubscribe_renders (req : Request) :
    Renders (σ := σ) i (Stepwise.eventSubscribe req) (eventSubscribe req) i := by
  unfold Stepwise.eventSubscribe eventSubscribe
  cases requestGetPath req with
  | none => exact .piece (replySendError_lockless _)
  | some path =>
    apply Renders.bind .lock_zmq
    intro _
    apply Renders.bind (.piece (inotifyIsRoot_lockless path))
    intro found
    apply Renders.ite'
    · exact fun _ => .unlock_zmq_after (replySendError_lockless _)
    intro _
    apply Renders.bind .unlock_zmq
    exact fun _ => .piece (replySendFormatted_lockless _)

theorem eventUnwatch_renders (req : Request) :
    Renders (σ := σ) i (Stepwise.eventUnwatch req) (eventUnwatch req) i := by
  unfold Stepwise.eventUnwatch eventUnwatch
  cases requestGetPath req with
  | none => exact .piece (replySendError_lockless _)
  | some path =>
    apply Renders.bind (inotifyUnwatchTree_renders path)
    intro code
    cases code with
    | some err => exact .piece (replySendError_lockless err)
    | none => exact .piece replySendSuccess_lockless

theorem eventGetQueueSize_renders (req : Request) :
    Renders (σ := σ) i (Stepwise.eventGetQueueSize req) (eventGetQueueSize req) i := by
  unfold Stepwise.eventGetQueueSize eventGetQueueSize
  cases requestGetPath req with
  | none => exact .unlock_zmq_after (replySendError_lockless _)
  | some path =>
    apply Renders.bind .lock_zmq
    intro _
    apply Renders.bind (.piece (inotifyIsRoot_lockless path))
    intro found
    cases found with
    | none => exact .unlock_zmq_after (replySendError_lockless _)
    | some root =>
      apply Renders.bind (.piece (read_lockless _))
      intro r
      apply Renders.ite'
      · exact fun _ => .unlock_zmq_after (replySendMessage_lockless _)
      intro _
      apply Renders.bind (.piece (rootQueue_lockless root))
      exact fun queue => .unlock_zmq_after (replySendFormatted_lockless _)

theorem eventPause_renders (req : Request) :
    Renders (σ := σ) false (Stepwise.eventPause req) (eventPause req) false := by
  unfold Stepwise.eventPause eventPause
  cases requestGetPath req with
  | none => exact .piece (replySendError_lockless _)
  | some path =>
    apply Renders.bind (.piece (inotifyIsRoot_lockless path))
    intro found
    apply Renders.ite'
    · exact fun _ => .piece (replySendError_lockless _)
    intro _
    apply Renders.bind (setPause_renders true path)
    intro code
    cases code with
    | some err => exact .piece (replySendError_lockless err)
    | none =>
      apply Renders.bind (inotifyGetEvents_renders path 0)
      exact fun _ => .piece replySendSuccess_lockless

theorem eventUnpause_renders (req : Request) :
    Renders (σ := σ) false (Stepwise.eventUnpause req) (eventUnpause req) false := by
  unfold Stepwise.eventUnpause eventUnpause
  cases requestGetPath req with
  | none => exact .piece (replySendError_lockless _)
  | some path =>
    apply Renders.bind (.piece (inotifyIsRoot_lockless path))
    intro found
    apply Renders.ite'
    · exact fun _ => .piece (replySendError_lockless _)
    intro _
    apply Renders.bind (setPause_renders false path)
    intro code
    cases code with
    | some err => exact .piece (replySendError_lockless err)
    | none => exact .piece replySendSuccess_lockless

theorem eventGetEvents_renders (req : Request) :
    Renders (σ := σ) false (Stepwise.eventGetEvents req) (eventGetEvents req) false := by
  unfold Stepwise.eventGetEvents eventGetEvents
  cases requestGetPath req with
  | none => exact .piece (replySendError_lockless _)
  | some path =>
    apply Renders.bind (.piece (inotifyIsRoot_lockless path))
    intro found
    apply Renders.ite'
    · exact fun _ => .piece (replySendError_lockless _)
    intro _
    apply Renders.ite'
    · exact fun _ => .piece (replySendError_lockless _)
    intro _
    apply Renders.bind (inotifyGetEvents_renders path _)
    intro taken
    cases taken with
    | failed => exact .piece (replySendError_lockless _)
    | null => exact .piece (replySendMessage_lockless _)
    | events items =>
      apply Renders.bind (.piece (eventsToJarr_lockless items))
      exact fun jarr => .piece (replySendMessage_lockless _)

theorem inotifyGetRoots_renders : Renders (σ := σ) false Stepwise.inotifyGetRoots inotifyGetRoots false := by
  apply Renders.bind .lock_inotify
  intro _
  apply Renders.bind (.piece (read_lockless _))
  intro keys
  apply Renders.bind (.piece malloc_lockless)
  intro allocated
  apply Renders.ite'
  · exact fun _ => .unlock_pure _
  intro _
  apply Renders.bind (.piece (mapM_mkString_lockless keys))
  intro roots
  apply Renders.bind (.piece (mkString_lockless _))
  exact fun eol => .unlock_pure _

theorem eventGetRoots_renders : Renders (σ := σ) false Stepwise.eventGetRoots eventGetRoots false := by
  apply Renders.bind (.piece (read_lockless _))
  intro count
  apply Renders.ite'
  · exact fun _ => .piece (replySendMessage_lockless _)
  intro _
  apply Renders.bind inotifyGetRoots_renders
  intro roots
  cases roots with
  | none => exact .piece (replySendError_lockless _)
  | some roots =>
    apply Renders.bind (.piece (rootsUntilEol_lockless roots))
    exact fun jarr => .piece (replySendMessage_lockless _)

theorem zmqDispatchEvent_renders (req : Request) :
    Renders (σ := σ) false (Stepwise.zmqDispatchEvent req) (zmqDispatchEvent req) false := by
  apply Renders.bind (.piece (deref_lockless req.call))
  intro call
  repeat'
    apply Renders.ite' <;> intro _
  · exact .piece (replySendMessage_lockless _)
  · exact .piece eventStatus_lockless
  · exact eventWatch_renders req
  · exact eventPause_renders req
  · exact eventUnpause_renders req
  · exact eventSubscribe_renders req
  · exact eventUnwatch_renders req
  · exact eventGetEvents_renders req
  · exact eventGetQueueSize_renders req
  · exact eventGetRoots_renders
  · exact .piece (replySendError_lockless _)

theorem zmqHandleEvent_renders : Renders (σ := σ) false Stepwise.zmqHandleEvent zmqHandleEvent false := by
  apply Renders.bind .lock_zmq
  intro _
  apply Renders.bind (.piece (socket_lockless _))
  intro received
  cases received with
  | none => exact .unlock_zmq_after (replySendError_lockless _)
  | some request =>
    apply Renders.ite'
    · exact fun _ => .unlock_zmq
    intro _
    apply Renders.bind (.piece malloc_lockless)
    intro allocated
    apply Renders.ite'
    · exact fun _ => .piece (replySendError_lockless _)
    intro _
    apply Renders.ite'
    · exact fun _ => .unlock_zmq
    intro _
    apply Renders.ite'
    · exact fun _ => .unlock_zmq_after (replySendError_lockless _)
    intro _
    apply Renders.bind (.piece (requestParse_lockless _))
    intro parsed
    cases parsed with
    | failed => exact .unlock_zmq_after (replySendError_lockless _)
    | null => exact .unlock_zmq_after (replySendError_lockless _)
    | request req =>
      apply Renders.bind .unlock_zmq
      exact fun _ => zmqDispatchEvent_renders req

end Inotispy
