import Inotispy.Locks.Threads
import Inotispy.Model.Events

/-! The balance of the main thread's functions for trees, queues and records. -/

set_option autoImplicit false

namespace Inotispy
open Library

variable {σ : Type} [System σ] {i z : Bool}

/-! ## Searching the table of roots -/

omit [System σ] in
theorem inotifyIsRoot_lockless (path : Str) : Lockless (σ := σ) (inotifyIsRoot path) := read_lockless _

theorem pathToRootLoop_lockless (path : Str) (keys : List Str) :
    Lockless (σ := σ) (pathToRootLoop path keys) := by
  induction keys with
  | nil => exact pure_lockless _
  | cons key keys ih =>
    apply Lockless.bind (mkString_lockless _)
    intro tmp
    apply Lockless.ite'
    · exact fun _ => inotifyIsRoot_lockless key
    intro _
    apply Lockless.bind (deref_lockless tmp)
    intro tmp
    apply Lockless.ite'
    · exact fun _ => inotifyIsRoot_lockless key
    · exact fun _ => ih

theorem inotifyPathToRoot_lockless (path : Str) : Lockless (σ := σ) (inotifyPathToRoot path) := by
  apply Lockless.bind (inotifyIsRoot_lockless _)
  intro top
  cases top with
  | some root => exact pure_lockless _
  | none =>
    apply Lockless.bind (read_lockless _)
    exact fun keys => pathToRootLoop_lockless path keys

theorem isParentLoop_lockless (tmp : Option Str) (keys : List Str) :
    Lockless (σ := σ) (isParentLoop tmp keys) := by
  induction keys with
  | nil => exact pure_lockless _
  | cons key keys ih =>
    apply Lockless.bind (deref_lockless tmp)
    intro tmp'
    apply Lockless.ite'
    · exact fun _ => mkString_lockless key
    · exact fun _ => ih

theorem inotifyIsParent_lockless (path : Str) : Lockless (σ := σ) (inotifyIsParent path) := by
  apply Lockless.bind (mkString_lockless _)
  intro tmp
  apply Lockless.bind (read_lockless _)
  exact fun keys => isParentLoop_lockless tmp keys

/-! ## Trees -/

theorem inotifyDumpRoots_balanced : Balanced (σ := σ) false z inotifyDumpRoots := by
  apply Spares.bind lock_inotify_takes
  intro _
  apply Spares.bind dumpRootsSection_lockless.balanced
  exact fun _ => unlock_inotify_takes

theorem spawn_lockless (thread : Thread) : Lockless (σ := σ) (spawn thread) := by
  apply Lockless.bind (call_lockless _)
  intro created
  apply Lockless.ite'
  · exact fun _ => pure_lockless _
  intro _
  apply Lockless.bind (modifyPool_lockless (by intro pool; rfl))
  exact fun _ => pure_lockless _

theorem doWatchTree_lockless (path : Option Str) (root : RootRef) (cleanup : Bool) :
    Lockless (σ := σ) (doWatchTree path root cleanup) := by
  apply Lockless.bind (read_lockless _)
  intro r
  apply Lockless.ite'
  · exact fun _ => pure_lockless _
  intro _
  apply Lockless.bind malloc_lockless
  intro allocated
  apply Lockless.ite'
  · exact fun _ => pure_lockless _
  intro _
  apply Lockless.bind (mkString_lockless _)
  intro copy
  apply Lockless.bind (spawn_lockless _)
  intro started
  apply Lockless.ite' <;> exact fun _ => pure_lockless _

theorem watchTreeCheck_balanced (path : Str) : Balanced (σ := σ) false z (watchTreeCheck path) := by
  apply Spares.bind lock_inotify_takes
  intro _
  apply Spares.bind (inotifyPathToRoot_lockless path).balanced
  intro found
  cases found with
  | some root =>
    apply Spares.bind unlock_inotify_takes
    intro _
    apply Spares.bind (read_lockless _).balanced
    intro r
    apply Spares.bind (deref_lockless _).balanced
    intro rootPath
    apply Spares.ite'
    · intro _
      apply Spares.ite' <;> exact fun _ => (pure_lockless _).balanced
    · exact fun _ => (pure_lockless _).balanced
  | none =>
    apply Spares.bind (inotifyIsParent_lockless path).balanced
    exact fun subPath => unlock_pure _

theorem makeRoot_lockless (path : Str) (mask : UInt32) (maxEvents : Int32) (rewatch : Bool) :
    Lockless (σ := σ) (makeRoot path mask maxEvents rewatch) := by
  apply Lockless.bind malloc_lockless
  intro allocated
  apply Lockless.ite'
  · exact fun _ => pure_lockless _
  intro _
  apply Lockless.bind (mkString_lockless path)
  intro copy
  apply Lockless.bind (read_lockless _)
  intro root
  apply Lockless.bind (modifyRoots_lockless _)
  exact fun _ => pure_lockless _

theorem watchTreeInsert_balanced (path : Str) (mask : UInt32) (maxEvents : Int32) (rewatch : Bool) :
    Balanced (σ := σ) false z (watchTreeInsert path mask maxEvents rewatch) := by
  apply Spares.bind lock_inotify_takes
  intro _
  apply Spares.bind (makeRoot_lockless path mask maxEvents rewatch).balanced
  intro made
  cases made with
  | none => exact unlock_pure _
  | some newRoot =>
    apply Spares.bind (modifyRoots_lockless _).balanced
    exact fun _ => unlock_pure _

theorem inotifyWatchTree_balanced (path : Str) (mask : UInt32) (maxEvents : Int32) (rewatch : Bool) :
    Balanced (σ := σ) false z (inotifyWatchTree path mask maxEvents rewatch) := by
  apply Spares.bind (watchTreeCheck_balanced _)
  intro code
  cases code with
  | some err => exact (pure_lockless _).balanced
  | none =>
    apply Spares.bind (call_lockless _).balanced
    intro opened
    apply Spares.ite'
    · exact fun _ => (pure_lockless _).balanced
    intro _
    apply Spares.bind (watchTreeInsert_balanced _ mask maxEvents rewatch)
    intro made
    cases made with
    | none => exact (pure_lockless _).balanced
    | some newRoot =>
      -- The dump locks for itself, so nothing may be held here.
      apply Spares.bind inotifyDumpRoots_balanced
      intro _
      apply Spares.bind (read_lockless _).balanced
      exact fun r => (doWatchTree_lockless _ newRoot false).balanced

theorem inotifyUnwatchTree_balanced (path : Str) : Balanced (σ := σ) false z (inotifyUnwatchTree path) := by
  apply Spares.bind (inotifyIsRoot_lockless _).balanced
  intro found
  cases found with
  | none => exact (pure_lockless _).balanced
  | some root =>
    apply Spares.bind (read_lockless _).balanced
    intro r
    apply Spares.ite'
    · exact fun _ => (pure_lockless _).balanced
    intro _
    apply Spares.bind (modifyRoots_lockless _).balanced
    intro _
    apply Spares.bind yieldMain_balanced
    intro _
    apply Spares.bind (spawn_lockless _).balanced
    intro started
    apply Spares.ite' <;> exact fun _ => (pure_lockless _).balanced

theorem setPause_balanced (pause : Bool) (path : Str) : Balanced (σ := σ) false z (setPause pause path) := by
  apply Spares.bind lock_inotify_takes
  intro _
  apply Spares.bind (inotifyIsRoot_lockless path).balanced
  intro found
  cases found with
  | none => exact unlock_pure _
  | some root =>
    apply Spares.bind (modifyRoots_lockless _).balanced
    exact fun _ => unlock_pure _

/-! ## Queues -/

omit [System σ] in
theorem rootQueue_lockless (root : RootRef) : Lockless (σ := σ) (rootQueue root) := by
  apply Lockless.bind (read_lockless _)
  intro r
  cases r.queue with
  | some queue => exact pure_lockless _
  | none =>
    apply Lockless.bind (modifyOutput_lockless _)
    exact fun _ => pure_lockless _

theorem inotifyDequeue_balanced (root : RootRef) (count : Int32) :
    Balanced (σ := σ) false z (inotifyDequeue root count) := by
  apply Spares.bind lock_inotify_takes
  intro _
  apply Spares.bind (rootQueue_lockless root).balanced
  intro queue
  apply Spares.ite'
  · exact fun _ => unlock_pure _
  intro _
  apply Spares.bind malloc_lockless.balanced
  intro allocated
  apply Spares.ite'
  · exact fun _ => unlock_pure _
  intro _
  apply Spares.bind (modifyRoots_lockless _).balanced
  exact fun _ => unlock_pure _

theorem inotifyGetEvents_balanced (path : Str) (count : Int32) :
    Balanced (σ := σ) false z (inotifyGetEvents path count) := by
  apply Spares.bind (inotifyIsRoot_lockless path).balanced
  intro found
  cases found with
  | none => exact (pure_lockless _).balanced
  | some root => exact inotifyDequeue_balanced root count

/-! ## Records, up to the queue -/

theorem unwatchBelow_lockless (tmp : Option Str) (keys : List Str) :
    Lockless (σ := σ) (unwatchBelow tmp keys) := by
  induction keys with
  | nil => exact pure_lockless _
  | cons subPath keys ih =>
    apply Lockless.bind (deref_lockless tmp)
    intro below
    apply Lockless.ite'
    · intro _
      apply Lockless.bind (read_lockless _)
      intro found
      cases found with
      | none => exact ih
      | some subWatch =>
        apply Lockless.bind (call_lockless _)
        intro _
        apply Lockless.bind (modifyWatches_lockless _)
        exact fun _ => ih
    · exact fun _ => ih

theorem handleGone_balanced (event : InEvent) (absPath : Option Str) :
    Balanced (σ := σ) false z (handleGone event absPath) := by
  -- What is left once the entry has gone, with the mutex still held.
  have below (path : Str) : Takes (σ := σ) true z (do
      if hasBit event.mask inMovedFrom then
        let keys ← Program.read (·.watches.inotifyPathToWatch.keys)
        let tmp ← mkString (path ++ str "/")
        unwatchBelow tmp keys
      unlock .inotify
      return true) false z := by
    apply Spares.ite'
    · intro _
      apply Spares.bind (read_lockless _).balanced
      intro keys
      apply Spares.bind (mkString_lockless _).balanced
      intro tmp
      apply Spares.bind (unwatchBelow_lockless tmp keys).balanced
      exact fun _ => unlock_pure _
    · exact fun _ => unlock_pure _
  apply Spares.bind lock_inotify_takes
  intro _
  apply Spares.bind (deref_lockless absPath).balanced
  intro path
  apply Spares.bind (read_lockless _).balanced
  intro found
  cases found with
  | none => exact unlock_pure _
  | some delete =>
    apply Spares.bind (call_lockless _).balanced
    intro _
    apply Spares.bind (modifyWatches_lockless _).balanced
    intro _
    apply Spares.ite'
    · intro _
      apply Spares.bind (modifyWatches_lockless _).balanced
      exact fun _ => below path
    · exact fun _ => below path

theorem handleDirectory_balanced (event : InEvent) (path : Str) (absPath : Option Str) (root : RootRef) :
    Balanced (σ := σ) false z (handleDirectory event path absPath root) := by
  apply Spares.ite'
  · exact fun _ => (pure_lockless _).balanced
  intro _
  apply Spares.ite'
  · intro _
    apply Spares.ite'
    · exact fun _ => (pure_lockless _).balanced
    intro _
    apply Spares.bind yieldMain_balanced
    intro _
    apply Spares.bind (doWatchTree_lockless absPath root false).balanced
    exact fun _ => (pure_lockless _).balanced
  intro _
  apply Spares.ite'
  · exact fun _ => handleGone_balanced event absPath
  · exact fun _ => (pure_lockless _).balanced

theorem lookupEvent_balanced (wd : Int) : Balanced (σ := σ) false z (lookupEvent wd) := by
  apply Spares.bind lock_inotify_takes
  intro _
  apply Spares.bind (read_lockless _).balanced
  intro known
  cases known with
  | none => exact unlock_pure _
  | some watch =>
    apply Spares.bind malloc_lockless.balanced
    intro allocated
    apply Spares.ite'
    · exact fun _ => unlock_pure _
    intro _
    apply Spares.bind (inotifyPathToRoot_lockless watch.path).balanced
    intro found
    cases found with
    | none => exact unlock_pure _
    | some root =>
      apply Spares.bind (read_lockless _).balanced
      intro r
      apply Spares.bind unlock_inotify_takes
      intro _
      apply Spares.ite' <;> exact fun _ => (pure_lockless _).balanced

end Inotispy
