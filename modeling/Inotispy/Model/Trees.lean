import Inotispy.Model.Threads

/-! Watching, unwatching and pausing trees, on the main thread. -/

set_option autoImplicit false

namespace Inotispy
open Library

variable {σ : Type} [System σ]

def inotifyDumpRoots : M σ Unit := do
  lock .inotify
  dumpRootsSection
  unlock .inotify

def spawn (thread : Thread) : M σ Bool := do
  if !(← pthreadCreate) then return false
  modifyPool fun pool => { pool with threads := pool.threads ++ [thread] }
  return true

/-- `do_watch_tree`. The path may be null; it is then copied as glibc prints it. -/
def doWatchTree (path : Option Str) (root : RootRef) (cleanup : Bool) :
    M σ (Option InotispyError) := do
  if (← getRoot root).destroy then return some .inotifyRootDoesNotExist
  if !(← malloc) then return some .memoryAllocation
  let copy ← mkString (percentS path)
  if !(← spawn (.watchTree { path := copy, root := root, cleanup := cleanup })) then
    return some .failedToCreateNewThread
  return none

/-- The path without the one slash that ends it, unless the path is "/". The byte
before an empty path is not part of it. -/
def trimSlash (path : Str) : Str :=
  if CString.charAt path (path.length - 1) = some '/' ∧ path ≠ str "/" then path.dropLast else path

/-- The first critical section of `inotify_watch_tree`: the code of the root that is
in the way, if there is one. -/
def watchTreeCheck (path : Str) : M σ (Option InotispyError) := do
  lock .inotify
  match ← inotifyPathToRoot path with
  | some root =>
    unlock .inotify
    -- The root is read after the mutex has been given back.
    let r ← getRoot root
    let rootPath ← deref r.path
    if path = rootPath then
      if r.destroy then return some .inotifyRootBeingDestroyed
      return some .inotifyRootAlreadyWatched
    return some .inotifyChildOfRoot
  | none =>
    let subPath ← inotifyIsParent path
    unlock .inotify
    return if subPath.isSome then some .inotifyParentOfRoot else none

/-- The second critical section of `inotify_watch_tree`: register the root. -/
def watchTreeInsert (path : Str) (mask : UInt32) (maxEvents : Int32) (rewatch : Bool) :
    M σ (Option RootRef) := do
  lock .inotify
  let some newRoot ← makeRoot path mask maxEvents rewatch
    | unlock .inotify
      return none
  modifyRoots fun roots =>
    { roots with
      inotifyRoots := roots.inotifyRoots.insert path newRoot
      inotifyNumWatchedRoots := roots.inotifyNumWatchedRoots + 1 }
  unlock .inotify
  return some newRoot

def inotifyWatchTree (path : Str) (mask : UInt32) (maxEvents : Int32) (rewatch : Bool) :
    M σ (Option InotispyError) := do
  let path := trimSlash path
  if let some err ← watchTreeCheck path then return some err
  if !(← opendir path) then return some .inotifyRootDoesNotExist
  -- What was checked above may have changed: the mutex was free in between.
  let some newRoot ← watchTreeInsert path mask maxEvents rewatch
    | return some .memoryAllocation
  inotifyDumpRoots
  doWatchTree (← getRoot newRoot).path newRoot false

/-- `destroy_root`. The flag is set without the mutex, and the caller sleeps before
it starts the thread. -/
def destroyRoot (root : RootRef) : M σ (Option InotispyError) := do
  modifyRoots (·.setRoot root fun r => { r with destroy := true })
  yieldMain
  if !(← spawn (.destroyRoot root)) then return some .failedToCreateNewThread
  return none

/-- The trimming of `inotify_unwatch_tree`, which has no exception for "/". -/
def trimLastSlash (path : Str) : Str :=
  if CString.charAt path (path.length - 1) = some '/' then path.dropLast else path

def inotifyUnwatchTree (path : Str) : M σ (Option InotispyError) := do
  let path := trimLastSlash path
  let some root ← inotifyIsRoot path | return some .inotifyRootNotWatched
  if (← getRoot root).destroy then return some .inotifyRootBeingDestroyed
  destroyRoot root

/-- `inotify_pause_tree` and `inotify_unpause_tree` differ in the value they store. -/
def setPause (pause : Bool) (path : Str) : M σ (Option InotispyError) := do
  lock .inotify
  let some root ← inotifyIsRoot path
    | unlock .inotify
      return some .inotifyRootNotWatched
  modifyRoots (·.setRoot root fun r => { r with pause := pause })
  unlock .inotify
  return none

def inotifyPauseTree (path : Str) : M σ (Option InotispyError) := setPause true path

def inotifyUnpauseTree (path : Str) : M σ (Option InotispyError) := setPause false path

def inotifyMemclean : M σ Unit := do
  if ← Program.read (·.pool.inMemclean) then return ()
  let _ ← spawn .memclean
  return ()

def inotifyRewatchRoots : M σ Unit := do
  if ← Program.read (·.pool.inRootRewatch) then return ()
  lock .inotify
  let roots ← Program.read (·.roots.inotifyRoots.values)
  unlock .inotify
  -- The roots are those of the snapshot, whatever has become of them since.
  Program.forEach (fun root => do
    let _ ← doWatchTree (← getRoot root).path root true
    return ()) roots

end Inotispy
