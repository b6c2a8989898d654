import Inotispy.Model.Roots

/-! The threads: tree walkers, destroy threads and the memclean thread.

Each step of a thread is one critical section, or one piece of code between two
of them. The main thread never waits for the others: what they do while it is
outside its critical sections is given by the schedule, so that a statement about
every schedule is one about every interleaving.
-/

set_option autoImplicit false

namespace Inotispy
open Library

variable {σ : Type} [System σ]

/-! ## Tree walkers -/

def makeWatch (wd : Int) (path : Str) : M σ (Option Watch) := do
  -- One block for the watch, one for its copy of the path.
  if !(← malloc) then return none
  if !(← malloc) then return none
  let addr ← Program.read (·.watches.nextWatch)
  modifyWatches ({ · with nextWatch := addr + 1 })
  return some { addr := addr, wd := wd, path := path }

/-- The part of the critical section of `_do_watch_tree_rec` that asks for a watch and
files it. The value says whether the call goes on to read the directory. -/
def addTreeWatch (path : Str) (root : RootRef) : M σ Bool := do
  if !(← opendir path) then return false
  let mask := (← getRoot root).mask ||| inDontFollow
  let wd ← inotifyAddWatch path mask
  if wd < 0 then return false
  -- When there is no memory for the watch, the code gives `log_error` the descriptor as a string,
  -- and may not get any further.
  let some watch ← makeWatch wd path | return false
  -- A descriptor with an entry is one for a tree that is already being watched.
  if (← lookupWd wd).isSome then return false
  modifyWatches (·.file root watch)
  return true

/-- `_do_watch_tree_rec` from its start to the end of its critical section. -/
def doWatchTreeSection (path : Str) (root : RootRef) (cleanup : Bool) : M σ Bool := do
  if endsInTmp path then return false
  acquire .inotify
  if (← getRoot root).destroy then
    release .inotify
    return false
  let known := (← lookupPath path).isSome
  if cleanup && known then
    release .inotify
    return false
  let went ← addTreeWatch path root
  release .inotify
  return went

/-- Whether an entry is a directory and no symbolic link; file systems that do not
fill in `d_type` are asked with `lstat`. -/
def entryIsDir (tmp : Option Str) : DType → M σ Bool
  | .unknown => do
    let path ← deref tmp
    return (← call (System.lstat · path)) == .dir
  | dType => return dType == .dir

/-- The innermost call of `_do_watch_tree_rec` takes a step; `rest` are the calls
around it. -/
def doWatchTreeRec (data : TData) (rest : List Frame) : Frame → M σ (List Frame)
  | .call path => do
    if ← doWatchTreeSection path data.root data.cleanup then return .opened path :: rest
    return rest
  | .opened path => do
    -- The directory is opened a second time, without the mutex.
    match ← call (System.readdir · path) with
    | none => return rest
    | some entries => return .reading path entries :: rest
  | .reading _ [] => return rest
  | .reading path (dir :: entries) => do
    let loop := Frame.reading path entries :: rest
    if dir.name = str "." ∨ dir.name = str ".." then return loop
    let tmp ← mkString (childPath path dir.name)
    if !(← entryIsDir tmp dir.dType) then return loop
    -- The flag is read without the mutex; a set flag ends this call only.
    if (← getRoot data.root).destroy then return rest
    let child ← deref tmp
    return .call child :: loop

/-- `_do_watch_tree`, up to its call of `_do_watch_tree_rec`. -/
def doWatchTreeEnter (data : TData) : M σ Thread := do
  if (← getRoot data.root).destroy then return .finished
  let path ← deref data.path
  let rootPath ← deref (← getRoot data.root).path
  -- Only lengths are compared; a longer path need not lie below the root.
  if path.length < rootPath.length then return .finished
  if data.cleanup then modifyPool ({ · with inRootRewatch := true })
  return .watchTreeRec data [.call path]

omit [System σ] in
def doWatchTreeLeave (data : TData) : M σ Thread := do
  if data.cleanup then modifyPool ({ · with inRootRewatch := false })
  return .finished

/-! ## Destroy threads -/

/-- First critical section of `_destroy_root`: free the queue, take the keys. -/
def destroyRootStart (root : RootRef) : M σ Thread := do
  acquire .inotify
  let tmp ← mkString (percentS (← getRoot root).path ++ str "/")
  modifyRoots (·.setRoot root fun r => { r with queue := none })
  let keys ← Program.read (·.watches.inotifyPathToWatch.keys)
  release .inotify
  return .destroyKeys root tmp keys

omit [System σ] in
/-- One round of the loop over the keys, up to the lookup of the watch. -/
def destroyRootKey (root : RootRef) (tmp : Option Str) (path : Str) (keys : List Str) :
    M σ Thread := do
  let below ← deref tmp
  -- The first occurrence has to be at the start of the key.
  if CString.strstr path below ≠ some 0 then return .destroyKeys root tmp keys
  acquire .inotify
  let watch ← lookupPath path
  release .inotify
  match watch with
  | none => return .destroyKeys root tmp keys
  | some watch => return .destroyWatch root tmp path watch keys

omit [System σ] in
def destroyRootEntry (path : Str) (watch : Watch) : M σ Unit := do
  acquire .inotify
  modifyWatches (·.forget path watch.wd)
  release .inotify

omit [System σ] in
/-- Last critical section of `_destroy_root`: the root's own watch and the root. -/
def destroyRootEnd (root : RootRef) : M σ Unit := do
  acquire .inotify
  let rootPath ← deref (← getRoot root).path
  if let some watch ← lookupPath rootPath then
    modifyWatches (·.forget rootPath watch.wd)
  modifyRoots fun roots =>
    { roots with
      inotifyRoots := roots.inotifyRoots.erase rootPath
      inotifyNumWatchedRoots := roots.inotifyNumWatchedRoots - 1 }
  release .inotify

/-! ## Memclean -/

/-- The removal of a rogue watch in `_inotify_memclean`. -/
def memcleanSection (path : Str) : M σ Unit := do
  acquire .inotify
  if let some watch ← lookupPath path then
    let _ ← inotifyRmWatch watch.wd
    modifyWatches (·.forget path watch.wd)
  release .inotify

/-! ## Steps and schedules -/

def threadStep : Thread → M σ Thread
  | .watchTree data => doWatchTreeEnter data
  | .watchTreeRec data [] => doWatchTreeLeave data
  | .watchTreeRec data (frame :: rest) => return .watchTreeRec data (← doWatchTreeRec data rest frame)
  | .destroyRoot root => destroyRootStart root
  | .destroyKeys root tmp (path :: keys) => destroyRootKey root tmp path keys
  | .destroyKeys root _ [] => do
    destroyRootEnd root
    return .destroyDump
  | .destroyWatch root tmp path watch keys => do
    let _ ← inotifyRmWatch watch.wd
    return .destroyEntry root tmp path watch keys
  | .destroyEntry root tmp path watch keys => do
    destroyRootEntry path watch
    return .destroyKeys root tmp keys
  | .destroyDump => do
    acquire .inotify
    dumpRootsSection
    release .inotify
    return .finished
  -- The thread sets the flag itself, so two passes can be started before one does.
  | .memclean => do
    modifyPool ({ · with inMemclean := true })
    return .memcleanSnapshot
  | .memcleanSnapshot => do
    acquire .inotify
    let keys ← Program.read (·.watches.inotifyPathToWatch.keys)
    release .inotify
    return .memcleanKeys keys
  | .memcleanKeys (path :: keys) => do
    -- A key that does not start with a slash is taken for garbage.
    if path.head? ≠ some '/' then return .memcleanKeys keys
    if ← call (System.statIsDir · path) then return .memcleanKeys keys
    return .memcleanPath path keys
  | .memcleanKeys [] => do
    acquire .inotify
    modifyPool ({ · with inMemclean := false })
    release .inotify
    return .finished
  | .memcleanPath path keys => do
    memcleanSection path
    return .memcleanKeys keys
  | .finished => return .finished

def runThread (index : Nat) : M σ Unit := do
  let some thread := (← Program.read (·.pool.threads))[index]? | return ()
  let next ← threadStep thread
  modifyPool fun pool => { pool with threads := pool.threads.set index next }

/-- A point at which the main thread holds no lock and the others may run. -/
def yieldMain : M σ Unit := do
  match ← Program.read (·.pool.schedule) with
  | [] => return ()
  | turn :: later =>
    modifyPool ({ · with schedule := later })
    Program.forEach runThread turn

def lock (mutex : Mutex) : M σ Unit := do
  yieldMain
  acquire mutex

def unlock (mutex : Mutex) : M σ Unit := do
  release mutex
  yieldMain

end Inotispy
