import Inotispy.Model.Trees

/-! Events: reading the kernel's records, queueing them and handing them out. -/

set_option autoImplicit false

namespace Inotispy
open Library

variable {σ : Type} [System σ]

/-! ## Queues -/

/-- The queue a root points to. In the code a queue that has been freed is memory that is not the
daemon's any more; here its use is noted, and it reads as empty for the run to go on. -/
def rootQueue (root : RootRef) : M σ (List Event) := do
  match (← getRoot root).queue with
  | some queue => return queue
  | none =>
    modifyOutput ({ · with releasedQueueUsed := true })
    return []

def setRootQueue (root : RootRef) (queue : List Event) : M σ Unit :=
  modifyRoots (·.setRoot root fun r => { r with queue := r.queue.map fun _ => queue })

/-- `(int) g_queue_get_length (root->queue)` -/
def queueLength (queue : List Event) : Int32 := Int32.ofNat queue.length

/-- The node that `inotify_enqueue` fills in; its strings may be null. -/
def makeNode (event : InEvent) (name path : Option Str) : Event :=
  { wd := event.wd
    mask := event.mask
    cookie := event.cookie
    len := event.len
    path := path
    name := name }

/-- `inotify_enqueue`. When the node cannot be allocated it returns with the mutex held. -/
def inotifyEnqueue (root : RootRef) (event : InEvent) (path : Str) :
    M σ (Option InotispyError) := do
  lock .inotify
  let queue ← rootQueue root
  if (← getRoot root).maxEvents ≤ queueLength queue then
    unlock .inotify
    return some .inotifyRootQueueFull
  if !(← malloc) then return some .memoryAllocation
  let name ← mkString event.name
  let path ← mkString path
  setRootQueue root (queue ++ [makeNode event name path])
  unlock .inotify
  return none

/-- What `inotify_dequeue` returns: a null pointer, the pointer -1, or a list. -/
inductive Dequeued where
  | null
  | failed
  | events (items : List Event)
  deriving DecidableEq, Repr

def inotifyDequeue (root : RootRef) (count : Int32) : M σ Dequeued := do
  lock .inotify
  let queue ← rootQueue root
  let queueLen := queueLength queue
  if queueLen = 0 then
    unlock .inotify
    return .null
  let count := if count = 0 ∨ queueLen < count then queueLen else count
  if !(← malloc) then
    unlock .inotify
    return .failed
  -- For a negative count the loop that pops the events does not start.
  let taken := count.toInt.toNat
  setRootQueue root (queue.drop taken)
  unlock .inotify
  return .events (queue.take taken)

def inotifyGetEvents (path : Str) (count : Int32) : M σ Dequeued := do
  let some root ← inotifyIsRoot path | return .null
  inotifyDequeue root count

/-! ## Kernel records -/

/-- One round of the loop of `inotify_handle_event`: how far it moves the offset, and
the root the record was offered to with the code `inotify_enqueue` returned. -/
structure Round where
  advance : Nat
  offered : Option (RootRef × Option InotispyError)
  deriving DecidableEq, Repr

/-- The loop that removes the watches below a moved directory. -/
def unwatchBelow (tmp : Option Str) : List Str → M σ Unit
  | [] => return ()
  | subPath :: keys => do
    let below ← deref tmp
    if CString.strstr subPath below = some 0 then
      if let some subWatch ← lookupPath subPath then
        let _ ← inotifyRmWatch subWatch.wd
        modifyWatches (·.forget subPath subWatch.wd)
    unwatchBelow tmp keys

/-- The branch for a directory that was deleted or moved away. The value says
whether the event goes on to be queued. -/
def handleGone (event : InEvent) (absPath : Option Str) : M σ Bool := do
  lock .inotify
  let absPath ← deref absPath
  let some delete ← lookupPath absPath
    | unlock .inotify
      return false
  let _ ← inotifyRmWatch delete.wd
  modifyWatches fun t => { t with inotifyWdToWatch := t.inotifyWdToWatch.erase delete.wd }
  -- Of the two removals only this one is guarded.
  if absPath.head? = some '/' then
    modifyWatches fun t => { t with inotifyPathToWatch := t.inotifyPathToWatch.erase absPath }
  -- A directory that is moved takes its subdirectories along; a deleted one has none left.
  if hasBit event.mask inMovedFrom then
    let keys ← Program.read (·.watches.inotifyPathToWatch.keys)
    let tmp ← mkString (absPath ++ str "/")
    unwatchBelow tmp keys
  unlock .inotify
  return true

/-- The branch for a new directory: a walker is started on it. -/
def handleNew (path : Str) (absPath : Option Str) (root : RootRef) : M σ Bool := do
  if endsInTmp path then return false
  -- `usleep (1000)`, without a mutex
  yieldMain
  return (← doWatchTree absPath root false).isNone

def handleDirectory (event : InEvent) (path : Str) (absPath : Option Str) (root : RootRef) :
    M σ Bool := do
  if !hasBit event.mask inIsdir then return true
  if hasBit event.mask inCreate || hasBit event.mask inMovedTo then
    return ← handleNew path absPath root
  if hasBit event.mask inDelete || hasBit event.mask inMovedFrom then
    return ← handleGone event absPath
  return true

/-- The records the loop skips before it looks up their watch. -/
def skipped (event : InEvent) : Bool :=
  (hasBit event.mask inIsdir && hasBit event.mask inCloseNowrite) ||
    hasBit event.mask inIgnored || endsInTmp event.name

def lookupEvent (wd : Int) : M σ (Option (Str × RootRef)) := do
  lock .inotify
  let some watch ← lookupWd wd
    | unlock .inotify
      return none
  if !(← malloc) then
    unlock .inotify
    return none
  let some root ← inotifyPathToRoot watch.path
    | unlock .inotify
      return none
  let r ← getRoot root
  unlock .inotify
  -- Both flags are as they were when the mutex was held.
  if r.pause || r.destroy then return none
  return some (watch.path, root)

def inotifyHandleRecord (event : InEvent) : M σ Round := do
  -- Without a name the event is about the watched directory itself.
  if event.len = 0 then return ⟨inotifyEventSize, none⟩
  let advance := inotifyEventSize + event.len.toNat
  if hasBit event.mask inQOverflow then
    modifyOutput fun out => { out with overflowReports := out.overflowReports + 1 }
    return ⟨advance, none⟩
  if skipped event then return ⟨advance, none⟩
  let some (path, root) ← lookupEvent event.wd | return ⟨advance, none⟩
  let absPath ← mkString (eventPath path event.name)
  if !(← handleDirectory event path absPath root) then return ⟨advance, none⟩
  -- The root is used here without the mutex, whatever has become of it since the lookup.
  if !hasBit event.mask (← getRoot root).mask then return ⟨advance, none⟩
  let code ← inotifyEnqueue root event path
  return ⟨advance, some (root, code)⟩

def inotifyHandleEvent (events : List InEvent) : M σ Unit :=
  Program.forEach (fun event => do
    let _ ← inotifyHandleRecord event
    return ()) events

end Inotispy
