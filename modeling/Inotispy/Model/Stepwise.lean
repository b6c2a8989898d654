import Inotispy.Library.Code
import Inotispy.Model.Zeromq

/-! The main thread step by step.

Every function of the main thread that locks a mutex, or sleeps, is here once more as code. Its
steps are the operations on mutexes and the pieces between them, so that a signal can be
delivered between any two. A piece holds no mutex operation, and what is held does not change
within it.
-/

set_option autoImplicit false

namespace Inotispy
open Library

/-- A step of the main thread. -/
inductive Operation (σ : Type) : Type → Type 1 where
  /-- A piece of code without an operation on a mutex. -/
  | piece {A : Type} (x : M σ A) : Operation σ A
  /-- A point at which other threads may run. -/
  | yieldMain : Operation σ Unit
  | acquire (mutex : Mutex) : Operation σ Unit
  | release (mutex : Mutex) : Operation σ Unit
  /-- `pthread_mutex_lock` of `main_mutex`, which only `alarm_handler` uses. -/
  | acquireMain : Operation σ Unit
  | releaseMain : Operation σ Unit
  /-- The allocation of a node for a queue. -/
  | mallocNode : Operation σ Bool
  | exit : Operation σ Unit

namespace Stepwise

variable {σ : Type} [System σ]

abbrev Code (σ : Type) := Library.Code (Operation σ)

section
omit [System σ]

def piece {A : Type} (x : M σ A) : Code σ A := .perform (.piece x)

def lock (mutex : Mutex) : Code σ Unit := do
  .perform .yieldMain
  .perform (.acquire mutex)

def unlock (mutex : Mutex) : Code σ Unit := do
  .perform (.release mutex)
  .perform .yieldMain

end

/-! ## Trees -/

def inotifyDumpRoots : Code σ Unit := do
  lock .inotify
  piece dumpRootsSection
  unlock .inotify

def watchTreeCheck (path : Str) : Code σ (Option InotispyError) := do
  lock .inotify
  match ← piece (inotifyPathToRoot path) with
  | some root =>
    unlock .inotify
    -- The root is read after the mutex has been given back.
    let r ← piece (getRoot root)
    let rootPath ← piece (deref r.path)
    if path = rootPath then
      if r.destroy then return some .inotifyRootBeingDestroyed
      return some .inotifyRootAlreadyWatched
    return some .inotifyChildOfRoot
  | none =>
    let subPath ← piece (inotifyIsParent path)
    unlock .inotify
    return if subPath.isSome then some .inotifyParentOfRoot else none

def watchTreeInsert (path : Str) (mask : UInt32) (maxEvents : Int32) (rewatch : Bool) :
    Code σ (Option RootRef) := do
  lock .inotify
  let some newRoot ← piece (makeRoot path mask maxEvents rewatch)
    | unlock .inotify
      return none
  piece (modifyRoots fun roots =>
    { roots with
      inotifyRoots := roots.inotifyRoots.insert path newRoot
      inotifyNumWatchedRoots := roots.inotifyNumWatchedRoots + 1 })
  unlock .inotify
  return some newRoot

def inotifyWatchTree (path : Str) (mask : UInt32) (maxEvents : Int32) (rewatch : Bool) :
    Code σ (Option InotispyError) := do
  let path := trimSlash path
  if let some err ← watchTreeCheck path then return some err
  if !(← piece (opendir path)) then return some .inotifyRootDoesNotExist
  let some newRoot ← watchTreeInsert path mask maxEvents rewatch
    | return some .memoryAllocation
  inotifyDumpRoots
  let r ← piece (getRoot newRoot)
  piece (doWatchTree r.path newRoot false)

def destroyRoot (root : RootRef) : Code σ (Option InotispyError) := do
  piece (modifyRoots (·.setRoot root fun r => { r with destroy := true }))
  .perform .yieldMain
  if !(← piece (spawn (.destroyRoot root))) then return some .failedToCreateNewThread
  return none

def inotifyUnwatchTree (path : Str) : Code σ (Option InotispyError) := do
  let path := trimLastSlash path
  let some root ← piece (inotifyIsRoot path) | return some .inotifyRootNotWatched
  if (← piece (getRoot root)).destroy then return some .inotifyRootBeingDestroyed
  destroyRoot root

omit [System σ] in
def setPause (pause : Bool) (path : Str) : Code σ (Option InotispyError) := do
  lock .inotify
  let some root ← piece (inotifyIsRoot path)
    | unlock .inotify
      return some .inotifyRootNotWatched
  piece (modifyRoots (·.setRoot root fun r => { r with pause := pause }))
  unlock .inotify
  return none

def inotifyRewatchRoots : Code σ Unit := do
  if ← piece (Program.read (·.pool.inRootRewatch)) then return ()
  lock .inotify
  let roots ← piece (Program.read (·.roots.inotifyRoots.values))
  unlock .inotify
  .forEach (fun root => do
    let r ← piece (getRoot root)
    let _ ← piece (doWatchTree r.path root true)
    return ()) roots

/-! ## Events -/

def inotifyEnqueue (root : RootRef) (event : InEvent) (path : Str) :
    Code σ (Option InotispyError) := do
  lock .inotify
  let queue ← piece (rootQueue root)
  if (← piece (getRoot root)).maxEvents ≤ queueLength queue then
    unlock .inotify
    return some .inotifyRootQueueFull
  -- When it fails the function returns with the mutex held, so it is a step of its own.
  if !(← .perform .mallocNode) then return some .memoryAllocation
  let name ← piece (mkString event.name)
  let path ← piece (mkString path)
  piece (setRootQueue root (queue ++ [makeNode event name path]))
  unlock .inotify
  return none

def inotifyDequeue (root : RootRef) (count : Int32) : Code σ Dequeued := do
  lock .inotify
  let queue ← piece (rootQueue root)
  let queueLen := queueLength queue
  if queueLen = 0 then
    unlock .inotify
    return .null
  let count := if count = 0 ∨ queueLen < count then queueLen else count
  if !(← piece malloc) then
    unlock .inotify
    return .failed
  let taken := count.toInt.toNat
  piece (setRootQueue root (queue.drop taken))
  unlock .inotify
  return .events (queue.take taken)

def inotifyGetEvents (path : Str) (count : Int32) : Code σ Dequeued := do
  let some root ← piece (inotifyIsRoot path) | return .null
  inotifyDequeue root count

def handleGone (event : InEvent) (absPath : Option Str) : Code σ Bool := do
  lock .inotify
  let absPath ← piece (deref absPath)
  let some delete ← piece (lookupPath absPath)
    | unlock .inotify
      return false
  let _ ← piece (inotifyRmWatch delete.wd)
  piece (modifyWatches fun t => { t with inotifyWdToWatch := t.inotifyWdToWatch.erase delete.wd })
  if absPath.head? = some '/' then
    piece (modifyWatches fun t => { t with inotifyPathToWatch := t.inotifyPathToWatch.erase absPath })
  if hasBit event.mask inMovedFrom then
    let keys ← piece (Program.read (·.watches.inotifyPathToWatch.keys))
    let tmp ← piece (mkString (absPath ++ str "/"))
    piece (unwatchBelow tmp keys)
  unlock .inotify
  return true

def handleNew (path : Str) (absPath : Option Str) (root : RootRef) : Code σ Bool := do
  if endsInTmp path then return false
  .perform .yieldMain
  return (← piece (doWatchTree absPath root false)).isNone

def handleDirectory (event : InEvent) (path : Str) (absPath : Option Str) (root : RootRef) :
    Code σ Bool := do
  if !hasBit event.mask inIsdir then return true
  if hasBit event.mask inCreate || hasBit event.mask inMovedTo then
    return ← handleNew path absPath root
  if hasBit event.mask inDelete || hasBit event.mask inMovedFrom then
    return ← handleGone event absPath
  return true

def lookupEvent (wd : Int) : Code σ (Option (Str × RootRef)) := do
  lock .inotify
  let some watch ← piece (lookupWd wd)
    | unlock .inotify
      return none
  if !(← piece malloc) then
    unlock .inotify
    return none
  let some root ← piece (inotifyPathToRoot watch.path)
    | unlock .inotify
      return none
  let r ← piece (getRoot root)
  unlock .inotify
  if r.pause || r.destroy then return none
  return some (watch.path, root)

def inotifyHandleRecord (event : InEvent) : Code σ Round := do
  if event.len = 0 then return ⟨inotifyEventSize, none⟩
  let advance := inotifyEventSize + event.len.toNat
  if hasBit event.mask inQOverflow then
    piece (modifyOutput fun out => { out with overflowReports := out.overflowReports + 1 })
    return ⟨advance, none⟩
  if skipped event then return ⟨advance, none⟩
  let some (path, root) ← lookupEvent event.wd | return ⟨advance, none⟩
  let absPath ← piece (mkString (eventPath path event.name))
  if !(← handleDirectory event path absPath root) then return ⟨advance, none⟩
  if !hasBit event.mask (← piece (getRoot root)).mask then return ⟨advance, none⟩
  let code ← inotifyEnqueue root event path
  return ⟨advance, some (root, code)⟩

def inotifyHandleEvent (events : List InEvent) : Code σ Unit :=
  .forEach (fun event => do
    let _ ← inotifyHandleRecord event
    return ()) events

/-! ## Requests -/

def eventWatch (req : Request) : Code σ Unit := do
  let some path ← piece (mkString (percentS (requestGetPath req)))
    | piece (replySendError .jsonKeyNotFound)
  if path.head? ≠ some '/' then return ← piece (replySendError .notAbsolutePath)
  lock .zmq
  if (← piece (inotifyIsRoot path)).isSome then
    piece (replySendError .inotifyRootAlreadyWatched)
    return ← unlock .zmq
  unlock .zmq
  let mask := requestGetMask req
  let mask := if mask = 0 then inotifyDefaultMask else mask.toUInt32
  let rewatch := requestGetRewatch req
  let maxEvents := requestGetMaxEvents req
  let defaultEvents ← piece (Program.read (·.maxInotifyEvents))
  let maxEvents := if maxEvents = 0 then defaultEvents else maxEvents
  match ← inotifyWatchTree path mask maxEvents rewatch with
  | some err => piece (replySendError err)
  | none => piece replySendSuccess

def eventSubscribe (req : Request) : Code σ Unit := do
  let some path := requestGetPath req | piece (replySendError .jsonKeyNotFound)
  lock .zmq
  if (← piece (inotifyIsRoot path)).isNone then
    piece (replySendError .inotifyRootNotWatched)
    return ← unlock .zmq
  unlock .zmq
  piece (replySendFormatted (dataReply 1234))

def eventUnwatch (req : Request) : Code σ Unit := do
  let some path := requestGetPath req | piece (replySendError .jsonKeyNotFound)
  match ← inotifyUnwatchTree path with
  | some err => piece (replySendError err)
  | none => piece replySendSuccess

def eventGetQueueSize (req : Request) : Code σ Unit := do
  let some path := requestGetPath req
    | piece (replySendError .jsonKeyNotFound)
      unlock .zmq
  lock .zmq
  let some root ← piece (inotifyIsRoot path)
    | piece (replySendError .inotifyRootNotWatched)
      unlock .zmq
  if (← piece (getRoot root)).destroy then
    piece (replySendMessage (dataReply 0))
    return ← unlock .zmq
  let queue ← piece (rootQueue root)
  piece (replySendFormatted (dataReply (queueLength queue).toInt))
  unlock .zmq

def eventPause (req : Request) : Code σ Unit := do
  let some path := requestGetPath req | piece (replySendError .jsonKeyNotFound)
  if (← piece (inotifyIsRoot path)).isNone then
    return ← piece (replySendError .inotifyRootNotWatched)
  if let some err ← setPause true path then return ← piece (replySendError err)
  let _ ← inotifyGetEvents path 0
  piece replySendSuccess

def eventUnpause (req : Request) : Code σ Unit := do
  let some path := requestGetPath req | piece (replySendError .jsonKeyNotFound)
  if (← piece (inotifyIsRoot path)).isNone then
    return ← piece (replySendError .inotifyRootNotWatched)
  if let some err ← setPause false path then return ← piece (replySendError err)
  piece replySendSuccess

def eventGetEvents (req : Request) : Code σ Unit := do
  let some path := requestGetPath req | piece (replySendError .jsonKeyNotFound)
  if (← piece (inotifyIsRoot path)).isNone then
    return ← piece (replySendError .inotifyRootNotWatched)
  let count := requestGetCount req
  if count = -1 then return ← piece (replySendError .invalidEventCount)
  match ← inotifyGetEvents path count with
  | .failed => piece (replySendError .memoryAllocation)
  | .null => piece (replySendMessage emptyData)
  | .events items =>
    let jarr ← piece (eventsToJarr items)
    piece (replySendMessage (System.jsonObjectToJsonString (σ := σ) (.object [(str "data", .array jarr)])))

def inotifyGetRoots : Code σ (Option (List (Option Str))) := do
  lock .inotify
  let keys ← piece (Program.read (·.roots.inotifyRoots.keys))
  if !(← piece malloc) then
    unlock .inotify
    return none
  let roots ← piece (keys.mapM mkString)
  let eol ← piece (mkString (str "EOL"))
  unlock .inotify
  return some (roots ++ [eol])

def eventGetRoots : Code σ Unit := do
  if (← piece (Program.read (·.roots.inotifyNumWatchedRoots))) < 1 then
    return ← piece (replySendMessage emptyData)
  let some roots ← inotifyGetRoots | piece (replySendError .memoryAllocation)
  let jarr ← piece (rootsUntilEol roots)
  piece (replySendMessage (System.jsonObjectToJsonString (σ := σ) (.object [(str "data", .array jarr)])))

def zmqDispatchEvent (req : Request) : Code σ Unit := do
  let call ← piece (deref req.call)
  if call = str "ping" then piece (replySendMessage (str "pong"))
  else if call = str "status" then piece eventStatus
  else if call = str "watch" then eventWatch req
  else if call = str "pause" then eventPause req
  else if call = str "unpause" then eventUnpause req
  else if call = str "subscribe" then eventSubscribe req
  else if call = str "unwatch" then eventUnwatch req
  else if call = str "get_events" then eventGetEvents req
  else if call = str "get_queue_size" then eventGetQueueSize req
  else if call = str "get_roots" then eventGetRoots
  else piece (replySendError .badCall)

def zmqHandleEvent : Code σ Unit := do
  lock .zmq
  let some request ← piece (modifySocket Socket.recv)
    | piece (replySendError .zeromqReconnect)
      unlock .zmq
  if request.length = 0 then return ← unlock .zmq
  if !(← piece malloc) then return ← piece (replySendError .memoryAllocation)
  let json := CString.ofBuffer request
  if json.length = 0 then return ← unlock .zmq
  let json := junkLoop json.length json 0 false
  if !looksLikeJson json then
    piece (replySendError .jsonInvalid)
    return ← unlock .zmq
  match ← piece (requestParse json) with
  | .failed =>
    piece (replySendError .memoryAllocation)
    unlock .zmq
  | .null =>
    piece (replySendError .jsonParse)
    unlock .zmq
  | .request req =>
    unlock .zmq
    zmqDispatchEvent req

end Stepwise
end Inotispy
