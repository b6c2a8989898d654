import Inotispy.Model.Events
import Inotispy.Model.Request

/-! The request socket: `reply.c` and `zeromq.c`. -/

set_option autoImplicit false

namespace Inotispy
open Library

variable {σ : Type} [System σ]

/-! ## Replies -/

/-- Position in `enum inotispy_error` -/
def InotispyError.code : InotispyError → Nat
  | .jsonInvalid => 0
  | .jsonParse => 1
  | .jsonKeyNotFound => 2
  | .zeroByteMessage => 3
  | .zeromqReconnect => 4
  | .inotifyWatchFailed => 5
  | .inotifyUnwatchFailed => 6
  | .invalidEventCount => 7
  | .inotifyRootNotWatched => 8
  | .inotifyRootAlreadyWatched => 9
  | .inotifyParentOfRoot => 10
  | .inotifyChildOfRoot => 11
  | .inotifyRootDoesNotExist => 12
  | .inotifyRootQueueFull => 13
  | .notAbsolutePath => 14
  | .failedToCreateNewThread => 15
  | .memoryAllocation => 16
  | .inotifyRootBeingDestroyed => 17
  | .badCall => 18
  | .unknown => 19

def errorToString : InotispyError → Str
  | .jsonInvalid => str "Invalid JSON"
  | .jsonParse => str "Failed to parse JSON"
  | .jsonKeyNotFound => str "Key not found in JSON"
  | .inotifyWatchFailed => str "Failed to set up new inotify watch"
  | .inotifyUnwatchFailed => str "Failed to unwatch root"
  | .invalidEventCount => str "Invald event count value"
  | .zeroByteMessage => str "Zero byte message received"
  | .inotifyRootNotWatched => str "This root is currently not watched under inotify"
  | .inotifyRootAlreadyWatched => str "This root is currently being watched under inotify"
  | .inotifyParentOfRoot => str "This directory is the parent of a currently watched root"
  | .inotifyChildOfRoot => str "This directory is the child of a currently watched root"
  | .inotifyRootQueueFull => str "Inotify event queue is full for this root"
  | .inotifyRootDoesNotExist => str "This directory does not exist"
  | .memoryAllocation =>
    str "Failed to allocate new memory. Check the log for the specific module and function where the error occurred."
  | .failedToCreateNewThread => str "Failed to create a new thread"
  | .inotifyRootBeingDestroyed => str "Inotify root currently being destroyed"
  | .zeromqReconnect => str "Please re-initialize your ZeroMQ connection and reconnect to Inotispy"
  | .notAbsolutePath => str "Path must be absolute"
  | .badCall => str "User tried to execute an unsupported call"
  | .unknown => str "Unknown error"

def replySendMessage (message : Str) : M σ Unit := do
  if !(← malloc) then return ()
  let _ ← modifySocket (Socket.send message)
  return ()

/-- Format a reply and send it; a null text is dereferenced by the sender. -/
def replySendFormatted (text : Str) : M σ Unit := do
  let reply ← mkString text
  replySendMessage (← deref reply)

def replySendError (err : InotispyError) : M σ Unit :=
  replySendFormatted (str "\x7b\"error\": \x7b\"code\":" ++ percentD err.code ++
    str ", \"message\":\"" ++ errorToString err ++ str "\"\x7d\x7d")

def replySendSuccess : M σ Unit := replySendMessage (str "\x7b\"success\":1\x7d")

def emptyData : Str := str "\x7b\"data\":[]\x7d"

def dataReply (value : Int) : Str := str "\x7b\"data\":" ++ percentD value ++ str "\x7d"

/-! ## Handlers -/

/-- `EVENT_watch`. A missing path is copied as glibc prints a null string. -/
def eventWatch (req : Request) : M σ Unit := do
  let some path ← mkString (percentS (requestGetPath req))
    | replySendError .jsonKeyNotFound
  -- Relative paths are refused only where a tree is to be watched.
  if path.head? ≠ some '/' then return ← replySendError .notAbsolutePath
  lock .zmq
  -- This test comes before the one that knows of roots being destroyed.
  if (← inotifyIsRoot path).isSome then
    replySendError .inotifyRootAlreadyWatched
    return ← unlock .zmq
  unlock .zmq
  let mask := requestGetMask req
  let mask := if mask = 0 then inotifyDefaultMask else mask.toUInt32
  let rewatch := requestGetRewatch req
  let maxEvents := requestGetMaxEvents req
  let defaultEvents ← Program.read (·.maxInotifyEvents)
  let maxEvents := if maxEvents = 0 then defaultEvents else maxEvents
  match ← inotifyWatchTree path mask maxEvents rewatch with
  | some err => replySendError err
  | none => replySendSuccess

def eventSubscribe (req : Request) : M σ Unit := do
  let some path := requestGetPath req | replySendError .jsonKeyNotFound
  lock .zmq
  if (← inotifyIsRoot path).isNone then
    replySendError .inotifyRootNotWatched
    return ← unlock .zmq
  unlock .zmq
  replySendFormatted (dataReply 1234)

def eventUnwatch (req : Request) : M σ Unit := do
  let some path := requestGetPath req | replySendError .jsonKeyNotFound
  match ← inotifyUnwatchTree path with
  | some err => replySendError err
  | none => replySendSuccess

/-- `inotify_event_to_jobj`. The cookie is left out when it is zero. -/
def inotifyEventToJobj (event : Event) : M σ Json := do
  let path ← deref event.path
  let name ← deref event.name
  let cookie := (str "cookie", Json.int event.cookie.toInt32.toInt)
  return .object ([(str "name", Json.string name), (str "path", Json.string path),
    (str "mask", Json.int event.mask.toInt32.toInt)] ++ if event.cookie ≠ 0 then [cookie] else [])

def eventsToJarr : List Event → M σ (List Json)
  | [] => return []
  | event :: rest => do
    let first ← inotifyEventToJobj event
    return first :: (← eventsToJarr rest)

/-- `EVENT_get_queue_size`. Without a path it unlocks a mutex it has not locked. -/
def eventGetQueueSize (req : Request) : M σ Unit := do
  let some path := requestGetPath req
    | replySendError .jsonKeyNotFound
      unlock .zmq
  lock .zmq
  let some root ← inotifyIsRoot path
    | replySendError .inotifyRootNotWatched
      unlock .zmq
  if (← getRoot root).destroy then
    replySendMessage (dataReply 0)
    return ← unlock .zmq
  let queue ← rootQueue root
  replySendFormatted (dataReply (queueLength queue).toInt)
  unlock .zmq

def eventStatus : M σ Unit := do
  let pid ← Program.read fun w => System.getpid w.sys
  let secs ← Program.read fun w => System.uptime w.sys
  let mins := secs.tdiv 60
  let hours := mins.tdiv 60
  let days := hours.tdiv 24
  let numWatches ← Program.read fun w => w.watches.inotifyPathToWatch.keys.length
  replySendFormatted (str "\x7b\"pid\":" ++ percentD pid ++ str ",\"watches\":" ++
    percentD numWatches ++ str ",\"uptime\":\"" ++ percentD days ++ str "d " ++
    percentD (hours - days * 24) ++ str "h " ++ percentD (mins - hours * 60) ++ str "m " ++
    percentD (secs - mins * 60) ++ str "s\"\x7d")

/-- `EVENT_pause`: pause the root, then throw its events away. -/
def eventPause (req : Request) : M σ Unit := do
  let some path := requestGetPath req | replySendError .jsonKeyNotFound
  if (← inotifyIsRoot path).isNone then return ← replySendError .inotifyRootNotWatched
  if let some err ← inotifyPauseTree path then return ← replySendError err
  let _ ← inotifyGetEvents path 0
  replySendSuccess

def eventUnpause (req : Request) : M σ Unit := do
  let some path := requestGetPath req | replySendError .jsonKeyNotFound
  if (← inotifyIsRoot path).isNone then return ← replySendError .inotifyRootNotWatched
  if let some err ← inotifyUnpauseTree path then return ← replySendError err
  replySendSuccess

def eventGetEvents (req : Request) : M σ Unit := do
  let some path := requestGetPath req | replySendError .jsonKeyNotFound
  if (← inotifyIsRoot path).isNone then return ← replySendError .inotifyRootNotWatched
  let count := requestGetCount req
  if count = -1 then return ← replySendError .invalidEventCount
  match ← inotifyGetEvents path count with
  | .failed => replySendError .memoryAllocation
  | .null => replySendMessage emptyData
  | .events items =>
    let jarr ← eventsToJarr items
    replySendMessage (System.jsonObjectToJsonString (σ := σ) (.object [(str "data", .array jarr)]))

/-- The list `inotify_get_roots` returns, which ends with the string "EOL". -/
def inotifyGetRoots : M σ (Option (List (Option Str))) := do
  lock .inotify
  let keys ← Program.read (·.roots.inotifyRoots.keys)
  if !(← malloc) then
    unlock .inotify
    return none
  let roots ← keys.mapM mkString
  let eol ← mkString (str "EOL")
  unlock .inotify
  return some (roots ++ [eol])

/-- The loop of `EVENT_get_roots` over that list. -/
def rootsUntilEol : List (Option Str) → M σ (List Json)
  | [] => return []
  | root :: roots => do
    let path ← deref root
    if path = str "EOL" then return []
    return .string path :: (← rootsUntilEol roots)

def eventGetRoots : M σ Unit := do
  if (← Program.read (·.roots.inotifyNumWatchedRoots)) < 1 then return ← replySendMessage emptyData
  let some roots ← inotifyGetRoots | replySendError .memoryAllocation
  let jarr ← rootsUntilEol roots
  replySendMessage (System.jsonObjectToJsonString (σ := σ) (.object [(str "data", .array jarr)]))

def zmqDispatchEvent (req : Request) : M σ Unit := do
  let call ← deref req.call
  if call = str "ping" then replySendMessage (str "pong")
  else if call = str "status" then eventStatus
  else if call = str "watch" then eventWatch req
  else if call = str "pause" then eventPause req
  else if call = str "unpause" then eventUnpause req
  else if call = str "subscribe" then eventSubscribe req
  else if call = str "unwatch" then eventUnwatch req
  else if call = str "get_events" then eventGetEvents req
  else if call = str "get_queue_size" then eventGetQueueSize req
  else if call = str "get_roots" then eventGetRoots
  else replySendError .badCall

/-! ## Messages -/

/-- The loop that cuts a message after its first closing brace. It writes a null byte
into the string whose length bounds it; `rounds` is an upper bound on its rounds. -/
def junkLoop : Nat → Str → Nat → Bool → Str
  | 0, json, _, _ => json
  | rounds + 1, json, i, nil =>
    if i < json.length then
      if nil then junkLoop rounds (json.take i) (i + 1) nil
      else junkLoop rounds json (i + 1) (json.getD i '\x00' == '\x7d')
    else json

def looksLikeJson (json : Str) : Bool :=
  !(json.length < 1 || (json.head? != some '\x7b' && json.getLast? != some '\x7d'))

def zmqHandleEvent : M σ Unit := do
  lock .zmq
  let some request ← modifySocket Socket.recv
    | replySendError .zeromqReconnect
      unlock .zmq
  if request.length = 0 then return ← unlock .zmq
  -- When this allocation fails the mutex stays locked.
  if !(← malloc) then return ← replySendError .memoryAllocation
  let json := CString.ofBuffer request
  if json.length = 0 then return ← unlock .zmq
  let json := junkLoop json.length json 0 false
  if !looksLikeJson json then
    replySendError .jsonInvalid
    return ← unlock .zmq
  match ← requestParse json with
  | .failed =>
    replySendError .memoryAllocation
    unlock .zmq
  | .null =>
    replySendError .jsonParse
    unlock .zmq
  | .request req =>
    unlock .zmq
    zmqDispatchEvent req

end Inotispy
