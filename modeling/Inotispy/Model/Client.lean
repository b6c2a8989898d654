import Inotispy.Library.Token
import Inotispy.Model.Request
import Inotispy.Model.Roots

/-! `inotispyctl`: the requests that it builds for a path, and what it prints of the replies. -/

set_option autoImplicit false

namespace Inotispy
open Library

namespace Inotispyctl

/-- `{"call":"...","path":"%s"`, and what follows the path. -/
def message (call : Str) (path rest : Str) : Str :=
  str "\x7b\"call\":\"" ++ call ++ str "\",\"path\":\"" ++ path ++ str "\"" ++ rest

def watch (path : Str) : Str := message (str "watch") path (str "\x7d")

def unwatch (path : Str) : Str := message (str "unwatch") path (str "\x7d")

def pauseRoot (path : Str) : Str := message (str "pause") path (str "\x7d")

def unpauseRoot (path : Str) : Str := message (str "unpause") path (str "\x7d")

def getQueueSize (path : Str) : Str := message (str "get_queue_size") path (str "\x7d")

def getEventsRaw (path : Str) (count : Int32) : Str :=
  message (str "get_events") path (str ",\"count\":" ++ percentD count.toInt ++ str "\x7d")

/-- `list_roots`, its request -/
def listRoots : Str := str "\x7b\"call\":\"get_roots\"\x7d"

/-- The functions of the client that send a path. -/
inductive Command where
  | watch | unwatch | pauseRoot | unpauseRoot | getQueueSize
  | getEventsRaw (count : Int32)

def Command.text : Command → Str → Str
  | .watch, path => Inotispyctl.watch path
  | .unwatch, path => Inotispyctl.unwatch path
  | .pauseRoot, path => Inotispyctl.pauseRoot path
  | .unpauseRoot, path => Inotispyctl.unpauseRoot path
  | .getQueueSize, path => Inotispyctl.getQueueSize path
  | .getEventsRaw count, path => Inotispyctl.getEventsRaw path count

/-- The call that each of them is meant to make. -/
def Command.call : Command → Str
  | .watch => str "watch"
  | .unwatch => str "unwatch"
  | .pauseRoot => str "pause"
  | .unpauseRoot => str "unpause"
  | .getQueueSize => str "get_queue_size"
  | .getEventsRaw _ => str "get_events"

/-! ## Replies

Each function of the client sends one request and reads one reply. What it prints is the value
here, or the error where it calls `exit(1)`. Its allocations succeed. -/

section
-- What `json_object_get_int` makes of a value that is no integer.
variable {σ : Type} [System σ] (otherInt : Json → Int32)

variable (σ) in
def parseJson (json : Str) : Except Str Json :=
  match System.jsonTokenerParse (σ := σ) json with
  | some jobj => .ok jobj
  | none => .error (str "Failed to parse JSON: " ++ json ++ str "\n")

def getInt : Option Json → Int32
  | none => 0
  | some (.int value) => Json.getInt value
  | some other => otherInt other

variable (σ) in
/-- `json_object_get_string`, as far as `%s` prints it -/
def getString : Option Json → Option Str
  | none | some .null => none
  | some (.string text) => some (CString.ofBuffer text)
  | some other => some (System.jsonObjectToJsonString (σ := σ) other)

variable (σ) in
def handleError (json : Str) : Except Str Unit := do
  let jobj ← parseJson σ json
  match jobj.objectGet (str "error") with
  | none => return ()
  | some error =>
    let code := error.objectGet (str "code")
    let message := error.objectGet (str "message")
    .error (str "ERROR: " ++ percentD (getInt otherInt code).toInt ++ str ": " ++
      percentS (getString σ message) ++ str "\n")

variable (σ) in
def getReply (received : Str) : Except Str Str := do
  let message := CString.ofBuffer received
  handleError σ otherInt message
  return message

variable (σ) in
/-- The functions that only say that the daemon has done what it was asked. -/
def confirm (before path after received : Str) : Except Str Str := do
  let _ ← getReply σ otherInt received
  return before ++ path ++ after

variable (σ) in
/-- `watch`, from the reply on -/
def watched (path received : Str) : Except Str Str :=
  confirm σ otherInt (str "Root ") path (str " is now being watched\n") received

variable (σ) in
/-- `unwatch`, from the reply on -/
def unwatched (path received : Str) : Except Str Str :=
  confirm σ otherInt (str "Root ") path (str " is no longer being watched\n") received

variable (σ) in
/-- `pause_root`, from the reply on -/
def rootPaused (path received : Str) : Except Str Str :=
  confirm σ otherInt (str "Root ") path (str " is now paused\n") received

variable (σ) in
/-- `unpause_root`, from the reply on -/
def rootUnpaused (path received : Str) : Except Str Str :=
  confirm σ otherInt (str "Root ") path (str " is now unpaused\n") received

variable (σ) in
/-- `flush_queue`, from the reply on; its request is for a count of 0. -/
def queueFlushed (path received : Str) : Except Str Str :=
  confirm σ otherInt (str "Queue for root ") path (str " has been flushed\n") received

variable (σ) in
/-- `get_queue_size`, from the reply on -/
def queueSize (received : Str) : Except Str Int32 := do
  let reply ← getReply σ otherInt received
  let jobj ← parseJson σ reply
  match jobj.objectGet (str "data") with
  | none => .error (str "Failed to find data for queue_size in reply\n")
  | some (.int value) => return Json.getInt value
  | some _ => .error (str "Data received from server had invalid format\n")

variable (σ) in
/-- `list_queue_size`, from the reply on -/
def queueSizeListed (path received : Str) : Except Str Str := do
  let size ← queueSize σ otherInt received
  return path ++ str "  " ++ percentD size.toInt ++ str "\n"

def isUnsignedInt (text : Str) : Bool := text.head? != some '-' && text.all Char.isDigit

/-- `list_events`, up to its request -/
def listEvents (path count : Str) : Except Str Str :=
  if isUnsignedInt count then return getEventsRaw path (CString.atoi count)
  else .error (str ("ERROR: Invalid value for 'count' while calling get_events.\n" ++
    "       This should be a number >= 0, where 0 means you want\n" ++
    "       to retrieve *all* the events in the queue.\n" ++
    "       Run \x60inotispyctl --help\x60 or \x60man inotispyctl\x60 for more info.\n"))

variable (σ) in
def fmtEvent (event : Json) : Str :=
  percentS (getString σ (event.objectGet (str "path"))) ++ str "/" ++
    percentS (getString σ (event.objectGet (str "name"))) ++ str "  " ++
    percentD (getInt otherInt (event.objectGet (str "mask"))).toInt

variable (σ) in
def printEvents : List Json → Str
  | [] => str "There are no events at this time\n"
  | events => events.flatMap fun event => fmtEvent σ otherInt event ++ str "\n"

variable (σ) in
/-- `list_events`, from the reply on -/
def eventsListed (received : Str) : Except Str Str := do
  let reply ← getReply σ otherInt received
  let jobj ← parseJson σ reply
  match jobj.objectGet (str "data") with
  | none => .error (str "ERROR: Failed to find data for events in reply\n")
  | some (.array events) => return printEvents σ otherInt events
  | some _ => return []

variable (σ) in
def printRoots : List Json → Str
  | [] => str "There are no currently watched roots\n"
  | roots => roots.flatMap fun root => percentS (getString σ (some root)) ++ str "\n"

variable (σ) in
/-- `list_roots`, from the reply on, without the queues -/
def rootsListed (received : Str) : Except Str Str := do
  let reply ← getReply σ otherInt received
  let jobj ← parseJson σ reply
  match jobj.objectGet (str "data") with
  | none => .error (str "Failed to find data for roots in reply\n")
  | some (.array roots) => return printRoots σ roots
  | some _ => .error (str "Data received from server had invalid format\n")

/-- The commands of which the client says no more than that the daemon has carried them out. -/
inductive Order where
  | watch | unwatch | pauseRoot | unpauseRoot | flushQueue

def Order.command : Order → Command
  | .watch => .watch
  | .unwatch => .unwatch
  | .pauseRoot => .pauseRoot
  | .unpauseRoot => .unpauseRoot
  | .flushQueue => .getEventsRaw 0

variable (σ) in
def Order.printed : Order → Str → Str → Except Str Str
  | .watch => watched σ otherInt
  | .unwatch => unwatched σ otherInt
  | .pauseRoot => rootPaused σ otherInt
  | .unpauseRoot => rootUnpaused σ otherInt
  | .flushQueue => queueFlushed σ otherInt

end

end Inotispyctl
end Inotispy
