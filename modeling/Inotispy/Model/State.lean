import Inotispy.Library.CString
import Inotispy.Library.HashTable
import Inotispy.Library.Program

/-! The daemon's data: roots, watches, queued events, threads and the state they share.

The types follow `inotify.h` and `request.h`. A pointer to a `Root` is an index
into the state's heap of roots, since walker threads keep it after the root has
left `inotify_roots`; a `Watch` never changes once made, so it is a value that
carries its own address. What the program asks of the kernel, of libc
and of json-c is collected in the class `System`; its socket is a `Socket`.
-/

set_option autoImplicit false

namespace Inotispy
open Library

/-! ## Bits of an inotify mask -/

def inAttrib : UInt32 := 0x4
def inCloseWrite : UInt32 := 0x8
def inCloseNowrite : UInt32 := 0x10
def inMovedFrom : UInt32 := 0x40
def inMovedTo : UInt32 := 0x80
def inCreate : UInt32 := 0x100
def inDelete : UInt32 := 0x200
def inUnmount : UInt32 := 0x2000
def inQOverflow : UInt32 := 0x4000
def inIgnored : UInt32 := 0x8000
def inDontFollow : UInt32 := 0x2000000
def inIsdir : UInt32 := 0x40000000

/-- `INOTIFY_DEFAULT_MASK` -/
def inotifyDefaultMask : UInt32 :=
  inAttrib ||| inMovedFrom ||| inMovedTo ||| inCreate ||| inCloseWrite ||| inDelete |||
    inUnmount ||| inDontFollow

/-- `mask & bit`, as a condition. -/
def hasBit (mask bit : UInt32) : Bool := mask &&& bit != 0

/-- `INOTIFY_EVENT_SIZE`: the header of a kernel record, without the name. -/
def inotifyEventSize : Nat := 16

/-! ## Records -/

/-- `IN_Event`: one record read from the inotify descriptor. The name is the
string in the record's name field, which the kernel pads to `len` bytes. -/
structure InEvent where
  wd : Int
  mask : UInt32
  cookie : UInt32
  len : UInt32
  name : Str
  deriving DecidableEq, Repr

/-- `Event`: a node of a root's queue. A copy that could not be allocated is null. -/
structure Event where
  wd : Int
  mask : UInt32
  cookie : UInt32
  len : UInt32
  path : Option Str
  name : Option Str
  deriving DecidableEq, Repr

/-- `Root`. The queue is present until the root's destroy thread frees it. -/
structure Root where
  path : Option Str
  mask : UInt32
  maxEvents : Int32
  queue : Option (List Event)
  destroy : Bool
  pause : Bool
  rewatch : Bool
  persist : Bool
  deriving DecidableEq, Repr, Inhabited

/-- The events in a root's queue; none in one that has been freed. -/
def Root.events (root : Root) : List Event := root.queue.getD []

/-- A `Root *` -/
abbrev RootRef := Nat

/-- `Watch`, with the address it was allocated at. A thread that has looked one up has its own copy,
where the code has a pointer that another thread can free. -/
structure Watch where
  addr : Nat
  wd : Int
  path : Str
  deriving DecidableEq, Repr

/-- The codes of `enum inotispy_error`; a function's return value 0 is `none`. -/
inductive InotispyError where
  | jsonInvalid | jsonParse | jsonKeyNotFound | zeroByteMessage | zeromqReconnect
  | inotifyWatchFailed | inotifyUnwatchFailed | invalidEventCount | inotifyRootNotWatched
  | inotifyRootAlreadyWatched | inotifyParentOfRoot | inotifyChildOfRoot
  | inotifyRootDoesNotExist | inotifyRootQueueFull | notAbsolutePath
  | failedToCreateNewThread | memoryAllocation | inotifyRootBeingDestroyed | badCall | unknown
  deriving DecidableEq, Repr

/-- `dirent::d_type`, as far as the walker tells the types apart. -/
inductive DType where
  | unknown | lnk | dir | other
  deriving DecidableEq, Repr

structure Dirent where
  name : Str
  dType : DType
  deriving DecidableEq, Repr

/-- What `lstat` says a name is. -/
inductive FileMode where
  | lnk | dir | other
  deriving DecidableEq, Repr

/-- A json-c object tree. -/
inductive Json where
  | null
  | boolean (value : Bool)
  | int (value : Int)
  | double (text : Str)
  | string (text : Str)
  | array (items : List Json)
  | object (members : List (Str × Json))

/-! ## Threads -/

/-- `T_Data`: what a walker thread is started with. -/
structure TData where
  path : Option Str
  root : RootRef
  cleanup : Bool
  deriving DecidableEq, Repr

/-- One active call of `_do_watch_tree_rec`. -/
inductive Frame where
  /-- About to run the call's critical section. -/
  | call (path : Str)
  /-- The directory has been entered in the tables and is about to be read. -/
  | opened (path : Str)
  /-- In the loop over the directory's entries. -/
  | reading (path : Str) (rest : List Dirent)
  deriving DecidableEq, Repr

/-- A thread, by the place it has reached between two critical sections. -/
inductive Thread where
  /-- `_do_watch_tree`, entered. -/
  | watchTree (data : TData)
  /-- `_do_watch_tree_rec`, with its stack of calls. -/
  | watchTreeRec (data : TData) (stack : List Frame)
  /-- `_destroy_root`, entered. -/
  | destroyRoot (root : RootRef)
  /-- `_destroy_root`, in the loop over its snapshot of the keys. The snapshots are copies of the
  keys; those of the code are the table's own strings, and good while their entries stay. -/
  | destroyKeys (root : RootRef) (tmp : Option Str) (keys : List Str)
  /-- `_destroy_root`, with a watch looked up and the mutex free again. -/
  | destroyWatch (root : RootRef) (tmp : Option Str) (path : Str) (watch : Watch) (keys : List Str)
  /-- `_destroy_root`, past `inotify_rm_watch` for this watch. -/
  | destroyEntry (root : RootRef) (tmp : Option Str) (path : Str) (watch : Watch) (keys : List Str)
  /-- `_destroy_root`, with only the dump left to do. -/
  | destroyDump
  /-- `_inotify_memclean`, entered. -/
  | memclean
  /-- `_inotify_memclean`, about to take its snapshot of the keys. -/
  | memcleanSnapshot
  /-- `_inotify_memclean`, in the loop over the snapshot. -/
  | memcleanKeys (keys : List Str)
  /-- `_inotify_memclean`, past the test that found `path` not to be a directory. -/
  | memcleanPath (path : Str) (keys : List Str)
  | finished
  deriving DecidableEq, Repr

/-! ## The outside -/

/-- Everything the program calls that is not its own. Each call answers from a
state `σ` and may change it, so the answers may vary in any way over time. -/
class System (σ : Type) where
  malloc : σ → Bool × σ
  pthreadCreate : σ → Bool × σ
  /-- Whether the path opens as a directory. -/
  opendir : σ → Str → Bool × σ
  /-- Open a directory and list it; `none` when it cannot be opened. -/
  readdir : σ → Str → Option (List Dirent) × σ
  lstat : σ → Str → FileMode × σ
  /-- Whether `stat` succeeds and finds a directory. -/
  statIsDir : σ → Str → Bool × σ
  inotifyAddWatch : σ → Str → UInt32 → Int × σ
  inotifyRmWatch : σ → Int → Int × σ
  /-- Whether the dump file opens for writing. -/
  fopenDump : σ → Bool × σ
  getpid : σ → Int
  /-- Seconds since the daemon started. -/
  uptime : σ → Int
  /-- `json_tokener_parse_ex` on a whole text; `none` when the tokener reports an error. -/
  jsonTokenerParse : Str → Option Json
  jsonObjectToJsonString : Json → Str

/-- `inotify_mutex` and `zmq_mutex` -/
inductive Mutex where
  | inotify | zmq
  deriving DecidableEq, Repr

/-- The ways in which a thread can fail to go on. -/
inductive Fault where
  /-- A null pointer is dereferenced. -/
  | nullDeref
  /-- A mutex is locked by the thread that holds it. -/
  | relock (mutex : Mutex)
  deriving DecidableEq, Repr

structure Locks where
  inotify : Bool
  zmq : Bool
  -- Set when a mutex is unlocked that is not held.
  badUnlock : Bool
  deriving DecidableEq, Repr

/-- The roots. `heap` is the memory behind every pointer `make_root` has returned. What
`_destroy_root` frees stays readable here, so a run in which a thread outlives its root says
nothing about the code. -/
structure RootTable where
  inotifyRoots : GHashTable Str RootRef
  inotifyNumWatchedRoots : Int
  heap : RootRef → Root
  nextRoot : RootRef

/-- The watches. `inserted` is a history that no function reads: every watch ever
entered in the tables, with the root whose walker entered it. -/
structure WatchTable where
  inotifyWdToWatch : GHashTable Int Watch
  inotifyPathToWatch : GHashTable Str Watch
  nextWatch : Nat
  inserted : List (RootRef × Watch)

/-- The threads that were started. The schedule says which of them run, and in what
order, each time the main thread is outside its critical sections. -/
structure Pool where
  threads : List Thread
  schedule : List (List Nat)
  inMemclean : Bool
  inRootRewatch : Bool
  deriving DecidableEq, Repr

/-- A ZeroMQ socket of type REP. It hands out the next request, or fails to, only when the
one before has been answered, and it sends only when there is one to answer. -/
structure Socket where
  inbox : List (Option (List Char))
  pending : Bool
  -- The replies sent, oldest first.
  replies : List Str
  deriving DecidableEq, Repr

namespace Socket

/-- `zmq_recv`: the next request, or `none` when the call fails. -/
def recv (socket : Socket) : Option (List Char) × Socket :=
  if socket.pending then (none, socket)
  else match socket.inbox with
    | [] => (none, socket)
    | request :: inbox => (request, { socket with inbox := inbox, pending := request.isSome })

/-- `zmq_send`; the return value is zero on success. -/
def send (message : Str) (socket : Socket) : Int × Socket :=
  if socket.pending then (0, { socket with pending := false, replies := socket.replies ++ [message] })
  else (-1, socket)

end Socket

/-- What the daemon has written, and what it should not have done. -/
structure Output where
  -- Text of `INOTIFY_ROOT_DUMP_FILE`.
  dumpFile : Str
  overflowReports : Nat
  -- Set when the queue of a root is used after its destroy thread freed it.
  releasedQueueUsed : Bool
  deriving DecidableEq, Repr

/-- The state all threads share, with the outside's. -/
structure World (σ : Type) where
  sys : σ
  locks : Locks
  roots : RootTable
  watches : WatchTable
  pool : Pool
  socket : Socket
  output : Output
  -- `CONFIG->max_inotify_events`
  maxInotifyEvents : Int32

/-- The daemon just started, with nothing watched. -/
def World.initial {σ : Type} (sys : σ) : World σ :=
  { sys := sys
    locks := ⟨false, false, false⟩
    roots := ⟨∅, 0, fun _ => { (default : Root) with path := some [] }, 0⟩
    watches := ⟨∅, ∅, 0, []⟩
    pool := ⟨[], [], false, false⟩
    socket := ⟨[], false, []⟩
    output := ⟨[], 0, false⟩
    maxInotifyEvents := 65536 }

abbrev M (σ : Type) := Program Fault (World σ)

end Inotispy
