import Inotispy.Model.Zeromq

/-! Runs of the daemon with its clients: requests of any kind, events and timers on the main
thread, steps of the other threads before, between and within them. -/

set_option autoImplicit false

namespace Inotispy
open Library

variable {σ : Type} [System σ]

/-- One round of the main loop, or a turn of another thread. -/
inductive Action where
  /-- A root that was read from the dump file while the daemon starts. -/
  | setup (path : Str) (mask : UInt32) (maxEvents : Int32)
  | request (req : Request)
  | record (event : InEvent)
  | memclean
  | rewatchRoots
  | dumpRoots
  | thread (index : Nat)
  /-- Which threads run in the middle of the next call, and when. -/
  | schedule (turns : List (List Nat))
  /-- What clients have sent. -/
  | receive (socket : Socket)

def Action.perform : Action → M σ Unit
  | .setup path mask maxEvents => do
    let _ ← inotifyWatchTree path mask maxEvents true
    return ()
  | .request req => zmqDispatchEvent req
  | .record event => do
    let _ ← inotifyHandleRecord event
    return ()
  | .memclean => inotifyMemclean
  | .rewatchRoots => inotifyRewatchRoots
  | .dumpRoots => inotifyDumpRoots
  | .thread index => runThread index
  | .schedule turns => modifyPool ({ · with schedule := turns })
  | .receive socket => modifySocket fun _ => ((), socket)

/-- The dump file lists absolute paths only, as clients can watch no others. -/
def Action.Possible : Action → Prop
  | .setup path _ _ => path.head? = some '/'
  | _ => True

structure ServerStep (action : Action) (w w' : World σ) : Prop where
  possible : action.Possible
  ran : action.perform w = .ok ((), w')

/-- The states of a daemon with its clients. -/
def Served (w : World σ) : Prop :=
  ∃ sys, Relation.ReflTransGen (fun v v' => ∃ action, ServerStep action v v') (World.initial sys) w

end Inotispy
