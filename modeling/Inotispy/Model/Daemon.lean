import Inotispy.Model.Events

/-! Runs of the whole daemon: requests, events and timers on the main thread, steps of the
other threads before, between and within them, and restarts. -/

set_option autoImplicit false

namespace Inotispy
open Library

variable {σ : Type} [System σ]

/-- One thing that happens. Requests are taken at the functions that serve them, which the
requests of one message reach with any arguments. -/
inductive DaemonStep (w : World σ) : World σ → Prop where
  | watch {path : Str} {mask : UInt32} {maxEvents : Int32} {rewatch : Bool}
      {code : Option InotispyError} {w' : World σ}
      (ran : inotifyWatchTree path mask maxEvents rewatch w = .ok (code, w')) : DaemonStep w w'
  | unwatch {path : Str} {code : Option InotispyError} {w' : World σ}
      (ran : inotifyUnwatchTree path w = .ok (code, w')) : DaemonStep w w'
  | pause {pause : Bool} {path : Str} {code : Option InotispyError} {w' : World σ}
      (ran : setPause pause path w = .ok (code, w')) : DaemonStep w w'
  | getEvents {path : Str} {count : Int32} {taken : Dequeued} {w' : World σ}
      (ran : inotifyGetEvents path count w = .ok (taken, w')) : DaemonStep w w'
  | record {event : InEvent} {round : Round} {w' : World σ}
      (ran : inotifyHandleRecord event w = .ok (round, w')) : DaemonStep w w'
  | memclean {w' : World σ} (ran : inotifyMemclean w = .ok ((), w')) : DaemonStep w w'
  | rewatchRoots {w' : World σ} (ran : inotifyRewatchRoots w = .ok ((), w')) : DaemonStep w w'
  | dumpRoots {w' : World σ} (ran : inotifyDumpRoots w = .ok ((), w')) : DaemonStep w w'
  | thread {index : Nat} {w' : World σ} (ran : runThread index w = .ok ((), w')) : DaemonStep w w'
  -- Which threads run in the middle of the next call, and when.
  | schedule (turns : List (List Nat)) : DaemonStep w { w with pool.schedule := turns }

/-- The daemon goes on, or is started anew. What a restart reads from the dump file comes as
watch requests. -/
inductive DaemonOrRestart (w : World σ) : World σ → Prop where
  | step {w' : World σ} (next : DaemonStep w w') : DaemonOrRestart w w'
  | restart (sys : σ) :
      DaemonOrRestart w
        { World.initial sys with output := w.output, maxInotifyEvents := w.maxInotifyEvents }

/-- The states of the daemon. -/
def Reachable (w : World σ) : Prop :=
  ∃ sys, Relation.ReflTransGen DaemonOrRestart (World.initial sys) w

end Inotispy
