import Inotispy.Model.Stepwise

/-! Signals: `sig_handler` and the main loop it interrupts.

A signal can be delivered between any two steps of the main thread, and its handler runs on the
main thread itself. The other threads and the clients go on in between.
-/

set_option autoImplicit false

namespace Inotispy
open Library

variable {σ : Type} [System σ]

/-- The daemon with `main_mutex`, which no other thread uses. -/
structure Daemon (σ : Type) where
  world : World σ
  mainMutex : Bool

/-- Why the main thread does not go on. -/
inductive Stop where
  | fault (why : Fault)
  /-- `main_mutex` is locked by the thread that holds it. -/
  | relockMain
  | exited
  deriving DecidableEq, Repr

omit [System σ] in
def onWorld {A : Type} (x : M σ A) : Program Stop (Daemon σ) A := fun d =>
  match x d.world with
  | .ok (a, w) => .ok (a, { d with world := w })
  | .error why => .error (.fault why)

def Operation.does {A : Type} : Operation σ A → Program Stop (Daemon σ) A
  | .piece x => onWorld x
  | .yieldMain => onWorld Inotispy.yieldMain
  | .acquire mutex => onWorld (Inotispy.acquire mutex)
  | .release mutex => onWorld (Inotispy.release mutex)
  -- No other thread locks it, so a held one is held by the thread that wants it.
  | .acquireMain => fun d => if d.mainMutex then .error .relockMain else .ok ((), { d with mainMutex := true })
  | .releaseMain => Program.update ({ · with mainMutex := false })
  | .mallocNode => onWorld malloc
  | .exit => Program.fault .exited

inductive Signal where
  | sighup | sigint
  deriving DecidableEq, Repr

namespace Stepwise

/-- `alarm_handler`, as far as it takes mutexes. The reload of a changed configuration and the copy of
it that is printed are left out: neither takes a mutex, but a reload can leave the daemon without
a logger, which the next message that is logged does not survive. -/
def alarmHandler : Code σ Unit := do
  .perform .acquireMain
  -- The lock of the tables is taken within that of the handler.
  inotifyDumpRoots
  .perform .releaseMain

/-- `sig_handler`. What it does between `inotify_cleanup` and `exit` takes no mutex. -/
def sigHandler : Signal → Code σ Unit
  | .sighup => alarmHandler
  | .sigint => do
    inotifyDumpRoots
    .perform .exit

/-- What the clock and `zmq_poll` give in one round of the main loop: the timers that have run out,
the records that can be read and whether there is a request. -/
structure Poll where
  alarm : Bool
  memclean : Bool
  events : List InEvent
  request : Bool

omit [System σ] in
def ifDue (due : Bool) (code : Code σ Unit) : Code σ Unit := if due then code else pure ()

def mainRound (poll : Poll) : Code σ Unit := do
  ifDue poll.alarm alarmHandler
  ifDue poll.memclean do
    piece inotifyMemclean
    inotifyRewatchRoots
  inotifyHandleEvent poll.events
  ifDue poll.request zmqHandleEvent

/-- What the main thread starts on: before the loop, a root that was read from the dump file. -/
inductive Starts : Code σ Unit → Prop where
  | setup (path : Str) (mask : UInt32) (maxEvents : Int32) :
      Starts (do
        let _ ← inotifyWatchTree path mask maxEvents true
        return ())
  | round (poll : Poll) : Starts (mainRound poll)

end Stepwise

/-- A round that nothing interrupts, by the functions that its code follows. -/
def mainRound (poll : Stepwise.Poll) : M σ Unit := do
  (if poll.alarm then inotifyDumpRoots else pure ())
  (if poll.memclean then (do inotifyMemclean; inotifyRewatchRoots) else pure ())
  inotifyHandleEvent poll.events
  (if poll.request then zmqHandleEvent else pure ())

/-- What happens beside the main thread: a step of another thread, which waits while a mutex it
needs is held, and what clients send. -/
inductive Meanwhile (d : Daemon σ) : Daemon σ → Prop where
  | thread {index : Nat} {w : World σ} (ran : runThread index d.world = .ok ((), w)) : Meanwhile d { d with world := w }
  | received (inbox : List (Option (List Char))) : Meanwhile d { d with world.socket.inbox := inbox }

abbrev MainThread (σ : Type) := Library.Process (Operation σ) (Daemon σ)

def MainThread.initial (sys : σ) : MainThread σ := ⟨[], ⟨World.initial sys, false⟩⟩

abbrev DaemonMoves : Cause Signal → MainThread σ → MainThread σ → Prop :=
  Moves Operation.does Stepwise.Starts Stepwise.sigHandler Meanwhile

/-- The main thread is about to lock `main_mutex` or `inotify_mutex`, which it holds. -/
def Relocks (thread : MainThread σ) : Prop :=
  thread.Stops Operation.does .relockMain ∨ thread.Stops Operation.does (.fault (.relock .inotify))

end Inotispy
