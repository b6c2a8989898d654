import Inotispy.Locks.Stepwise
import Inotispy.Model.Script
import Inotispy.Threads.Alone

/-! When a signal leaves the daemon hanging.

The handlers lock `main_mutex` and `inotify_mutex` on the thread they interrupt. While signals
come only where these are free, and each node for a queue is allocated, the code on the stack
can always be finished from the top down, and no mutex is locked by the thread that holds it.
-/

set_option autoImplicit false

namespace Inotispy
open Library

variable {σ : Type} [System σ]

/-! ## The operations -/

def Daemon.held (d : Daemon σ) : Held := ⟨d.mainMutex, d.world.locks.inotify⟩

def Operation.Granted {A : Type} : Operation σ A → Daemon σ → Prop
  | .mallocNode, d => (System.malloc d.world.sys).1 = true
  | _, _ => True

def Stop.Relock (why : Stop) : Prop := why = .relockMain ∨ why = .fault (.relock .inotify)

omit [System σ] in
theorem onWorld_eq_ok {A : Type} {x : M σ A} {d d' : Daemon σ} {a : A} (ran : onWorld x d = .ok (a, d')) :
    ∃ w, x d.world = .ok (a, w) ∧ d' = { d with world := w } := by
  unfold onWorld at ran
  cases inner : x d.world with
  | error why => rw [inner] at ran; cases ran
  | ok result => rw [inner] at ran; cases ran; exact ⟨_, rfl, rfl⟩

omit [System σ] in
theorem onWorld_eq_error {A : Type} {x : M σ A} {d : Daemon σ} {why : Stop} (stopped : onWorld x d = .error why) :
    ∃ fault, x d.world = .error fault ∧ why = .fault fault := by
  unfold onWorld at stopped
  cases inner : x d.world with
  | error fault => rw [inner] at stopped; cases stopped; exact ⟨fault, rfl, rfl⟩
  | ok result => rw [inner] at stopped; cases stopped

omit [System σ] in
theorem acquire_eq_ok {mutex : Mutex} {w w' : World σ} {a : Unit} (ran : acquire mutex w = .ok (a, w')) :
    w' = { w with locks := w.locks.set mutex true } := by
  have run : (acquire mutex >>= fun _ => pure a) w = .ok (a, w') := (bind_pure (acquire mutex)).symm ▸ ran
  obtain ⟨_, ends⟩ := (acquire_bind_eq_ok w).mp run
  exact (Program.pure_eq_ok.mp ends).2

omit [System σ] in
theorem acquire_eq_error {mutex : Mutex} {w : World σ} {why : Fault} (stopped : acquire mutex w = .error why) :
    w.locks.held mutex = true ∧ why = .relock mutex := by
  cases held : w.locks.held mutex with
  | false => rw [acquire_run held] at stopped; cases stopped
  | true =>
    simp [acquire, Program.bind_apply, held] at stopped
    exact ⟨rfl, stopped.symm⟩

theorem next_follows : Follows (fun {B : Type} => Operation.next (σ := σ) (A := B)) (fun {B : Type} => Operation.does (A := B))
    Daemon.held (fun d => d.world.pool.schedule = []) (fun {B : Type} => Operation.Granted (A := B)) Stop.Relock where
  monotone := next_monotone
  moves {B} op d d' b after alone granted next ran := by
    cases op with
    | piece x =>
      obtain ⟨w, inner, rfl⟩ := onWorld_eq_ok ran
      -- A piece leaves the locks alone, so the view after it is the one before.
      obtain ⟨locks, schedule⟩ := next.1.of_ok inner
      have same : Daemon.held { d with world := w } = d.held := congrArg (Held.mk _) (congrArg Locks.inotify locks)
      exact ⟨schedule.trans alone, same ▸ next.2 b⟩
    | yieldMain =>
      obtain ⟨w, inner, rfl⟩ := onWorld_eq_ok ran
      obtain ⟨_, rfl⟩ := Program.ok_unique (yieldMain_alone alone) inner
      exact ⟨alone, next⟩
    | acquire mutex =>
      obtain ⟨w, inner, rfl⟩ := onWorld_eq_ok ran
      obtain rfl := acquire_eq_ok inner
      cases mutex with
      | inotify => exact ⟨alone, next.2⟩
      | zmq => exact ⟨alone, next⟩
    | release mutex =>
      have ran : onWorld (release mutex) d = .ok (b, d') := ran
      obtain ⟨w, inner, rfl⟩ := onWorld_eq_ok ran
      obtain rfl := release_eq_ok.mp inner
      cases mutex <;> exact ⟨alone, next⟩
    | acquireMain =>
      have free : d.mainMutex = false := next.1
      simp only [Operation.does, free, Bool.false_eq_true, if_false] at ran
      cases ran
      exact ⟨alone, next.2⟩
    | releaseMain =>
      cases ran
      exact ⟨alone, next⟩
    | mallocNode =>
      -- The code is followed only where the node is allocated.
      have allocated : (System.malloc d.world.sys).1 = true := granted
      cases ran
      exact ⟨alone, allocated ▸ next⟩
    | exit => cases ran
  spares {B} op d why after alone next stopped := by
    cases op with
    | piece x =>
      obtain ⟨fault, inner, rfl⟩ := onWorld_eq_error stopped
      have crash := next.1.of_error inner
      rintro (is | is) <;> cases is
      exact crash
    | yieldMain =>
      obtain ⟨fault, inner, rfl⟩ := onWorld_eq_error stopped
      rw [yieldMain_alone alone] at inner
      cases inner
    | acquire mutex =>
      obtain ⟨fault, inner, rfl⟩ := onWorld_eq_error stopped
      -- Locking fails on a held mutex only, and `inotify_mutex` is free in the view.
      obtain ⟨held, rfl⟩ := acquire_eq_error inner
      cases mutex with
      | inotify =>
        have free : d.world.locks.inotify = false := next.1
        exact absurd held (by simp [Locks.held, free])
      | zmq => rintro (is | is) <;> cases is
    | acquireMain =>
      have free : d.mainMutex = false := next.1
      simp only [Operation.does, free, Bool.false_eq_true, if_false] at stopped
      cases stopped
    | exit =>
      cases stopped
      rintro (is | is) <;> cases is
    | _ => cases stopped

/-! ## The code that runs -/

/-- Code that finds the mutexes of the handlers free and leaves them so. -/
def Resting (code : Stepwise.Code σ Unit) : Prop := code.Safe Operation.next ⟨false, false⟩ fun _ h => h = ⟨false, false⟩

omit [System σ] in
theorem Resting.andThen {x y : Stepwise.Code σ Unit} (first : Resting x) (rest : Resting y) : Resting (do x; y) :=
  Code.Safe.andThen next_monotone first fun _ => rest

omit [System σ] in
theorem Resting.ifDue {due : Bool} {code : Stepwise.Code σ Unit} (rests : Resting code) :
    Resting (Stepwise.ifDue due code) := by
  cases due with
  | false => exact rfl
  | true => exact rests

theorem Resting.of_renders {code : Stepwise.Code σ Unit} {x : M σ Unit} (renders : Renders false code x false) :
    Resting code :=
  renders.safe false

theorem alarmHandler_resting : Resting (σ := σ) Stepwise.alarmHandler :=
  ⟨rfl, (inotifyDumpRoots_renders.safe true).andThen next_monotone fun _ => rfl⟩

theorem inotifyMemclean_lockless : Lockless (σ := σ) inotifyMemclean := by
  apply Lockless.bind (read_lockless _)
  intro running
  apply Lockless.ite'
  · exact fun _ => pure_lockless _
  intro _
  apply Lockless.bind (spawn_lockless _)
  exact fun _ => pure_lockless _

theorem mainRound_resting (poll : Stepwise.Poll) : Resting (σ := σ) (Stepwise.mainRound poll) := by
  apply Resting.andThen
  · exact alarmHandler_resting.ifDue
  apply Resting.andThen
  · apply Resting.ifDue
    apply Resting.andThen
    · exact .of_renders (.piece inotifyMemclean_lockless)
    · exact .of_renders inotifyRewatchRoots_renders
  apply Resting.andThen
  · exact .of_renders (inotifyHandleEvent_renders poll.events)
  · exact (Resting.of_renders zmqHandleEvent_renders).ifDue

theorem Stepwise.Starts.resting {code : Stepwise.Code σ Unit} (starts : Stepwise.Starts code) : Resting code := by
  cases starts with
  | setup path mask maxEvents =>
    exact (inotifyWatchTree_renders path mask maxEvents true).safe false |>.andThen next_monotone fun _ => rfl
  | round poll => exact mainRound_resting poll

/-- The handlers finish wherever the mutexes they lock are free. -/
theorem sigHandler_safe {signal : Signal} {h : Held} (free : h.inotify = false) (main : signal = .sighup → h.main = false) :
    (Stepwise.sigHandler (σ := σ) signal).Safe Operation.next h fun _ h' => h' = h := by
  obtain ⟨held, inotify⟩ := h
  obtain rfl : inotify = false := free
  cases signal with
  | sighup =>
    obtain rfl : held = false := main rfl
    exact alarmHandler_resting
  | sigint => exact (inotifyDumpRoots_renders.safe held).andThen next_monotone fun _ => trivial

/-! ## Rounds that nothing interrupts -/

/-- With `main_mutex` free the code does what the program does to the world. -/
def Mirrors (code : Stepwise.Code σ Unit) (x : M σ Unit) : Prop :=
  ∀ d : Daemon σ, d.mainMutex = false → code.run Operation.does d = onWorld x d

theorem Renders.mirrors {i i' : Bool} {code : Stepwise.Code σ Unit} {x : M σ Unit} (renders : Renders i code x i') :
    Mirrors code x := fun d _ => congrFun renders.program d

theorem Mirrors.andThen {code code' : Stepwise.Code σ Unit} {x y : M σ Unit} (first : Mirrors code x)
    (rest : Mirrors code' y) : Mirrors (do code; code') (do x; y) := by
  intro d free
  rw [Code.run_bind, onWorld_bind, Program.bind_apply, Program.bind_apply, first d free]
  cases ran : onWorld x d with
  | error why => rfl
  | ok result =>
    obtain ⟨w, _, same⟩ := onWorld_eq_ok ran
    exact rest _ (same ▸ free)

theorem Mirrors.ifDue {due : Bool} {code : Stepwise.Code σ Unit} {x : M σ Unit} (mirrors : Mirrors code x) :
    Mirrors (Stepwise.ifDue due code) (if due then x else pure ()) := by
  cases due with
  | false => exact fun _ _ => rfl
  | true => exact mirrors

theorem alarmHandler_mirrors : Mirrors (σ := σ) Stepwise.alarmHandler inotifyDumpRoots := by
  rintro ⟨w, _⟩ rfl
  -- The mutex is free, so it is locked at once, and in the end it is free again.
  have dumps := congrFun inotifyDumpRoots_renders.program (⟨w, true⟩ : Daemon σ)
  rw [Stepwise.alarmHandler, Code.run_bind, Code.run_perform]
  change Code.run Operation.does (do Stepwise.inotifyDumpRoots; Code.perform .releaseMain) ⟨w, true⟩ = _
  rw [Code.run_bind, Program.bind_apply, dumps, onWorld, onWorld]
  cases inotifyDumpRoots w <;> rfl

theorem mainRound_mirrors (poll : Stepwise.Poll) : Mirrors (σ := σ) (Stepwise.mainRound poll) (mainRound poll) := by
  apply Mirrors.andThen alarmHandler_mirrors.ifDue
  apply Mirrors.andThen
  · apply Mirrors.ifDue
    have memclean : Renders false (Stepwise.piece inotifyMemclean) inotifyMemclean false :=
      .piece (σ := σ) inotifyMemclean_lockless
    exact memclean.mirrors.andThen inotifyRewatchRoots_renders.mirrors
  apply Mirrors.andThen (inotifyHandleEvent_renders poll.events).mirrors
  exact zmqHandleEvent_renders.mirrors.ifDue

theorem mainRound_moves {poll : Stepwise.Poll} {d : Daemon σ} {w : World σ} (free : d.mainMutex = false)
    (ran : mainRound poll d.world = .ok ((), w)) :
    Relation.ReflTransGen (DaemonMoves .main) ⟨[], d⟩ ⟨[], { d with world := w }⟩ := by
  have whole : (Stepwise.mainRound poll).run Operation.does d = .ok ((), { d with world := w }) := by
    rw [mainRound_mirrors poll d free, onWorld, ran]
  exact .head (.started (.round poll)) (moves_of_run _ _ _ _ whole)

/-! ## Runs -/

/-- Other threads and clients leave the mutexes of the main thread alone. -/
theorem Meanwhile.keeps {d d' : Daemon σ} (alone : d.world.pool.schedule = []) (change : Meanwhile d d') :
    d'.world.pool.schedule = [] ∧ d'.held = d.held := by
  cases change with
  | thread ran =>
    obtain ⟨_, rfl⟩ | ⟨thread, next, v, _, stepped, rfl⟩ := runThread_eq_ok ran
    · exact ⟨alone, rfl⟩
    · have effect := threadStep_effect stepped
      exact ⟨effect.schedule.trans alone, congrArg (Held.mk _) (congrArg Locks.inotify effect.locks)⟩
  | received inbox => exact ⟨alone, rfl⟩

/-- A move at which nothing goes wrong: SIGHUP comes while the main thread holds neither
`main_mutex` nor `inotify_mutex`, SIGINT while it does not hold `inotify_mutex`, and a node that
`inotify_enqueue` asks for is allocated. -/
def Timely (cause : Cause Signal) (thread : MainThread σ) : Prop :=
  match cause with
  | .main => thread.Granted fun {B : Type} => Operation.Granted (A := B)
  | .signal .sighup => thread.state.mainMutex = false ∧ thread.state.world.locks.inotify = false
  | .signal .sigint => thread.state.world.locks.inotify = false
  | .outside => True

def Reached (meets : Cause Signal → MainThread σ → Prop) (sys : σ) (thread : MainThread σ) : Prop :=
  Relation.ReflTransGen (fun before after => ∃ cause, meets cause before ∧ DaemonMoves cause before after)
    (MainThread.initial sys) thread

theorem Reached.move {meets : Cause Signal → MainThread σ → Prop} {sys : σ} {before after : MainThread σ}
    (run : Reached meets sys before) (cause : Cause Signal) (met : meets cause before)
    (moves : DaemonMoves cause before after) : Reached meets sys after :=
  run.tail ⟨cause, met, moves⟩

/-- Between timely moves the main thread can finish all the code that it has interrupted. -/
theorem timely_sound {sys : σ} {thread : MainThread σ} (run : Reached Timely sys thread) :
    thread.Sound (fun {B : Type} => Operation.next (A := B)) Daemon.held (fun d => d.world.pool.schedule = [])
      ⟨false, false⟩ := by
  -- The invariant is that everything on the stack can be finished with what is held now.
  induction run with
  | refl => exact ⟨rfl, rfl⟩
  | @tail before after _ move ih =>
    obtain ⟨cause, timely, moves⟩ := move
    refine ih.moves next_follows (fun _ => Stepwise.Starts.resting) (fun _ _ => Meanwhile.keeps) moves ?_ ?_
    · rintro rfl
      exact timely
    -- The handler finds free what it locks and gives back what it found.
    · rintro signal rfl
      cases signal with
      | sighup => exact sigHandler_safe timely.2 fun _ => timely.1
      | sigint => exact sigHandler_safe timely fun never => by cases never

/-- While all moves are timely the main thread locks no mutex that it holds. -/
theorem timely_signals_do_not_relock {sys : σ} {thread : MainThread σ} (run : Reached Timely sys thread) : ¬Relocks thread := by
  rintro (stops | stops)
  · exact (timely_sound run).spares next_follows stops (.inl rfl)
  · exact (timely_sound run).spares next_follows stops (.inr rfl)

theorem hangup_during_request_does_not_relock :
    ∃ thread, Reached Timely (⟨[]⟩ : Script true) thread ∧ thread.state.world.locks.zmq = true ∧
      thread.state.mainMutex = true ∧ ¬Relocks thread := by
  have start : Reached Timely (⟨[]⟩ : Script true) _ := .refl
  have started := start.move .main trivial (.started (.round ⟨false, false, [], true⟩))
  have yielded := started.move .main trivial (.operation rfl)
  have locked := yielded.move .main trivial (.operation rfl)
  have interrupted := locked.move (.signal .sighup) ⟨rfl, rfl⟩ (.interrupted Signal.sighup)
  have handling := interrupted.move .main trivial (.operation rfl)
  exact ⟨_, handling, rfl, rfl, timely_signals_do_not_relock handling⟩

/-- SIGHUP arrives while the main thread handles the one before it, or looks up the watch of a
record: it then locks `main_mutex`, or `inotify_mutex`, for the second time. -/
theorem hangup_relocks :
    (∃ thread, Reached (fun _ _ => True) (⟨[]⟩ : Script true) thread ∧ Relocks thread ∧
        thread.Stops Operation.does .relockMain) ∧
      ∃ thread, Reached (fun _ _ => True) (⟨[]⟩ : Script true) thread ∧ Relocks thread ∧
        thread.Stops Operation.does (.fault (.relock .inotify)) := by
  have start : Reached (fun _ _ => True) (⟨[]⟩ : Script true) _ := .refl
  constructor
  · have started := start.move .main trivial (.started (.round ⟨true, false, [], false⟩))
    have locked := started.move .main trivial (.operation rfl)
    have interrupted := locked.move (.signal .sighup) trivial (.interrupted Signal.sighup)
    exact ⟨_, interrupted, .inl rfl, rfl⟩
  · have started := start.move .main trivial (.started (.round ⟨false, false, [⟨1, inCreate, 0, 16, str "f"⟩], false⟩))
    have yielded := started.move .main trivial (.operation rfl)
    have locked := yielded.move .main trivial (.operation rfl)
    have interrupted := locked.move (.signal .sighup) trivial (.interrupted Signal.sighup)
    have handling := interrupted.move .main trivial (.operation rfl)
    have waiting := handling.move .main trivial (.operation rfl)
    exact ⟨_, waiting, .inr rfl, rfl⟩

end Inotispy
