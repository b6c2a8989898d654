import Inotispy.Threads.Interleaving

/-! Which mutexes are held before and after each piece of code of a thread.

Locking is by hand, with an unlock on each way out. Here every function gets its balance:
the mutexes held when it is entered and those held when it returns. A function may stop
instead, but only for a null pointer, which ends the daemon.
-/

set_option autoImplicit false

namespace Inotispy
open Library

variable {σ : Type}

/-- A null pointer ends the daemon; a mutex that is locked twice leaves it hanging. -/
def Fault.Crash : Fault → Prop
  | .nullDeref => True
  | .relock _ => False

/-- The mutexes that are held. None has been unlocked that was not. -/
def Holds (i z : Bool) (w : World σ) : Prop := w.locks = ⟨i, z, false⟩

abbrev Takes {A : Type} (i z : Bool) (x : M σ A) (i' z' : Bool) : Prop :=
  Spares Fault.Crash (Holds i z) x fun _ => Holds i' z'

/-- Every mutex that is locked on the way is unlocked. -/
abbrev Balanced {A : Type} (i z : Bool) (x : M σ A) : Prop := Takes i z x i z

def Untouched (locks : Locks) (schedule : List (List Nat)) (w : World σ) : Prop :=
  w.locks = locks ∧ w.pool.schedule = schedule

/-- No mutex is locked or unlocked, and no other thread is let in. -/
def Lockless {A : Type} (x : M σ A) : Prop :=
  ∀ locks schedule, Spares Fault.Crash (Untouched locks schedule) x fun _ => Untouched locks schedule

variable {i z : Bool}

namespace Lockless

variable {A B : Type} {x y : M σ A}

theorem bind {f : A → M σ B} (first : Lockless x) (rest : ∀ a, Lockless (f a)) : Lockless (x >>= f) :=
  fun locks schedule => Spares.bind (first locks schedule) fun a => rest a locks schedule

theorem ite' {c : Prop} [Decidable c] (yes : c → Lockless x) (no : ¬c → Lockless y) : Lockless (if c then x else y) :=
  fun locks schedule => Spares.ite' (fun is => yes is locks schedule) fun isnt => no isnt locks schedule

theorem forEach {body : A → M σ Unit} {items : List A} (each : ∀ a ∈ items, Lockless (body a)) :
    Lockless (Program.forEach body items) :=
  fun locks schedule => Spares.forEach fun a member => each a member locks schedule

theorem of_ok (lockless : Lockless x) {w w' : World σ} {a : A} (ran : x w = .ok (a, w')) :
    w'.locks = w.locks ∧ w'.pool.schedule = w.pool.schedule := by
  have outcome := lockless w.locks w.pool.schedule w ⟨rfl, rfl⟩
  rw [ran] at outcome
  exact outcome

theorem of_error (lockless : Lockless x) {w : World σ} {why : Fault} (stopped : x w = .error why) : why.Crash := by
  have outcome := lockless w.locks w.pool.schedule w ⟨rfl, rfl⟩
  rw [stopped] at outcome
  exact outcome

theorem balanced (lockless : Lockless x) : Balanced i z x := by
  intro w held
  cases ran : x w with
  | error why => exact lockless.of_error ran
  | ok result => exact (lockless.of_ok ran).1.trans held

end Lockless

/-! ## Single calls -/

theorem pure_lockless {A : Type} (a : A) : Lockless (pure a : M σ A) := fun _ _ => Spares.pure' fun _ => id

theorem read_lockless {A : Type} (view : World σ → A) : Lockless (Program.read view : M σ A) :=
  fun _ _ => Spares.read' fun _ => id

theorem modifyRoots_lockless (change : RootTable → RootTable) : Lockless (σ := σ) (modifyRoots change) :=
  fun _ _ => Spares.update' fun _ => id

theorem modifyWatches_lockless (change : WatchTable → WatchTable) : Lockless (σ := σ) (modifyWatches change) :=
  fun _ _ => Spares.update' fun _ => id

theorem modifyPool_lockless {change : Pool → Pool} (keeps : ∀ pool, (change pool).schedule = pool.schedule) :
    Lockless (σ := σ) (modifyPool change) :=
  fun _ _ => Spares.update' fun w same => ⟨same.1, (keeps w.pool).trans same.2⟩

theorem modifyPool_balanced (change : Pool → Pool) : Balanced (σ := σ) i z (modifyPool change) :=
  Spares.update' fun _ => id

theorem modifyOutput_lockless (change : Output → Output) : Lockless (σ := σ) (modifyOutput change) :=
  fun _ _ => Spares.update' fun _ => id

theorem call_lockless {A : Type} (question : σ → A × σ) : Lockless (call question) := fun _ _ _ => id

theorem socket_lockless {A : Type} (use : Socket → A × Socket) : Lockless (σ := σ) (modifySocket use) := fun _ _ _ => id

theorem deref_lockless {A : Type} (pointer : Option A) : Lockless (σ := σ) (deref pointer) := by
  cases pointer with
  | none => exact fun _ _ => Spares.fault' trivial
  | some value => exact pure_lockless value

theorem acquire_inotify : Takes (σ := σ) false z (acquire .inotify) true z := by
  intro w held
  have free : w.locks.held .inotify = false := congrArg Locks.inotify held
  rw [acquire_run free]
  exact congrArg (fun locks => locks.set .inotify true) held

theorem release_inotify : Takes (σ := σ) true z (release .inotify) false z := by
  apply Spares.update'
  intro w held
  have unlocked := congrArg (fun locks : Locks => locks.unlock .inotify) held
  exact unlocked

theorem acquire_zmq : Takes (σ := σ) i false (acquire .zmq) i true := by
  intro w held
  have free : w.locks.held .zmq = false := congrArg Locks.zmq held
  rw [acquire_run free]
  exact congrArg (fun locks => locks.set .zmq true) held

theorem release_zmq : Takes (σ := σ) i true (release .zmq) i false := by
  apply Spares.update'
  intro w held
  have unlocked := congrArg (fun locks : Locks => locks.unlock .zmq) held
  exact unlocked

theorem release_pure {A : Type} (a : A) :
    Takes (σ := σ) true z (do release .inotify; return a) false z :=
  Spares.bind release_inotify fun _ => (pure_lockless a).balanced

section
variable [System σ]

theorem malloc_lockless : Lockless (σ := σ) malloc := call_lockless _

theorem mkString_lockless (text : Str) : Lockless (σ := σ) (mkString text) := by
  apply Lockless.bind malloc_lockless
  intro allocated
  apply Lockless.ite' <;> exact fun _ => pure_lockless _

/-! ## Walkers -/

theorem makeWatch_lockless (wd : Int) (path : Str) : Lockless (σ := σ) (makeWatch wd path) := by
  apply Lockless.bind malloc_lockless
  intro _
  apply Lockless.ite'
  · exact fun _ => pure_lockless _
  intro _
  apply Lockless.bind malloc_lockless
  intro _
  apply Lockless.ite'
  · exact fun _ => pure_lockless _
  intro _
  apply Lockless.bind (read_lockless _)
  intro addr
  apply Lockless.bind (modifyWatches_lockless _)
  exact fun _ => pure_lockless _

theorem addTreeWatch_lockless (path : Str) (root : RootRef) : Lockless (σ := σ) (addTreeWatch path root) := by
  apply Lockless.bind (call_lockless _)
  intro opened
  apply Lockless.ite'
  · exact fun _ => pure_lockless _
  intro _
  apply Lockless.bind (read_lockless _)
  intro r
  apply Lockless.bind (call_lockless _)
  intro wd
  apply Lockless.ite'
  · exact fun _ => pure_lockless _
  intro _
  apply Lockless.bind (makeWatch_lockless wd path)
  intro made
  cases made with
  | none => exact pure_lockless _
  | some watch =>
    apply Lockless.bind (read_lockless _)
    intro known
    apply Lockless.ite'
    · exact fun _ => pure_lockless _
    intro _
    apply Lockless.bind (modifyWatches_lockless _)
    exact fun _ => pure_lockless _

theorem doWatchTreeSection_balanced (path : Str) (root : RootRef) (cleanup : Bool) :
    Balanced (σ := σ) false z (doWatchTreeSection path root cleanup) := by
  apply Spares.ite'
  · exact fun _ => (pure_lockless _).balanced
  intro _
  apply Spares.bind acquire_inotify
  intro _
  apply Spares.bind (read_lockless _).balanced
  intro r
  apply Spares.ite'
  · exact fun _ => release_pure _
  intro _
  apply Spares.bind (read_lockless _).balanced
  intro known
  apply Spares.ite'
  · exact fun _ => release_pure _
  intro _
  apply Spares.bind (addTreeWatch_lockless path root).balanced
  exact fun went => release_pure went

theorem entryIsDir_lockless (tmp : Option Str) (dType : DType) : Lockless (σ := σ) (entryIsDir tmp dType) := by
  cases dType with
  | unknown =>
    apply Lockless.bind (deref_lockless tmp)
    intro path
    apply Lockless.bind (call_lockless _)
    exact fun _ => pure_lockless _
  | _ => exact pure_lockless _

theorem doWatchTreeRec_balanced (data : TData) (rest : List Frame) (frame : Frame) :
    Balanced (σ := σ) false z (doWatchTreeRec data rest frame) := by
  cases frame with
  | call path =>
    apply Spares.bind (doWatchTreeSection_balanced path data.root data.cleanup)
    intro went
    apply Spares.ite' <;> exact fun _ => (pure_lockless _).balanced
  | opened path =>
    apply Spares.bind (call_lockless _).balanced
    intro entries
    cases entries <;> exact (pure_lockless _).balanced
  | reading path entries =>
    cases entries with
    | nil => exact (pure_lockless _).balanced
    | cons dir entries =>
      apply Spares.ite'
      · exact fun _ => (pure_lockless _).balanced
      intro _
      apply Spares.bind (mkString_lockless _).balanced
      intro tmp
      apply Spares.bind (entryIsDir_lockless tmp dir.dType).balanced
      intro isDir
      apply Spares.ite'
      · exact fun _ => (pure_lockless _).balanced
      intro _
      apply Spares.bind (read_lockless _).balanced
      intro r
      apply Spares.ite'
      · exact fun _ => (pure_lockless _).balanced
      intro _
      apply Spares.bind (deref_lockless tmp).balanced
      exact fun _ => (pure_lockless _).balanced

omit [System σ] in
theorem doWatchTreeEnter_lockless (data : TData) : Lockless (σ := σ) (doWatchTreeEnter data) := by
  apply Lockless.bind (read_lockless _)
  intro r
  apply Lockless.ite'
  · exact fun _ => pure_lockless _
  intro _
  apply Lockless.bind (deref_lockless _)
  intro path
  apply Lockless.bind (read_lockless _)
  intro r
  apply Lockless.bind (deref_lockless _)
  intro rootPath
  apply Lockless.ite'
  · exact fun _ => pure_lockless _
  intro _
  apply Lockless.ite'
  · intro _
    apply Lockless.bind (modifyPool_lockless (by intro pool; rfl))
    exact fun _ => pure_lockless _
  · exact fun _ => pure_lockless _

/-! ## Destroy threads -/

theorem destroyRootStart_balanced (root : RootRef) : Balanced (σ := σ) false z (destroyRootStart root) := by
  apply Spares.bind acquire_inotify
  intro _
  apply Spares.bind (read_lockless _).balanced
  intro r
  apply Spares.bind (mkString_lockless _).balanced
  intro tmp
  apply Spares.bind (modifyRoots_lockless _).balanced
  intro _
  apply Spares.bind (read_lockless _).balanced
  exact fun keys => release_pure _

omit [System σ] in
theorem destroyRootKey_balanced (root : RootRef) (tmp : Option Str) (path : Str) (keys : List Str) :
    Balanced (σ := σ) false z (destroyRootKey root tmp path keys) := by
  apply Spares.bind (deref_lockless tmp).balanced
  intro below
  apply Spares.ite'
  · exact fun _ => (pure_lockless _).balanced
  intro _
  apply Spares.bind acquire_inotify
  intro _
  apply Spares.bind (read_lockless _).balanced
  intro watch
  apply Spares.bind release_inotify
  intro _
  cases watch <;> exact (pure_lockless _).balanced

omit [System σ] in
theorem destroyRootEntry_balanced (path : Str) (watch : Watch) :
    Balanced (σ := σ) false z (destroyRootEntry path watch) := by
  apply Spares.bind acquire_inotify
  intro _
  apply Spares.bind (modifyWatches_lockless _).balanced
  exact fun _ => release_inotify

omit [System σ] in
theorem destroyRootEnd_balanced (root : RootRef) : Balanced (σ := σ) false z (destroyRootEnd root) := by
  -- The root goes, whether or not its own watch was found.
  have finish (rootPath : Str) : Takes (σ := σ) true z (do
      modifyRoots fun roots =>
        { roots with
          inotifyRoots := roots.inotifyRoots.erase rootPath
          inotifyNumWatchedRoots := roots.inotifyNumWatchedRoots - 1 }
      release .inotify) false z := by
    apply Spares.bind (modifyRoots_lockless _).balanced
    exact fun _ => release_inotify
  apply Spares.bind acquire_inotify
  intro _
  apply Spares.bind (read_lockless _).balanced
  intro r
  apply Spares.bind (deref_lockless _).balanced
  intro rootPath
  apply Spares.bind (read_lockless _).balanced
  intro found
  cases found with
  | none => exact finish rootPath
  | some watch =>
    apply Spares.bind (modifyWatches_lockless _).balanced
    exact fun _ => finish rootPath

/-! ## Memclean and the dump file -/

theorem memcleanSection_balanced (path : Str) : Balanced (σ := σ) false z (memcleanSection path) := by
  apply Spares.bind acquire_inotify
  intro _
  apply Spares.bind (read_lockless _).balanced
  intro found
  cases found with
  | none => exact release_inotify
  | some watch =>
    apply Spares.bind (call_lockless _).balanced
    intro _
    apply Spares.bind (modifyWatches_lockless _).balanced
    exact fun _ => release_inotify

theorem dumpRootsSection_lockless : Lockless (σ := σ) dumpRootsSection  := by
  apply Lockless.bind (call_lockless _)
  intro opened
  apply Lockless.ite'
  · exact fun _ => pure_lockless _
  intro _
  apply Lockless.bind (read_lockless _)
  exact fun roots => modifyOutput_lockless _

/-! ## Turns -/

/-- No thread keeps a mutex from one step to the next. -/
theorem threadStep_balanced (thread : Thread) : Balanced (σ := σ) false z (threadStep thread) := by
  cases thread with
  | watchTree data => exact (doWatchTreeEnter_lockless data).balanced
  | watchTreeRec data stack =>
    cases stack with
    | nil =>
      apply Spares.ite'
      · intro _
        apply Spares.bind (modifyPool_balanced _)
        exact fun _ => (pure_lockless _).balanced
      · exact fun _ => (pure_lockless _).balanced
    | cons frame rest =>
      apply Spares.bind (doWatchTreeRec_balanced data rest frame)
      exact fun _ => (pure_lockless _).balanced
  -- The destroy thread takes the mutex anew for each piece of its work.
  | destroyRoot root => exact destroyRootStart_balanced root
  | destroyKeys root tmp keys =>
    cases keys with
    | nil =>
      apply Spares.bind (destroyRootEnd_balanced root)
      exact fun _ => (pure_lockless _).balanced
    | cons path keys => exact destroyRootKey_balanced root tmp path keys
  | destroyWatch root tmp path watch keys =>
    apply Spares.bind (call_lockless _).balanced
    exact fun _ => (pure_lockless _).balanced
  | destroyEntry root tmp path watch keys =>
    apply Spares.bind (destroyRootEntry_balanced path watch)
    exact fun _ => (pure_lockless _).balanced
  | destroyDump =>
    apply Spares.bind acquire_inotify
    intro _
    apply Spares.bind dumpRootsSection_lockless.balanced
    exact fun _ => release_pure _
  | memclean =>
    apply Spares.bind (modifyPool_balanced _)
    exact fun _ => (pure_lockless _).balanced
  | memcleanSnapshot =>
    apply Spares.bind acquire_inotify
    intro _
    apply Spares.bind (read_lockless _).balanced
    exact fun keys => release_pure _
  | memcleanKeys keys =>
    cases keys with
    | nil =>
      apply Spares.bind acquire_inotify
      intro _
      apply Spares.bind (modifyPool_balanced _)
      exact fun _ => release_pure _
    | cons path keys =>
      apply Spares.ite'
      · exact fun _ => (pure_lockless _).balanced
      intro _
      apply Spares.bind (call_lockless _).balanced
      intro isDir
      apply Spares.ite' <;> exact fun _ => (pure_lockless _).balanced
  | memcleanPath path keys =>
    apply Spares.bind (memcleanSection_balanced path)
    exact fun _ => (pure_lockless _).balanced
  | finished => exact (pure_lockless _).balanced

theorem runThread_balanced (index : Nat) : Balanced (σ := σ) false z (runThread index) := by
  apply Spares.bind (read_lockless _).balanced
  intro threads
  cases threads[index]? with
  | none => exact (pure_lockless _).balanced
  | some thread =>
    apply Spares.bind (threadStep_balanced thread)
    exact fun next => modifyPool_balanced _

theorem yieldMain_balanced : Balanced (σ := σ) false z yieldMain := by
  apply Spares.bind (read_lockless _).balanced
  intro schedule
  cases schedule with
  | nil => exact (pure_lockless _).balanced
  | cons turn later =>
    apply Spares.bind (modifyPool_balanced _)
    exact fun _ => Spares.forEach fun index _ => runThread_balanced index

theorem lock_inotify_takes : Takes (σ := σ) false z (lock .inotify) true z :=
  Spares.bind yieldMain_balanced fun _ => acquire_inotify

theorem unlock_inotify_takes : Takes (σ := σ) true z (unlock .inotify) false z :=
  Spares.bind release_inotify fun _ => yieldMain_balanced

theorem lock_zmq_takes : Takes (σ := σ) false false (lock .zmq) false true :=
  Spares.bind yieldMain_balanced fun _ => acquire_zmq

theorem unlock_zmq_takes : Takes (σ := σ) false true (unlock .zmq) false false :=
  Spares.bind release_zmq fun _ => yieldMain_balanced

theorem unlock_pure {A : Type} (a : A) :
    Takes (σ := σ) true z (do unlock .inotify; return a) false z :=
  Spares.bind unlock_inotify_takes fun _ => (pure_lockless a).balanced

end
end Inotispy
