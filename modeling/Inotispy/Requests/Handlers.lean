import Inotispy.Requests.Replies
import Inotispy.Threads.Whole

/-! The handlers of requests, while allocations succeed.

Each function is given its number of replies, together with the mutexes it takes and
gives back. Other threads may run wherever the main thread holds no mutex.
-/

set_option autoImplicit false

namespace Inotispy
open Library

variable {σ : Type} [System σ]

/-- Which mutexes the main thread holds and where the socket is, in a state where no string
is missing. -/
structure At (inotify zmq : Bool) (socket : Socket) (w : World σ) : Prop where
  inotify : w.locks.inotify = inotify
  zmq : w.locks.zmq = zmq
  socket : w.socket = socket
  whole : Whole w

def Answered (inotify zmq : Bool) (socket : Socket) (w : World σ) : Prop :=
  ∃ message, At inotify zmq (socket.send message).2 w

abbrev Stays {A : Type} (i z : Bool) (k : Socket) (x : M σ A) : Prop :=
  Returns (At i z k) x fun _ => At i z k

variable {i z : Bool} {k : Socket}

omit [System σ] in
theorem Whole.of_same {w w' : World σ} (whole : Whole w) (roots : w'.roots = w.roots)
    (threads : w'.pool.threads = w.pool.threads) : Whole w' :=
  ⟨roots ▸ whole.rootPaths, roots ▸ whole.eventStrings, threads ▸ whole.threads⟩

omit [System σ] in
theorem call_stays {A : Type} (question : σ → A × σ) : Stays i z k (call question) := by
  intro w start
  exact ⟨_, _, rfl, start.inotify, start.zmq, start.socket, start.whole.of_same rfl rfl⟩

omit [System σ] in
theorem read_stays {A : Type} (view : World σ → A) : Stays i z k (Program.read view) :=
  Returns.read' fun _ => id

omit [System σ] in
theorem pure_stays {A : Type} (a : A) : Stays (σ := σ) i z k (pure a) := Returns.pure' fun _ => id

omit [System σ] in
theorem isRoot_stays (path : Str) : Stays (σ := σ) i z k (inotifyIsRoot path) := read_stays _

omit [System σ] in
theorem deref_stays {A : Type} {pointer : Option A} (there : pointer.isSome) :
    Stays (σ := σ) i z k (deref pointer) := by
  obtain ⟨value, rfl⟩ := Option.isSome_iff_exists.mp there
  exact pure_stays value

omit [System σ] in
theorem getRoot_stays (root : RootRef) :
    Returns (At (σ := σ) i z k) (getRoot root) fun r w => r.path.isSome ∧ At i z k w := by
  intro w start
  exact ⟨_, _, rfl, start.whole.rootPaths root, start⟩

omit [System σ] in
theorem setRoot_stays (root : RootRef) (change : Root → Root) (path : ∀ r, (change r).path = r.path)
    (events : ∀ r, ∀ event ∈ (change r).events,
      event ∈ r.events ∨ event.path.isSome ∧ event.name.isSome) :
    Stays (σ := σ) i z k (modifyRoots (·.setRoot root change)) := by
  intro w start
  refine ⟨_, _, rfl, start.inotify, start.zmq, start.socket, ?_, ?_, start.whole.threads⟩
  · intro other
    by_cases same : other = root
    · subst same
      simpa [RootTable.setRoot, path] using start.whole.rootPaths other
    · simpa [RootTable.setRoot, Function.update_of_ne same] using start.whole.rootPaths other
  · intro other event member
    by_cases same : other = root
    · subst same
      simp only [RootTable.setRoot, Function.update_self] at member
      rcases events _ event member with old | strings
      · exact start.whole.eventStrings other event old
      · exact strings
    · simp only [RootTable.setRoot, Function.update_of_ne same] at member
      exact start.whole.eventStrings other event member

/-! ## Other threads -/

section
variable (succeed : AllocationsSucceed σ)
include succeed

theorem runThread_stays (index : Nat) : Stays (σ := σ) false z k (runThread index) := by
  intro w start
  simp only [runThread, Program.read_bind_apply]
  cases found : w.pool.threads[index]? with
  | none => exact ⟨_, _, rfl, start⟩
  | some thread =>
    -- No string of the thread is missing, so its step comes to an end.
    have strings := start.whole.threads thread (List.mem_of_getElem? found)
    obtain ⟨next, v, ran, strings'⟩ := threadStep_returns succeed start.whole start.inotify strings
    have effect := threadStep_effect ran
    have whole := threadStep_whole start.whole ran
    refine ⟨_, _, Program.bind_ok _ _ _ _ _ ran, ?_⟩
    refine ⟨effect.locks ▸ start.inotify, effect.locks ▸ start.zmq, effect.socket.trans start.socket,
      whole.rootPaths, whole.eventStrings, ?_⟩
    intro other member
    rcases List.mem_or_eq_of_mem_set member with old | rfl
    · exact whole.threads other old
    · exact strings'

theorem yieldMain_stays : Stays (σ := σ) false z k yieldMain := by
  intro w start
  simp only [yieldMain, Program.read_bind_apply]
  cases w.pool.schedule with
  | nil => exact ⟨_, _, rfl, start⟩
  | cons turn later =>
    simp only [modifyPool_bind]
    apply Returns.forEach fun index _ => runThread_stays succeed index
    exact ⟨start.inotify, start.zmq, start.socket, start.whole.of_same rfl rfl⟩

theorem lock_inotify :
    Returns (At (σ := σ) false z k) (lock .inotify) fun _ => At true z k := by
  apply Returns.bind (yieldMain_stays succeed)
  intro _ w start
  exact ⟨_, _, acquire_run start.inotify, rfl, start.zmq, start.socket, start.whole.of_same rfl rfl⟩

theorem unlock_inotify :
    Returns (At (σ := σ) true z k) (unlock .inotify) fun _ => At false z k := by
  refine Returns.bind (?_ : Returns _ _ fun _ => At false z k) fun _ => yieldMain_stays succeed
  intro w start
  exact ⟨_, _, rfl, rfl, start.zmq, start.socket, start.whole.of_same rfl rfl⟩

theorem lock_zmq : Returns (At (σ := σ) false false k) (lock .zmq) fun _ => At false true k := by
  apply Returns.bind (yieldMain_stays succeed)
  intro _ w start
  exact ⟨_, _, acquire_run start.zmq, start.inotify, rfl, start.socket, start.whole.of_same rfl rfl⟩

theorem unlock_zmq : Returns (At (σ := σ) false z k) (unlock .zmq) fun _ => At false false k := by
  refine Returns.bind (?_ : Returns _ _ fun _ => At false false k) fun _ => yieldMain_stays succeed
  intro w start
  exact ⟨_, _, rfl, start.inotify, rfl, start.socket, start.whole.of_same rfl rfl⟩

theorem unlock_zmq_answered :
    Returns (Answered (σ := σ) false z k) (unlock .zmq) fun _ => Answered false false k := by
  rintro w ⟨message, start⟩
  obtain ⟨_, v, ran, final⟩ := unlock_zmq succeed w start
  exact ⟨_, v, ran, message, final⟩

/-! ## Strings and replies -/

theorem malloc_stays :
    Returns (At (σ := σ) i z k) malloc fun allocated w => allocated = true ∧ At i z k w := by
  intro w start
  exact ⟨_, _, rfl, succeed w.sys, start.inotify, start.zmq, start.socket, start.whole.of_same rfl rfl⟩

theorem mkString_stays (text : Str) :
    Returns (At (σ := σ) i z k) (mkString text) fun made w => made = some text ∧ At i z k w := by
  intro w start
  exact ⟨_, _, mkString_allocated succeed text w, rfl, start.inotify, start.zmq, start.socket,
    start.whole.of_same rfl rfl⟩

theorem replySendMessage_sends (message : Str) :
    Returns (At (σ := σ) i z k) (replySendMessage message) fun _ => Answered i z k := by
  intro w start
  obtain ⟨s, ran⟩ := replySendMessage_run succeed message w
  exact ⟨_, _, ran, message, start.inotify, start.zmq, by rw [← start.socket], start.whole.of_same rfl rfl⟩

theorem replySendFormatted_sends (text : Str) :
    Returns (At (σ := σ) i z k) (replySendFormatted text) fun _ => Answered i z k := by
  intro w start
  obtain ⟨s, ran⟩ := replySendFormatted_run succeed text w
  exact ⟨_, _, ran, text, start.inotify, start.zmq, by rw [← start.socket], start.whole.of_same rfl rfl⟩

theorem replySendError_sends (err : InotispyError) :
    Returns (At (σ := σ) i z k) (replySendError err) fun _ => Answered i z k :=
  replySendFormatted_sends succeed _

theorem replySendSuccess_sends :
    Returns (At (σ := σ) i z k) replySendSuccess fun _ => Answered i z k :=
  replySendMessage_sends succeed _

/-! ## Handlers -/

theorem eventStatus_sends : Returns (At (σ := σ) i z k) eventStatus fun _ => Answered i z k := by
  apply Returns.bind (read_stays _)
  intro pid
  apply Returns.bind (read_stays _)
  intro secs
  apply Returns.bind (read_stays _)
  intro numWatches
  exact replySendFormatted_sends succeed _

theorem eventSubscribe_sends (req : Request) :
    Returns (At (σ := σ) false false k) (eventSubscribe req) fun _ => Answered false false k := by
  unfold eventSubscribe
  cases requestGetPath req with
  | none => exact replySendError_sends succeed _
  | some path =>
    apply Returns.bind (lock_zmq succeed)
    intro _
    apply Returns.bind (isRoot_stays path)
    intro found
    apply Returns.ite'
    · intro _
      apply Returns.bind (replySendError_sends succeed _)
      intro _
      exact unlock_zmq_answered succeed
    · intro _
      apply Returns.bind (unlock_zmq succeed)
      intro _
      exact replySendFormatted_sends succeed _

theorem setPause_stays (pause : Bool) (path : Str) : Stays (σ := σ) false z k (setPause pause path) := by
  apply Returns.bind (lock_inotify succeed)
  intro _
  apply Returns.bind (isRoot_stays path)
  intro found
  cases found with
  | none =>
    apply Returns.bind (unlock_inotify succeed)
    intro _
    exact pure_stays _
  | some root =>
    apply Returns.bind (setRoot_stays root (fun r => { r with pause := pause }) (fun _ => rfl)
      fun _ _ => .inl)
    intro _
    apply Returns.bind (unlock_inotify succeed)
    intro _
    exact pure_stays _

omit [System σ] succeed in
theorem rootQueue_stays (root : RootRef) :
    Returns (At (σ := σ) i z k) (rootQueue root) fun queue w =>
      (∀ event ∈ queue, event.path.isSome ∧ event.name.isSome) ∧ At i z k w := by
  intro w start
  have run := rootQueue_bind root (pure : List Event → M σ _) w
  rw [bind_pure] at run
  exact ⟨_, _, run, start.whole.eventStrings root, start.inotify, start.zmq, start.socket,
    start.whole.of_same rfl rfl⟩

omit [System σ] succeed in
theorem setRootQueue_stays (root : RootRef) {queue : List Event}
    (strings : ∀ event ∈ queue, event.path.isSome ∧ event.name.isSome) :
    Stays (σ := σ) i z k (setRootQueue root queue) := by
  apply setRoot_stays root (fun r => { r with queue := r.queue.map fun _ => queue }) fun _ => rfl
  intro r event member
  cases queued : r.queue with
  | none => simp [Root.events, queued] at member
  | some old =>
    simp only [Root.events, queued, Option.map_some, Option.getD_some] at member
    exact .inr (strings event member)

theorem inotifyDequeue_stays (root : RootRef) (count : Int32) :
    Returns (At (σ := σ) false z k) (inotifyDequeue root count) fun got w =>
      (∀ items, got = .events items → ∀ event ∈ items, event.path.isSome ∧ event.name.isSome) ∧
        At false z k w := by
  apply Returns.bind (lock_inotify succeed)
  intro _
  apply Returns.bind (rootQueue_stays root)
  intro queue
  apply Returns.given
  intro strings
  apply Returns.ite'
  · intro _
    apply Returns.bind (unlock_inotify succeed)
    intro _
    exact Returns.pure' fun _ start => ⟨nofun, start⟩
  intro _
  apply Returns.bind (call_stays _)
  intro _
  apply Returns.ite'
  · intro _
    apply Returns.bind (unlock_inotify succeed)
    intro _
    exact Returns.pure' fun _ start => ⟨nofun, start⟩
  intro _
  apply Returns.bind (setRootQueue_stays root fun event member => strings event (List.mem_of_mem_drop member))
  intro _
  apply Returns.bind (unlock_inotify succeed)
  intro _
  apply Returns.pure'
  intro w start
  refine ⟨?_, start⟩
  rintro items same event member
  cases same
  exact strings event (List.mem_of_mem_take member)

theorem inotifyGetEvents_stays (path : Str) (count : Int32) :
    Returns (At (σ := σ) false z k) (inotifyGetEvents path count) fun got w =>
      (∀ items, got = .events items → ∀ event ∈ items, event.path.isSome ∧ event.name.isSome) ∧
        At false z k w := by
  apply Returns.bind (isRoot_stays path)
  intro found
  cases found with
  | none => exact Returns.pure' fun _ start => ⟨nofun, start⟩
  | some root => exact inotifyDequeue_stays succeed root count

omit [System σ] succeed in
theorem eventsToJarr_stays {items : List Event}
    (strings : ∀ event ∈ items, event.path.isSome ∧ event.name.isSome) :
    Stays (σ := σ) i z k (eventsToJarr items) := by
  induction items with
  | nil => exact pure_stays _
  | cons event rest ih =>
    obtain ⟨path, name⟩ := strings event (by simp)
    refine Returns.bind (?_ : Stays i z k (inotifyEventToJobj event)) fun first => ?_
    · apply Returns.bind (deref_stays path)
      intro _
      apply Returns.bind (deref_stays name)
      intro _
      exact pure_stays _
    · apply Returns.bind (ih fun event member => strings event (by simp [member]))
      intro _
      exact pure_stays _

theorem eventPause_sends (req : Request) :
    Returns (At (σ := σ) false z k) (eventPause req) fun _ => Answered false z k := by
  unfold eventPause
  cases requestGetPath req with
  | none => exact replySendError_sends succeed _
  | some path =>
    apply Returns.bind (isRoot_stays path)
    intro found
    apply Returns.ite'
    · intro _
      exact replySendError_sends succeed _
    intro _
    apply Returns.bind (setPause_stays succeed true path)
    intro err
    cases err with
    | some err => exact replySendError_sends succeed _
    | none =>
      apply Returns.bind (inotifyGetEvents_stays succeed path 0)
      intro _
      apply Returns.given
      intro _
      exact replySendSuccess_sends succeed

theorem eventUnpause_sends (req : Request) :
    Returns (At (σ := σ) false z k) (eventUnpause req) fun _ => Answered false z k := by
  unfold eventUnpause
  cases requestGetPath req with
  | none => exact replySendError_sends succeed _
  | some path =>
    apply Returns.bind (isRoot_stays path)
    intro found
    apply Returns.ite'
    · intro _
      exact replySendError_sends succeed _
    intro _
    apply Returns.bind (setPause_stays succeed false path)
    intro err
    cases err with
    | some err => exact replySendError_sends succeed _
    | none => exact replySendSuccess_sends succeed

theorem eventGetEvents_sends (req : Request) :
    Returns (At (σ := σ) false z k) (eventGetEvents req) fun _ => Answered false z k := by
  unfold eventGetEvents
  cases requestGetPath req with
  | none => exact replySendError_sends succeed _
  | some path =>
    apply Returns.bind (isRoot_stays path)
    intro found
    apply Returns.ite'
    · intro _
      exact replySendError_sends succeed _
    intro _
    apply Returns.ite'
    · intro _
      exact replySendError_sends succeed _
    intro _
    apply Returns.bind (inotifyGetEvents_stays succeed path _)
    intro got
    apply Returns.given
    intro strings
    cases got with
    | failed => exact replySendError_sends succeed _
    | null => exact replySendMessage_sends succeed _
    | events items =>
      apply Returns.bind (eventsToJarr_stays (strings items rfl))
      intro _
      exact replySendMessage_sends succeed _

theorem eventGetQueueSize_sends (req : Request) :
    Returns (At (σ := σ) false false k) (eventGetQueueSize req) fun _ => Answered false false k := by
  unfold eventGetQueueSize
  cases requestGetPath req with
  | none =>
    apply Returns.bind (replySendError_sends succeed _)
    intro _
    exact unlock_zmq_answered succeed
  | some path =>
    apply Returns.bind (lock_zmq succeed)
    intro _
    apply Returns.bind (isRoot_stays path)
    intro found
    cases found with
    | none =>
      apply Returns.bind (replySendError_sends succeed _)
      intro _
      exact unlock_zmq_answered succeed
    | some root =>
      apply Returns.bind (getRoot_stays root)
      intro r
      apply Returns.given
      intro _
      apply Returns.ite'
      · intro _
        apply Returns.bind (replySendMessage_sends succeed _)
        intro _
        exact unlock_zmq_answered succeed
      intro _
      apply Returns.bind (rootQueue_stays root)
      intro queue
      apply Returns.given
      intro _
      apply Returns.bind (replySendFormatted_sends succeed _)
      intro _
      exact unlock_zmq_answered succeed

theorem mapM_mkString_stays (keys : List Str) :
    Returns (At (σ := σ) i z k) (keys.mapM mkString) fun made w =>
      (∀ text ∈ made, text.isSome) ∧ At i z k w := by
  induction keys with
  | nil =>
    rw [List.mapM_nil]
    exact Returns.pure' fun _ start => ⟨by simp, start⟩
  | cons key keys ih =>
    rw [List.mapM_cons]
    apply Returns.bind (mkString_stays succeed key)
    intro first
    apply Returns.given
    rintro rfl
    apply Returns.bind ih
    intro rest
    apply Returns.given
    intro there
    exact Returns.pure' fun _ start => ⟨by simpa using there, start⟩

omit [System σ] succeed in
theorem rootsUntilEol_stays {roots : List (Option Str)} (there : ∀ root ∈ roots, root.isSome) :
    Stays (σ := σ) i z k (rootsUntilEol roots) := by
  induction roots with
  | nil => exact pure_stays _
  | cons root roots ih =>
    apply Returns.bind (deref_stays (there root (by simp)))
    intro path
    apply Returns.ite'
    · intro _
      exact pure_stays _
    intro _
    apply Returns.bind (ih fun root member => there root (by simp [member]))
    intro _
    exact pure_stays _

theorem inotifyGetRoots_stays :
    Returns (At (σ := σ) false z k) inotifyGetRoots fun roots w =>
      (∀ items, roots = some items → ∀ root ∈ items, root.isSome) ∧ At false z k w := by
  apply Returns.bind (lock_inotify succeed)
  intro _
  apply Returns.bind (read_stays _)
  intro keys
  apply Returns.bind (call_stays _)
  intro _
  apply Returns.ite'
  · intro _
    apply Returns.bind (unlock_inotify succeed)
    intro _
    exact Returns.pure' fun _ start => ⟨nofun, start⟩
  intro _
  apply Returns.bind (mapM_mkString_stays succeed keys)
  intro roots
  apply Returns.given
  intro there
  apply Returns.bind (mkString_stays succeed _)
  intro eol
  apply Returns.given
  rintro rfl
  apply Returns.bind (unlock_inotify succeed)
  intro _
  apply Returns.pure'
  intro w start
  refine ⟨?_, start⟩
  rintro items same root member
  cases same
  -- The copies of the keys are followed by the line at which the reply ends.
  rcases List.mem_append.mp member with listed | last
  · exact there root listed
  · cases List.mem_singleton.mp last
    rfl

theorem eventGetRoots_sends :
    Returns (At (σ := σ) false z k) eventGetRoots fun _ => Answered false z k := by
  apply Returns.bind (read_stays _)
  intro count
  apply Returns.ite'
  · intro _
    exact replySendMessage_sends succeed _
  intro _
  apply Returns.bind (inotifyGetRoots_stays succeed)
  intro roots
  apply Returns.given
  intro there
  cases roots with
  | none => exact replySendError_sends succeed _
  | some items =>
    apply Returns.bind (rootsUntilEol_stays (there items rfl))
    intro _
    exact replySendMessage_sends succeed _

/-! ## Watching and unwatching -/

omit succeed in
theorem spawn_stays (thread : Thread) (strings : thread.Whole) :
    Stays (σ := σ) i z k (spawn thread) := by
  intro w start
  have run := spawn_bind thread (pure : Bool → M σ Bool) w
  rw [bind_pure] at run
  rw [run]
  split
  · refine ⟨_, _, rfl, start.inotify, start.zmq, start.socket, start.whole.rootPaths,
      start.whole.eventStrings, ?_⟩
    intro other member
    rcases List.mem_append.mp member with old | new
    · exact start.whole.threads other old
    · cases List.mem_singleton.mp new
      exact strings
  · exact ⟨_, _, rfl, start.inotify, start.zmq, start.socket, start.whole.of_same rfl rfl⟩

theorem doWatchTree_stays (path : Option Str) (root : RootRef) (cleanup : Bool) :
    Stays (σ := σ) i z k (doWatchTree path root cleanup) := by
  apply Returns.bind (getRoot_stays root)
  intro r
  apply Returns.given
  intro _
  apply Returns.ite'
  · intro _
    exact pure_stays _
  intro _
  apply Returns.bind (call_stays _)
  intro _
  apply Returns.ite'
  · intro _
    exact pure_stays _
  intro _
  apply Returns.bind (mkString_stays succeed _)
  intro copy
  apply Returns.given
  rintro rfl
  apply Returns.bind (spawn_stays (.watchTree ⟨some (percentS path), root, cleanup⟩) rfl)
  intro _
  apply Returns.ite'
  · intro _
    exact pure_stays _
  intro _
  exact pure_stays _

theorem inotifyUnwatchTree_stays (path : Str) : Stays (σ := σ) false z k (inotifyUnwatchTree path) := by
  apply Returns.bind (isRoot_stays _)
  intro found
  cases found with
  | none => exact pure_stays _
  | some root =>
    apply Returns.bind (getRoot_stays root)
    intro r
    apply Returns.given
    intro _
    apply Returns.ite'
    · intro _
      exact pure_stays _
    intro _
    apply Returns.bind (setRoot_stays root (fun r => { r with destroy := true }) (fun _ => rfl)
      fun _ _ => .inl)
    intro _
    apply Returns.bind (yieldMain_stays succeed)
    intro _
    apply Returns.bind (spawn_stays (.destroyRoot root) trivial)
    intro _
    apply Returns.ite'
    · intro _
      exact pure_stays _
    intro _
    exact pure_stays _

theorem watchTreeCheck_stays (path : Str) : Stays (σ := σ) false z k (watchTreeCheck path) := by
  apply Returns.bind (lock_inotify succeed)
  intro _
  refine Returns.bind (?_ : Stays true z k (inotifyPathToRoot path)) fun found => ?_
  · intro w start
    obtain ⟨s, ran⟩ := inotifyPathToRoot_run succeed path w
    exact ⟨_, _, ran, start.inotify, start.zmq, start.socket, start.whole.of_same rfl rfl⟩
  cases found with
  | some root =>
    apply Returns.bind (unlock_inotify succeed)
    intro _
    apply Returns.bind (getRoot_stays root)
    intro r
    apply Returns.given
    intro named
    apply Returns.bind (deref_stays named)
    intro rootPath
    apply Returns.ite'
    · intro _
      apply Returns.ite'
      · intro _
        exact pure_stays _
      intro _
      exact pure_stays _
    intro _
    exact pure_stays _
  | none =>
    refine Returns.bind (?_ : Stays true z k (inotifyIsParent path)) fun subPath => ?_
    · intro w start
      obtain ⟨s, ran⟩ := inotifyIsParent_run succeed path w
      exact ⟨_, _, ran, start.inotify, start.zmq, start.socket, start.whole.of_same rfl rfl⟩
    apply Returns.bind (unlock_inotify succeed)
    intro _
    exact pure_stays _

theorem watchTreeInsert_stays (path : Str) (mask : UInt32) (maxEvents : Int32) (rewatch : Bool) :
    Stays (σ := σ) false z k (watchTreeInsert path mask maxEvents rewatch) := by
  apply Returns.bind (lock_inotify succeed)
  intro _
  refine Returns.bind (?_ : Stays true z k (makeRoot path mask maxEvents rewatch)) fun made => ?_
  · apply Returns.bind (call_stays _)
    intro _
    apply Returns.ite'
    · intro _
      exact pure_stays _
    intro _
    apply Returns.bind (mkString_stays succeed path)
    intro copy
    apply Returns.given
    rintro rfl
    apply Returns.bind (read_stays _)
    intro root
    refine Returns.bind (?_ : Stays true z k _) fun _ => pure_stays _
    -- The new root has its path and no events.
    intro w start
    refine ⟨_, _, rfl, start.inotify, start.zmq, start.socket, ?_, ?_, start.whole.threads⟩
    · intro other
      by_cases same : other = root
      · simp [RootTable.setRoot, same]
      · simpa [RootTable.setRoot, Function.update_of_ne same] using start.whole.rootPaths other
    · intro other event member
      by_cases same : other = root
      · simp [RootTable.setRoot, same, Root.events] at member
      · simp only [RootTable.setRoot, Function.update_of_ne same] at member
        exact start.whole.eventStrings other event member
  cases made with
  | none =>
    apply Returns.bind (unlock_inotify succeed)
    intro _
    exact pure_stays _
  | some newRoot =>
    refine Returns.bind (?_ : Stays true z k _) fun _ => ?_
    · intro w start
      exact ⟨_, _, rfl, start.inotify, start.zmq, start.socket, start.whole.rootPaths,
        start.whole.eventStrings, start.whole.threads⟩
    apply Returns.bind (unlock_inotify succeed)
    intro _
    exact pure_stays _

theorem inotifyDumpRoots_stays : Stays (σ := σ) false z k inotifyDumpRoots := by
  apply Returns.bind (lock_inotify succeed)
  intro _
  refine Returns.bind (?_ : Stays true z k dumpRootsSection) fun _ => unlock_inotify succeed
  intro w start
  obtain ⟨⟨_, v⟩, ran⟩ := dumpRootsSection_returns (w := w)
  obtain ⟨text, rfl⟩ := dumpRootsSection_eq_ok ran
  exact ⟨_, _, ran, start.inotify, start.zmq, start.socket, start.whole.of_same rfl rfl⟩

theorem inotifyWatchTree_stays (path : Str) (mask : UInt32) (maxEvents : Int32) (rewatch : Bool) :
    Stays (σ := σ) false z k (inotifyWatchTree path mask maxEvents rewatch) := by
  apply Returns.bind (watchTreeCheck_stays succeed _)
  intro err
  cases err with
  | some err => exact pure_stays _
  | none =>
    apply Returns.bind (call_stays _)
    intro _
    apply Returns.ite'
    · intro _
      exact pure_stays _
    intro _
    apply Returns.bind (watchTreeInsert_stays succeed _ mask maxEvents rewatch)
    intro made
    cases made with
    | none => exact pure_stays _
    | some newRoot =>
      apply Returns.bind (inotifyDumpRoots_stays succeed)
      intro _
      apply Returns.bind (getRoot_stays newRoot)
      intro r
      apply Returns.given
      intro _
      exact doWatchTree_stays succeed _ newRoot false

theorem eventWatch_sends (req : Request) :
    Returns (At (σ := σ) false false k) (eventWatch req) fun _ => Answered false false k := by
  apply Returns.bind (mkString_stays succeed _)
  intro made
  apply Returns.given
  rintro rfl
  apply Returns.ite'
  · intro _
    exact replySendError_sends succeed _
  intro _
  apply Returns.bind (lock_zmq succeed)
  intro _
  apply Returns.bind (isRoot_stays _)
  intro found
  apply Returns.ite'
  · intro _
    apply Returns.bind (replySendError_sends succeed _)
    intro _
    exact unlock_zmq_answered succeed
  intro _
  apply Returns.bind (unlock_zmq succeed)
  intro _
  apply Returns.bind (read_stays _)
  intro defaultEvents
  apply Returns.bind (inotifyWatchTree_stays succeed _ _ _ _)
  intro code
  cases code with
  | some err => exact replySendError_sends succeed _
  | none => exact replySendSuccess_sends succeed

theorem eventUnwatch_sends (req : Request) :
    Returns (At (σ := σ) false z k) (eventUnwatch req) fun _ => Answered false z k := by
  unfold eventUnwatch
  cases requestGetPath req with
  | none => exact replySendError_sends succeed _
  | some path =>
    apply Returns.bind (inotifyUnwatchTree_stays succeed path)
    intro code
    cases code with
    | some err => exact replySendError_sends succeed _
    | none => exact replySendSuccess_sends succeed

end
end Inotispy
