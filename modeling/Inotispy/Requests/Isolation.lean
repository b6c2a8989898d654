import Inotispy.Events.Queue
import Inotispy.Requests.Dialogue

/-! A live root among the others.

Requests for other roots, the records of other roots, the timers and all threads leave the record
of a live root as it is. What is left are the requests for the root and its own records, and by
these it is a bounded queue that can be paused.
-/

set_option autoImplicit false

namespace Inotispy
open Library

variable {σ : Type} [System σ]

/-! ## One root in the table -/

/-- The cell `root` was handed out, is registered at no other key, and has this property. -/
structure RootCell (key : Str) (root : RootRef) (so : Root → Prop) (w : World σ) : Prop where
  made : root < w.roots.nextRoot
  only : ∀ other, w.roots.inotifyRoots.lookup other = some root → other = key
  so : so (w.roots.heap root)

section
variable {key : Str} {root : RootRef} {so : Root → Prop} (withstood : Withstood so)
include withstood

variable (key root) in
theorem steady_cell : SteadyMute fun w : World σ => RootCell key root so w where
  toSteady := by
    have tables : Steady fun w : World σ => (root < w.roots.nextRoot ∧
        ∀ other, w.roots.inotifyRoots.lookup other = some root → other = key) ∧ so (w.roots.heap root) := by
      apply Steady.of_tables fun roots _ => (root < roots.nextRoot ∧
        ∀ other, roots.inotifyRoots.lookup other = some root → other = key) ∧ so (roots.heap root)
      rintro thread w w' effect ⟨⟨made, only⟩, holds⟩
      have shrinks := Shrinks.of_effect effect.roots
      exact ⟨⟨shrinks.nextRoot ▸ made, fun other found => only other (shrinks.kept other root found)⟩,
        withstood _ _ _ root effect.roots holds⟩
    have same : (fun w : World σ => RootCell key root so w) = fun w => (root < w.roots.nextRoot ∧
        ∀ other, w.roots.inotifyRoots.lookup other = some root → other = key) ∧ so (w.roots.heap root) :=
      funext fun w => propext ⟨fun cell => ⟨⟨cell.made, cell.only⟩, cell.so⟩, fun holds => ⟨holds.1.1, holds.1.2, holds.2⟩⟩
    rw [same]
    exact tables
  mute _ _ cell := ⟨cell.made, cell.only, cell.so⟩

omit [System σ] withstood in
theorem RootCell.other {w : World σ} (cell : RootCell key root so w) {other : RootRef} (differs : other ≠ root)
    (change : Root → Root) : RootCell key root so { w with roots := w.roots.setRoot other change } where
  made := cell.made
  only := cell.only
  so := by
    rw [RootTable.heap_setRoot_of_ne differs.symm]
    exact cell.so

theorem cell_watches (path : Str) (mask : UInt32) (maxEvents : Int32) (rewatch : Bool) :
    Keeps (fun w : World σ => RootCell key root so w) (inotifyWatchTree path mask maxEvents rewatch) := by
  apply inotifyWatchTree_keeps (steady_cell key root withstood).toSteady
  intro w cell made _ _
  have old := Nat.ne_of_lt cell.made
  constructor
  · exact Nat.lt_succ_of_lt cell.made
  · intro other found
    simp only [RootTable.register, GHashTable.lookup_insert_if] at found
    split at found
    · exact absurd (Option.some.inj found).symm old
    · exact cell.only other found
  · simp only [RootTable.register, Function.update_of_ne old]
    exact cell.so

omit [System σ] withstood in
theorem RootCell.differs {w : World σ} (cell : RootCell key root so w) {path : Str} {other : RootRef}
    (found : w.roots.inotifyRoots.lookup path = some other) (foreign : path ≠ key) : other ≠ root := by
  rintro rfl
  exact foreign (cell.only path found)

theorem cell_unwatches {path : Str} (foreign : trimLastSlash path ≠ key) :
    Keeps (fun w : World σ => RootCell key root so w) (inotifyUnwatchTree path) := by
  have steady := (steady_cell (σ := σ) key root withstood).toSteady
  apply inotifyUnwatchTree_triple (fun _ _ => True) path fun _ => steady.and .always
  · exact fun w other cell found _ => ⟨cell.other (cell.differs found foreign) _, trivial⟩
  · exact fun w other holds => ⟨holds.1.made, holds.1.only, holds.1.so⟩

theorem cell_setPause {path : Str} (foreign : path ≠ key) (pause : Bool) :
    Keeps (fun w : World σ => RootCell key root so w) (setPause pause path) := by
  have steady := (steady_cell (σ := σ) key root withstood).toSteady
  apply Keeps.bind (steady.lock .inotify)
  intro _ w cell code w' ran
  simp only [inotifyIsRoot, Program.read_bind_apply] at ran
  cases found : w.roots.inotifyRoots.lookup path with
  | none =>
    rw [found] at ran
    exact (steady.of_unlock_pure ran cell).2
  | some other =>
    simp only [found, modifyRoots_bind] at ran
    exact (steady.of_unlock_pure ran (cell.other (cell.differs found foreign) _)).2

theorem cell_gets {path : Str} (foreign : path ≠ key) (count : Int32) :
    Keeps (fun w : World σ => RootCell key root so w) (inotifyGetEvents path count) := by
  have steady := (steady_cell (σ := σ) key root withstood).toSteady
  intro w cell got w' ran
  simp only [inotifyGetEvents, inotifyIsRoot, Program.read_bind_apply] at ran
  cases found : w.roots.inotifyRoots.lookup path with
  | none =>
    rw [found] at ran
    obtain ⟨_, rfl⟩ := Program.pure_eq_ok.mp ran
    exact cell
  | some other =>
    rw [found] at ran
    have differs := cell.differs found foreign
    refine inotifyDequeue_keeps steady (fun _ cell => ?_) (fun _ _ cell => cell.other differs _) count w cell got w' ran
    exact ⟨cell.made, cell.only, cell.so⟩

omit [System σ] withstood in
theorem RootCell.of_same {w w' : World σ} (cell : RootCell key root so w) (same : w'.roots = w.roots) : RootCell key root so w' := by
  constructor <;> rw [same]
  · exact cell.made
  · exact cell.only
  · exact cell.so

omit [System σ] withstood in
theorem cell_queue (other : RootRef) : Keeps (fun w : World σ => RootCell key root so w) (rootQueue other) := by
  intro w cell queue w' ran
  have ran' : (rootQueue other >>= pure) w = .ok (queue, w') := by rwa [bind_pure]
  rw [rootQueue_bind, Program.pure_eq_ok] at ran'
  rw [ran'.2]
  exact cell.of_same rfl

theorem cell_request {req : Request} (watched : ¬Unwatches key (.request req))
    (foreign : requestGetPath req = some key → req.call ≠ some (str "pause") ∧ req.call ≠ some (str "unpause") ∧
      req.call ≠ some (str "get_events")) :
    Keeps (fun w : World σ => RootCell key root so w) (zmqDispatchEvent req) := by
  have steady := steady_cell (σ := σ) key root withstood
  have elsewhere {path : Str} (asked : requestGetPath req = some path) {call : Option Str} (called : req.call = call)
      (meant : call = some (str "pause") ∨ call = some (str "unpause") ∨ call = some (str "get_events")) : path ≠ key := by
    rintro rfl
    obtain ⟨pause, unpause, gets⟩ := foreign asked
    rcases meant with rfl | rfl | rfl
    · exact pause called
    · exact unpause called
    · exact gets called
  apply zmqDispatchEvent_serves
  exact {
    toSteadyMute := steady
    watches := fun _ path mask maxEvents rewatch _ => cell_watches withstood path mask maxEvents rewatch
    unwatches := fun called path asked => cell_unwatches withstood fun same =>
      watched ⟨req, path, rfl, called, asked, same⟩
    pauses := fun called path asked => cell_setPause withstood (elsewhere asked called (.inl rfl)) true
    unpauses := fun called path asked => cell_setPause withstood (elsewhere asked called (.inr (.inl rfl))) false
    gets := fun called path count asked => by
      rcases called with called | called
      · exact cell_gets withstood (elsewhere asked called (.inr (.inr rfl))) count
      · exact cell_gets withstood (elsewhere asked called (.inl rfl)) count
    sizes := fun _ other => (cell_queue other).strengthen fun _ => And.left }

variable {req : Request}

theorem cell_own (watched : req.call ≠ some (str "unwatch"))
    (pauses : req.call = some (str "pause") ∨ req.call = some (str "unpause") →
      ∀ r pause, so r → so { r with pause := pause })
    (queues : req.call = some (str "get_events") ∨ req.call = some (str "pause") →
      ∀ r queue, so r → so { r with queue := queue }) :
    Keeps (fun w : World σ => RootCell key root so w) (zmqDispatchEvent req) := by
  have steady := steady_cell (σ := σ) key root withstood
  -- Whichever root is changed.
  have changes (w : World σ) (cell : RootCell key root so w) (other : RootRef) (change : Root → Root)
      (same : ∀ r, so r → so (change r)) : RootCell key root so { w with roots := w.roots.setRoot other change } := by
    refine ⟨cell.made, cell.only, ?_⟩
    by_cases is : other = root
    · subst is
      rw [RootTable.heap_setRoot_self]
      exact same _ cell.so
    · rw [RootTable.heap_setRoot_of_ne (Ne.symm is)]
      exact cell.so
  have sets (called : req.call = some (str "pause") ∨ req.call = some (str "unpause")) (pause : Bool) (path : Str) :
      Keeps (fun w : World σ => RootCell key root so w) (setPause pause path) := by
    apply Keeps.bind (steady.toSteady.lock .inotify)
    intro _ w cell code w' ran
    simp only [inotifyIsRoot, Program.read_bind_apply] at ran
    cases found : w.roots.inotifyRoots.lookup path with
    | none =>
      rw [found] at ran
      exact (steady.toSteady.of_unlock_pure ran cell).2
    | some other =>
      simp only [found, modifyRoots_bind] at ran
      exact (steady.toSteady.of_unlock_pure ran (changes w cell other _ fun r => pauses called r pause)).2
  apply zmqDispatchEvent_serves
  exact {
    toSteadyMute := steady
    watches := fun _ path mask maxEvents rewatch _ => cell_watches withstood path mask maxEvents rewatch
    unwatches := fun called => absurd called watched
    pauses := fun called path _ => sets (.inl called) true path
    unpauses := fun called path _ => sets (.inr called) false path
    gets := fun called path count _ => by
      apply Keeps.bind Keeps.read'
      intro found
      cases found with
      | none => exact Keeps.pure'
      | some other =>
        refine inotifyDequeue_keeps steady.toSteady (fun _ cell => ⟨cell.made, cell.only, cell.so⟩) ?_ count
        exact fun w taken cell => changes w cell other _ fun r => queues called r _
    sizes := fun _ other => (cell_queue other).strengthen fun _ => And.left }

end

/-! ## Records -/

/-- The record of a root, unless its destroy thread has freed the queue. -/
def Root.OrFreed (r r' : Root) : Prop := r' = r ∨ r'.queue = none

omit [System σ] in
theorem withstood_orFreed (r : Root) : Withstood r.OrFreed := by
  intro thread before after root effect holds
  cases effect with
  | same => exact holds
  | remove => exact holds
  | free freed =>
    by_cases same : root = freed
    · subst same
      rw [RootTable.heap_setRoot_self]
      exact .inr rfl
    · rw [RootTable.heap_setRoot_of_ne same]
      exact holds

def Root.queued (r : Root) (node : Event) : Root := { r with queue := some (r.events ++ [node]) }

section
variable (succeed : AllocationsSucceed σ) {key : Str} {root : RootRef} {r : Root}
include succeed

theorem inotifyEnqueue_cell (fits : r.events.length < 2 ^ 31) (event : InEvent) (path : Str) :
    Triple (fun w : World σ => RootCell key root r.OrFreed w ∧ (w.roots.heap root).pause = false)
      (inotifyEnqueue root event path) fun _ w => RootCell key root r.OrFreed w ∨ (r.pause = false ∧
        (r.events.length : Int) < r.maxEvents.toInt ∧
          RootCell key root (r.queued (makeNode event (some event.name) (some path))).OrFreed w) := by
  have steady := (steady_cell (σ := σ) key root (withstood_orFreed r)).toSteady
  have paused : Steady fun w : World σ => (w.roots.heap root).pause = false :=
    .of_tables (fun roots _ => (roots.heap root).pause = false) fun effect holds => (effect.roots.pause root).trans holds
  rintro w ⟨cell, running⟩ code w' ran
  obtain ⟨_, v, locking, ran⟩ := Program.bind_eq_ok ran
  have cell : RootCell key root r.OrFreed v := steady.lock .inotify w cell () v locking
  have running : (v.roots.heap root).pause = false := paused.lock .inotify w running () v locking
  simp only [rootQueue_bind, getRoot_bind, Program.ite_eq_ok, malloc_bind, Program.pure_eq_ok,
    mkString_bind, setRootQueue_bind, succeed _, if_true, Bool.not_true, Bool.false_eq_true, false_and, false_or,
    not_false_eq_true, true_and] at ran
  obtain ⟨_, ran⟩ | ⟨room, ran⟩ := ran
  · exact .inl (steady.of_unlock_pure ran (cell.of_same rfl)).2
  rcases cell.so with is | freed
  · rw [is] at running room
    rw [le_queueLength_iff fits, Int.not_le] at room
    have steady := (steady_cell (σ := σ) key root
      (withstood_orFreed (r.queued (makeNode event (some event.name) (some path))))).toSteady
    refine .inr ⟨running, room, (steady.of_unlock_pure ran ⟨cell.made, cell.only, ?_⟩).2⟩
    simp only [RootTable.heap_setRoot_self, is]
    cases there : r.queue with
    | none => exact .inr rfl
    | some queue => exact .inl rfl
  · refine .inl (steady.of_unlock_pure ran ⟨cell.made, cell.only, .inr ?_⟩).2
    simp only [RootTable.heap_setRoot_self, freed, Option.map_none]

theorem inotifyHandleRecord_cell (fits : r.events.length < 2 ^ 31) (event : InEvent) :
    Triple (fun w : World σ => RootCell key root r.OrFreed w) (inotifyHandleRecord event) fun _ w =>
      RootCell key root r.OrFreed w ∨ (r.pause = false ∧ (r.events.length : Int) < r.maxEvents.toInt ∧
        ∃ dir, RootCell key root (r.queued (makeNode event (some event.name) (some dir))).OrFreed w) := by
  have steady := (steady_cell (σ := σ) key root (withstood_orFreed r)).toSteady
  have paused : Steady fun w : World σ => (w.roots.heap root).pause = false :=
    .of_tables (fun roots _ => (roots.heap root).pause = false) fun effect holds => (effect.roots.pause root).trans holds
  have aimed (other : RootRef) : Steady fun w : World σ => other = root → (w.roots.heap root).pause = false := by
    by_cases same : other = root
    · simpa only [same, forall_const] using paused
    · simpa only [same, false_implies] using Steady.always
  apply inotifyHandleRecord_post (fun _ other w => other = root → (w.roots.heap root).pause = false) steady
    fun _ other => steady.and (aimed other)
  · intro _ other
    apply Thinning.of_thins
    · exact fun w s holds => ⟨holds.1.of_same rfl, holds.2⟩
    · exact fun w watches _ holds => ⟨holds.1.of_same rfl, holds.2⟩
  · rintro w wd watch other _ _ _ _ running rfl
    exact running
  · exact fun _ => .inl
  · intro path other
    by_cases same : other = root
    · subst same
      refine ((inotifyEnqueue_cell succeed fits event path).strengthen fun _ holds => ⟨holds.1, holds.2 rfl⟩).weaken ?_
      rintro _ w (kept | ⟨running, room, added⟩)
      · exact .inl kept
      · exact .inr ⟨running, room, path, added⟩
    · have keeps : Keeps (fun w : World σ => RootCell key root r.OrFreed w) (inotifyEnqueue other event path) :=
        inotifyEnqueue_keeps steady (fun _ cell => cell.of_same rfl) (fun _ _ _ cell => cell.other same _) event
      exact (keeps.strengthen fun _ => And.left).weaken fun _ _ => .inl

end

/-! ## Requests for the root -/

section
variable (succeed : AllocationsSucceed σ) {key : Str} {root : RootRef} {s : Socket} (pending : s.pending = true)
  {req : Request} (asked : requestGetPath req = some key)
include succeed pending asked

theorem eventPause_succeeds :
    Triple (Faces (σ := σ) key root s) (eventPause req) fun _ w => Sent successText s w.socket := by
  intro w faces a w' ran
  simp only [eventPause, asked, inotifyIsRoot, Program.read_bind_apply, faces.live.registered, Option.isNone_some,
    Bool.false_eq_true, if_false] at ran
  obtain ⟨code, v, pausing, ran⟩ := Program.bind_eq_ok ran
  obtain ⟨rfl, socket⟩ := setPause_found true w faces code v pausing
  obtain ⟨taken, u, getting, ran⟩ := Program.bind_eq_ok ran
  have same := inotifyGetEvents_socket key 0 v socket taken u getting
  exact sends_pending succeed pending same (replySendMessage_socket ran)

theorem eventUnpause_succeeds :
    Triple (Faces (σ := σ) key root s) (eventUnpause req) fun _ w => Sent successText s w.socket := by
  intro w faces a w' ran
  simp only [eventUnpause, asked, inotifyIsRoot, Program.read_bind_apply, faces.live.registered, Option.isNone_some,
    Bool.false_eq_true, if_false] at ran
  obtain ⟨code, v, pausing, ran⟩ := Program.bind_eq_ok ran
  obtain ⟨rfl, socket⟩ := setPause_found false w faces code v pausing
  exact sends_pending succeed pending socket (replySendMessage_socket ran)

end

omit [System σ] in
theorem Verdict.succeeded {s : Socket} {done : World σ → Prop} {w : World σ} (verdict : Verdict s done w)
    (success : Sent successText s w.socket) : done w := by
  rcases verdict with ⟨err, refused⟩ | ⟨_, done⟩
  · have same := List.append_cancel_left (refused.symm.trans success)
    exact absurd (List.cons.inj same).1 (errorText_ne_success err)
  · exact done

omit [System σ] in
theorem Became.registered {before : RootTable} {path : Str} {so : Root → Prop} {w : World σ}
    (became : Became before path so w) {root : RootRef} (found : before.inotifyRoots.lookup path = some root) :
    so (w.roots.heap root) := by
  obtain ⟨other, found', holds⟩ := became
  rw [found] at found'
  cases found'
  exact holds

/-! ## The queue of a live root -/

/-- The root at `key` is live, with these options, and its queue is this one. -/
structure Represents (key : Str) (root : RootRef) (chosen : UInt32 × Int32 × Bool) (q : BoundedQueue Event)
    (w : World σ) : Prop where
  life : Lifecycle w.roots w.pool.threads
  live : Live key root w.roots
  options : (w.roots.heap root).options = chosen
  queue : (w.roots.heap root).queue = some q.items
  pause : (w.roots.heap root).pause = q.paused
  capacity : q.capacity = chosen.2.1.toInt.toNat

def Request.Concerns (req : Request) (key : Str) : Prop :=
  requestGetPath req = some key ∧ (req.call = some (str "pause") ∨ req.call = some (str "unpause") ∨
    req.call = some (str "get_events"))

/-- A step of the daemon in which the root at `key` is not unwatched. A request is dispatched when it was received. -/
structure Spares (key : Str) (action : Action) (w w' : World σ) : Prop where
  step : ServerStep action w w'
  watched : ¬Unwatches key action
  received : ∀ req, action = .request req → w.socket.pending = true

/-- What a step does to the queue, and what the client is told of it. -/
inductive QueueStep (key : Str) (w w' : World σ) (q : BoundedQueue Event) : Action → BoundedQueue Event → Prop where
  | foreign {action : Action} (unasked : ∀ req, action = .request req → ¬req.Concerns key)
      (unrecorded : ∀ event, action ≠ .record event) : QueueStep key w w' q action q
  | unqueued {event : InEvent} : QueueStep key w w' q (.record event) q
  | queued {event : InEvent} (dir : Str) (running : q.paused = false) (room : q.items.length < q.capacity) :
      QueueStep key w w' q (.record event) (q.push (makeNode event (some event.name) (some dir)) running room)
  | refused {req : Request} (concerns : req.Concerns key) (called : req.call = some (str "get_events"))
      (negative : requestGetCount req = -1) (told : Sent (errorText .invalidEventCount) w.socket w'.socket) :
      QueueStep key w w' q (.request req) q
  | taken {req : Request} (concerns : req.Concerns key) (called : req.call = some (str "get_events"))
      (told : Sent (eventsText σ (q.items.take (dequeueCount q.items (requestGetCount req)))) w.socket w'.socket) :
      QueueStep key w w' q (.request req) (q.take (dequeueCount q.items (requestGetCount req)))
  | paused {req : Request} (concerns : req.Concerns key) (called : req.call = some (str "pause"))
      (told : Sent successText w.socket w'.socket) : QueueStep key w w' q (.request req) q.pause
  | unpaused {req : Request} (concerns : req.Concerns key) (called : req.call = some (str "unpause"))
      (told : Sent successText w.socket w'.socket) : QueueStep key w w' q (.request req) q.unpause

section
variable {key : Str} {root : RootRef} {chosen : UInt32 × Int32 × Bool} {q : BoundedQueue Event} {w w' : World σ}

omit [System σ] in
theorem Represents.cell (rep : Represents key root chosen q w) {so : Root → Prop} (holds : so (w.roots.heap root)) :
    RootCell key root so w where
  made := rep.life.made key root rep.live.registered
  only _ found := rep.life.single _ _ root found rep.live.registered
  so := holds

omit [System σ] in
theorem Represents.fits (rep : Represents key root chosen q w) : q.items.length < 2 ^ 31 := by
  have bounded := q.bounded
  have below := chosen.2.1.toInt_lt
  rw [rep.capacity] at bounded
  omega

omit [System σ] in
theorem Represents.events (rep : Represents key root chosen q w) : (w.roots.heap root).events = q.items := by
  rw [Root.events, rep.queue, Option.getD_some]

omit [System σ] in
theorem Represents.of_cell (life : Lifecycle w.roots w.pool.threads) (live : Live key root w.roots) {r : Root}
    (cell : RootCell key root r.OrFreed w) (options : r.options = chosen) (queue : r.queue = some q.items)
    (pause : r.pause = q.paused) (capacity : q.capacity = chosen.2.1.toInt.toNat) :
    Represents key root chosen q w := by
  rcases cell.so with is | freed
  · subst is
    exact ⟨life, live, options, queue, pause, capacity⟩
  · exact absurd freed (life.queue_of_live live)

omit [System σ] in
theorem Represents.same (rep : Represents key root chosen q w) (life : Lifecycle w'.roots w'.pool.threads)
    (live : Live key root w'.roots) (cell : RootCell key root (w.roots.heap root).OrFreed w') :
    Represents key root chosen q w' :=
  .of_cell life live cell rep.options rep.queue rep.pause rep.capacity

theorem represents_record (succeed : AllocationsSucceed σ) (rep : Represents key root chosen q w)
    (lives : Lifecycle w'.roots w'.pool.threads ∧ Live key root w'.roots) {event : InEvent} {round : Round}
    (ran : inotifyHandleRecord event w = .ok (round, w')) :
    ∃ q', QueueStep key w w' q (.record event) q' ∧ Represents key root chosen q' w' := by
  have handled := inotifyHandleRecord_cell succeed (rep.events ▸ rep.fits) event w
    (rep.cell (.inl rfl)) round w' ran
  have limit : (w.roots.heap root).maxEvents = chosen.2.1 := congrArg (·.2.1) rep.options
  rcases handled with kept | ⟨running, room, dir, added⟩
  · exact ⟨q, .unqueued, rep.same lives.1 lives.2 kept⟩
  · rw [rep.pause] at running
    rw [rep.events, limit] at room
    have room : q.items.length < q.capacity := by
      rw [rep.capacity]
      omega
    refine ⟨_, .queued dir running room, .of_cell lives.1 lives.2 added rep.options ?_ rep.pause rep.capacity⟩
    rw [Root.queued, rep.events]
    rfl

theorem withstood_options_pause (options : UInt32 × Int32 × Bool) (pause : Bool) :
    Withstood fun r => r.options = options ∧ r.pause = pause :=
  fun _ _ _ root effect holds => ⟨(effect.options root).trans holds.1, (effect.pause root).trans holds.2⟩

theorem withstood_options (options : UInt32 × Int32 × Bool) : Withstood fun r => r.options = options :=
  fun _ _ _ root effect holds => (effect.options root).trans holds

theorem withstood_options_queue (options : UInt32 × Int32 × Bool) (queue : Option (List Event)) :
    Withstood fun r => r.options = options ∧ (r.queue = queue ∨ r.queue = none) := by
  intro _ _ _ root effect holds
  refine ⟨(effect.options root).trans holds.1, ?_⟩
  rcases effect.queue root with same | freed
  · rw [same]
    exact holds.2
  · exact .inr freed

section
variable (succeed : AllocationsSucceed σ) (rep : Represents key root chosen q w)
  (lives : Lifecycle w'.roots w'.pool.threads ∧ Live key root w'.roots) (countable : Countable w.roots)
  (pending : w.socket.pending = true) {req : Request} (concerns : req.Concerns key)
  (ran : zmqDispatchEvent req w = .ok ((), w'))
include succeed rep lives countable pending concerns ran

theorem represents_gets (called : req.call = some (str "get_events")) :
    ∃ q', QueueStep key w w' q (.request req) q' ∧ Represents key root chosen q' w' := by
  have other : req.call ≠ some (str "pause") ∧ req.call ≠ some (str "unpause") ∧ req.call ≠ some (str "unwatch") := by
    rw [called]
    decide
  have kept := cell_own (withstood_options_pause chosen q.paused)
    other.2.2 (fun is => absurd is (by tauto)) (fun _ _ _ holds => holds) w (rep.cell ⟨rep.options, rep.pause⟩) () w' ran
  have handled : eventGetEvents req w = .ok ((), w') := by
    rw [zmqDispatchEvent, called] at ran
    exact ran
  by_cases negative : requestGetCount req = -1
  · have registered := rep.live.registered
    simp only [eventGetEvents, concerns.1, inotifyIsRoot, Program.read_bind_apply, registered, Option.isNone_some,
      Bool.false_eq_true, if_false, negative, if_true] at handled
    obtain ⟨s, refusing⟩ := replySendFormatted_run succeed (errorText .invalidEventCount) w
    obtain ⟨_, rfl⟩ := Program.ok_unique refusing handled
    refine ⟨q, .refused concerns called negative (sent_send pending _), ?_⟩
    exact ⟨rep.life, rep.live, rep.options, rep.queue, rep.pause, rep.capacity⟩
  · obtain ⟨sent, queue⟩ := eventGetEvents_live succeed ⟨rep.life, rep.live⟩ rep.queue countable pending concerns.1 negative
      lives handled
    exact ⟨_, .taken concerns called sent, lives.1, lives.2, kept.so.1, queue, kept.so.2, rep.capacity⟩

theorem represents_pauses (called : req.call = some (str "pause")) :
    ∃ q', QueueStep key w w' q (.request req) q' ∧ Represents key root chosen q' w' := by
  have other : req.call ≠ some (str "unwatch") := by
    rw [called]
    decide
  have kept := cell_own (withstood_options chosen)
    other (fun _ _ _ holds => holds) (fun _ _ _ holds => holds) w (rep.cell rep.options) () w' ran
  have handled : eventPause req w = .ok ((), w') := by
    rw [zmqDispatchEvent, called] at ran
    exact ran
  have told := eventPause_succeeds succeed pending concerns.1 w ⟨rep.life, rep.live, rfl⟩ () w' handled
  obtain ⟨became, flushed⟩ := (eventPause_verdict succeed pending concerns.1 w ⟨⟨countable, fun _ _ => id⟩, rfl⟩ () w'
    handled).succeeded told
  have queue := Root.queue_of_events (flushed root lives.2.registered) (lives.1.queue_of_live lives.2)
  exact ⟨_, .paused concerns called told, lives.1, lives.2, kept.so, queue, became.registered rep.live.registered, rep.capacity⟩

omit countable in
theorem represents_unpauses (called : req.call = some (str "unpause")) :
    ∃ q', QueueStep key w w' q (.request req) q' ∧ Represents key root chosen q' w' := by
  have other : req.call ≠ some (str "get_events") ∧ req.call ≠ some (str "pause") ∧ req.call ≠ some (str "unwatch") := by
    rw [called]
    decide
  have kept := cell_own (withstood_options_queue chosen (some q.items))
    other.2.2 (fun _ _ _ holds => holds) (fun is => absurd is (by tauto)) w (rep.cell ⟨rep.options, .inl rep.queue⟩) () w' ran
  have handled : eventUnpause req w = .ok ((), w') := by
    rw [zmqDispatchEvent, called] at ran
    exact ran
  have told := eventUnpause_succeeds succeed pending concerns.1 w ⟨rep.life, rep.live, rfl⟩ () w' handled
  have became := (eventUnpause_verdict succeed pending concerns.1 w ⟨fun _ _ => id, rfl⟩ () w' handled).succeeded told
  have queue := kept.so.2.resolve_right (lives.1.queue_of_live lives.2)
  exact ⟨_, .unpaused concerns called told, lives.1, lives.2, kept.so.1, queue, became.registered rep.live.registered, rep.capacity⟩

end

/-- What a step does to the root is what a step of the queue does. -/
theorem Spares.represents (succeed : AllocationsSucceed σ) {action : Action} (spares : Spares key action w w')
    (countable : Countable w.roots) (rep : Represents key root chosen q w) :
    ∃ q', QueueStep key w w' q action q' ∧ Represents key root chosen q' w' := by
  have lives := spares.step.live spares.watched rep.life rep.live
  have ran := spares.step.ran
  have steady := steady_cell (σ := σ) key root (withstood_orFreed (w.roots.heap root))
  have cell : RootCell key root (w.roots.heap root).OrFreed w := rep.cell (.inl rfl)
  have keeps {x : M σ Unit} (kept : Keeps (fun v : World σ => RootCell key root (w.roots.heap root).OrFreed v) x)
      (ran : x w = .ok ((), w')) : Represents key root chosen q w' := rep.same lives.1 lives.2 (kept w cell () w' ran)
  cases action with
  | record event =>
    obtain ⟨round, v, handling, ran⟩ := Program.bind_eq_ok ran
    obtain ⟨_, rfl⟩ := Program.pure_eq_ok.mp ran
    exact represents_record succeed rep lives handling
  | request req =>
    by_cases concerns : req.Concerns key
    · rcases concerns.2 with called | called | called
      · exact represents_pauses succeed rep lives countable (spares.received req rfl) concerns ran called
      · exact represents_unpauses succeed rep lives (spares.received req rfl) concerns ran called
      · exact represents_gets succeed rep lives countable (spares.received req rfl) concerns ran called
    · refine ⟨q, .foreign (fun other same => ?_) nofun, keeps (cell_request (withstood_orFreed _) spares.watched ?_) ran⟩
      · cases same
        exact concerns
      · intro asked
        exact ⟨fun called => concerns ⟨asked, .inl called⟩, fun called => concerns ⟨asked, .inr (.inl called)⟩,
          fun called => concerns ⟨asked, .inr (.inr called)⟩⟩
  | setup path mask maxEvents =>
    have watching : Keeps (fun v : World σ => RootCell key root (w.roots.heap root).OrFreed v)
        (Action.setup path mask maxEvents).perform :=
      Keeps.bind (cell_watches (withstood_orFreed _) path mask maxEvents true) fun _ => Keeps.pure'
    exact ⟨q, .foreign nofun nofun, keeps watching ran⟩
  | memclean => exact ⟨q, .foreign nofun nofun, keeps steady.still.inotifyMemclean ran⟩
  | rewatchRoots => exact ⟨q, .foreign nofun nofun, keeps steady.inotifyRewatchRoots ran⟩
  | dumpRoots => exact ⟨q, .foreign nofun nofun, keeps steady.inotifyDumpRoots ran⟩
  | thread index => exact ⟨q, .foreign nofun nofun, keeps (steady.run index) ran⟩
  | schedule turns =>
    have scheduling : Keeps (fun v : World σ => RootCell key root (w.roots.heap root).OrFreed v) (Action.schedule turns).perform :=
      steady.update fun _ => ⟨.refl, rfl, rfl, rfl, rfl, rfl⟩
    exact ⟨q, .foreign nofun nofun, keeps scheduling ran⟩
  | receive socket => exact ⟨q, .foreign nofun nofun, keeps (steady.still.socket fun _ => ((), socket)) ran⟩

end

/-- Whatever else the daemon is doing, from the moment on at which a bounded queue describes a live root and until the
root is unwatched, every run of the daemon is one of the queue. -/
theorem live_root_refines_queue (succeed : AllocationsSucceed σ) {key : Str} {root : RootRef}
    {chosen : UInt32 × Int32 × Bool} {q : BoundedQueue Event} {v w : World σ} (served : Served v)
    (start : Represents key root chosen q v)
    (run : Relation.ReflTransGen (fun x y => ∃ action, Spares key action x y) v w) :
    ∃ q', Represents key root chosen q' w ∧
      Relation.ReflTransGen (fun x y : World σ × BoundedQueue Event =>
        ∃ action, Spares key action x.1 y.1 ∧ QueueStep key x.1 y.1 x.2 action y.2) (v, q) (w, q') := by
  have both : Served w ∧ ∃ q', Represents key root chosen q' w ∧
      Relation.ReflTransGen (fun x y : World σ × BoundedQueue Event =>
        ∃ action, Spares key action x.1 y.1 ∧ QueueStep key x.1 y.1 x.2 action y.2) (v, q) (w, q') := by
    induction run with
    | refl => exact ⟨served, q, start, .refl⟩
    | tail _ next ih =>
      obtain ⟨action, spares⟩ := next
      obtain ⟨served, q', rep, before⟩ := ih
      obtain ⟨q'', step, rep⟩ := spares.represents succeed served.countable rep
      obtain ⟨sys, run⟩ := served
      exact ⟨⟨sys, run.tail ⟨action, spares.step⟩⟩, q'', rep, before.tail ⟨action, spares, step⟩⟩
  exact both.2

def Socket.asked : Socket := ⟨[], true, []⟩

/-- "/a" is watched, and an event in it is queued. Then it is paused over an event, and after that two more are
queued, of which one is asked for. -/
theorem live_root_refines_queue_paused : ∃ (v w : World (Script true)) (q : BoundedQueue Event),
    Served v ∧ (v.roots.heap 0).events = [] ∧ Represents (str "/a") 0 (inotifyDefaultMask, 65536, false) q w ∧
      q.paused = false ∧ q.items.map (·.name) = [some (str "e")] := by
  have facts : ((Program.forEach Action.perform [.request (.about "watch" "/a"), .thread 0, .thread 0]
      (World.initial (⟨[1]⟩ : Script true))).toOption.bind fun r =>
        (Program.forEach Action.perform [.record ⟨1, inCreate, 0, 16, str "b"⟩, .receive .asked,
          .request (.about "pause" "/a"), .record ⟨1, inCreate, 0, 16, str "c"⟩, .receive .asked,
          .request (.about "unpause" "/a"), .record ⟨1, inCreate, 0, 16, str "d"⟩,
          .record ⟨1, inCreate, 0, 16, str "e"⟩, .receive .asked, .request (.about "get_events" "/a")]
            r.2).toOption.map fun r' =>
          decide (r.2.roots.inotifyRoots.lookup (str "/a") = some 0 ∧ (r.2.roots.heap 0).destroy = false ∧
            (r.2.roots.heap 0).options = (inotifyDefaultMask, 65536, false) ∧
            (r.2.roots.heap 0).queue.map List.length = some 0 ∧ (r.2.roots.heap 0).pause = false ∧
            (r'.2.roots.heap 0).pause = false ∧
            (r'.2.roots.heap 0).events.map (·.name) = [some (str "e")])) = some true := by decide +kernel
  obtain ⟨⟨_, v⟩, before, facts⟩ := Option.bind_eq_some_iff.mp facts
  obtain ⟨⟨_, w⟩, after, facts⟩ := Option.map_eq_some_iff.mp facts
  obtain ⟨registered, running, chosen, length, pause, unpaused, names⟩ := of_decide_eq_true facts
  obtain ⟨queue, there, empty⟩ := Option.map_eq_some_iff.mp length
  obtain rfl := List.length_eq_zero_iff.mp empty
  have served : Served v := by
    refine ⟨_, ServerStep.of_forEach ?_ (Program.ok_of_toOption before)⟩
    simp [Action.Possible]
  have start : Represents (str "/a") 0 (inotifyDefaultMask, 65536, false) (.fresh 65536) v :=
    ⟨served.life, ⟨registered, running⟩, chosen, there, pause, rfl⟩
  have recorded {x y : World (Script true)} {event : InEvent} (ran : Action.perform (.record event) x = .ok ((), y)) :
      ∃ action, Spares (str "/a") action x y := by
    refine ⟨.record event, ⟨trivial, ran⟩, ?_, ?_⟩
    · rintro ⟨_, _, ⟨⟩, _⟩
    · rintro _ ⟨⟩
  -- A request is received in the step before it.
  have asked {x y z : World (Script true)} {call : String} (other : str call ≠ str "unwatch")
      (received : Action.perform (.receive .asked) x = .ok ((), y))
      (ran : Action.perform (.request (.about call "/a")) y = .ok ((), z)) :
      Relation.ReflTransGen (fun x y => ∃ action, Spares (str "/a") action x y) x z := by
    have first : Spares (str "/a") (.receive .asked) x y := by
      refine ⟨⟨trivial, received⟩, ?_, ?_⟩
      · rintro ⟨_, _, ⟨⟩, _⟩
      · rintro _ ⟨⟩
    cases received
    refine (Relation.ReflTransGen.single ⟨_, first⟩).tail ⟨.request (.about call "/a"), ⟨trivial, ran⟩, ?_, fun _ _ => rfl⟩
    rintro ⟨_, _, is, unwatch, _⟩
    cases is
    exact other (Option.some.inj unwatch)
  have run : Relation.ReflTransGen (fun x y => ∃ action, Spares (str "/a") action x y) v w := by
    obtain ⟨_, _, b, after⟩ := Program.bind_eq_ok (Program.ok_of_toOption after)
    obtain ⟨_, _, received, after⟩ := Program.bind_eq_ok after
    obtain ⟨_, _, pausing, after⟩ := Program.bind_eq_ok after
    obtain ⟨_, _, c, after⟩ := Program.bind_eq_ok after
    obtain ⟨_, _, received', after⟩ := Program.bind_eq_ok after
    obtain ⟨_, _, unpausing, after⟩ := Program.bind_eq_ok after
    obtain ⟨_, _, d, after⟩ := Program.bind_eq_ok after
    obtain ⟨_, _, e, after⟩ := Program.bind_eq_ok after
    obtain ⟨_, _, received'', after⟩ := Program.bind_eq_ok after
    obtain ⟨_, _, getting, after⟩ := Program.bind_eq_ok after
    obtain ⟨_, rfl⟩ := Program.pure_eq_ok.mp after
    have paused := (Relation.ReflTransGen.single (recorded b)).trans (asked (by decide) received pausing)
    have resumed := (paused.tail (recorded c)).trans (asked (by decide) received' unpausing)
    exact ((resumed.tail (recorded d)).tail (recorded e)).trans (asked (by decide) received'' getting)
  obtain ⟨q, rep, _⟩ := live_root_refines_queue (fun _ => rfl) served start run
  refine ⟨v, w, q, served, ?_, rep, rep.pause.symm.trans unpaused, ?_⟩
  · rw [Root.events, there, Option.getD_some]
  · rw [Root.events, rep.queue, Option.getD_some] at names
    exact names

end Inotispy
