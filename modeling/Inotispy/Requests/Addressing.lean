import Inotispy.Model.Script
import Inotispy.Requests.Replies
import Inotispy.Roots.Lifecycle

/-! Which root a request is for.

A path loses its trailing slashes in three places: where it is taken from the request,
where a watch request registers it, and where an unwatch request looks it up. The first
leaves no path with a slash at its end but "/", and the last has no exception for it.
-/

set_option autoImplicit false

namespace Inotispy
open Library

variable {σ : Type}

/-! ## Trimming -/

theorem trimLoop_last (path : Str) (count : Nat) (length : path.length = count) :
    (trimLoop path count).getLast? ≠ some '/' := by
  induction count generalizing path with
  | zero =>
    rw [List.length_eq_zero_iff.mp length]
    exact nofun
  | succ count ih =>
    unfold trimLoop
    split
    · apply ih
      rw [List.length_take, length]
      omega
    · rename_i other
      rw [List.getLast?_eq_getElem?, length, Nat.add_sub_cancel]
      rintro last
      rw [List.getD_eq_getElem?_getD, last] at other
      exact other rfl

/-- A request's path ends in a slash only if it is "/". -/
theorem requestGetPath_last {req : Request} {path : Str} (asked : requestGetPath req = some path)
    (other : path ≠ str "/") : path.getLast? ≠ some '/' := by
  obtain ⟨text, _, is⟩ := Option.map_eq_some_iff.mp asked
  split at is
  · rw [← is]
    exact trimLoop_last text _ rfl
  · rename_i untrimmed
    subst is
    simp only [not_and_or, not_not, Nat.not_lt, Nat.le_zero, List.length_eq_zero_iff] at untrimmed
    rcases untrimmed with rfl | rfl
    · exact nofun
    · exact absurd rfl other

theorem trimSlash_of_last {path : Str} (last : path = str "/" ∨ path.getLast? ≠ some '/') :
    trimSlash path = path := by
  unfold trimSlash
  rw [CString.charAt_last, if_neg]
  rintro ⟨slash, differs⟩
  rcases last with top | last
  · exact differs top
  · exact last slash

theorem trimSlash_of_asked {req : Request} {path : Str} (asked : requestGetPath req = some path) :
    trimSlash path = path := by
  apply trimSlash_of_last
  by_cases top : path = str "/"
  · exact .inl top
  · exact .inr (requestGetPath_last asked top)

theorem trimLastSlash_of_last {path : Str} (last : path.getLast? ≠ some '/') : trimLastSlash path = path := by
  unfold trimLastSlash
  rw [CString.charAt_last, if_neg last]

/-! ## Addresses -/

/-- The key under which the handler of a request looks for the root it is for. -/
def Request.key (req : Request) : Option Str :=
  (requestGetPath req).map fun path => if req.call = some (str "unwatch") then trimLastSlash path else path

def Request.AboutRoot (req : Request) : Prop :=
  req.call ∈ [str "unwatch", str "pause", str "unpause", str "get_events", str "get_queue_size"].map some

def Unwatches (key : Str) (action : Action) : Prop :=
  ∃ req path, action = .request req ∧ req.call = some (str "unwatch") ∧ requestGetPath req = some path ∧
    trimLastSlash path = key

/-! ## Replies -/

def Sent (text : Str) (before after : Socket) : Prop := after.replies = before.replies ++ [text]

theorem sent_send {socket : Socket} (pending : socket.pending = true) (text : Str) :
    Sent text socket (socket.send text).2 := by
  rw [Sent, Socket.send, if_pos pending]

theorem not_sent_self (text : Str) (socket : Socket) : ¬Sent text socket socket := by
  intro sent
  have longer := congrArg List.length sent
  simp only [List.length_append, List.length_singleton] at longer
  omega

theorem not_sent_other (socket : Socket) {text other : Str} (differs : other ≠ text) :
    ¬Sent text socket (socket.send other).2 := by
  unfold Socket.send
  split
  · intro sent
    have last := List.append_cancel_left sent
    exact differs (List.cons.inj last).1
  · exact not_sent_self text socket

theorem errorText_ne {err : InotispyError} (other : err ≠ .inotifyRootNotWatched) :
    errorText err ≠ errorText .inotifyRootNotWatched := by
  cases err <;> first | exact absurd rfl other | decide +kernel

theorem dataReply_ne (value : Int) : dataReply value ≠ errorText .inotifyRootNotWatched := by
  intro same
  have third := congrArg (fun text : Str => text[2]?) same
  cases third

abbrev Spared {σ : Type} (s : Socket) (w : World σ) : Prop := ¬Sent (errorText .inotifyRootNotWatched) s w.socket

/-- json-c does not print an object as that error. -/
def PrintsData (σ : Type) [System σ] : Prop :=
  ∀ items, System.jsonObjectToJsonString (σ := σ) (.object [(str "data", .array items)]) ≠
    errorText .inotifyRootNotWatched

/-! ## Lives -/

section
variable [System σ]

theorem living_live (key : Str) (root : RootRef) :
    Living fun w : World σ => Lifecycle w.roots w.pool.threads ∧ Live key root w.roots := by
  apply Living.of_roots fun roots _ => Live key root roots
  · exact fun _ _ _ _ => id
  · exact fun found effect life live => live.step found life effect
  · intro roots threads path made life new live
    have differs : key ≠ path := by
      rintro rfl
      rw [live.registered] at new
      cases new
    have old := Nat.ne_of_lt (life.made key root live.registered)
    constructor
    · rw [RootTable.register, AList.lookup_insert_ne differs]
      exact live.registered
    · rw [RootTable.register]
      simp only [Function.update_of_ne old]
      exact live.running
  · intro roots threads other change same live
    refine ⟨live.registered, ?_⟩
    rw [← live.running]
    exact RootTable.field_setRoot Root.destroy same roots other root

theorem ServerStep.live {action : Action} {w w' : World σ} (step : ServerStep action w w') {key : Str}
    {root : RootRef} (watched : ¬Unwatches key action) (life : Lifecycle w.roots w.pool.threads)
    (live : Live key root w.roots) : Lifecycle w'.roots w'.pool.threads ∧ Live key root w'.roots := by
  have living := living_live (σ := σ) key root
  refine step.keeps ⟨life, live⟩ living.toSteadyMute ?_ living.watches living.records
  rintro req rfl
  apply living.serves
  · intro called path asked
    apply living.unwatches
    · intro v other holds registered _
      -- The root that is marked is another one.
      have differs : root ≠ other := by
        rintro rfl
        have same := holds.1.single _ _ root registered holds.2.registered
        exact watched ⟨req, path, rfl, called, asked, same⟩
      refine ⟨holds.1.mark other, holds.2.registered, ?_⟩
      rw [RootTable.heap_setRoot_of_ne differs]
      exact holds.2.running
    · exact fun v other holds marked => ⟨holds.1.join marked, holds.2⟩
  · exact fun _ path count _ => living.gets (fun _ _ => id) path count

/-- The root registered at `path` is live, and the socket is as it was. -/
structure Faces (path : Str) (root : RootRef) (socket : Socket) (w : World σ) : Prop where
  life : Lifecycle w.roots w.pool.threads
  live : Live path root w.roots
  socket : w.socket = socket

section
variable {path : Str} {root : RootRef} {s : Socket}

theorem steady_faces : Steady fun w : World σ => Faces path root s w := by
  have steady := (living_live (σ := σ) path root).toSteady.and (Steady.of_socket (· = s))
  constructor
  · intro w w' rests faces
    have after := steady.quiet rests ⟨⟨faces.life, faces.live⟩, faces.socket⟩
    exact ⟨after.1.1, after.1.2, after.2⟩
  · intro w thread fresh faces
    have after := steady.spawned thread fresh ⟨⟨faces.life, faces.live⟩, faces.socket⟩
    exact ⟨after.1.1, after.1.2, after.2⟩
  · intro index w faces a w' ran
    have after := steady.run index w ⟨⟨faces.life, faces.live⟩, faces.socket⟩ a w' ran
    exact ⟨after.1.1, after.1.2, after.2⟩

theorem steady_spared : Steady fun w : World σ => Spared s w :=
  .of_socket fun socket => ¬Sent (errorText .inotifyRootNotWatched) s socket

omit [System σ] in
theorem not_sent {w w' : World σ} (is : w.socket = s) {text other : Str} (differs : other ≠ text) {failed : Prop}
    (sent : w'.socket = (w.socket.send other).2 ∨ (w'.socket = w.socket ∧ failed)) : ¬Sent text s w'.socket := by
  rcases sent with sent | ⟨same, _⟩
  · rw [sent, is]
    exact not_sent_other s differs
  · rw [same, is]
    exact not_sent_self text s

theorem replySendError_spared {err : InotispyError} (other : err ≠ .inotifyRootNotWatched) :
    Triple (fun w : World σ => w.socket = s) (replySendError err) fun _ w => Spared s w :=
  fun _ is _ _ ran => not_sent is (errorText_ne other) (replySendError_socket ran)

theorem replySendSuccess_spared : Triple (fun w : World σ => w.socket = s) replySendSuccess fun _ w => Spared s w :=
  fun _ is _ _ ran => not_sent is (by decide +kernel) (replySendMessage_socket ran)

/-! ## Handlers -/

theorem inotifyUnwatchTree_found {asked : Str} (key : trimLastSlash asked = path) :
    Triple (Faces (σ := σ) path root s) (inotifyUnwatchTree asked) fun code w =>
      code ≠ some .inotifyRootNotWatched ∧ w.socket = s := by
  have same := Steady.of_socket (σ := σ) (· = s)
  subst key
  intro w faces code w' ran
  simp only [inotifyUnwatchTree, inotifyIsRoot, Program.read_bind_apply] at ran
  rw [faces.live.registered] at ran
  simp only [getRoot_bind, faces.live.running, Bool.false_eq_true, if_false, destroyRoot, modifyRoots_bind] at ran
  obtain ⟨_, v, yielding, ran⟩ := Program.bind_eq_ok ran
  have between := same.yieldMain _ (by exact faces.socket) _ _ yielding
  obtain ⟨started, u, spawning, ran⟩ := Program.bind_eq_ok ran
  have after := same.still.start _ (fun _ => id) v between started u spawning
  cases started <;> obtain ⟨rfl, rfl⟩ := Program.pure_eq_ok.mp ran <;> exact ⟨by decide, after⟩

theorem setPause_found (pause : Bool) :
    Triple (Faces (σ := σ) path root s) (setPause pause path) fun code w => code = none ∧ w.socket = s := by
  have same := Steady.of_socket (σ := σ) (· = s)
  refine Triple.bind ((steady_faces (σ := σ)).lock .inotify) ?_
  intro _ w faces code w' ran
  simp only [inotifyIsRoot, Program.read_bind_apply, faces.live.registered, modifyRoots_bind] at ran
  exact same.of_unlock_pure ran faces.socket

theorem inotifyGetEvents_socket (asked : Str) (count : Int32) :
    Keeps (fun w : World σ => w.socket = s) (inotifyGetEvents asked count) := by
  have same := Steady.of_socket (σ := σ) (· = s)
  exact inotifyGetEvents_keeps same ⟨fun _ _ _ => id, fun _ _ => id, fun _ _ _ => id⟩ (fun _ _ => id) asked count

variable {req : Request}

theorem eventUnwatch_spared {asked : Str} (path_ : requestGetPath req = some asked)
    (key : trimLastSlash asked = path) :
    Triple (Faces (σ := σ) path root s) (eventUnwatch req) fun _ w => Spared s w := by
  unfold eventUnwatch
  rw [path_]
  refine Triple.bind (inotifyUnwatchTree_found key) fun code => ?_
  cases code with
  | none => exact replySendSuccess_spared.strengthen fun _ => And.right
  | some err =>
    intro w found
    exact replySendError_spared (fun is => found.1 (congrArg some is)) w found.2

theorem eventPause_spared (asked : requestGetPath req = some path) :
    Triple (Faces (σ := σ) path root s) (eventPause req) fun _ w => Spared s w := by
  intro w faces a w' ran
  simp only [eventPause, asked, inotifyIsRoot, Program.read_bind_apply, faces.live.registered, Option.isNone_some,
    Bool.false_eq_true, if_false] at ran
  obtain ⟨code, v, pausing, ran⟩ := Program.bind_eq_ok ran
  obtain ⟨rfl, socket⟩ := setPause_found true w faces code v pausing
  obtain ⟨taken, u, getting, ran⟩ := Program.bind_eq_ok ran
  exact replySendSuccess_spared u (inotifyGetEvents_socket path 0 v socket taken u getting) a w' ran

theorem eventUnpause_spared (asked : requestGetPath req = some path) :
    Triple (Faces (σ := σ) path root s) (eventUnpause req) fun _ w => Spared s w := by
  intro w faces a w' ran
  simp only [eventUnpause, asked, inotifyIsRoot, Program.read_bind_apply, faces.live.registered, Option.isNone_some,
    Bool.false_eq_true, if_false] at ran
  obtain ⟨code, v, pausing, ran⟩ := Program.bind_eq_ok ran
  obtain ⟨rfl, socket⟩ := setPause_found false w faces code v pausing
  exact replySendSuccess_spared v socket a w' ran

theorem eventGetQueueSize_spared (asked : requestGetPath req = some path) :
    Triple (Faces (σ := σ) path root s) (eventGetQueueSize req) fun _ w => Spared s w := by
  unfold eventGetQueueSize
  rw [asked]
  refine Triple.bind (steady_faces.lock .zmq) ?_
  intro _ w faces a w' ran
  simp only [inotifyIsRoot, Program.read_bind_apply, faces.live.registered, getRoot_bind, faces.live.running,
    Bool.false_eq_true, if_false, rootQueue_bind] at ran
  obtain ⟨_, v, replying, ran⟩ := Program.bind_eq_ok ran
  have spared := not_sent (by exact faces.socket) (dataReply_ne _) (replySendFormatted_socket replying)
  exact steady_spared.of_unlock ran spared

theorem eventGetEvents_spared (prints : PrintsData σ) (asked : requestGetPath req = some path) :
    Triple (Faces (σ := σ) path root s) (eventGetEvents req) fun _ w => Spared s w := by
  intro w faces a w' ran
  simp only [eventGetEvents, asked, inotifyIsRoot, Program.read_bind_apply, faces.live.registered,
    Option.isNone_some, Bool.false_eq_true, if_false, Program.ite_eq_ok] at ran
  obtain ⟨_, ran⟩ | ⟨_, ran⟩ := ran
  · exact replySendError_spared (by decide) w faces.socket a w' ran
  obtain ⟨taken, v, getting, ran⟩ := Program.bind_eq_ok ran
  have socket := inotifyGetEvents_socket path _ w faces.socket taken v getting
  cases taken with
  | failed => exact replySendError_spared (by decide) v socket a w' ran
  | null => exact not_sent socket (by decide +kernel) (replySendMessage_socket ran)
  | events items =>
    obtain ⟨jarr, u, listing, ran⟩ := Program.bind_eq_ok ran
    have unsent : Keeps (fun w : World σ => w.socket = s) (eventsToJarr items) := StillMute.eventsToJarr items
    have same := unsent v socket jarr u listing
    exact not_sent same (prints jarr) (replySendMessage_socket ran)

end

/-! ## Watch requests -/

/-- What a watch request chooses for its root: the mask, the size of the queue and whether it is dumped. -/
def Root.options (root : Root) : UInt32 × Int32 × Bool := (root.mask, root.maxEvents, root.rewatch)

def Request.options (req : Request) (defaultEvents : Int32) : UInt32 × Int32 × Bool :=
  let mask := requestGetMask req
  let maxEvents := requestGetMaxEvents req
  (if mask = 0 then inotifyDefaultMask else mask.toUInt32, if maxEvents = 0 then defaultEvents else maxEvents,
    requestGetRewatch req)

omit [System σ] in
theorem RootsEffect.options {thread : Thread} {before after : RootTable} (effect : RootsEffect thread before after)
    (root : RootRef) : (after.heap root).options = (before.heap root).options := by
  cases effect with
  | same => rfl
  | free freed =>
    apply RootTable.field_setRoot Root.options
    exact fun _ => rfl
  | remove => rfl

theorem steady_options (root : RootRef) (options : UInt32 × Int32 × Bool) :
    Steady fun w : World σ => (w.roots.heap root).options = options :=
  .of_tables (fun roots _ => (roots.heap root).options = options) fun effect holds =>
    (effect.roots.options root).trans holds

section
variable (defaultEvents : Int32)

theorem runThread_config (index : Nat) :
    Keeps (fun w : World σ => w.maxInotifyEvents = defaultEvents) (runThread index) := by
  intro w is _ w' ran
  obtain ⟨_, rfl⟩ | ⟨thread, next, v, _, stepped, rfl⟩ := runThread_eq_ok ran
  · exact is
  · have same := (threadStep_effect stepped).maxInotifyEvents
    exact same.trans is

theorem yieldMain_config : Keeps (fun w : World σ => w.maxInotifyEvents = defaultEvents) yieldMain := by
  apply Keeps.bind Keeps.read'
  intro schedule
  cases schedule with
  | nil => exact Keeps.pure'
  | cons turn later =>
    apply Keeps.bind
    · exact Keeps.update' fun _ => id
    · exact fun _ => Keeps.forEach fun index _ => runThread_config defaultEvents index

theorem lock_config (mutex : Mutex) : Keeps (fun w : World σ => w.maxInotifyEvents = defaultEvents) (lock mutex) := by
  apply Keeps.bind (yieldMain_config defaultEvents)
  intro _ w is _ w' ran
  have ran' : (acquire mutex >>= pure) w = .ok ((), w') := by rwa [bind_pure]
  rw [acquire_bind_eq_ok] at ran'
  obtain ⟨_, ran'⟩ := ran'
  obtain ⟨_, rfl⟩ := Program.pure_eq_ok.mp ran'
  exact is

theorem unlock_config (mutex : Mutex) : Keeps (fun w : World σ => w.maxInotifyEvents = defaultEvents) (unlock mutex) :=
  Keeps.bind (Keeps.update' fun _ => id) fun _ => yieldMain_config defaultEvents

end

def successText : Str := str "\x7b\"success\":1\x7d"

omit [System σ] in
theorem errorText_ne_success (err : InotispyError) : errorText err ≠ successText := by
  intro same
  have third := congrArg (fun text : Str => text[2]?) same
  cases third

section
variable {path : Str} {s : Socket}

theorem watchTreeInsert_live (absolute : path.head? = some '/') (mask : UInt32) (maxEvents : Int32) (rewatch : Bool) :
    Triple (fun w : World σ => (Lifecycle w.roots w.pool.threads ∧ True) ∧ w.roots.inotifyRoots.lookup path = none)
      (watchTreeInsert path mask maxEvents rewatch) fun made w => (Lifecycle w.roots w.pool.threads ∧ True) ∧
        ∀ root, made = some root →
          Live path root w.roots ∧ (w.roots.heap root).options = (mask, maxEvents, rewatch) := by
  have living := living_life (σ := σ)
  unfold watchTreeInsert
  refine Triple.bind ((living.toSteady.and (steady_unregistered path)).lock .inotify) ?_
  intro _ w holds made w' ran
  obtain ⟨found, u, making, ran⟩ := Program.bind_eq_ok ran
  obtain ⟨t, quiet, ⟨rfl, rfl⟩ | ⟨copy, copied, _, rfl, rfl⟩⟩ := makeRoot_eq_ok making
  · obtain ⟨rfl, after⟩ := living.of_unlock_pure ran (living.still.asked quiet holds.1)
    exact ⟨after, nofun⟩
  · simp only [modifyRoots_bind] at ran
    have life := holds.1.1.register holds.2 absolute
      (⟨copied, rfl, rfl⟩ : Made path ⟨copy, mask, maxEvents, some [], false, false, rewatch, false⟩)
    have live : Live path w.roots.nextRoot
        (w.roots.register path ⟨copy, mask, maxEvents, some [], false, false, rewatch, false⟩) := by
      constructor
      · exact AList.lookup_insert _
      · simp only [RootTable.register, Function.update_self]
    have chosen : ((w.roots.register path ⟨copy, mask, maxEvents, some [], false, false, rewatch, false⟩).heap
        w.roots.nextRoot).options = (mask, maxEvents, rewatch) := by
      simp only [RootTable.register, Function.update_self, Root.options]
    have steady := (living.live path w.roots.nextRoot).and
      (steady_options w.roots.nextRoot (mask, maxEvents, rewatch))
    obtain ⟨rfl, after⟩ := steady.of_unlock_pure ran ⟨⟨⟨life, trivial⟩, live⟩, chosen⟩
    refine ⟨after.1.1, ?_⟩
    rintro root ⟨⟩
    exact ⟨after.1.2, after.2⟩

theorem inotifyWatchTree_live (absolute : path.head? = some '/') (mask : UInt32) (maxEvents : Int32) (rewatch : Bool) :
    Triple (fun w : World σ => Lifecycle w.roots w.pool.threads ∧ True)
      (inotifyWatchTree path mask maxEvents rewatch) fun code w =>
        code = none → ∃ root, Live (trimSlash path) root w.roots ∧
          (w.roots.heap root).options = (mask, maxEvents, rewatch) := by
  have living := living_life (σ := σ)
  have new := living.toSteady.and (steady_unregistered (trimSlash path))
  unfold inotifyWatchTree
  refine Triple.bind (living.checks (trimSlash path)) fun code => ?_
  cases code with
  | some err => exact Triple.pure' fun _ _ => nofun
  | none =>
    refine Triple.strengthen ?_ fun _ holds => And.imp_right (fun new => new rfl) holds
    refine Triple.bind (new.still.opendir _) fun opens => ?_
    apply Triple.ite'
    · exact fun _ => Triple.pure' fun _ _ => nofun
    intro _
    refine Triple.bind (watchTreeInsert_live (trimSlash_absolute absolute) mask maxEvents rewatch) fun made => ?_
    cases made with
    | none => exact Triple.pure' fun _ _ => nofun
    | some root =>
      have steady := (living.live (trimSlash path) root).and (steady_options root (mask, maxEvents, rewatch))
      have rest : Triple (fun w : World σ => ((Lifecycle w.roots w.pool.threads ∧ True) ∧
          Live (trimSlash path) root w.roots) ∧ (w.roots.heap root).options = (mask, maxEvents, rewatch))
          (do
            inotifyDumpRoots
            doWatchTree (← getRoot root).path root false) fun code w =>
              code = none → ∃ root, Live (trimSlash path) root w.roots ∧
                (w.roots.heap root).options = (mask, maxEvents, rewatch) := by
        refine Triple.bind steady.inotifyDumpRoots fun _ => ?_
        refine Triple.bind Keeps.read' fun r => ?_
        exact (steady.still.doWatchTree _ _ _).weaken fun _ _ holds _ => ⟨root, holds.1.2, holds.2⟩
      exact rest.strengthen fun w holds => ⟨⟨holds.1, (holds.2 root rfl).1⟩, (holds.2 root rfl).2⟩

theorem eventWatch_live (req : Request) (defaultEvents : Int32) :
    Triple (fun w : World σ => ((Lifecycle w.roots w.pool.threads ∧ True) ∧ w.socket = s) ∧
      w.maxInotifyEvents = defaultEvents) (eventWatch req)
      fun _ w => Sent successText s w.socket →
        ∃ path root, requestGetPath req = some path ∧ Live (trimSlash path) root w.roots ∧
          (w.roots.heap root).options = req.options defaultEvents := by
  have steady := (living_life (σ := σ)).toSteady.and (Steady.of_socket (· = s))
  have quiet : Steady fun w : World σ => ¬Sent successText s w.socket :=
    .of_socket fun socket => ¬Sent successText s socket
  have refuses : ∀ err : InotispyError, Triple (fun w : World σ =>
      (Lifecycle w.roots w.pool.threads ∧ True) ∧ w.socket = s) (replySendError err) fun _ w =>
        ¬Sent successText s w.socket :=
    fun err w holds _ _ ran => not_sent holds.2 (errorText_ne_success err) (replySendError_socket ran)
  unfold eventWatch
  rintro w ⟨holds, config⟩ a w' ran sent
  simp only [mkString_bind] at ran
  have asked := steady.still.asked (.malloc .refl) holds
  by_cases allocated : (System.malloc w.sys).1 = true
  · simp only [allocated, if_true, Program.ite_eq_ok] at ran
    obtain ⟨_, ran⟩ | ⟨absolute, ran⟩ := ran
    · exact absurd sent (refuses _ _ asked _ _ ran)
    have absolute := not_not.mp absolute
    cases path_ : requestGetPath req with
    | none =>
      rw [path_] at absolute
      exact absurd absolute (by decide)
    | some path =>
      rw [path_] at absolute ran
      obtain ⟨_, v, locking, ran⟩ := Program.bind_eq_ok ran
      have before := steady.lock .zmq _ asked _ _ locking
      have configured := lock_config defaultEvents .zmq { w with sys := (System.malloc w.sys).2 } config _ _ locking
      simp only [inotifyIsRoot, Program.read_bind_apply, Program.ite_eq_ok] at ran
      obtain ⟨_, ran⟩ | ⟨_, ran⟩ := ran
      · obtain ⟨_, u, refusing, ran⟩ := Program.bind_eq_ok ran
        exact absurd sent (quiet.of_unlock ran (refuses _ v before _ _ refusing))
      obtain ⟨_, u, unlocking, ran⟩ := Program.bind_eq_ok ran
      have between := steady.of_unlock unlocking before
      have configured := unlock_config defaultEvents .zmq _ configured _ _ unlocking
      simp only [Program.read_bind_apply, configured] at ran
      obtain ⟨code, t, watching, ran⟩ := Program.bind_eq_ok ran
      have life := (living_life (σ := σ)).watches path _ _ _ absolute u between.1 code t watching
      cases code with
      | some err =>
        have socket := inotifyWatchTree_keeps (Steady.of_socket (· = s)) (fun _ holds _ _ _ => holds) _ _ _ u
          between.2 _ _ watching
        exact absurd sent (refuses _ t ⟨life, socket⟩ _ _ ran)
      | none =>
        obtain ⟨root, live, chosen⟩ := inotifyWatchTree_live absolute _ _ _ u between.1 none t watching rfl
        have mute := (living_live (σ := σ) (trimSlash path) root).toSteadyMute
        have same : Keeps (fun w : World σ => (w.roots.heap root).options = req.options defaultEvents)
            replySendSuccess := StillMute.replySendSuccess ⟨(steady_options root _).still, fun _ _ => id⟩
        exact ⟨path, root, rfl, (mute.still.replySendSuccess t ⟨life.1, live⟩ _ _ ran).2, same t chosen _ _ ran⟩
  · simp only [allocated, Bool.false_eq_true, if_false] at ran
    exact absurd sent (refuses _ _ asked _ _ ran)

end

/-! ## Requests for a watched root -/

structure Addresses (req : Request) (root : RootRef) (w : World σ) : Prop where
  found : ∃ key, req.key = some key ∧ w.roots.inotifyRoots.lookup key = some root
  answered : ∀ w', zmqDispatchEvent req w = .ok ((), w') →
    ¬Sent (errorText .inotifyRootNotWatched) w.socket w'.socket

section
variable {path : Str} {root : RootRef} {req : Request} {w : World σ}

theorem addresses_of_live (prints : PrintsData σ) (life : Lifecycle w.roots w.pool.threads)
    (live : Live path root w.roots) (about : req.AboutRoot) (asked : requestGetPath req = some path)
    (key : req.call = some (str "unwatch") → trimLastSlash path = path) : Addresses req root w := by
  have faces : Faces path root w.socket w := ⟨life, live, rfl⟩
  constructor
  · by_cases unwatch : req.call = some (str "unwatch")
    · refine ⟨path, ?_, live.registered⟩
      rw [Request.key, asked, Option.map_some, if_pos unwatch, key unwatch]
    · refine ⟨path, ?_, live.registered⟩
      rw [Request.key, asked, Option.map_some, if_neg unwatch]
  · intro w' ran
    simp only [Request.AboutRoot, List.map_cons, List.map_nil, List.mem_cons, List.not_mem_nil, or_false] at about
    unfold zmqDispatchEvent at ran
    rcases about with called | called | called | called | called <;> rw [called] at ran
    · exact eventUnwatch_spared asked (key called) w faces () w' ran
    · exact eventPause_spared asked w faces () w' ran
    · exact eventUnpause_spared asked w faces () w' ran
    · exact eventGetEvents_spared prints asked w faces () w' ran
    · exact eventGetQueueSize_spared asked w faces () w' ran

/-- Once a watch request has been answered with success, the root stays in the table until an
unwatch request for it, and a request with the same path is for that root exactly if it is not
an unwatch request for "/". -/
theorem watched_root_addressed {u v : World σ} {watch : Request} (served : Served u)
    (called : watch.call = some (str "watch")) (step : ServerStep (.request watch) u v)
    (success : Sent successText u.socket v.socket) (given : requestGetPath watch = some path)
    (later : Relation.ReflTransGen (fun x y => ∃ action, ¬Unwatches path action ∧ ServerStep action x y) v w)
    (about : req.AboutRoot) (asked : requestGetPath req = some path) (prints : PrintsData σ) :
    ∃ root, v.roots.inotifyRoots.lookup path = some root ∧
      (Addresses req root w ↔ ¬(req.call = some (str "unwatch") ∧ path = str "/")) := by
  have watched := step.ran
  rw [Action.perform, zmqDispatchEvent, called] at watched
  obtain ⟨path', root, given', live, _⟩ := eventWatch_live watch u.maxInotifyEvents u
    ⟨⟨⟨served.life, trivial⟩, rfl⟩, rfl⟩ () v watched success
  rw [given] at given'
  cases given'
  rw [trimSlash_of_asked given] at live
  refine ⟨root, live.registered, ?_⟩
  have lives : Lifecycle w.roots w.pool.threads ∧ Live path root w.roots := by
    induction later with
    | refl => exact ⟨step.life served.life, live⟩
    | tail _ next ih =>
      obtain ⟨action, spared, next⟩ := next
      exact next.live spared ih.1 ih.2
  obtain ⟨life, live⟩ := lives
  constructor
  · rintro ⟨⟨key, is, found⟩, _⟩ ⟨unwatch, rfl⟩
    -- "/" is trimmed to the empty path, under which no root is registered.
    rw [Request.key, asked, Option.map_some, if_pos unwatch] at is
    cases is
    have absolute := life.absolute _ ((GHashTable.mem_keys_iff _ _).mpr ⟨root, found⟩)
    exact absurd absolute (by decide)
  · intro other
    refine addresses_of_live prints life live about asked fun unwatch => ?_
    exact trimLastSlash_of_last (requestGetPath_last asked fun top => other ⟨unwatch, top⟩)

/-- "/a" is watched and then paused. -/
theorem watched_root_addressed_pause :
    ∃ (root : RootRef) (w : World (Script true)), w.pool.threads.length = 1 ∧ Addresses (.about "pause" "/a") root w := by
  have start : Served { World.initial (⟨[]⟩ : Script true) with socket := ⟨[], true, []⟩ } :=
    ⟨_, .single ⟨.receive ⟨[], true, []⟩, trivial, rfl⟩⟩
  have watched : ∃ v, ServerStep (.request (.about "watch" "/a"))
      { World.initial (⟨[]⟩ : Script true) with socket := ⟨[], true, []⟩ } v ∧
        Sent successText ⟨[], true, []⟩ v.socket ∧ v.pool.threads.length = 1 := ⟨_, ⟨trivial, rfl⟩, rfl, rfl⟩
  obtain ⟨v, step, success, started⟩ := watched
  have spoken : errorText .inotifyRootNotWatched ≠ [] := by decide +kernel
  have about : (Request.about "pause" "/a").AboutRoot := by
    unfold Request.AboutRoot
    decide
  obtain ⟨root, _, addressed⟩ := watched_root_addressed start rfl step success rfl .refl
    about rfl fun _ same => spoken same.symm
  exact ⟨root, v, started, addressed.mpr (by decide)⟩

/-- "/" is watched and then unwatched: the first request succeeds, and the second is told that there is no such root. -/
theorem top_not_unwatched : ∃ u v t w : World (Script true),
    Served u ∧ ServerStep (.request (.about "watch" "/")) u v ∧ Sent successText u.socket v.socket ∧
      ServerStep (.receive ⟨[], true, v.socket.replies⟩) v t ∧
      ServerStep (.request (.about "unwatch" "/")) t w ∧ Sent (errorText .inotifyRootNotWatched) t.socket w.socket := by
  have start : Served { World.initial (⟨[]⟩ : Script true) with socket := ⟨[], true, []⟩ } :=
    ⟨_, .single ⟨.receive ⟨[], true, []⟩, trivial, rfl⟩⟩
  exact ⟨_, _, _, _, start, ⟨trivial, rfl⟩, rfl, ⟨trivial, rfl⟩, ⟨trivial, rfl⟩, rfl⟩

end

end

end Inotispy
