import Inotispy.Events.Interleaving
import Inotispy.Model.Server

/-! What serving a request keeps while other threads run. -/

set_option autoImplicit false

namespace Inotispy
open Library

variable {σ : Type} [System σ]

/-- A steady property that survives any use of the socket, too. -/
structure SteadyMute (inv : World σ → Prop) : Prop extends Steady inv where
  mute : ∀ (w : World σ) (socket : Socket), inv w → inv { w with socket := socket }

structure StillMute (inv : World σ → Prop) : Prop extends Still inv where
  mute : ∀ (w : World σ) (socket : Socket), inv w → inv { w with socket := socket }

variable {inv : World σ → Prop}

namespace StillMute

variable (still : StillMute inv)
include still

theorem socket {A : Type} (use : Socket → A × Socket) : Keeps inv (modifySocket use) := by
  intro w holds _ w' ran
  cases ran
  exact still.mute w _ holds

theorem replySendMessage (message : Str) : Keeps inv (replySendMessage message) := by
  apply Keeps.bind still.malloc
  intro allocated
  apply Keeps.ite'
  · exact fun _ => Keeps.pure'
  intro _
  apply Keeps.bind (still.socket _)
  exact fun _ => Keeps.pure'

theorem replySendFormatted (text : Str) : Keeps inv (replySendFormatted text) := by
  apply Keeps.bind (still.mkString _)
  intro reply
  apply Keeps.bind (Still.deref reply)
  exact fun message => still.replySendMessage message

theorem replySendError (err : InotispyError) : Keeps inv (replySendError err) := still.replySendFormatted _

theorem replySendSuccess : Keeps inv replySendSuccess := still.replySendMessage _

theorem eventStatus : Keeps inv eventStatus := by
  apply Keeps.bind Keeps.read'
  intro pid
  apply Keeps.bind Keeps.read'
  intro secs
  apply Keeps.bind Keeps.read'
  intro numWatches
  exact still.replySendFormatted _

omit [System σ] still in
theorem eventsToJarr (items : List Event) : Keeps inv (eventsToJarr items) := by
  induction items with
  | nil => exact Keeps.pure'
  | cons event rest ih =>
    apply Keeps.bind
    · apply Keeps.bind (Still.deref _)
      intro path
      apply Keeps.bind (Still.deref _)
      exact fun name => Keeps.pure'
    intro first
    apply Keeps.bind ih
    exact fun later => Keeps.pure'

theorem mapM_mkString (keys : List Str) : Keeps inv (keys.mapM Inotispy.mkString) := by
  induction keys with
  | nil => exact Keeps.pure'
  | cons key keys ih =>
    rw [List.mapM_cons]
    apply Keeps.bind (still.mkString key)
    intro copy
    apply Keeps.bind ih
    exact fun copies => Keeps.pure'

omit [System σ] still in
theorem rootsUntilEol (roots : List (Option Str)) : Keeps inv (rootsUntilEol roots) := by
  induction roots with
  | nil => exact Keeps.pure'
  | cons root roots ih =>
    apply Keeps.bind (Still.deref root)
    intro path
    apply Keeps.ite'
    · exact fun _ => Keeps.pure'
    intro _
    apply Keeps.bind ih
    exact fun later => Keeps.pure'

end StillMute

theorem SteadyMute.still (steady : SteadyMute inv) : StillMute inv := ⟨steady.toSteady.still, steady.mute⟩

variable (steady : SteadyMute inv)


section
include steady

namespace SteadyMute

theorem eventSubscribe (req : Request) : Keeps inv (eventSubscribe req) := by
  unfold Inotispy.eventSubscribe
  cases requestGetPath req with
  | none => exact steady.still.replySendError _
  | some path =>
    apply Keeps.bind (steady.lock .zmq)
    intro _
    apply Keeps.bind Keeps.read'
    intro found
    apply Keeps.ite'
    · intro _
      apply Keeps.bind (steady.still.replySendError _)
      exact fun _ => steady.unlock .zmq
    · intro _
      apply Keeps.bind (steady.unlock .zmq)
      exact fun _ => steady.still.replySendFormatted _

theorem inotifyGetRoots : Keeps inv inotifyGetRoots := by
  apply Keeps.bind (steady.lock .inotify)
  intro _
  apply Keeps.bind Keeps.read'
  intro keys
  apply Keeps.bind steady.still.malloc
  intro allocated
  apply Keeps.ite'
  · intro _
    apply Keeps.bind (steady.unlock .inotify)
    exact fun _ => Keeps.pure'
  intro _
  apply Keeps.bind (steady.still.mapM_mkString keys)
  intro roots
  apply Keeps.bind (steady.still.mkString _)
  intro eol
  apply Keeps.bind (steady.unlock .inotify)
  exact fun _ => Keeps.pure'

theorem eventGetRoots : Keeps inv eventGetRoots := by
  apply Keeps.bind Keeps.read'
  intro count
  apply Keeps.ite'
  · exact fun _ => steady.still.replySendMessage _
  intro _
  apply Keeps.bind steady.inotifyGetRoots
  intro roots
  cases roots with
  | none => exact steady.still.replySendError _
  | some roots =>
    apply Keeps.bind (StillMute.rootsUntilEol roots)
    exact fun jarr => steady.still.replySendMessage _

end SteadyMute

/-! ## Handlers that change the tables -/

theorem eventWatch_keeps (watches : ∀ path mask maxEvents rewatch, path.head? = some '/' →
    Keeps inv (inotifyWatchTree path mask maxEvents rewatch)) (req : Request) : Keeps inv (eventWatch req) := by
  apply Keeps.bind (steady.still.mkString _)
  intro copy
  cases copy with
  | none => exact steady.still.replySendError _
  | some path =>
    apply Keeps.ite'
    · exact fun _ => steady.still.replySendError _
    intro absolute
    apply Keeps.bind (steady.lock .zmq)
    intro _
    apply Keeps.bind Keeps.read'
    intro found
    apply Keeps.ite'
    · intro _
      apply Keeps.bind (steady.still.replySendError _)
      exact fun _ => steady.unlock .zmq
    intro _
    apply Keeps.bind (steady.unlock .zmq)
    intro _
    apply Keeps.bind Keeps.read'
    intro defaultEvents
    apply Keeps.bind (watches path _ _ _ (not_not.mp absolute))
    intro code
    cases code with
    | some err => exact steady.still.replySendError err
    | none => exact steady.still.replySendSuccess

theorem eventUnwatch_keeps {req : Request}
    (unwatches : ∀ path, requestGetPath req = some path → Keeps inv (inotifyUnwatchTree path)) :
    Keeps inv (eventUnwatch req) := by
  unfold eventUnwatch
  cases asked : requestGetPath req with
  | none => exact steady.still.replySendError _
  | some path =>
    apply Keeps.bind (unwatches path asked)
    intro code
    cases code with
    | some err => exact steady.still.replySendError err
    | none => exact steady.still.replySendSuccess

theorem eventPause_keeps {req : Request}
    (pauses : ∀ path, requestGetPath req = some path → Keeps inv (setPause true path))
    (gets : ∀ path, requestGetPath req = some path → Keeps inv (inotifyGetEvents path 0)) :
    Keeps inv (eventPause req) := by
  unfold eventPause
  cases asked : requestGetPath req with
  | none => exact steady.still.replySendError _
  | some path =>
    apply Keeps.bind Keeps.read'
    intro found
    apply Keeps.ite'
    · exact fun _ => steady.still.replySendError _
    intro _
    apply Keeps.bind (pauses path asked)
    intro code
    cases code with
    | some err => exact steady.still.replySendError err
    | none =>
      apply Keeps.bind (gets path asked)
      exact fun _ => steady.still.replySendSuccess

theorem eventUnpause_keeps {req : Request}
    (pauses : ∀ path, requestGetPath req = some path → Keeps inv (setPause false path)) :
    Keeps inv (eventUnpause req) := by
  unfold eventUnpause
  cases asked : requestGetPath req with
  | none => exact steady.still.replySendError _
  | some path =>
    apply Keeps.bind Keeps.read'
    intro found
    apply Keeps.ite'
    · exact fun _ => steady.still.replySendError _
    intro _
    apply Keeps.bind (pauses path asked)
    intro code
    cases code with
    | some err => exact steady.still.replySendError err
    | none => exact steady.still.replySendSuccess

theorem eventGetEvents_keeps {req : Request}
    (gets : ∀ path count, requestGetPath req = some path → Keeps inv (inotifyGetEvents path count)) :
    Keeps inv (eventGetEvents req) := by
  unfold eventGetEvents
  cases asked : requestGetPath req with
  | none => exact steady.still.replySendError _
  | some path =>
    apply Keeps.bind Keeps.read'
    intro found
    apply Keeps.ite'
    · exact fun _ => steady.still.replySendError _
    intro _
    apply Keeps.ite'
    · exact fun _ => steady.still.replySendError _
    intro _
    apply Keeps.bind (gets path _ asked)
    intro taken
    cases taken with
    | failed => exact steady.still.replySendError _
    | null => exact steady.still.replySendMessage _
    | events items =>
      apply Keeps.bind (StillMute.eventsToJarr items)
      exact fun jarr => steady.still.replySendMessage _

theorem eventGetQueueSize_keeps
    (uses : ∀ key root, Triple (fun w => inv w ∧ w.roots.inotifyRoots.lookup key = some root ∧
      (w.roots.heap root).destroy = false) (rootQueue root) fun _ => inv)
    (req : Request) : Keeps inv (eventGetQueueSize req) := by
  unfold eventGetQueueSize
  cases requestGetPath req with
  | none =>
    apply Keeps.bind (steady.still.replySendError _)
    exact fun _ => steady.unlock .zmq
  | some path =>
    apply Keeps.bind (steady.lock .zmq)
    intro _ w holds _ w' ran
    simp only [inotifyIsRoot, Program.read_bind_apply] at ran
    cases found : w.roots.inotifyRoots.lookup path with
    | none =>
      have refuse : Keeps inv (do replySendError .inotifyRootNotWatched; unlock .zmq : M σ Unit) := by
        apply Keeps.bind (steady.still.replySendError _)
        exact fun _ => steady.unlock .zmq
      rw [found] at ran
      exact refuse w holds _ w' ran
    | some root =>
      simp only [found, getRoot_bind, Program.ite_eq_ok] at ran
      obtain ⟨_, ran⟩ | ⟨live, ran⟩ := ran
      · have busy : Keeps inv (do replySendMessage (dataReply 0); unlock .zmq : M σ Unit) := by
          apply Keeps.bind (steady.still.replySendMessage _)
          exact fun _ => steady.unlock .zmq
        exact busy w holds _ w' ran
      · obtain ⟨queue, v, using_, ran⟩ := Program.bind_eq_ok ran
        have used := uses path root w ⟨holds, found, eq_false_of_ne_true live⟩ queue v using_
        have answer : Keeps inv (do
            replySendFormatted (dataReply (queueLength queue).toInt)
            unlock .zmq : M σ Unit) := by
          apply Keeps.bind (steady.still.replySendFormatted _)
          exact fun _ => steady.unlock .zmq
        exact answer v used _ w' ran

end

/-- What it takes for a property to survive a request, for each of the calls that it may be for. -/
structure ServesCall (inv : World σ → Prop) (req : Request) : Prop extends SteadyMute inv where
  watches : req.call = some (str "watch") → ∀ path mask maxEvents rewatch, path.head? = some '/' →
    Keeps inv (inotifyWatchTree path mask maxEvents rewatch)
  unwatches : req.call = some (str "unwatch") → ∀ path, requestGetPath req = some path →
    Keeps inv (inotifyUnwatchTree path)
  pauses : req.call = some (str "pause") → ∀ path, requestGetPath req = some path → Keeps inv (setPause true path)
  unpauses : req.call = some (str "unpause") → ∀ path, requestGetPath req = some path → Keeps inv (setPause false path)
  gets : req.call = some (str "get_events") ∨ req.call = some (str "pause") →
    ∀ path count, requestGetPath req = some path → Keeps inv (inotifyGetEvents path count)
  sizes : ∀ key root, Triple (fun w => inv w ∧ w.roots.inotifyRoots.lookup key = some root ∧
    (w.roots.heap root).destroy = false) (rootQueue root) fun _ => inv

theorem zmqDispatchEvent_serves {req : Request} (serves : ServesCall inv req) : Keeps inv (zmqDispatchEvent req) := by
  have steady := serves.toSteadyMute
  unfold zmqDispatchEvent
  cases called : req.call with
  | none => exact Triple.bind (Triple.fault' : Triple inv _ fun _ _ => False) fun _ _ stop => stop.elim
  | some call =>
    rw [deref, pure_bind]
    repeat'
      apply Keeps.ite' <;> intro _
    · exact steady.still.replySendMessage _
    · exact steady.still.eventStatus
    · exact eventWatch_keeps steady (serves.watches (by rw [called, ‹call = str "watch"›])) req
    · have pause : req.call = some (str "pause") := by rw [called, ‹call = str "pause"›]
      exact eventPause_keeps steady (serves.pauses pause) fun path => serves.gets (.inr pause) path 0
    · exact eventUnpause_keeps steady (serves.unpauses (by rw [called, ‹call = str "unpause"›]))
    · exact steady.eventSubscribe req
    · exact eventUnwatch_keeps steady (serves.unwatches (by rw [called, ‹call = str "unwatch"›]))
    · exact eventGetEvents_keeps steady (serves.gets (.inl (by rw [called, ‹call = str "get_events"›])))
    · exact eventGetQueueSize_keeps steady serves.sizes req
    · exact steady.eventGetRoots
    · exact steady.still.replySendError _

structure ServesRequests (inv : World σ → Prop) (req : Request) : Prop extends SteadyMute inv where
  watches : ∀ path mask maxEvents rewatch, path.head? = some '/' →
    Keeps inv (inotifyWatchTree path mask maxEvents rewatch)
  unwatches : req.call = some (str "unwatch") → ∀ path, requestGetPath req = some path →
    Keeps inv (inotifyUnwatchTree path)
  pauses : ∀ pause path, Keeps inv (setPause pause path)
  gets : req.call = some (str "get_events") ∨ req.call = some (str "pause") →
    ∀ path count, requestGetPath req = some path → Keeps inv (inotifyGetEvents path count)
  sizes : ∀ key root, Triple (fun w => inv w ∧ w.roots.inotifyRoots.lookup key = some root ∧
    (w.roots.heap root).destroy = false) (rootQueue root) fun _ => inv

theorem zmqDispatchEvent_keeps {req : Request} (serves : ServesRequests inv req) :
    Keeps inv (zmqDispatchEvent req) :=
  zmqDispatchEvent_serves
    { toSteadyMute := serves.toSteadyMute
      watches := fun _ => serves.watches
      unwatches := serves.unwatches
      pauses := fun _ path _ => serves.pauses true path
      unpauses := fun _ path _ => serves.pauses false path
      gets := serves.gets
      sizes := serves.sizes }

theorem ServerStep.keeps {action : Action} {w w' : World σ} (step : ServerStep action w w') (holds : inv w)
    (steady : SteadyMute inv) (requests : ∀ req, action = .request req → ServesRequests inv req)
    (watches : ∀ path mask maxEvents rewatch, path.head? = some '/' →
      Keeps inv (inotifyWatchTree path mask maxEvents rewatch))
    (records : ∀ event, Keeps inv (inotifyHandleRecord event)) : inv w' := by
  have performs : Keeps inv (action.perform : M σ Unit) := by
    have possible := step.possible
    cases action with
    | setup path mask maxEvents =>
      apply Keeps.bind (watches path mask maxEvents true possible)
      exact fun _ => Keeps.pure'
    | request req => exact zmqDispatchEvent_keeps (requests req rfl)
    | record event =>
      apply Keeps.bind (records event)
      exact fun _ => Keeps.pure'
    | memclean => exact steady.still.inotifyMemclean
    | rewatchRoots => exact steady.inotifyRewatchRoots
    | dumpRoots => exact steady.inotifyDumpRoots
    | thread index => exact steady.run index
    | schedule turns => exact steady.update fun _ => ⟨.refl, rfl, rfl, rfl, rfl, rfl⟩
    | receive socket => exact steady.still.socket fun _ => ((), socket)
  exact performs w holds () w' step.ran

theorem ServerStep.of_forEach {actions : List Action} {w w' : World σ}
    (possible : ∀ action ∈ actions, action.Possible)
    (ran : Program.forEach Action.perform actions w = .ok ((), w')) :
    Relation.ReflTransGen (fun v v' => ∃ action, ServerStep action v v') w w' :=
  Program.reaches_of_forEach (fun action member _ _ taken => ⟨action, possible action member, taken⟩) ran

end Inotispy
