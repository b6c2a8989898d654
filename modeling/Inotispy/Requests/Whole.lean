import Inotispy.Model.Server
import Inotispy.Requests.Lockstep

/-! A daemon whose allocations succeed never faults.

In all its states no string is missing and, between two rounds of the main loop, both
mutexes are free; so that every request, record and timer is dealt with.
-/

set_option autoImplicit false

namespace Inotispy
open Library

variable {σ : Type} [System σ] {i z : Bool} {k : Socket}

/-! ## Records -/

theorem inotifyRmWatch_stays (wd : Int) : Stays (σ := σ) i z k (inotifyRmWatch wd) := call_stays _

omit [System σ] in
theorem modifyWatches_stays (change : WatchTable → WatchTable) : Stays (σ := σ) i z k (modifyWatches change) := by
  intro w start
  exact ⟨_, _, rfl, start.inotify, start.zmq, start.socket, start.whole.of_same rfl rfl⟩

theorem unwatchBelow_stays (below : Str) (keys : List Str) : Stays (σ := σ) i z k (unwatchBelow (some below) keys) := by
  induction keys with
  | nil => exact pure_stays _
  | cons subPath keys ih =>
    apply Returns.bind (pure_stays below)
    intro below'
    apply Returns.ite'
    · intro _
      apply Returns.bind (read_stays _)
      intro found
      cases found with
      | none => exact ih
      | some subWatch =>
        apply Returns.bind (inotifyRmWatch_stays subWatch.wd)
        intro _
        apply Returns.bind (modifyWatches_stays _)
        exact fun _ => ih
    · exact fun _ => ih

section
variable (succeed : AllocationsSucceed σ)
include succeed

theorem handleGone_stays (event : InEvent) (path : Str) : Stays (σ := σ) false z k (handleGone event (some path)) := by
  apply Returns.bind (lock_inotify succeed)
  intro _
  apply Returns.bind (pure_stays path)
  intro absPath
  apply Returns.bind (read_stays _)
  intro found
  cases found with
  | none =>
    apply Returns.bind (unlock_inotify succeed)
    exact fun _ => pure_stays _
  | some delete =>
    apply Returns.bind (inotifyRmWatch_stays delete.wd)
    intro _
    apply Returns.bind (modifyWatches_stays _)
    intro _
    -- The two ways from here end in the same unlock.
    have finish : Returns (At (σ := σ) true z k) (do unlock .inotify; return true) fun _ => At false z k := by
      apply Returns.bind (unlock_inotify succeed)
      exact fun _ => pure_stays _
    have below : Returns (At (σ := σ) true z k) (do
        if hasBit event.mask inMovedFrom then
          let keys ← Program.read (·.watches.inotifyPathToWatch.keys)
          let tmp ← mkString (absPath ++ str "/")
          unwatchBelow tmp keys
        unlock .inotify
        return true) fun _ => At false z k := by
      apply Returns.ite'
      · intro _
        apply Returns.bind (read_stays _)
        intro keys
        apply Returns.bind (mkString_stays succeed _)
        intro tmp
        apply Returns.given
        rintro rfl
        apply Returns.bind (unwatchBelow_stays _ keys)
        exact fun _ => finish
      · exact fun _ => finish
    apply Returns.ite'
    · intro _
      apply Returns.bind (modifyWatches_stays _)
      exact fun _ => below
    · exact fun _ => below

theorem handleDirectory_stays (event : InEvent) (path absPath : Str) (root : RootRef) :
    Stays (σ := σ) false z k (handleDirectory event path (some absPath) root) := by
  apply Returns.ite'
  · exact fun _ => pure_stays _
  intro _
  apply Returns.ite'
  · intro _
    apply Returns.ite'
    · exact fun _ => pure_stays _
    intro _
    apply Returns.bind (yieldMain_stays succeed)
    intro _
    apply Returns.bind (doWatchTree_stays succeed _ _ _)
    exact fun _ => pure_stays _
  intro _
  apply Returns.ite'
  · exact fun _ => handleGone_stays succeed event absPath
  · exact fun _ => pure_stays _

theorem lookupEvent_stays (wd : Int) : Stays (σ := σ) false z k (lookupEvent wd) := by
  have leave : Returns (At (σ := σ) true z k) (do unlock .inotify; return none : M σ (Option (Str × RootRef)))
      fun _ => At false z k := by
    apply Returns.bind (unlock_inotify succeed)
    exact fun _ => pure_stays _
  apply Returns.bind (lock_inotify succeed)
  intro _
  apply Returns.bind (read_stays _)
  intro known
  cases known with
  | none => exact leave
  | some watch =>
    apply Returns.bind (call_stays _)
    intro _
    apply Returns.ite'
    · exact fun _ => leave
    intro _
    refine Returns.bind (?_ : Stays true z k (inotifyPathToRoot watch.path)) fun found => ?_
    · intro w start
      obtain ⟨s, ran⟩ := inotifyPathToRoot_run succeed watch.path w
      exact ⟨_, _, ran, start.inotify, start.zmq, start.socket, start.whole.of_same rfl rfl⟩
    cases found with
    | none => exact leave
    | some root =>
      apply Returns.bind (getRoot_stays root)
      intro r
      apply Returns.given
      intro _
      apply Returns.bind (unlock_inotify succeed)
      intro _
      apply Returns.ite' <;> exact fun _ => pure_stays _

theorem inotifyEnqueue_stays (root : RootRef) (event : InEvent) (path : Str) :
    Stays (σ := σ) false z k (inotifyEnqueue root event path) := by
  apply Returns.bind (lock_inotify succeed)
  intro _
  apply Returns.bind (rootQueue_stays root)
  intro queue
  apply Returns.given
  intro strings
  apply Returns.bind (getRoot_stays root)
  intro r
  apply Returns.given
  intro _
  apply Returns.ite'
  · intro _
    apply Returns.bind (unlock_inotify succeed)
    exact fun _ => pure_stays _
  intro _
  apply Returns.bind (malloc_stays succeed)
  intro allocated
  apply Returns.given
  rintro rfl
  apply Returns.ite'
  · exact nofun
  intro _
  apply Returns.bind (mkString_stays succeed _)
  intro name
  apply Returns.given
  rintro rfl
  apply Returns.bind (mkString_stays succeed _)
  intro copy
  apply Returns.given
  rintro rfl
  refine Returns.bind (setRootQueue_stays root ?_) fun _ => ?_
  · intro queued member
    rcases List.mem_append.mp member with old | new
    · exact strings queued old
    · cases List.mem_singleton.mp new
      exact ⟨rfl, rfl⟩
  · apply Returns.bind (unlock_inotify succeed)
    exact fun _ => pure_stays _

theorem inotifyHandleRecord_stays (event : InEvent) : Stays (σ := σ) false z k (inotifyHandleRecord event) := by
  apply Returns.ite'
  · exact fun _ => pure_stays _
  intro _
  apply Returns.ite'
  · intro _ w start
    exact ⟨_, _, rfl, start.inotify, start.zmq, start.socket, start.whole.of_same rfl rfl⟩
  intro _
  apply Returns.ite'
  · exact fun _ => pure_stays _
  intro _
  apply Returns.bind (lookupEvent_stays succeed event.wd)
  intro found
  cases found with
  | none => exact pure_stays _
  | some found =>
    apply Returns.bind (mkString_stays succeed _)
    intro absPath
    apply Returns.given
    rintro rfl
    apply Returns.bind (handleDirectory_stays succeed event found.1 _ found.2)
    intro queued
    apply Returns.ite'
    · exact fun _ => pure_stays _
    intro _
    apply Returns.bind (getRoot_stays found.2)
    intro r
    apply Returns.given
    intro _
    apply Returns.ite'
    · exact fun _ => pure_stays _
    intro _
    apply Returns.bind (inotifyEnqueue_stays succeed found.2 event found.1)
    exact fun _ => pure_stays _

/-! ## Timers -/

omit succeed in
theorem inotifyMemclean_stays : Stays (σ := σ) false z k inotifyMemclean := by
  apply Returns.bind (read_stays _)
  intro running
  apply Returns.ite'
  · exact fun _ => pure_stays _
  intro _
  apply Returns.bind (spawn_stays .memclean trivial)
  exact fun _ => pure_stays _

theorem inotifyRewatchRoots_stays : Stays (σ := σ) false z k inotifyRewatchRoots := by
  apply Returns.bind (read_stays _)
  intro running
  apply Returns.ite'
  · exact fun _ => pure_stays _
  intro _
  apply Returns.bind (lock_inotify succeed)
  intro _
  apply Returns.bind (read_stays _)
  intro roots
  apply Returns.bind (unlock_inotify succeed)
  intro _
  apply Returns.forEach
  intro root _
  apply Returns.bind (getRoot_stays root)
  intro r
  apply Returns.given
  intro _
  apply Returns.bind (doWatchTree_stays succeed _ _ _)
  exact fun _ => pure_stays _

/-! ## Runs -/

/-- Both mutexes are free and no string is missing. -/
structure Sound (w : World σ) : Prop where
  inotify : w.locks.inotify = false
  zmq : w.locks.zmq = false
  whole : Whole w

omit succeed [System σ] in
theorem Sound.of_stays {x : M σ Unit} (stays : ∀ k, Stays false false k x) : Returns Sound x fun _ => Sound := by
  intro w sound
  obtain ⟨a, v, ran, after⟩ := stays w.socket w ⟨sound.inotify, sound.zmq, rfl, sound.whole⟩
  exact ⟨a, v, ran, after.inotify, after.zmq, after.whole⟩

theorem Action.perform_sound (action : Action) (named : ∀ req, action = .request req → req.call.isSome) :
    Returns (Sound (σ := σ)) action.perform fun _ => Sound := by
  cases action with
  | setup path mask maxEvents =>
    refine Sound.of_stays fun k => ?_
    apply Returns.bind (inotifyWatchTree_stays succeed path mask maxEvents true)
    exact fun _ => pure_stays _
  | request req =>
    intro w sound
    have start : At false false w.socket w := ⟨sound.inotify, sound.zmq, rfl, sound.whole⟩
    obtain ⟨a, v, ran, message, after⟩ := zmqDispatchEvent_sends succeed req (named req rfl) w start
    exact ⟨a, v, ran, after.inotify, after.zmq, after.whole⟩
  | record event =>
    refine Sound.of_stays fun k => ?_
    apply Returns.bind (inotifyHandleRecord_stays succeed event)
    exact fun _ => pure_stays _
  | memclean => exact Sound.of_stays fun k => inotifyMemclean_stays
  | rewatchRoots => exact Sound.of_stays fun k => inotifyRewatchRoots_stays succeed
  | dumpRoots => exact Sound.of_stays fun k => inotifyDumpRoots_stays succeed
  | thread index => exact Sound.of_stays fun k => runThread_stays succeed index
  | schedule turns =>
    intro w sound
    exact ⟨(), _, rfl, sound.inotify, sound.zmq, sound.whole.of_same rfl rfl⟩
  | receive socket =>
    intro w sound
    exact ⟨(), _, rfl, sound.inotify, sound.zmq, sound.whole.of_same rfl rfl⟩

theorem zmqHandleEvent_sound : Returns (Sound (σ := σ)) zmqHandleEvent fun _ => Sound := by
  intro w sound
  obtain ⟨w', ran, after⟩ := zmqHandleEvent_run succeed (k := w.socket) ⟨sound.inotify, sound.zmq, rfl, sound.whole⟩
  refine ⟨(), w', ran, ?_⟩
  split at after
  · obtain ⟨_, after⟩ := after
    exact ⟨after.inotify, after.zmq, after.whole⟩
  · exact ⟨after.inotify, after.zmq, after.whole⟩

theorem ServerStep.sound {action : Action} {w w' : World σ} (step : ServerStep action w w') (sound : Sound w) :
    Sound w' := by
  have named : ∀ req, action = .request req → req.call.isSome := by
    rintro req rfl
    -- A request without a call would have stopped the step.
    obtain ⟨call, v, asked, _⟩ := Program.bind_eq_ok step.ran
    cases called : req.call with
    | none =>
      rw [called] at asked
      cases asked
    | some call => rfl
  obtain ⟨_, v, ran, after⟩ := Action.perform_sound succeed action named w sound
  rw [(Program.ok_unique ran step.ran).2] at after
  exact after

end

omit [System σ] in
theorem Sound.initial (sys : σ) : Sound (World.initial sys) := by
  refine ⟨rfl, rfl, fun _ => rfl, ?_, ?_⟩
  · intro root event member
    cases member
  · intro thread member
    cases member

end Inotispy
