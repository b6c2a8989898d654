import Inotispy.Events.Effects
import Inotispy.Model.Script

/-! Whether an event that a root wants reaches the root's queue. -/

set_option autoImplicit false

namespace Inotispy
open Library

variable {σ : Type} [System σ]

/-! ## Rounds that come to their end -/

theorem unwatchBelow_returns (below : Str) (keys : List Str) (w : World σ) :
    ∃ r, unwatchBelow (some below) keys w = .ok r := by
  induction keys generalizing w with
  | nil => exact ⟨_, rfl⟩
  | cons subPath keys ih =>
    simp only [unwatchBelow, deref, Program.pure_bind_apply, Program.ite_apply, lookupPath_bind]
    split
    · cases w.watches.inotifyPathToWatch.lookup subPath with
      | none => exact ih w
      | some subWatch => exact ih _
    · exact ih w

theorem unwatchBelow_unlock_returns (below : Str) (keys : List Str) {w : World σ}
    (alone : w.pool.schedule = []) :
    ∃ r, (do unwatchBelow (some below) keys; unlock .inotify; return true : M σ Bool) w = .ok r := by
  obtain ⟨⟨_, v⟩, unwatching⟩ := unwatchBelow_returns below keys w
  obtain ⟨s, rfl⟩ := unwatchBelow_eq_ok (.inr rfl) unwatching
  rw [Program.bind_ok _ _ _ _ _ unwatching]
  exact ⟨_, by simp only [unlock_bind, alone]; rfl⟩

theorem doWatchTree_returns (path : Option Str) (root : RootRef) (cleanup : Bool) (w : World σ) :
    ∃ r, doWatchTree path root cleanup w = .ok r := by
  simp only [doWatchTree, getRoot_bind, Program.ite_apply, malloc_bind, mkString_bind, spawn_bind]
  split
  · exact ⟨_, rfl⟩
  split
  · exact ⟨_, rfl⟩
  split <;> exact ⟨_, rfl⟩

section
variable {w : World σ} (alone : w.pool.schedule = [])
include alone

theorem handleNew_returns (path : Str) (absPath : Option Str) (root : RootRef) :
    ∃ r, handleNew path absPath root w = .ok r := by
  simp only [handleNew, Program.ite_apply, yieldMain_bind alone]
  split
  · exact ⟨_, rfl⟩
  · obtain ⟨⟨code, v⟩, ran⟩ := doWatchTree_returns absPath root false w
    exact ⟨_, Program.bind_ok _ _ _ _ _ ran⟩

variable (succeed : AllocationsSucceed σ) (free : w.locks.held .inotify = false)
include succeed free

theorem lookupEvent_run (wd : Int) :
    ∃ s, lookupEvent wd w = .ok (eventTarget w wd, { w with sys := s }) := by
  simp only [lookupEvent, lock_bind_eq_ok alone, free, true_and, lookupWd_bind, eventTarget]
  cases known : w.watches.inotifyWdToWatch.lookup wd with
  | none => exact ⟨w.sys, by simp [unlock_bind, alone, Locks.unlock_set free]⟩
  | some watch =>
    simp only [malloc_bind, succeed w.sys, Program.ite_apply]
    obtain ⟨s, searching⟩ := inotifyPathToRoot_run succeed watch.path
      { w with locks := w.locks.set .inotify true, sys := (System.malloc w.sys).2 }
    refine ⟨s, ?_⟩
    simp only [Bool.not_true, Bool.false_eq_true, if_false]
    rw [Program.bind_ok _ _ _ _ _ searching]
    cases served : w.roots.pathToRoot watch.path with
    | none => simp [unlock_bind, alone, Locks.unlock_set free, served]
    | some root =>
      simp only [getRoot_bind, unlock_bind, alone, Locks.unlock_set free, Program.ite_apply]
      cases paused : (w.roots.heap root).pause <;> cases dying : (w.roots.heap root).destroy <;>
        simp [served, paused, dying]

theorem handleGone_returns (event : InEvent) (absPath : Str) :
    ∃ r, handleGone event (some absPath) w = .ok r := by
  simp only [handleGone, lock_bind_eq_ok alone, free, true_and, deref, Program.pure_bind_apply,
    lookupPath_bind]
  cases found : w.watches.inotifyPathToWatch.lookup absPath with
  | none => exact ⟨_, by simp only [unlock_bind, alone]; rfl⟩
  | some delete =>
    simp only [inotifyRmWatch_bind, modifyWatches_bind, Program.ite_apply, Program.read_bind_apply,
      mkString_bind_allocated succeed]
    -- The two tests are independent; both ways of each end in an unlock.
    split <;> split
    · exact unwatchBelow_unlock_returns _ _ (by exact alone)
    · exact ⟨_, by simp only [unlock_bind, alone]; rfl⟩
    · exact unwatchBelow_unlock_returns _ _ (by exact alone)
    · exact ⟨_, by simp only [unlock_bind, alone]; rfl⟩

theorem inotifyEnqueue_run (root : RootRef) (event : InEvent) (path : Str) {queue : List Event}
    (queued : (w.roots.heap root).queue = some queue) :
    ∃ s, inotifyEnqueue root event path w =
      if (w.roots.heap root).maxEvents ≤ queueLength queue then
        .ok (some .inotifyRootQueueFull, { w with sys := s })
      else .ok (none, { w with
        sys := s
        roots := w.roots.setRoot root fun r =>
          { r with queue := some (queue ++ [makeNode event (some event.name) (some path)]) } }) := by
  have events : (w.roots.heap root).events = queue := by simp [Root.events, queued]
  refine ⟨if (w.roots.heap root).maxEvents ≤ queueLength queue then w.sys
    else (System.malloc (System.malloc (System.malloc w.sys).2).2).2, ?_⟩
  simp only [inotifyEnqueue, lock_bind alone free, rootQueue_bind, getRoot_bind, Program.ite_apply,
    events, malloc_bind, succeed w.sys, mkString_bind_allocated succeed, setRootQueue_bind, unlock_bind,
    alone, Locks.unlock_set free, Program.pure_apply, queued]
  split
  · simp
  · simp [RootTable.setRoot, queued]

theorem handleDirectory_returns (event : InEvent) (path absPath : Str) (root : RootRef) :
    ∃ r, handleDirectory event path (some absPath) root w = .ok r := by
  simp only [handleDirectory, Program.ite_apply]
  split
  · exact ⟨_, rfl⟩
  split
  · exact handleNew_returns alone path (some absPath) root
  split
  · exact handleGone_returns alone succeed free event absPath
  · exact ⟨_, rfl⟩

theorem inotifyEnqueue_returns (root : RootRef) (event : InEvent) (path : Str) :
    ∃ r, inotifyEnqueue root event path w = .ok r := by
  simp only [inotifyEnqueue, lock_bind alone free, rootQueue_bind, getRoot_bind, Program.ite_apply,
    malloc_bind, succeed w.sys, mkString_bind, setRootQueue_bind, unlock_bind, alone]
  split <;> exact ⟨_, rfl⟩

theorem inotifyHandleRecord_returns (event : InEvent) : ∃ r, inotifyHandleRecord event w = .ok r := by
  simp only [inotifyHandleRecord, Program.ite_apply, modifyOutput_bind]
  split
  · exact ⟨_, rfl⟩
  split
  · exact ⟨_, rfl⟩
  split
  · exact ⟨_, rfl⟩
  obtain ⟨s, looking⟩ := lookupEvent_run alone succeed free event.wd
  rw [Program.bind_ok _ _ _ _ _ looking]
  cases eventTarget w event.wd with
  | none => exact ⟨_, rfl⟩
  | some target =>
    obtain ⟨path, root⟩ := target
    simp only [mkString_bind_allocated succeed]
    obtain ⟨⟨queued, v⟩, handling⟩ := handleDirectory_returns
      (w := { w with sys := (System.malloc s).2 }) alone succeed free event path
      (eventPath path event.name) root
    have effect := handleDirectory_eq_ok (w := { w with sys := (System.malloc s).2 }) alone (.inl rfl)
      (fun _ => rfl) handling
    obtain ⟨_, schedule, locks⟩ := effect.frame
    rw [Program.bind_ok _ _ _ _ _ handling]
    simp only [Program.ite_apply, getRoot_bind]
    split
    · exact ⟨_, rfl⟩
    split
    · exact ⟨_, rfl⟩
    obtain ⟨⟨code, u⟩, offering⟩ := inotifyEnqueue_returns (schedule.trans alone) succeed (locks ▸ free)
      root event path
    exact ⟨_, Program.bind_ok _ _ _ _ _ offering⟩

end

/-! ## Events that a root wants -/

omit [System σ] in
theorem endsInTmp_eq_false {text : Str} (plain : ¬tmpStr <:+: text) : endsInTmp text = false := by
  rw [endsInTmp, (CString.strstr_eq_none text tmpStr).mpr plain]

/-- An event on a watched directory that its root has asked for and has room for. -/
structure Eligible (w : World σ) (event : InEvent) (path : Str) (root : RootRef)
    (queue : List Event) : Prop where
  named : event.len ≠ 0
  fits : hasBit event.mask inQOverflow = false
  closing : (hasBit event.mask inIsdir && hasBit event.mask inCloseNowrite) = false
  heeded : hasBit event.mask inIgnored = false
  plainName : ¬tmpStr <:+: event.name
  watched : ∃ watch, w.watches.inotifyWdToWatch.lookup event.wd = some watch ∧ watch.path = path
  plainPath : ¬tmpStr <:+: path
  served : w.roots.pathToRoot path = some root
  running : (w.roots.heap root).pause = false
  live : (w.roots.heap root).destroy = false
  wanted : hasBit event.mask (w.roots.heap root).mask = true
  queued : (w.roots.heap root).queue = some queue
  room : (queue.length : Int) < (w.roots.heap root).maxEvents.toInt

/-- The bookkeeping for directories lets the event pass: the walker for a new directory
can be started, and a directory that is gone was known. -/
def Passes (w : World σ) (event : InEvent) (path : Str) (threadsStart : Bool) : Prop :=
  hasBit event.mask inIsdir = true →
    if (hasBit event.mask inCreate || hasBit event.mask inMovedTo) = true then threadsStart = true
    else (hasBit event.mask inDelete || hasBit event.mask inMovedFrom) = true →
      (w.watches.inotifyPathToWatch.lookup (eventPath path event.name)).isSome

variable {w : World σ} {event : InEvent} {path : Str} {root : RootRef} {queue : List Event}

omit [System σ] in
theorem Eligible.target (eligible : Eligible w event path root queue) :
    eventTarget w event.wd = some (path, root) := by
  obtain ⟨watch, known, rfl⟩ := eligible.watched
  exact eventTarget_eq_some.mpr
    ⟨watch, known, rfl, eligible.served, eligible.running, eligible.live⟩

omit [System σ] in
theorem Eligible.kept (eligible : Eligible w event path root queue) : skipped event = false := by
  simp [skipped, eligible.closing, eligible.heeded, endsInTmp_eq_false eligible.plainName]

omit [System σ] in
theorem Eligible.not_full (eligible : Eligible w event path root queue) :
    ¬(w.roots.heap root).maxEvents ≤ queueLength queue := by
  have bound := (w.roots.heap root).maxEvents.toInt_lt
  have room := eligible.room
  rw [le_queueLength_iff (by omega)]
  omega

theorem Eligible.reaches_directory (eligible : Eligible w event path root queue)
    (succeed : AllocationsSucceed σ) (alone : w.pool.schedule = [])
    (free : w.locks.held .inotify = false) :
    ∃ s queued v,
      handleDirectory event path (some (eventPath path event.name)) root { w with sys := s } =
        .ok (queued, v) ∧
      inotifyHandleRecord event w =
        if queued && hasBit event.mask (v.roots.heap root).mask then
          (do
            let code ← inotifyEnqueue root event path
            return ⟨inotifyEventSize + event.len.toNat, some (root, code)⟩ : M σ Round) v
        else .ok (⟨inotifyEventSize + event.len.toNat, none⟩, v) := by
  obtain ⟨s, looking⟩ := lookupEvent_run alone succeed free event.wd
  rw [eligible.target] at looking
  obtain ⟨⟨queued, v⟩, handling⟩ := handleDirectory_returns
    (w := { w with sys := (System.malloc s).2 }) alone succeed free event path (eventPath path event.name) root
  refine ⟨_, queued, v, handling, ?_⟩
  simp only [inotifyHandleRecord, Program.ite_apply, eligible.named, eligible.fits, eligible.kept, if_false,
    Bool.false_eq_true]
  rw [Program.bind_ok _ _ _ _ _ looking]
  simp only [mkString_bind_allocated succeed]
  rw [Program.bind_ok _ _ _ _ _ handling]
  simp only [Program.ite_apply, getRoot_bind]
  cases queued <;> cases hasBit event.mask (v.roots.heap root).mask <;> rfl

theorem DirectoryEffect.passes_iff {v : World σ} {queued threadsStart : Bool}
    (effect : DirectoryEffect event path root w queued v) (eligible : Eligible w event path root queue)
    (succeed : AllocationsSucceed σ) (starts : ∀ s : σ, (System.pthreadCreate s).1 = threadsStart) :
    queued = true ↔ Passes w event path threadsStart := by
  unfold Passes
  cases effect with
  | plain s ordinary =>
    simp only [true_iff]
    intro isDir
    simp [ordinary isDir]
  | notStarted s isDir new why =>
    -- Of the reasons for not starting a walker only a refused thread is left.
    have stuck : threadsStart = false := by
      obtain tmp | dying | failed | ⟨t, refused⟩ := why
      · rw [endsInTmp_eq_false eligible.plainPath] at tmp
        cases tmp
      · rw [eligible.live] at dying
        cases dying
      · exact absurd succeed failed
      · rw [← starts t, refused]
    simp [isDir, new, stuck]
  | started s t copy isDir new plain live created copied =>
    have going : threadsStart = true := by rw [← starts t, created]
    simp [isDir, new, going]
  | unknown s isDir old gone missing => simp [isDir, old, gone, missing]
  | gone s delete isDir old gone known => simp [isDir, old, gone, known]

/-- With allocations succeeding, a round appends an eligible event to its root's queue
exactly when the bookkeeping for directories lets it pass. -/
theorem eligible_event_queued_iff (succeed : AllocationsSucceed σ) {threadsStart : Bool}
    (starts : ∀ s : σ, (System.pthreadCreate s).1 = threadsStart) (alone : w.pool.schedule = [])
    (free : w.locks.held .inotify = false) (eligible : Eligible w event path root queue) :
    ∃ round w', inotifyHandleRecord event w = .ok (round, w') ∧
      ((w'.roots.heap root).queue = some (queue ++
          [{ wd := event.wd
             mask := event.mask
             cookie := event.cookie
             len := event.len
             path := some path
             name := some event.name }]) ↔ Passes w event path threadsStart) := by
  obtain ⟨s, queued, v, handling, whole⟩ := eligible.reaches_directory succeed alone free
  have effect := (handleDirectory_eq_ok (w := { w with sys := s }) alone (.inl rfl) (fun _ => rfl)
    handling).of_sys
  have passes := effect.passes_iff eligible succeed starts
  obtain ⟨roots, schedule, locks⟩ := effect.frame
  have queue' : (v.roots.heap root).queue = some queue := roots ▸ eligible.queued
  rw [whole, roots, eligible.wanted, Bool.and_true, ← passes]
  cases queued with
  | false => exact ⟨_, v, rfl, by simp [queue']⟩
  | true =>
    obtain ⟨t, offering⟩ := inotifyEnqueue_run (schedule.trans alone) succeed (locks ▸ free) root event
      path queue'
    rw [if_neg (roots ▸ eligible.not_full)] at offering
    refine ⟨_, _, (if_pos rfl).trans (Program.bind_ok _ _ _ _ _ offering), ?_⟩
    simp [RootTable.setRoot, makeNode]

theorem created_directory_queued :
    ∃ round w', inotifyHandleRecord ⟨1, inCreate ||| inIsdir, 0, 16, str "new"⟩
        (World.watching (⟨[2]⟩ : Script true) (str "/r")) = .ok (round, w') ∧
      (w'.roots.heap 0).queue =
        some [⟨1, inCreate ||| inIsdir, 0, 16, some (str "/r"), some (str "new")⟩] := by
  have eligible : Eligible (World.watching (⟨[2]⟩ : Script true) (str "/r"))
      ⟨1, inCreate ||| inIsdir, 0, 16, str "new"⟩ (str "/r") 0 [] :=
    ⟨by decide, by decide, by decide, by decide, by decide, ⟨_, rfl, rfl⟩, by decide, by decide, rfl,
      rfl, by decide, rfl, by decide⟩
  obtain ⟨round, w', ran, queued⟩ := eligible_event_queued_iff (fun _ => rfl) (fun _ => rfl) rfl rfl eligible
  exact ⟨round, w', ran, queued.mpr fun _ => rfl⟩

/-- A directory was made and removed again before its walker ran: the event for the
removal finds no entry for it and is not queued, though its root wants it. -/
theorem removed_directory_not_queued :
    Eligible (World.watching (⟨[]⟩ : Script true) (str "/r"))
        ⟨1, inDelete ||| inIsdir, 0, 16, str "new"⟩ (str "/r") 0 [] ∧
      ∃ round w', inotifyHandleRecord ⟨1, inDelete ||| inIsdir, 0, 16, str "new"⟩
          (World.watching (⟨[]⟩ : Script true) (str "/r")) = .ok (round, w') ∧
        (w'.roots.heap 0).queue = some [] :=
  ⟨⟨by decide, by decide, by decide, by decide, by decide, ⟨_, rfl, rfl⟩, by decide, by decide, rfl,
    rfl, by decide, rfl, by decide⟩, _, _, rfl, rfl⟩

end Inotispy
