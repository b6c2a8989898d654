import Inotispy.Events.Effects

/-! Threads do not fault while allocations succeed.

Then no string is missing anywhere, so that no thread dereferences a null pointer, and
a thread takes its step whenever the mutex is free. -/

set_option autoImplicit false

namespace Inotispy
open Library

variable {σ : Type} [System σ]

/-- The strings a thread was started with or has made are there. -/
def Thread.Whole : Thread → Prop
  | .watchTree data => data.path.isSome
  | .destroyKeys _ tmp _ => tmp.isSome
  | .destroyWatch _ tmp _ _ _ => tmp.isSome
  | .destroyEntry _ tmp _ _ _ => tmp.isSome
  | _ => True

/-- No string is missing. Cells of the heap that hold no root yet count as having a path. -/
structure Whole (w : World σ) : Prop where
  rootPaths : ∀ root, (w.roots.heap root).path.isSome
  eventStrings : ∀ root, ∀ event ∈ (w.roots.heap root).events,
    event.path.isSome ∧ event.name.isSome
  threads : ∀ thread ∈ w.pool.threads, thread.Whole

/-! ## Steps that are taken -/

theorem makeWatch_returns (wd : Int) (path : Str) (w : World σ) : ∃ r, makeWatch wd path w = .ok r := by
  simp only [makeWatch, malloc_bind, Program.ite_apply, Program.read_bind_apply, modifyWatches_bind]
  split
  · exact ⟨_, rfl⟩
  split <;> exact ⟨_, rfl⟩

theorem addTreeWatch_returns (path : Str) (root : RootRef) (w : World σ) :
    ∃ r, addTreeWatch path root w = .ok r := by
  simp only [addTreeWatch, opendir_bind, Program.ite_apply, getRoot_bind, inotifyAddWatch_bind]
  split
  · exact ⟨_, rfl⟩
  split
  · exact ⟨_, rfl⟩
  apply Program.bind_returns (makeWatch_returns _ _ _)
  intro made v _
  cases made with
  | none => exact ⟨_, rfl⟩
  | some watch =>
    simp only [lookupWd_bind, Program.ite_apply, modifyWatches_bind]
    split <;> exact ⟨_, rfl⟩

section
variable {w : World σ} (free : w.locks.held .inotify = false)
include free

theorem doWatchTreeSection_returns (path : Str) (root : RootRef) (cleanup : Bool) :
    ∃ r, doWatchTreeSection path root cleanup w = .ok r := by
  simp only [doWatchTreeSection, Program.ite_apply, acquire_bind free, getRoot_bind, lookupPath_bind,
    release_bind]
  split
  · exact ⟨_, rfl⟩
  split
  · exact ⟨_, rfl⟩
  split
  · exact ⟨_, rfl⟩
  apply Program.bind_returns (addTreeWatch_returns path root _)
  intro went v _
  exact ⟨_, rfl⟩

omit [System σ] in
theorem destroyRootKey_returns (root : RootRef) {tmp : Option Str} (made : tmp.isSome) (path : Str)
    (keys : List Str) : ∃ next, destroyRootKey root tmp path keys w = .ok (next, w) ∧ next.Whole := by
  obtain ⟨below, rfl⟩ := Option.isSome_iff_exists.mp made
  simp only [destroyRootKey, deref, Program.pure_bind_apply, Program.ite_apply, acquire_bind free,
    lookupPath_bind, release_bind, Locks.unlock_set free]
  split
  · exact ⟨_, rfl, rfl⟩
  · cases w.watches.inotifyPathToWatch.lookup path <;> exact ⟨_, rfl, rfl⟩

omit [System σ] in
theorem destroyRootEnd_returns {root : RootRef} (named : (w.roots.heap root).path.isSome) :
    ∃ r, destroyRootEnd root w = .ok r := by
  obtain ⟨path, named⟩ := Option.isSome_iff_exists.mp named
  simp only [destroyRootEnd, acquire_bind free, getRoot_bind, named, deref, Program.pure_bind_apply,
    lookupPath_bind]
  cases w.watches.inotifyPathToWatch.lookup path <;> exact ⟨_, rfl⟩

theorem memcleanSection_returns (path : Str) : ∃ r, memcleanSection path w = .ok r := by
  simp only [memcleanSection, acquire_bind free, lookupPath_bind]
  cases w.watches.inotifyPathToWatch.lookup path <;> exact ⟨_, rfl⟩

omit free in
theorem dumpRootsSection_returns : ∃ r, dumpRootsSection w = .ok r := by
  simp only [dumpRootsSection, call_bind, Program.ite_apply, Program.read_bind_apply]
  split <;> exact ⟨_, rfl⟩

end

theorem entryIsDir_returns (path : Str) (dType : DType) (w : World σ) :
    ∃ r, entryIsDir (some path) dType w = .ok r := by
  cases dType <;> exact ⟨_, rfl⟩

section
variable (succeed : AllocationsSucceed σ) {w : World σ}
include succeed

theorem doWatchTreeRec_returns (free : w.locks.held .inotify = false) (data : TData)
    (rest : List Frame) (frame : Frame) : ∃ r, doWatchTreeRec data rest frame w = .ok r := by
  cases frame with
  | call path =>
    apply Program.bind_returns (doWatchTreeSection_returns free path data.root data.cleanup)
    intro went v _
    cases went <;> exact ⟨_, rfl⟩
  | opened path =>
    simp only [doWatchTreeRec, call_bind]
    cases (System.readdir w.sys path).1 <;> exact ⟨_, rfl⟩
  | reading path entries =>
    cases entries with
    | nil => exact ⟨_, rfl⟩
    | cons dir entries =>
      simp only [doWatchTreeRec, Program.ite_apply, mkString_bind_allocated succeed]
      split
      · exact ⟨_, rfl⟩
      apply Program.bind_returns (entryIsDir_returns (childPath path dir.name) dir.dType _)
      intro isDir v _
      simp only [Program.ite_apply, getRoot_bind]
      split
      · exact ⟨_, rfl⟩
      split <;> exact ⟨_, rfl⟩

/-- A thread whose strings are there takes its step, and its strings are there after it. -/
theorem threadStep_returns (whole : Whole w) (free : w.locks.held .inotify = false) {thread : Thread}
    (strings : thread.Whole) : ∃ next v, threadStep thread w = .ok (next, v) ∧ next.Whole := by
  cases thread with
  | watchTree data =>
    obtain ⟨path, named⟩ := Option.isSome_iff_exists.mp strings
    obtain ⟨rootPath, rooted⟩ := Option.isSome_iff_exists.mp (whole.rootPaths data.root)
    simp only [threadStep, doWatchTreeEnter, getRoot_bind, Program.ite_apply, named, rooted, deref,
      Program.pure_bind_apply, modifyPool_bind]
    split
    · exact ⟨_, _, rfl, trivial⟩
    split
    · exact ⟨_, _, rfl, trivial⟩
    split <;> exact ⟨_, _, rfl, trivial⟩
  | watchTreeRec data stack =>
    cases stack with
    | nil =>
      simp only [threadStep, doWatchTreeLeave, Program.ite_apply, modifyPool_bind]
      split <;> exact ⟨_, _, rfl, trivial⟩
    | cons frame rest =>
      obtain ⟨⟨next, v⟩, ran⟩ := doWatchTreeRec_returns succeed free data rest frame
      exact ⟨_, v, Program.bind_ok _ _ _ _ _ ran, trivial⟩
  | destroyRoot root =>
    simp only [threadStep, destroyRootStart, acquire_bind free, getRoot_bind,
      mkString_bind_allocated succeed, modifyRoots_bind, Program.read_bind_apply, release_bind]
    exact ⟨_, _, rfl, rfl⟩
  | destroyKeys root tmp keys =>
    cases keys with
    | nil =>
      obtain ⟨⟨_, v⟩, ran⟩ := destroyRootEnd_returns free (whole.rootPaths root)
      exact ⟨_, v, Program.bind_ok _ _ _ _ _ ran, trivial⟩
    | cons path keys =>
      obtain ⟨next, ran, strings⟩ := destroyRootKey_returns free root strings path keys
      exact ⟨next, w, ran, strings⟩
  | destroyWatch root tmp path watch keys => exact ⟨_, _, rfl, strings⟩
  | destroyEntry root tmp path watch keys =>
    simp only [threadStep, destroyRootEntry, bind_assoc, acquire_bind free]
    exact ⟨_, _, rfl, strings⟩
  | destroyDump =>
    simp only [threadStep, acquire_bind free]
    obtain ⟨⟨_, v⟩, ran⟩ := dumpRootsSection_returns
      (w := { w with locks := w.locks.set .inotify true })
    exact ⟨_, _, Program.bind_ok _ _ _ _ _ ran, trivial⟩
  | memclean => exact ⟨_, _, rfl, trivial⟩
  | memcleanSnapshot =>
    simp only [threadStep, acquire_bind free]
    exact ⟨_, _, rfl, trivial⟩
  | memcleanKeys keys =>
    cases keys with
    | nil =>
      simp only [threadStep, acquire_bind free]
      exact ⟨_, _, rfl, trivial⟩
    | cons path keys =>
      simp only [threadStep, Program.ite_apply, call_bind]
      split
      · exact ⟨_, _, rfl, trivial⟩
      split <;> exact ⟨_, _, rfl, trivial⟩
  | memcleanPath path keys =>
    obtain ⟨⟨_, v⟩, ran⟩ := memcleanSection_returns free path
    exact ⟨_, v, Program.bind_ok _ _ _ _ _ ran, trivial⟩
  | finished => exact ⟨_, _, rfl, trivial⟩

end

theorem RootsEffect.heap_strings {thread : Thread} {before after : RootTable}
    (effect : RootsEffect thread before after) (root : RootRef) :
    (after.heap root).path = (before.heap root).path ∧
      ∀ event ∈ (after.heap root).events, event ∈ (before.heap root).events := by
  cases effect with
  | same => exact ⟨rfl, fun _ member => member⟩
  | free freed =>
    by_cases same : root = freed
    · subst same
      simp [RootTable.setRoot, Root.events]
    · simp [RootTable.setRoot, Function.update_of_ne same]
  -- The cell of a root outlives its entry in the table.
  | remove => exact ⟨rfl, fun _ member => member⟩

theorem threadStep_whole {thread next : Thread} {w w' : World σ} (whole : Whole w)
    (ran : threadStep thread w = .ok (next, w')) : Whole w' := by
  have effect := threadStep_effect ran
  constructor
  · intro root
    rw [(effect.roots.heap_strings root).1]
    exact whole.rootPaths root
  · intro root event member
    exact whole.eventStrings root event ((effect.roots.heap_strings root).2 event member)
  · rw [effect.threads]
    exact whole.threads

end Inotispy
