import Inotispy.Model.Threads

/-! What one step of a thread can do to the state it shares with the others.

`ThreadStep` lists the steps, each with what it found and what it leaves.
`ThreadEffect` says what they have in common: the locks, the pool and the socket
are as before, and the two tables change in one of a few ways. The invariants of
the daemon are proved from these without looking at the code of a thread again.
-/

set_option autoImplicit false

namespace Inotispy
open Library

variable {σ : Type} [System σ]

/-! ## The walker's critical section -/

theorem makeWatch_eq_ok {wd : Int} {path : Str} {w w' : World σ} {made : Option Watch}
    (ran : makeWatch wd path w = .ok (made, w')) :
    ∃ s, (made = none ∧ w' = { w with sys := s } ∧ ¬AllocationsSucceed σ) ∨
      (made = some ⟨w.watches.nextWatch, wd, path⟩ ∧
        w' = { w with sys := s, watches.nextWatch := w.watches.nextWatch + 1 }) := by
  simp only [makeWatch, malloc_bind, Program.ite_eq_ok, Program.pure_eq_ok, Program.read_bind_apply,
    modifyWatches_bind] at ran
  obtain ⟨failed, rfl, rfl⟩ | ⟨_, ⟨failed, rfl, rfl⟩ | ⟨_, rfl, rfl⟩⟩ := ran
  · exact ⟨_, .inl ⟨rfl, rfl, fun succeed => by simp [succeed _] at failed⟩⟩
  · exact ⟨_, .inl ⟨rfl, rfl, fun succeed => by simp [succeed _] at failed⟩⟩
  · exact ⟨_, .inr ⟨rfl, rfl⟩⟩

/-- The descriptor `inotify_add_watch` answers with when the walker asks for `path`. -/
def answeredWd (w : World σ) (path : Str) (root : RootRef) : Int :=
  (System.inotifyAddWatch (System.opendir w.sys path).2 path
    ((w.roots.heap root).mask ||| inDontFollow)).1

theorem addTreeWatch_cases {path : Str} {root : RootRef} {went : Bool} {w w' : World σ}
    (ran : addTreeWatch path root w = .ok (went, w')) :
    ∃ s, (went = false ∧ (∃ n, w' = { w with sys := s, watches.nextWatch := w.watches.nextWatch + n }) ∧
        (AllocationsSucceed σ → ¬((System.opendir w.sys path).1 = true ∧ 0 ≤ answeredWd w path root ∧
          w.watches.inotifyWdToWatch.lookup (answeredWd w path root) = none))) ∨
      (went = true ∧ (System.opendir w.sys path).1 = true ∧ 0 ≤ answeredWd w path root ∧
        w.watches.inotifyWdToWatch.lookup (answeredWd w path root) = none ∧
        w' = { w with
          sys := s
          watches := ({ w.watches with nextWatch := w.watches.nextWatch + 1 } : WatchTable).file root
            ⟨w.watches.nextWatch, answeredWd w path root, path⟩ }) := by
  simp only [addTreeWatch, Program.ite_eq_ok, Program.pure_eq_ok, getRoot_bind, opendir_bind,
    inotifyAddWatch_bind, Program.bind_eq_ok_iff] at ran
  obtain ⟨closed, rfl, rfl⟩ | ⟨opens, ⟨refused, rfl, rfl⟩ | ⟨granted, made, v, making, ran⟩⟩ := ran
  · exact ⟨_, .inl ⟨rfl, ⟨0, rfl⟩, fun _ files => by simp [files.1] at closed⟩⟩
  · exact ⟨_, .inl ⟨rfl, ⟨0, rfl⟩, fun _ files => absurd files.2.1 (Int.not_le.mpr refused)⟩⟩
  · obtain ⟨s, ⟨rfl, rfl, failed⟩ | ⟨rfl, rfl⟩⟩ := makeWatch_eq_ok making
    · obtain ⟨rfl, rfl⟩ := Program.pure_eq_ok.mp ran
      exact ⟨s, .inl ⟨rfl, ⟨0, rfl⟩, fun succeed => absurd succeed failed⟩⟩
    · simp only [lookupWd_bind, Program.ite_eq_ok, Program.pure_eq_ok, modifyWatches_bind] at ran
      obtain ⟨known, rfl, rfl⟩ | ⟨new, rfl, rfl⟩ := ran
      · refine ⟨s, .inl ⟨rfl, ⟨1, rfl⟩, fun _ files => ?_⟩⟩
        exact absurd files.2.2 (Option.isSome_iff_ne_none.mp known)
      · exact ⟨s, .inr ⟨rfl, by simpa using opens, Int.not_lt.mp granted,
          Option.not_isSome_iff_eq_none.mp new, rfl⟩⟩

/-- What it takes for the walker's critical section to file a watch for `path`. -/
structure Files (w : World σ) (path : Str) (root : RootRef) (cleanup : Bool) : Prop where
  plain : endsInTmp path = false
  live : (w.roots.heap root).destroy = false
  orphan : cleanup = true → w.watches.inotifyPathToWatch.lookup path = none
  opens : (System.opendir w.sys path).1 = true
  granted : 0 ≤ answeredWd w path root
  new : w.watches.inotifyWdToWatch.lookup (answeredWd w path root) = none

/-- The section either leaves the tables alone or files one new watch. -/
theorem doWatchTreeSection_cases {path : Str} {root : RootRef} {cleanup went : Bool}
    {w w' : World σ} (ran : doWatchTreeSection path root cleanup w = .ok (went, w')) :
    ∃ s, (went = false ∧ (∃ n, w' = { w with sys := s, watches.nextWatch := w.watches.nextWatch + n }) ∧
        (AllocationsSucceed σ → ¬Files w path root cleanup)) ∨
      (went = true ∧ Files w path root cleanup ∧
        w' = { w with
          sys := s
          watches := ({ w.watches with nextWatch := w.watches.nextWatch + 1 } : WatchTable).file root
            ⟨w.watches.nextWatch, answeredWd w path root, path⟩ }) := by
  simp only [doWatchTreeSection, Program.ite_eq_ok, Program.pure_eq_ok, acquire_bind_eq_ok,
    release_bind, getRoot_bind, lookupPath_bind] at ran
  obtain ⟨tmp, rfl, rfl⟩ | ⟨plain, free, ⟨dead, rfl, rfl⟩ | ⟨live, ⟨known, rfl, rfl⟩ | ⟨orphan, ran⟩⟩⟩ := ran
  · exact ⟨_, .inl ⟨rfl, ⟨0, rfl⟩, fun _ files => by simp [files.plain] at tmp⟩⟩
  · exact ⟨_, .inl ⟨rfl, ⟨0, by rw [Locks.unlock_set free]; rfl⟩, fun _ files => by simp [files.live] at dead⟩⟩
  · refine ⟨_, .inl ⟨rfl, ⟨0, by rw [Locks.unlock_set free]; rfl⟩, fun _ files => ?_⟩⟩
    obtain ⟨cleaning, known⟩ := Bool.and_eq_true_iff.mp known
    simp [files.orphan cleaning] at known
  · obtain ⟨_, v, adding, ran⟩ := Program.bind_eq_ok ran
    rw [release_bind, Program.pure_eq_ok] at ran
    obtain ⟨rfl, rfl⟩ := ran
    obtain ⟨s, ⟨rfl, ⟨n, rfl⟩, stuck⟩ | ⟨rfl, opens, granted, new, rfl⟩⟩ := addTreeWatch_cases adding
    · exact ⟨s, .inl ⟨rfl, ⟨n, by rw [Locks.unlock_set free]⟩,
        fun succeed files => stuck succeed ⟨files.opens, files.granted, files.new⟩⟩⟩
    · refine ⟨s, .inr ⟨rfl, ⟨by simpa using plain, by simpa using live, ?_, opens, granted, new⟩, ?_⟩⟩
      · intro cleaning
        simpa [cleaning] using orphan
      · rw [Locks.unlock_set free]
        rfl

/-! ## The walker outside its critical section -/

theorem entryIsDir_eq_ok {tmp : Option Str} {dType : DType} {isDir : Bool} {w w' : World σ}
    (ran : entryIsDir tmp dType w = .ok (isDir, w')) : ∃ s, w' = { w with sys := s } := by
  cases dType with
  | unknown =>
    simp only [entryIsDir, deref_bind_eq_ok, call_bind, Program.pure_eq_ok] at ran
    obtain ⟨_, _, _, rfl⟩ := ran
    exact ⟨_, rfl⟩
  | _ =>
    obtain ⟨_, rfl⟩ := Program.pure_eq_ok.mp ran
    exact ⟨_, rfl⟩

theorem doWatchTreeRec_reading {data : TData} {rest next : List Frame} {path : Str}
    {entries : List Dirent} {w w' : World σ}
    (ran : doWatchTreeRec data rest (.reading path entries) w = .ok (next, w')) :
    ∃ s, w' = { w with sys := s } := by
  cases entries with
  | nil =>
    obtain ⟨_, rfl⟩ := Program.pure_eq_ok.mp ran
    exact ⟨_, rfl⟩
  | cons dir entries =>
    simp only [doWatchTreeRec, Program.ite_eq_ok, Program.pure_eq_ok, mkString_bind] at ran
    obtain ⟨_, _, rfl⟩ | ⟨_, ran⟩ := ran
    · exact ⟨_, rfl⟩
    · obtain ⟨isDir, v, asking, ran⟩ := Program.bind_eq_ok ran
      obtain ⟨s, rfl⟩ := entryIsDir_eq_ok asking
      simp only [Program.ite_eq_ok, Program.pure_eq_ok, getRoot_bind, deref_bind_eq_ok] at ran
      obtain ⟨_, _, rfl⟩ | ⟨_, ⟨_, _, rfl⟩ | ⟨_, _, _, _, rfl⟩⟩ := ran <;> exact ⟨s, rfl⟩

theorem doWatchTreeRec_opened {data : TData} {rest next : List Frame} {path : Str} {w w' : World σ}
    (ran : doWatchTreeRec data rest (.opened path) w = .ok (next, w')) :
    ∃ s, w' = { w with sys := s } := by
  simp only [doWatchTreeRec, call_bind] at ran
  cases listed : (System.readdir w.sys path).1 <;> rw [listed] at ran <;>
    obtain ⟨_, rfl⟩ := Program.pure_eq_ok.mp ran <;> exact ⟨_, rfl⟩

theorem doWatchTreeRec_call {data : TData} {rest next : List Frame} {path : Str} {w w' : World σ}
    (ran : doWatchTreeRec data rest (.call path) w = .ok (next, w')) :
    ∃ went, doWatchTreeSection path data.root data.cleanup w = .ok (went, w') ∧
      next = if went then .opened path :: rest else rest := by
  obtain ⟨went, v, section_, ran⟩ := Program.bind_eq_ok ran
  simp only [Program.ite_eq_ok, Program.pure_eq_ok] at ran
  obtain ⟨yes, rfl, rfl⟩ | ⟨no, rfl, rfl⟩ := ran
  · exact ⟨went, section_, by simp [yes]⟩
  · exact ⟨went, section_, by simp [no]⟩

theorem doWatchTreeRec_spares {data : TData} {frame : Frame} {rest next : List Frame} {w w' : World σ}
    (ran : doWatchTreeRec data rest frame w = .ok (next, w')) : w'.roots = w.roots ∧ w'.output = w.output := by
  cases frame with
  | call path =>
    obtain ⟨went, section_, _⟩ := doWatchTreeRec_call ran
    obtain ⟨s, ⟨_, ⟨n, rfl⟩, _⟩ | ⟨_, _, rfl⟩⟩ := doWatchTreeSection_cases section_ <;> exact ⟨rfl, rfl⟩
  | opened path =>
    obtain ⟨s, rfl⟩ := doWatchTreeRec_opened ran
    exact ⟨rfl, rfl⟩
  | reading path entries =>
    obtain ⟨s, rfl⟩ := doWatchTreeRec_reading ran
    exact ⟨rfl, rfl⟩

omit [System σ] in
theorem doWatchTreeEnter_eq_ok {data : TData} {next : Thread} {w w' : World σ}
    (ran : doWatchTreeEnter data w = .ok (next, w')) :
    (next = .finished ∧ w' = w ∧ ((w.roots.heap data.root).destroy = true ∨
        ∃ path rootPath, data.path = some path ∧ (w.roots.heap data.root).path = some rootPath ∧
          path.length < rootPath.length)) ∨
      ∃ path rootPath, data.path = some path ∧ (w.roots.heap data.root).path = some rootPath ∧
        (w.roots.heap data.root).destroy = false ∧ rootPath.length ≤ path.length ∧
        next = .watchTreeRec data [.call path] ∧
        w' = { w with pool.inRootRewatch := data.cleanup || w.pool.inRootRewatch } := by
  simp only [doWatchTreeEnter, getRoot_bind, Program.ite_eq_ok, Program.pure_eq_ok, deref_bind_eq_ok,
    modifyPool_bind] at ran
  obtain ⟨dead, rfl, rfl⟩ | ⟨live, path, named, rootPath, rooted, ran⟩ := ran
  · exact .inl ⟨rfl, rfl, .inl dead⟩
  obtain ⟨short, rfl, rfl⟩ | ⟨long, ran⟩ := ran
  · exact .inl ⟨rfl, rfl, .inr ⟨path, rootPath, named, rooted, short⟩⟩
  refine .inr ⟨path, rootPath, named, rooted, by simpa using live, by omega, ?_⟩
  obtain ⟨cleanup, rfl, rfl⟩ | ⟨plain, rfl, rfl⟩ := ran
  · exact ⟨rfl, by simp [cleanup]⟩
  · exact ⟨rfl, by simp [plain]⟩

/-! ## Destroy threads and memclean -/

theorem destroyRootStart_eq_ok {root : RootRef} {next : Thread} {w w' : World σ}
    (ran : destroyRootStart root w = .ok (next, w')) :
    ∃ tmp, (tmp = none ∨ tmp = some (percentS (w.roots.heap root).path ++ str "/")) ∧
      next = .destroyKeys root tmp w.watches.inotifyPathToWatch.keys ∧
      w' = { w with
        sys := (System.malloc w.sys).2
        roots := w.roots.setRoot root fun r => { r with queue := none } } := by
  simp only [destroyRootStart, acquire_bind_eq_ok, getRoot_bind, mkString_bind, modifyRoots_bind,
    Program.read_bind_apply, release_bind, Program.pure_eq_ok] at ran
  obtain ⟨free, rfl, rfl⟩ := ran
  refine ⟨_, ?_, rfl, by rw [Locks.unlock_set free]⟩
  split
  · exact .inr rfl
  · exact .inl rfl

omit [System σ] in
theorem destroyRootKey_eq_ok {root : RootRef} {tmp : Option Str} {path : Str} {keys : List Str}
    {next : Thread} {w w' : World σ} (ran : destroyRootKey root tmp path keys w = .ok (next, w')) :
    w' = w ∧ ∃ below, tmp = some below ∧
      ((next = .destroyKeys root tmp keys ∧
          (¬below <+: path ∨ w.watches.inotifyPathToWatch.lookup path = none)) ∨
        ∃ watch, below <+: path ∧ w.watches.inotifyPathToWatch.lookup path = some watch ∧
          next = .destroyWatch root tmp path watch keys) := by
  simp only [destroyRootKey, deref_bind_eq_ok, Program.ite_eq_ok, Program.pure_eq_ok,
    acquire_bind_eq_ok, lookupPath_bind, release_bind, ne_eq, not_not, CString.strstr_eq_zero] at ran
  obtain ⟨below, rfl, ⟨outside, rfl, rfl⟩ | ⟨inside, free, ran⟩⟩ := ran
  · exact ⟨rfl, below, rfl, .inl ⟨rfl, .inl outside⟩⟩
  · rw [Locks.unlock_set free] at ran
    cases found : w.watches.inotifyPathToWatch.lookup path with
    | none =>
      rw [found] at ran
      obtain ⟨rfl, rfl⟩ := Program.pure_eq_ok.mp ran
      exact ⟨rfl, below, rfl, .inl ⟨rfl, .inr rfl⟩⟩
    | some watch =>
      rw [found] at ran
      obtain ⟨rfl, rfl⟩ := Program.pure_eq_ok.mp ran
      exact ⟨rfl, below, rfl, .inr ⟨watch, inside, rfl, rfl⟩⟩

omit [System σ] in
theorem destroyRootEntry_eq_ok {path : Str} {watch : Watch} {w w' : World σ} {a : Unit}
    (ran : destroyRootEntry path watch w = .ok (a, w')) :
    w' = { w with watches := w.watches.forget path watch.wd } := by
  simp only [destroyRootEntry, acquire_bind_eq_ok, modifyWatches_bind, release_eq_ok] at ran
  obtain ⟨free, rfl⟩ := ran
  rw [Locks.unlock_set free]

def RootTable.remove (roots : RootTable) (path : Str) : RootTable :=
  { roots with
    inotifyRoots := roots.inotifyRoots.erase path
    inotifyNumWatchedRoots := roots.inotifyNumWatchedRoots - 1 }

omit [System σ] in
theorem destroyRootEnd_eq_ok {root : RootRef} {w w' : World σ} {a : Unit}
    (ran : destroyRootEnd root w = .ok (a, w')) :
    ∃ path, (w.roots.heap root).path = some path ∧
      ((w.watches.inotifyPathToWatch.lookup path = none ∧
          w' = { w with roots := w.roots.remove path }) ∨
        ∃ watch, w.watches.inotifyPathToWatch.lookup path = some watch ∧
          w' = { w with roots := w.roots.remove path, watches := w.watches.forget path watch.wd }) := by
  simp only [destroyRootEnd, acquire_bind_eq_ok, getRoot_bind, deref_bind_eq_ok, lookupPath_bind] at ran
  obtain ⟨free, path, named, ran⟩ := ran
  refine ⟨path, named, ?_⟩
  cases found : w.watches.inotifyPathToWatch.lookup path with
  | none =>
    simp only [found, modifyRoots_bind, release_eq_ok] at ran
    subst ran
    exact .inl ⟨rfl, by rw [Locks.unlock_set free]; rfl⟩
  | some watch =>
    simp only [found, modifyWatches_bind, modifyRoots_bind, release_eq_ok] at ran
    subst ran
    exact .inr ⟨watch, rfl, by rw [Locks.unlock_set free]; rfl⟩

theorem memcleanSection_eq_ok {path : Str} {w w' : World σ} {a : Unit}
    (ran : memcleanSection path w = .ok (a, w')) :
    (w.watches.inotifyPathToWatch.lookup path = none ∧ w' = w) ∨
      ∃ watch s, w.watches.inotifyPathToWatch.lookup path = some watch ∧
        w' = { w with sys := s, watches := w.watches.forget path watch.wd } := by
  simp only [memcleanSection, acquire_bind_eq_ok, lookupPath_bind] at ran
  obtain ⟨free, ran⟩ := ran
  cases found : w.watches.inotifyPathToWatch.lookup path with
  | none =>
    rw [found] at ran
    rw [release_eq_ok] at ran
    subst ran
    exact .inl ⟨rfl, by rw [Locks.unlock_set free]⟩
  | some watch =>
    simp only [found, inotifyRmWatch_bind, modifyWatches_bind, release_eq_ok] at ran
    subst ran
    exact .inr ⟨watch, _, rfl, by rw [Locks.unlock_set free]⟩

theorem dumpRootsSection_eq_ok {w w' : World σ} {a : Unit}
    (ran : dumpRootsSection w = .ok (a, w')) :
    ∃ text, w' = { w with sys := (System.fopenDump w.sys).2, output.dumpFile := text } := by
  simp only [dumpRootsSection, call_bind, Program.ite_eq_ok, Program.pure_eq_ok,
    Program.read_bind_apply] at ran
  obtain ⟨_, _, rfl⟩ | ⟨_, ran⟩ := ran
  · exact ⟨_, rfl⟩
  · cases ran
    exact ⟨_, rfl⟩

inductive MemcleanStep (w : World σ) : Thread → Thread → World σ → Prop where
  | enter : MemcleanStep w .memclean .memcleanSnapshot { w with pool.inMemclean := true }
  | snapshot : MemcleanStep w .memcleanSnapshot (.memcleanKeys w.watches.inotifyPathToWatch.keys) w
  | garbage {path : Str} {keys : List Str} (relative : path.head? ≠ some '/') :
      MemcleanStep w (.memcleanKeys (path :: keys)) (.memcleanKeys keys) w
  | directory {path : Str} {keys : List Str} (absolute : path.head? = some '/')
      (is : (System.statIsDir w.sys path).1 = true) :
      MemcleanStep w (.memcleanKeys (path :: keys)) (.memcleanKeys keys)
        { w with sys := (System.statIsDir w.sys path).2 }
  | suspect {path : Str} {keys : List Str} (absolute : path.head? = some '/')
      (is : (System.statIsDir w.sys path).1 = false) :
      MemcleanStep w (.memcleanKeys (path :: keys)) (.memcleanPath path keys)
        { w with sys := (System.statIsDir w.sys path).2 }
  | absent {path : Str} {keys : List Str} (absent : w.watches.inotifyPathToWatch.lookup path = none) :
      MemcleanStep w (.memcleanPath path keys) (.memcleanKeys keys) w
  | remove {path : Str} {keys : List Str} {watch : Watch}
      (found : w.watches.inotifyPathToWatch.lookup path = some watch) :
      MemcleanStep w (.memcleanPath path keys) (.memcleanKeys keys)
        { w with sys := (System.inotifyRmWatch w.sys watch.wd).2, watches := w.watches.forget path watch.wd }
  | leave : MemcleanStep w (.memcleanKeys []) .finished { w with pool.inMemclean := false }

def Thread.Cleans : Thread → Prop
  | .memclean => True
  | .memcleanSnapshot => True
  | .memcleanKeys _ => True
  | .memcleanPath _ _ => True
  | _ => False

theorem threadStep_memclean {thread next : Thread} {w w' : World σ} (cleans : thread.Cleans)
    (ran : threadStep thread w = .ok (next, w')) : MemcleanStep w thread next w' := by
  cases thread with
  | memclean =>
    obtain ⟨rfl, rfl⟩ := Program.pure_eq_ok.mp ran
    exact .enter
  | memcleanSnapshot =>
    simp only [threadStep, acquire_bind_eq_ok, Program.read_bind_apply, release_bind, Program.pure_eq_ok] at ran
    obtain ⟨free, rfl, rfl⟩ := ran
    rw [Locks.unlock_set free]
    exact .snapshot
  | memcleanKeys keys =>
    cases keys with
    | nil =>
      simp only [threadStep, acquire_bind_eq_ok, modifyPool_bind, release_bind, Program.pure_eq_ok] at ran
      obtain ⟨free, rfl, rfl⟩ := ran
      rw [Locks.unlock_set free]
      exact .leave
    | cons path keys =>
      simp only [threadStep, Program.ite_eq_ok, call_bind, Program.pure_eq_ok, ne_eq, not_not] at ran
      obtain ⟨relative, rfl, rfl⟩ | ⟨absolute, ⟨is, rfl, rfl⟩ | ⟨is, rfl, rfl⟩⟩ := ran
      · exact .garbage relative
      · exact .directory absolute is
      · exact .suspect absolute (eq_false_of_ne_true is)
  | memcleanPath path keys =>
    obtain ⟨_, v, section_, ran⟩ := Program.bind_eq_ok ran
    obtain ⟨rfl, rfl⟩ := Program.pure_eq_ok.mp ran
    simp only [memcleanSection, acquire_bind_eq_ok, lookupPath_bind] at section_
    obtain ⟨free, section_⟩ := section_
    cases found : w.watches.inotifyPathToWatch.lookup path with
    | none =>
      rw [found, release_eq_ok] at section_
      rw [section_, Locks.unlock_set free]
      exact .absent found
    | some watch =>
      simp only [found, inotifyRmWatch_bind, modifyWatches_bind, release_eq_ok] at section_
      rw [section_, Locks.unlock_set free]
      exact .remove found
  | _ => exact cleans.elim

theorem MemcleanStep.cleans {thread next : Thread} {w w' : World σ} (step : MemcleanStep w thread next w') :
    thread.Cleans := by
  cases step <;> trivial

/-! ## A step, thread by thread -/

inductive ThreadStep (w : World σ) : Thread → Thread → World σ → Prop where
  | refuse {data : TData} : ThreadStep w (.watchTree data) .finished w
  | enter {data : TData} {path : Str} (named : data.path = some path) :
      ThreadStep w (.watchTree data) (.watchTreeRec data [.call path])
        { w with pool.inRootRewatch := data.cleanup || w.pool.inRootRewatch }
  | walk {data : TData} {frame : Frame} {rest stack : List Frame} {w' : World σ}
      (ran : doWatchTreeRec data rest frame w = .ok (stack, w')) :
      ThreadStep w (.watchTreeRec data (frame :: rest)) (.watchTreeRec data stack) w'
  | leave {data : TData} (flag : Bool) :
      ThreadStep w (.watchTreeRec data []) .finished { w with pool.inRootRewatch := flag }
  | free {root : RootRef} {tmp : Option Str}
      (made : tmp = none ∨ tmp = some (percentS (w.roots.heap root).path ++ str "/")) :
      ThreadStep w (.destroyRoot root) (.destroyKeys root tmp w.watches.inotifyPathToWatch.keys)
        { w with
          sys := (System.malloc w.sys).2
          roots := w.roots.setRoot root fun r => { r with queue := none } }
  | pass {root : RootRef} {below path : Str} {keys : List Str}
      (other : ¬below <+: path ∨ w.watches.inotifyPathToWatch.lookup path = none) :
      ThreadStep w (.destroyKeys root (some below) (path :: keys)) (.destroyKeys root (some below) keys) w
  | look {root : RootRef} {below path : Str} {keys : List Str} {watch : Watch} (inside : below <+: path)
      (found : w.watches.inotifyPathToWatch.lookup path = some watch) :
      ThreadStep w (.destroyKeys root (some below) (path :: keys)) (.destroyWatch root (some below) path watch keys) w
  | giveUp {root : RootRef} {tmp : Option Str} {path : Str} {watch : Watch} {keys : List Str} :
      ThreadStep w (.destroyWatch root tmp path watch keys) (.destroyEntry root tmp path watch keys)
        { w with sys := (System.inotifyRmWatch w.sys watch.wd).2 }
  | forget {root : RootRef} {tmp : Option Str} {path : Str} {watch : Watch} {keys : List Str} :
      ThreadStep w (.destroyEntry root tmp path watch keys) (.destroyKeys root tmp keys)
        { w with watches := w.watches.forget path watch.wd }
  | bare {root : RootRef} {tmp : Option Str} {path : Str} (named : (w.roots.heap root).path = some path)
      (absent : w.watches.inotifyPathToWatch.lookup path = none) :
      ThreadStep w (.destroyKeys root tmp []) .destroyDump { w with roots := w.roots.remove path }
  | finish {root : RootRef} {tmp : Option Str} {path : Str} {watch : Watch}
      (named : (w.roots.heap root).path = some path)
      (found : w.watches.inotifyPathToWatch.lookup path = some watch) :
      ThreadStep w (.destroyKeys root tmp []) .destroyDump
        { w with roots := w.roots.remove path, watches := w.watches.forget path watch.wd }
  | dump (text : Str) :
      ThreadStep w .destroyDump .finished { w with sys := (System.fopenDump w.sys).2, output.dumpFile := text }
  | memclean {thread next : Thread} {w' : World σ} (step : MemcleanStep w thread next w') : ThreadStep w thread next w'
  | rest : ThreadStep w .finished .finished w

theorem threadStep_cases {thread next : Thread} {w w' : World σ}
    (ran : threadStep thread w = .ok (next, w')) : ThreadStep w thread next w' := by
  cases thread with
  | watchTree data =>
    obtain ⟨rfl, rfl, _⟩ | ⟨_, _, named, _, _, _, rfl, rfl⟩ := doWatchTreeEnter_eq_ok ran
    · exact .refuse
    · exact .enter named
  | watchTreeRec data stack =>
    cases stack with
    | nil =>
      simp only [threadStep, doWatchTreeLeave, Program.ite_eq_ok, modifyPool_bind, Program.pure_eq_ok] at ran
      obtain ⟨_, rfl, rfl⟩ | ⟨_, rfl, rfl⟩ := ran
      · exact .leave false
      · exact .leave w'.pool.inRootRewatch
    | cons frame rest =>
      obtain ⟨stack, v, step, ran⟩ := Program.bind_eq_ok ran
      obtain ⟨rfl, rfl⟩ := Program.pure_eq_ok.mp ran
      exact .walk step
  | destroyRoot root =>
    obtain ⟨tmp, made, rfl, rfl⟩ := destroyRootStart_eq_ok ran
    exact .free made
  | destroyKeys root tmp keys =>
    cases keys with
    | nil =>
      obtain ⟨_, v, step, ran⟩ := Program.bind_eq_ok ran
      obtain ⟨rfl, rfl⟩ := Program.pure_eq_ok.mp ran
      obtain ⟨path, named, ⟨absent, rfl⟩ | ⟨watch, found, rfl⟩⟩ := destroyRootEnd_eq_ok step
      · exact .bare named absent
      · exact .finish named found
    | cons path keys =>
      obtain ⟨rfl, below, rfl, ⟨rfl, other⟩ | ⟨watch, inside, found, rfl⟩⟩ := destroyRootKey_eq_ok ran
      · exact .pass other
      · exact .look inside found
  | destroyWatch root tmp path watch keys =>
    simp only [threadStep, inotifyRmWatch_bind, Program.pure_eq_ok] at ran
    obtain ⟨rfl, rfl⟩ := ran
    exact .giveUp
  | destroyEntry root tmp path watch keys =>
    obtain ⟨_, v, step, ran⟩ := Program.bind_eq_ok ran
    obtain ⟨rfl, rfl⟩ := Program.pure_eq_ok.mp ran
    obtain rfl := destroyRootEntry_eq_ok step
    exact .forget
  | destroyDump =>
    simp only [threadStep, acquire_bind_eq_ok] at ran
    obtain ⟨free, ran⟩ := ran
    obtain ⟨_, v, dump, ran⟩ := Program.bind_eq_ok ran
    obtain ⟨text, rfl⟩ := dumpRootsSection_eq_ok dump
    simp only [release_bind, Program.pure_eq_ok] at ran
    obtain ⟨rfl, rfl⟩ := ran
    rw [Locks.unlock_set free]
    exact .dump text
  | finished =>
    obtain ⟨rfl, rfl⟩ := Program.pure_eq_ok.mp ran
    exact .rest
  | _ => exact .memclean (threadStep_memclean (by exact trivial) ran)

/-! ## All threads -/

inductive RootsEffect (thread : Thread) (before : RootTable) : RootTable → Prop where
  | same : RootsEffect thread before before
  | free (root : RootRef) (is : thread = .destroyRoot root) :
      RootsEffect thread before (before.setRoot root fun r => { r with queue := none })
  | remove (root : RootRef) (tmp : Option Str) (path : Str) (is : thread = .destroyKeys root tmp [])
      (named : (before.heap root).path = some path) : RootsEffect thread before (before.remove path)

/-- The entry a step removes, and how the thread came by it. -/
inductive Forgets (thread : Thread) (w : World σ) (path : Str) (watch : Watch) : Prop where
  | entry (root : RootRef) (tmp : Option Str) (keys : List Str)
      (is : thread = .destroyEntry root tmp path watch keys)
  | root (root : RootRef) (tmp : Option Str) (is : thread = .destroyKeys root tmp [])
      (named : (w.roots.heap root).path = some path)
      (found : w.watches.inotifyPathToWatch.lookup path = some watch)
  | memclean (keys : List Str) (is : thread = .memcleanPath path keys)
      (found : w.watches.inotifyPathToWatch.lookup path = some watch)

inductive WatchesEffect (thread : Thread) (w : World σ) : WatchTable → Prop where
  | same (skipped : Nat) :
      WatchesEffect thread w { w.watches with nextWatch := w.watches.nextWatch + skipped }
  | file (data : TData) (path : Str) (rest : List Frame)
      (is : thread = .watchTreeRec data (.call path :: rest))
      (files : Files w path data.root data.cleanup) :
      WatchesEffect thread w
        (({ w.watches with nextWatch := w.watches.nextWatch + 1 } : WatchTable).file data.root
          ⟨w.watches.nextWatch, answeredWd w path data.root, path⟩)
  | forget (path : Str) (watch : Watch) (how : Forgets thread w path watch) :
      WatchesEffect thread w (w.watches.forget path watch.wd)

/-- What a step leaves alone, and what it can do to the rest. -/
structure ThreadEffect (thread : Thread) (w w' : World σ) : Prop where
  locks : w'.locks = w.locks
  threads : w'.pool.threads = w.pool.threads
  schedule : w'.pool.schedule = w.pool.schedule
  socket : w'.socket = w.socket
  maxInotifyEvents : w'.maxInotifyEvents = w.maxInotifyEvents
  roots : RootsEffect thread w.roots w'.roots
  watches : WatchesEffect thread w w'.watches

namespace ThreadEffect

theorem quiet {thread : Thread} {w w' : World σ} (locks : w'.locks = w.locks)
    (threads : w'.pool.threads = w.pool.threads) (schedule : w'.pool.schedule = w.pool.schedule)
    (socket : w'.socket = w.socket)
    (maxInotifyEvents : w'.maxInotifyEvents = w.maxInotifyEvents) (roots : w'.roots = w.roots)
    (watches : w'.watches = w.watches) : ThreadEffect thread w w' :=
  ⟨locks, threads, schedule, socket, maxInotifyEvents, roots ▸ .same, watches ▸ .same 0⟩

theorem walk {data : TData} {frame : Frame} {rest next : List Frame} {w w' : World σ}
    (ran : doWatchTreeRec data rest frame w = .ok (next, w')) :
    ThreadEffect (.watchTreeRec data (frame :: rest)) w w' := by
  cases frame with
  | call path =>
    obtain ⟨went, section_, _⟩ := doWatchTreeRec_call ran
    obtain ⟨s, ⟨_, ⟨n, rfl⟩, _⟩ | ⟨_, files, rfl⟩⟩ := doWatchTreeSection_cases section_
    · exact ⟨rfl, rfl, rfl, rfl, rfl, .same, .same n⟩
    · exact ⟨rfl, rfl, rfl, rfl, rfl, .same, .file data path rest rfl files⟩
  | opened path =>
    obtain ⟨s, rfl⟩ := doWatchTreeRec_opened ran
    exact quiet rfl rfl rfl rfl rfl rfl rfl
  | reading path entries =>
    obtain ⟨s, rfl⟩ := doWatchTreeRec_reading ran
    exact quiet rfl rfl rfl rfl rfl rfl rfl

end ThreadEffect

theorem threadStep_effect {thread next : Thread} {w w' : World σ}
    (ran : threadStep thread w = .ok (next, w')) : ThreadEffect thread w w' := by
  cases threadStep_cases ran with
  | walk ran => exact .walk ran
  | free => exact ⟨rfl, rfl, rfl, rfl, rfl, .free _ rfl, .same 0⟩
  | forget => exact ⟨rfl, rfl, rfl, rfl, rfl, .same, .forget _ _ (.entry _ _ _ rfl)⟩
  | bare named absent => exact ⟨rfl, rfl, rfl, rfl, rfl, .remove _ _ _ rfl named, .same 0⟩
  | finish named found =>
    exact ⟨rfl, rfl, rfl, rfl, rfl, .remove _ _ _ rfl named, .forget _ _ (.root _ _ rfl named found)⟩
  | memclean step =>
    cases step with
    | remove found => exact ⟨rfl, rfl, rfl, rfl, rfl, .same, .forget _ _ (.memclean _ rfl found)⟩
    | _ => exact .quiet rfl rfl rfl rfl rfl rfl rfl
  | _ => exact .quiet rfl rfl rfl rfl rfl rfl rfl

end Inotispy
