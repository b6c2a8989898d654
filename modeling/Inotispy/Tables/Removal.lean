import Inotispy.Events.Naming
import Inotispy.Threads.Whole

/-! Removing a directory and all that lies below it from the two tables of watches.

It is done in two places: by the destroy thread of a root, one watch at a time, and in the
round for a directory that was moved away, in one critical section.
-/

set_option autoImplicit false

namespace Inotispy
open Library

variable {σ : Type} [System σ]

namespace WatchTable

def Inverse (watches : WatchTable) : Prop :=
  PairedTables.Inverse Watch.wd Watch.path watches.inotifyWdToWatch watches.inotifyPathToWatch

structure LosesExactly (gone : Str → Prop) [DecidablePred gone] (before after : WatchTable) : Prop where
  byPath : ∀ path, after.inotifyPathToWatch.lookup path =
    if gone path then none else before.inotifyPathToWatch.lookup path
  byWd : ∀ wd, after.inotifyWdToWatch.lookup wd =
    (before.inotifyWdToWatch.lookup wd).filter fun watch => ¬gone watch.path

theorem Inverse.forgetAll {watches : WatchTable} (inverse : watches.Inverse) (paths : List Str) :
    (watches.forgetAll paths).Inverse :=
  @forgetAll_keeps Inverse (fun _ _ _ inverse found => PairedTables.Inverse.erase inverse found) paths watches inverse

theorem forgetAll_append (watches : WatchTable) (paths more : List Str) :
    watches.forgetAll (paths ++ more) = (watches.forgetAll paths).forgetAll more := by
  induction paths generalizing watches with
  | nil => rfl
  | cons path paths ih =>
    simp only [List.cons_append, forgetAll]
    cases watches.inotifyPathToWatch.lookup path with
    | none => exact ih watches
    | some watch => exact ih _

theorem Inverse.forgetAll_losesExactly {watches : WatchTable} (inverse : watches.Inverse) {gone : Str → Prop}
    [DecidablePred gone] {paths : List Str}
    (listed : ∀ path watch, watches.inotifyPathToWatch.lookup path = some watch → (path ∈ paths ↔ gone path)) :
    LosesExactly gone watches (watches.forgetAll paths) where
  byPath path := by
    rw [lookupPath_forgetAll]
    cases found : watches.inotifyPathToWatch.lookup path with
    | none => simp
    | some watch => simp only [listed path watch found]
  byWd wd := by
    rw [lookupWd_forgetAll]
    cases found : watches.inotifyWdToWatch.lookup wd with
    | none => simp
    | some watch =>
      obtain ⟨known, same⟩ := (PairedTables.Inverse.lookup_iff inverse wd watch.path watch).mpr ⟨found, rfl⟩
      -- The entry found by its descriptor is the only one that a path in the list can lead to.
      have removed : (∃ p ∈ paths, ∃ v, watches.inotifyPathToWatch.lookup p = some v ∧ v.wd = wd) ↔
          gone watch.path := by
        rw [← listed watch.path watch known]
        constructor
        · rintro ⟨p, member, v, known', same'⟩
          obtain ⟨found', named⟩ := (PairedTables.Inverse.lookup_iff inverse wd p v).mp ⟨known', same'⟩
          rw [found] at found'
          cases found'
          exact named ▸ member
        · intro member
          exact ⟨watch.path, member, watch, known, same⟩
      simp only [removed, Option.filter_some]
      by_cases gone watch.path <;> simp [*]

end WatchTable

/-- A path and the paths that start with it and a slash. -/
def InSubtree (path other : Str) : Prop := other = path ∨ path ++ str "/" <+: other

instance (path : Str) : DecidablePred (InSubtree path) :=
  fun _ => inferInstanceAs (Decidable (_ ∨ _))

/-! ## The destroy thread -/

section
variable {w : World σ} {root : RootRef} (free : w.locks.held .inotify = false)
include free

/-- The loop over the snapshot of the keys: an undisturbed run forgets those below the root's path
and comes to the loop's end. -/
theorem destroyKeys_run (root : RootRef) (below : Str) (keys : List Str) :
    ∃ s, ∀ w', RunsAlone (.destroyKeys root (some below) keys) w w' ↔
      RunsAlone (.destroyKeys root (some below) [])
        { w with sys := s, watches := w.watches.forgetAll (keys.filter (below <+: ·)) } w' := by
  induction keys generalizing w with
  | nil => exact ⟨w.sys, fun w' => Iff.rfl⟩
  | cons key keys ih =>
    -- Two ways to leave the tables as they are: another prefix, or no entry any more.
    have skip (next : threadStep (.destroyKeys root (some below) (key :: keys)) w =
          .ok (.destroyKeys root (some below) keys, w))
        (same : w.watches.forgetAll ((key :: keys).filter (below <+: ·)) =
          w.watches.forgetAll (keys.filter (below <+: ·))) :
        ∃ s, ∀ w', RunsAlone (.destroyKeys root (some below) (key :: keys)) w w' ↔
          RunsAlone (.destroyKeys root (some below) [])
            { w with sys := s, watches := w.watches.forgetAll ((key :: keys).filter (below <+: ·)) } w' := by
      obtain ⟨s, run⟩ := ih free
      refine ⟨s, fun w' => ?_⟩
      rw [RunsAlone.step_iff (by simp) next, run w', same]
    by_cases inside : below <+: key
    · have looking : threadStep (.destroyKeys root (some below) (key :: keys)) w =
          .ok ((w.watches.inotifyPathToWatch.lookup key).elim (.destroyKeys root (some below) keys)
            (.destroyWatch root (some below) key · keys), w) := by
        simp only [threadStep, destroyRootKey, deref, Program.pure_bind_apply, Program.ite_apply,
          acquire_bind free, lookupPath_bind, release_bind, Locks.unlock_set free,
          (CString.strstr_eq_zero key below).mpr inside]
        cases w.watches.inotifyPathToWatch.lookup key <;> rfl
      have listed : (key :: keys).filter (below <+: ·) = key :: keys.filter (below <+: ·) :=
        List.filter_cons_of_pos (by simpa using inside)
      cases found : w.watches.inotifyPathToWatch.lookup key with
      | none =>
        rw [found, Option.elim_none] at looking
        refine skip looking ?_
        rw [listed, WatchTable.forgetAll, found]
      | some watch =>
        rw [found, Option.elim_some] at looking
        let v : World σ := { w with sys := (System.inotifyRmWatch w.sys watch.wd).2 }
        let u : World σ := { v with watches := w.watches.forget key watch.wd }
        have removing : threadStep (.destroyWatch root (some below) key watch keys) w =
            .ok (.destroyEntry root (some below) key watch keys, v) := rfl
        have forgetting : threadStep (.destroyEntry root (some below) key watch keys) v =
            .ok (.destroyKeys root (some below) keys, u) := by
          have free' : v.locks.held .inotify = false := free
          simp only [threadStep, destroyRootEntry, bind_assoc, acquire_bind free', modifyWatches_bind,
            release_bind, Locks.unlock_set free', Program.pure_apply]
          rfl
        obtain ⟨s, run⟩ := ih (w := u) free
        refine ⟨s, fun w' => ?_⟩
        rw [RunsAlone.step_iff (by simp) looking, RunsAlone.step_iff (by simp) removing,
          RunsAlone.step_iff (by simp) forgetting, run w', listed, WatchTable.forgetAll, found]
    · have passing : threadStep (.destroyKeys root (some below) (key :: keys)) w =
          .ok (.destroyKeys root (some below) keys, w) := by
        have first : CString.strstr key below ≠ some 0 := mt (CString.strstr_eq_zero key below).mp inside
        simp only [threadStep, destroyRootKey, deref, Program.pure_bind_apply, Program.ite_apply, first,
          ne_eq, not_false_eq_true, if_true, Program.pure_apply]
      refine skip passing ?_
      rw [List.filter_cons_of_neg (by simpa using inside)]

theorem destroyEnd_run {path : Str} (named : (w.roots.heap root).path = some path) (tmp : Option Str) :
    ∃ s text, ∀ w', RunsAlone (.destroyKeys root tmp []) w w' ↔
      w' = { w with
        sys := s
        roots := w.roots.remove path
        watches := w.watches.forgetAll [path]
        output.dumpFile := text } := by
  let v : World σ := { w with roots := w.roots.remove path, watches := w.watches.forgetAll [path] }
  have ending : threadStep (.destroyKeys root tmp []) w = .ok (.destroyDump, v) := by
    have named' : (w.roots.heap root).path.isSome := by simp [named]
    obtain ⟨⟨_, u⟩, ran⟩ := destroyRootEnd_returns free named'
    rw [threadStep, Program.bind_ok _ _ _ _ _ ran, Program.pure_apply]
    obtain ⟨_, is, how⟩ := destroyRootEnd_eq_ok ran
    rw [named] at is
    cases is
    obtain ⟨missing, rfl⟩ | ⟨watch, found, rfl⟩ := how
    · simp only [v, WatchTable.forgetAll, missing]
    · simp only [v, WatchTable.forgetAll, found]
  have free' : v.locks.held .inotify = false := free
  obtain ⟨⟨_, u⟩, dump⟩ := dumpRootsSection_returns (w := { v with locks := v.locks.set .inotify true })
  obtain ⟨text, rfl⟩ := dumpRootsSection_eq_ok dump
  have dumping : threadStep .destroyDump v =
      .ok (.finished, { v with sys := (System.fopenDump v.sys).2, output.dumpFile := text }) := by
    simp only [threadStep, acquire_bind free']
    rw [Program.bind_ok _ _ _ _ _ dump]
    simp only [release_bind, Locks.unlock_set free', Program.pure_apply]
  refine ⟨(System.fopenDump v.sys).2, text, fun w' => ?_⟩
  rw [RunsAlone.step_iff (by simp) ending, RunsAlone.step_iff (by simp) dumping, RunsAlone.finished_iff]

theorem destroyRoot_run (succeed : AllocationsSucceed σ) {path : Str}
    (named : (w.roots.heap root).path = some path) :
    ∃ s text, ∀ w', RunsAlone (.destroyRoot root) w w' ↔
      w' = { w with
        sys := s
        roots := (w.roots.setRoot root fun r => { r with queue := none }).remove path
        watches := w.watches.forgetAll
          (w.watches.inotifyPathToWatch.keys.filter (path ++ str "/" <+: ·) ++ [path])
        output.dumpFile := text } := by
  let v : World σ :=
    { w with
      sys := (System.malloc w.sys).2
      roots := w.roots.setRoot root fun r => { r with queue := none } }
  have starting : threadStep (.destroyRoot root) w =
      .ok (.destroyKeys root (some (path ++ str "/")) w.watches.inotifyPathToWatch.keys, v) := by
    simp only [threadStep, destroyRootStart, acquire_bind free, getRoot_bind, named, percentS,
      mkString_bind_allocated succeed, modifyRoots_bind, Program.read_bind_apply, release_bind,
      Locks.unlock_set free, Program.pure_apply]
    rfl
  obtain ⟨s, looping⟩ := destroyKeys_run (w := v) free root (path ++ str "/")
    w.watches.inotifyPathToWatch.keys
  have named' : (v.roots.heap root).path = some path := by simpa [v] using named
  obtain ⟨t, text, ending⟩ := destroyEnd_run (w := { v with
    sys := s
    watches := v.watches.forgetAll (w.watches.inotifyPathToWatch.keys.filter (path ++ str "/" <+: ·)) })
    free named' (some (path ++ str "/"))
  refine ⟨t, text, fun w' => ?_⟩
  rw [RunsAlone.step_iff (by simp) starting, looping w', ending w', WatchTable.forgetAll_append]

end

/-! ## The round for a directory that was moved away -/

/-- An event that says that a directory was moved out of a watched one, and that comes to the
bookkeeping for directories. -/
structure MovedAway (w : World σ) (event : InEvent) (path : Str) (root : RootRef) (name : Name) : Prop where
  target : eventTarget w event.wd = some (path, root)
  considered : ¬Overlooked w event
  isDir : hasBit event.mask inIsdir = true
  old : (hasBit event.mask inCreate || hasBit event.mask inMovedTo) = false
  moved : hasBit event.mask inMovedFrom = true
  named : event.name = name.text
  absolute : path.head? = some '/'

structure OthersKept (root : RootRef) (before after : RootTable) : Prop where
  heap : ∀ other ≠ root, after.heap other = before.heap other
  registered : ∀ path, ∀ other ≠ root,
    after.inotifyRoots.lookup path = some other ↔ before.inotifyRoots.lookup path = some other

omit [System σ] in
theorem mem_gonePaths_iff {event : InEvent} (moved : hasBit event.mask inMovedFrom = true) {watches : WatchTable}
    {gone path : Str} {watch : Watch} (found : watches.inotifyPathToWatch.lookup path = some watch) :
    path ∈ gonePaths event gone watches ↔ InSubtree gone path := by
  rw [gonePaths, if_pos moved, List.mem_cons, List.mem_filter, GHashTable.mem_keys_iff, InSubtree]
  by_cases same : path = gone
  · simp [same]
  · simp [same, AList.lookup_erase_ne, found]

section
variable {w : World σ} (succeed : AllocationsSucceed σ) (alone : w.pool.schedule = [])
  (free : w.locks.held .inotify = false) {event : InEvent} {path : Str} {root : RootRef} {name : Name}
  (away : MovedAway w event path root name)
include succeed alone free away

theorem movedAway_run :
    ∃ round w', inotifyHandleRecord event w = .ok (round, w') ∧ OthersKept root w.roots w'.roots ∧
      w'.watches = (match w.watches.inotifyPathToWatch.lookup (eventPath path event.name) with
        | none => w.watches
        | some _ => w.watches.forgetAll (gonePaths event (eventPath path event.name) w.watches)) := by
  obtain ⟨queued, v, round, w', effect, ran, _, watches, registered, queue, heap⟩ :=
    inotifyHandleRecord_directory succeed alone free away.target away.considered
  refine ⟨round, w', ran, ⟨fun other differs => ?_, fun _ _ _ => by rw [registered]⟩, watches.trans ?_⟩
  · rw [heap, Function.update_of_ne differs]
  -- The entry is removed from both tables only if its key starts with a slash, as it does.
  have absolute : (eventPath path event.name).head? = some '/' := by
    obtain ⟨tail, rfl⟩ := List.head?_eq_some_iff.mp away.absolute
    unfold eventPath
    split <;> rfl
  cases effect with
  | plain s ordinary =>
    have gone := (ordinary away.isDir).2
    rw [away.moved, Bool.or_true] at gone
    cases gone
  | notStarted s isDir new => rw [away.old] at new; cases new
  | started s t copy isDir new => rw [away.old] at new; cases new
  | unknown s isDir old gone missing => rw [missing]
  | gone s delete isDir old gone found =>
    rw [found]
    exact WatchTable.forgetGone_absolute absolute found

/-- The round removes the moved directory with all below it, unless it was moved out of "/". -/
theorem movedAway_loses_iff (inverse : w.watches.Inverse) :
    ∃ round w', inotifyHandleRecord event w = .ok (round, w') ∧ w'.watches.Inverse ∧
      OthersKept root w.roots w'.roots ∧
      (w.watches.inotifyPathToWatch.lookup (joined path name.text) ≠ none →
        (w.watches.LosesExactly (InSubtree (joined path name.text)) w'.watches ↔ path ≠ str "/")) := by
  obtain ⟨round, w', ran, others, watches⟩ := movedAway_run succeed alone free away
  refine ⟨round, w', ran, ?_, others, fun known => ?_⟩
  · rw [watches]
    cases w.watches.inotifyPathToWatch.lookup (eventPath path event.name) with
    | none => exact inverse
    | some delete => exact inverse.forgetAll _
  obtain ⟨watch, known⟩ := Option.ne_none_iff_exists'.mp known
  constructor
  · -- The entry that should go is neither that of the path looked up nor below it.
    rintro loses rfl
    have stays : w'.watches.inotifyPathToWatch.lookup (joined (str "/") name.text) = some watch := by
      rw [watches]
      cases found : w.watches.inotifyPathToWatch.lookup (eventPath (str "/") event.name) with
      | none => exact known
      | some delete =>
        simp only [WatchTable.lookupPath_forgetAll, mem_gonePaths_iff away.moved known]
        rw [if_neg, known]
        rintro (same | ⟨tail, below⟩)
        · have text : name.text = ['/'] := by
            rw [eventPath_top, joined, if_pos rfl] at same
            exact (List.cons.inj same).2
          exact name.noSlash (text ▸ List.mem_singleton_self '/')
        · have text : '/' :: '/' :: tail = name.text := by
            rw [eventPath_top, joined, if_pos rfl] at below
            exact (List.cons.inj below).2
          exact name.noSlash (text ▸ List.mem_cons_self)
    rw [loses.byPath, if_pos (.inl rfl)] at stays
    cases stays
  · intro below
    have same : eventPath path event.name = joined path name.text := away.named ▸ eventPath_of_ne below event.name
    rw [same, known] at watches
    rw [watches]
    exact inverse.forgetAll_losesExactly fun path watch found => mem_gonePaths_iff away.moved found

end

def watchingTwo (top first second : String) : World (Script true) :=
  { World.watching ⟨[]⟩ (str top) with
    watches := ((World.watching (⟨[]⟩ : Script true) (str top)).watches.file 0 ⟨1, 2, str first⟩).file 0
      ⟨2, 3, str second⟩ }

theorem watchingTwo_inverse (top first second : String) (different : [str top, str first, str second].Nodup) :
    (watchingTwo top first second).watches.Inverse := by
  simp only [List.nodup_cons, List.mem_cons, List.not_mem_nil, or_false, not_or] at different
  obtain ⟨⟨first', second'⟩, third, _⟩ := different
  have base : (World.watching (⟨[]⟩ : Script true) (str top)).watches.Inverse :=
    PairedTables.Inverse.insert .empty (⟨0, 1, str top⟩ : Watch) rfl rfl
  have one : ((World.watching (⟨[]⟩ : Script true) (str top)).watches.file 0 ⟨1, 2, str first⟩).Inverse := by
    apply PairedTables.Inverse.insert base ⟨1, 2, str first⟩ rfl
    simp [World.watching, GHashTable.lookup_singleton_if, Ne.symm first']
  apply PairedTables.Inverse.insert one ⟨2, 3, str second⟩ rfl
  simp [WatchTable.file, World.watching, GHashTable.lookup_singleton_if,
    Ne.symm second', Ne.symm third]

end Inotispy
