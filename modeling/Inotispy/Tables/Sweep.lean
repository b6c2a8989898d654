import Inotispy.Tables.Removal

/-! The memclean pass as a filter on the two tables of watches.

While the file system does not change, an undisturbed pass keeps just the entries whose
paths are directories, and asks the kernel to drop the descriptors of the others.
-/

set_option autoImplicit false

namespace Inotispy
open Library

variable {σ : Type} [System σ]

/-! ## A record of what the kernel is asked to drop -/

/-- An outside with a record of the descriptors it was asked to stop watching, oldest first. -/
structure Logged (σ : Type) where
  outside : σ
  removed : List Int

namespace Logged

/-- A question that goes to the outside behind the record. -/
def ask {σ A : Type} (question : σ → A × σ) (s : Logged σ) : A × Logged σ :=
  ((question s.outside).1, { s with outside := (question s.outside).2 })

instance : System (Logged σ) where
  malloc := ask System.malloc
  pthreadCreate := ask System.pthreadCreate
  opendir s path := ask (System.opendir · path) s
  readdir s path := ask (System.readdir · path) s
  lstat s path := ask (System.lstat · path) s
  statIsDir s path := ask (System.statIsDir · path) s
  inotifyAddWatch s path mask := ask (System.inotifyAddWatch · path mask) s
  inotifyRmWatch s wd :=
    let answer := System.inotifyRmWatch s.outside wd
    (answer.1, { outside := answer.2, removed := s.removed ++ [wd] })
  fopenDump := ask System.fopenDump
  getpid s := System.getpid s.outside
  uptime s := System.uptime s.outside
  jsonTokenerParse := System.jsonTokenerParse σ
  jsonObjectToJsonString := System.jsonObjectToJsonString σ

end Logged

/-! ## The pass -/

/-- The keys a pass acts on: those that look like a path, and that no directory has. -/
def isRogue (isDir : Str → Bool) (key : Str) : Bool := key.head? = some '/' && !isDir key

def WatchTable.descriptors (watches : WatchTable) (paths : List Str) : List Int :=
  paths.filterMap fun path => (watches.inotifyPathToWatch.lookup path).map Watch.wd

theorem WatchTable.descriptors_forget {watches : WatchTable} {path : Str} {wd : Int} {paths : List Str}
    (other : path ∉ paths) : (watches.forget path wd).descriptors paths = watches.descriptors paths := by
  apply List.filterMap_congr
  intro p member
  have differs : p ≠ path := fun same => other (same ▸ member)
  rw [forget, AList.lookup_erase_ne differs]

section
variable {isDir : Str → Bool} (static : ∀ (s : σ) path, (System.statIsDir s path).1 = isDir path)
include static

/-- The loop over the snapshot: an undisturbed run forgets the rogue keys and comes to the
loop's end. Each key is there once, so each descriptor is dropped once. -/
theorem memcleanKeys_run {keys : List Str} (once : keys.Nodup) {w : World (Logged σ)}
    (free : w.locks.held .inotify = false) :
    ∃ s : Logged σ, s.removed = w.sys.removed ++ w.watches.descriptors (keys.filter (isRogue isDir)) ∧
      ∀ w', RunsAlone (.memcleanKeys keys) w w' ↔
        RunsAlone (.memcleanKeys [])
          { w with sys := s, watches := w.watches.forgetAll (keys.filter (isRogue isDir)) } w' := by
  induction keys generalizing w with
  | nil => exact ⟨w.sys, (List.append_nil _).symm, fun w' => Iff.rfl⟩
  | cons key keys ih =>
    obtain ⟨first, once⟩ := List.nodup_cons.mp once
    by_cases slash : key.head? = some '/'
    · let v : World (Logged σ) := { w with sys := (System.statIsDir w.sys key).2 }
      have answer : (System.statIsDir w.sys key).1 = isDir key := static w.sys.outside key
      by_cases live : isDir key = true
      · -- A directory is passed over.
        have listed : (key :: keys).filter (isRogue isDir) = keys.filter (isRogue isDir) :=
          List.filter_cons_of_neg (by simp [isRogue, live])
        have passing : threadStep (.memcleanKeys (key :: keys)) w = .ok (.memcleanKeys keys, v) := by
          simp only [threadStep, Program.ite_apply, call_bind, slash, answer, live]
          rfl
        obtain ⟨s, removed, run⟩ := ih once (w := v) free
        refine ⟨s, by rw [removed, listed]; rfl, fun w' => ?_⟩
        rw [RunsAlone.step_iff (by simp) passing, run w', listed]
      · have rogue : isRogue isDir key = true := by simp [isRogue, slash, live]
        have listed : (key :: keys).filter (isRogue isDir) = key :: keys.filter (isRogue isDir) :=
          List.filter_cons_of_pos rogue
        have finding : threadStep (.memcleanKeys (key :: keys)) w = .ok (.memcleanPath key keys, v) := by
          simp only [threadStep, Program.ite_apply, call_bind, slash, answer, eq_false_of_ne_true live]
          rfl
        have free' : v.locks.held .inotify = false := free
        cases found : w.watches.inotifyPathToWatch.lookup key with
        | none =>
          have removing : threadStep (.memcleanPath key keys) v = .ok (.memcleanKeys keys, v) := by
            obtain ⟨⟨_, u⟩, ran⟩ := memcleanSection_returns free' key
            rw [threadStep, Program.bind_ok _ _ _ _ _ ran, Program.pure_apply]
            obtain ⟨_, rfl⟩ | ⟨watch, _, known, _⟩ := memcleanSection_eq_ok ran
            · rfl
            · rw [found] at known
              cases known
          obtain ⟨s, removed, run⟩ := ih once (w := v) free
          refine ⟨s, ?_, fun w' => ?_⟩
          · have none : w.watches.descriptors (key :: keys.filter (isRogue isDir)) =
                w.watches.descriptors (keys.filter (isRogue isDir)) := by simp [WatchTable.descriptors, found]
            rw [removed, listed, none]
            rfl
          · rw [RunsAlone.step_iff (by simp) finding, RunsAlone.step_iff (by simp) removing, run w', listed,
              WatchTable.forgetAll, found]
        | some watch =>
          let u : World (Logged σ) :=
            { v with
              sys := (System.inotifyRmWatch v.sys watch.wd).2
              watches := w.watches.forget key watch.wd }
          have removing : threadStep (.memcleanPath key keys) v = .ok (.memcleanKeys keys, u) := by
            simp only [threadStep, memcleanSection, bind_assoc, acquire_bind free', lookupPath_bind, v, found,
              inotifyRmWatch_bind, modifyWatches_bind, release_bind]
            rw [Locks.unlock_set free]
            rfl
          obtain ⟨s, removed, run⟩ := ih once (w := u) free
          refine ⟨s, ?_, fun w' => ?_⟩
          · have later : key ∉ keys.filter (isRogue isDir) := fun member => first (List.mem_of_mem_filter member)
            have one : w.watches.descriptors (key :: keys.filter (isRogue isDir)) =
                watch.wd :: w.watches.descriptors (keys.filter (isRogue isDir)) := by
              simp [WatchTable.descriptors, found]
            rw [removed, listed, one, WatchTable.descriptors_forget later]
            exact List.append_assoc _ [watch.wd] _
          · rw [RunsAlone.step_iff (by simp) finding, RunsAlone.step_iff (by simp) removing, run w', listed,
              WatchTable.forgetAll, found]
    · have listed : (key :: keys).filter (isRogue isDir) = keys.filter (isRogue isDir) :=
        List.filter_cons_of_neg (by simp [isRogue, slash])
      have passing : threadStep (.memcleanKeys (key :: keys)) w = .ok (.memcleanKeys keys, w) := by
        simp only [threadStep, Program.ite_apply, slash, ne_eq, not_false_eq_true, if_true, Program.pure_apply]
      obtain ⟨s, removed, run⟩ := ih once free
      refine ⟨s, by rw [removed, listed], fun w' => ?_⟩
      rw [RunsAlone.step_iff (by simp) passing, run w', listed]

theorem memclean_run {w : World (Logged σ)} (free : w.locks.held .inotify = false) :
    ∃ s : Logged σ,
      s.removed = w.sys.removed ++
        w.watches.descriptors (w.watches.inotifyPathToWatch.keys.filter (isRogue isDir)) ∧
      ∀ w', RunsAlone .memclean w w' ↔
        w' = { w with
          sys := s
          watches := w.watches.forgetAll (w.watches.inotifyPathToWatch.keys.filter (isRogue isDir))
          pool.inMemclean := false } := by
  let v : World (Logged σ) := { w with pool.inMemclean := true }
  have free' : v.locks.held .inotify = false := free
  have entering : threadStep .memclean w = .ok (.memcleanSnapshot, v) := rfl
  have listing : threadStep .memcleanSnapshot v = .ok (.memcleanKeys w.watches.inotifyPathToWatch.keys, v) := by
    simp only [threadStep, acquire_bind free', Program.read_bind_apply, release_bind, Locks.unlock_set free',
      Program.pure_apply]
    rfl
  obtain ⟨s, removed, looping⟩ := memcleanKeys_run static (AList.keys_nodup w.watches.inotifyPathToWatch) free'
  let u : World (Logged σ) :=
    { v with sys := s, watches := w.watches.forgetAll (w.watches.inotifyPathToWatch.keys.filter (isRogue isDir)) }
  have free'' : u.locks.held .inotify = false := free
  have leaving : threadStep (.memcleanKeys []) u = .ok (.finished, { u with pool.inMemclean := false }) := by
    simp only [threadStep, acquire_bind free'', modifyPool_bind, release_bind, Locks.unlock_set free'',
      Program.pure_apply]
  refine ⟨s, removed, fun w' => ?_⟩
  rw [RunsAlone.step_iff (by simp) entering, RunsAlone.step_iff (by simp) listing, looping w',
    RunsAlone.step_iff (by simp) leaving, RunsAlone.finished_iff]

omit [System σ] static in
theorem mem_rogue_iff {watches : WatchTable}
    (absolute : ∀ path watch, watches.inotifyPathToWatch.lookup path = some watch → path.head? = some '/')
    {path : Str} {watch : Watch} (found : watches.inotifyPathToWatch.lookup path = some watch) :
    path ∈ watches.inotifyPathToWatch.keys.filter (isRogue isDir) ↔ isDir path = false := by
  have member : path ∈ watches.inotifyPathToWatch.keys := (GHashTable.mem_keys_iff _ _).mpr ⟨watch, found⟩
  simp [isRogue, member, absolute path watch found]

omit [System σ] static in
theorem WatchTable.Inverse.rogue_descriptors {watches : WatchTable} (inverse : watches.Inverse)
    (absolute : ∀ path watch, watches.inotifyPathToWatch.lookup path = some watch → path.head? = some '/') :
    (watches.descriptors (watches.inotifyPathToWatch.keys.filter (isRogue isDir))).Nodup ∧
      ∀ wd, wd ∈ watches.descriptors (watches.inotifyPathToWatch.keys.filter (isRogue isDir)) ↔
        ∃ watch, watches.inotifyWdToWatch.lookup wd = some watch ∧ isDir watch.path = false := by
  constructor
  · apply List.Nodup.filterMap _ ((AList.keys_nodup watches.inotifyPathToWatch).filter _)
    intro path other wd first second
    obtain ⟨watch, found, rfl⟩ := Option.map_eq_some_iff.mp first
    obtain ⟨watch', found', same⟩ := Option.map_eq_some_iff.mp second
    exact inverse.anchored.wd_injective found found' same.symm
  · intro wd
    simp only [descriptors, List.mem_filterMap, Option.map_eq_some_iff]
    constructor
    · rintro ⟨path, member, watch, found, same⟩
      obtain ⟨atWd, named⟩ := (PairedTables.Inverse.lookup_iff inverse wd path watch).mp ⟨found, same⟩
      exact ⟨watch, atWd, named ▸ (mem_rogue_iff absolute found).mp member⟩
    · rintro ⟨watch, atWd, gone⟩
      obtain ⟨found, same⟩ := (PairedTables.Inverse.lookup_iff inverse wd watch.path watch).mpr ⟨atWd, rfl⟩
      exact ⟨watch.path, (mem_rogue_iff absolute found).mpr gone, watch, found, same⟩

/-- While the file system does not change, an undisturbed pass keeps exactly the entries whose
paths are directories, asks the kernel to drop exactly the descriptors of the others, each
once, and leaves the roots alone; and another pass changes nothing. -/
theorem memclean_filters {w : World (Logged σ)} (inverse : w.watches.Inverse)
    (absolute : ∀ path watch, w.watches.inotifyPathToWatch.lookup path = some watch → path.head? = some '/')
    (free : w.locks.held .inotify = false) :
    ∃ w', (∀ v, RunsAlone .memclean w v ↔ v = w') ∧
      w.watches.LosesExactly (isDir · = false) w'.watches ∧ w'.watches.Inverse ∧ w'.roots = w.roots ∧
      (∃ dropped, w'.sys.removed = w.sys.removed ++ dropped ∧ dropped.Nodup ∧
        ∀ wd, wd ∈ dropped ↔ ∃ watch, w.watches.inotifyWdToWatch.lookup wd = some watch ∧ isDir watch.path = false) ∧
      ∃ s : Logged σ, s.removed = w'.sys.removed ∧ ∀ v, RunsAlone .memclean w' v ↔ v = { w' with sys := s } := by
  obtain ⟨s, removed, run⟩ := memclean_run static free
  have loses : w.watches.LosesExactly (isDir · = false)
      (w.watches.forgetAll (w.watches.inotifyPathToWatch.keys.filter (isRogue isDir))) :=
    inverse.forgetAll_losesExactly fun path watch found => mem_rogue_iff absolute found
  refine ⟨_, run, loses, inverse.forgetAll _, rfl, ⟨_, removed, inverse.rogue_descriptors absolute⟩, ?_⟩
  -- No key is rogue after the pass.
  have clean : (w.watches.forgetAll (w.watches.inotifyPathToWatch.keys.filter (isRogue isDir))).inotifyPathToWatch.keys.filter
      (isRogue isDir) = [] := by
    apply List.filter_eq_nil_iff.mpr
    intro path member rogue
    obtain ⟨watch, found⟩ := (GHashTable.mem_keys_iff _ _).mp member
    rw [loses.byPath] at found
    split at found
    · cases found
    · simp only [isRogue, Bool.and_eq_true, Bool.not_eq_true'] at rogue
      exact ‹¬isDir path = false› rogue.2
  obtain ⟨t, again, rerun⟩ := memclean_run static (w := { w with
    sys := s
    watches := w.watches.forgetAll (w.watches.inotifyPathToWatch.keys.filter (isRogue isDir))
    pool.inMemclean := false }) free
  simp only [clean] at again rerun
  exact ⟨t, again.trans (List.append_nil _), rerun⟩

end

def OneGone : Type := Script true

instance : System OneGone :=
  { (inferInstance : System (Script true)) with statIsDir := fun s path => (path ≠ str "/r/a", s) }

/-- "/r" and two paths below it are watched; one of them is no directory, and its entry goes. -/
theorem gone_directory_swept :
    ∃ w w' : World (Logged OneGone), w.watches = (watchingTwo "/r" "/r/a" "/r/ab").watches ∧
      RunsAlone .memclean w w' ∧ w'.watches.inotifyPathToWatch.lookup (str "/r/a") = none ∧
      w'.watches.inotifyPathToWatch.lookup (str "/r/ab") = some ⟨2, 3, str "/r/ab"⟩ := by
  let start := watchingTwo "/r" "/r/a" "/r/ab"
  let w : World (Logged OneGone) := { start with sys := ⟨start.sys, []⟩ }
  have absolute : ∀ path watch, w.watches.inotifyPathToWatch.lookup path = some watch → path.head? = some '/' := by
    intro path watch found
    have member := (GHashTable.mem_keys_iff _ _).mpr ⟨watch, found⟩
    have keys : w.watches.inotifyPathToWatch.keys = [str "/r/ab", str "/r/a", str "/r"] := by decide
    rw [keys] at member
    have slashes : ∀ path ∈ [str "/r/ab", str "/r/a", str "/r"], path.head? = some '/' := by decide
    exact slashes path member
  have static : ∀ (s : OneGone) path, (System.statIsDir s path).1 = decide (path ≠ str "/r/a") := fun _ _ => rfl
  obtain ⟨w', run, loses, _⟩ := memclean_filters static
    (watchingTwo_inverse "/r" "/r/a" "/r/ab" (by decide)) absolute rfl
  exact ⟨w, w', rfl, (run w').mpr rfl, (loses.byPath _).trans (if_pos (by decide)),
    (loses.byPath _).trans (if_neg (by decide))⟩

end Inotispy
