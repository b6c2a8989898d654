import Inotispy.Disk.Walk
import Inotispy.Threads.Moves

/-! A memclean pass over a disk that does not change.

The pass takes out the entries of the paths that are no directories, each with its
descriptor, and tells the kernel to give these descriptors up.
-/

set_option autoImplicit false

namespace Inotispy
open Library

variable {σ Inode : Type}

/-- A kernel where `stat` finds the directories that open. -/
structure Platform (σ Inode : Type) [System σ] [DecidableEq Inode] extends Kernel σ Inode where
  statIsDir : ∀ s path, (System.statIsDir s path).1 = ((view s).directory path).isSome
  statIsDir_view : ∀ s path, view (System.statIsDir s path).2 = view s

theorem Outside.active_drop (outside : Outside Inode) (gone : Int) (inode : Inode) (wd : Int) :
    (outside.drop gone).active inode = some wd ↔ outside.active inode = some wd ∧ wd ≠ gone := by
  change (if outside.active inode = some gone then none else outside.active inode) = some wd ↔ _
  split
  · rename_i is
    simp [is, eq_comm]
  · rename_i other
    exact ⟨fun is => ⟨is, fun same => other (same ▸ is)⟩, And.left⟩

/-- Memclean takes the path for one of a directory that is gone. -/
def Outside.Vanished (disk : Outside Inode) (path : Str) : Prop :=
  path.head? = some '/' ∧ disk.directory path = none

def Abandoned (disk : Outside Inode) (watches : WatchTable) (paths : Str → Prop) (wd : Int) : Prop :=
  ∃ path watch, paths path ∧ disk.Vanished path ∧ watches.inotifyPathToWatch.lookup path = some watch ∧ watch.wd = wd

section
variable {disk : Outside Inode} {watches : WatchTable} {paths more : Str → Prop}

theorem Abandoned.mono {wd : Int} (abandoned : Abandoned disk watches paths wd) (within : ∀ path, paths path → more path) :
    Abandoned disk watches more wd := by
  obtain ⟨path, watch, among, gone, found, is⟩ := abandoned
  exact ⟨path, watch, within path among, gone, found, is⟩

end

/-- Memclean has dealt with some of the paths. It found the kernel's watches as in `disk`, which
otherwise stays as it is, and the tables as in `old`. -/
structure Cleaned [System σ] [DecidableEq Inode] (kernel : Kernel σ Inode) (disk : Outside Inode) (old : WatchTable)
    (roots : RootTable) (done : Str → Prop) (w : World σ) : Prop where
  same : Outside.SameDisk disk (kernel.view w.sys)
  roots : w.roots = roots
  byPath : ∀ path watch, w.watches.inotifyPathToWatch.lookup path = some watch ↔
    old.inotifyPathToWatch.lookup path = some watch ∧ ¬(done path ∧ disk.Vanished path)
  byWd : ∀ wd watch, w.watches.inotifyWdToWatch.lookup wd = some watch ↔
    old.inotifyWdToWatch.lookup wd = some watch ∧ ¬Abandoned disk old done wd
  active : ∀ inode wd, (kernel.view w.sys).active inode = some wd ↔
    disk.active inode = some wd ∧ ¬Abandoned disk old done wd
  issued : ∀ wd, disk.issued wd → (kernel.view w.sys).issued wd

namespace Cleaned

variable [System σ] [DecidableEq Inode] {kernel : Kernel σ Inode} {disk : Outside Inode} {old : WatchTable}
  {roots : RootTable} {done : Str → Prop} {w v : World σ}

theorem start (w : World σ) : Cleaned kernel (kernel.view w.sys) w.watches w.roots (fun _ => False) w := by
  have nothing (wd : Int) : ¬Abandoned (kernel.view w.sys) w.watches (fun _ => False) wd := by
    rintro ⟨_, _, ⟨⟩, _⟩
  exact
    { same := .refl _
      roots := rfl
      byPath := by simp
      byWd := by simp [nothing]
      active := by simp [nothing]
      issued := fun _ => id }

theorem quiet (cleaned : Cleaned kernel disk old roots done w) (view : kernel.view v.sys = kernel.view w.sys)
    (roots' : v.roots = w.roots) (watches : v.watches = w.watches) : Cleaned kernel disk old roots done v where
  same := view ▸ cleaned.same
  roots := roots'.trans cleaned.roots
  byPath := watches ▸ cleaned.byPath
  byWd := watches ▸ cleaned.byWd
  active := view ▸ cleaned.active
  issued := view ▸ cleaned.issued

theorem skip (cleaned : Cleaned kernel disk old roots done w) {path : Str}
    (kept : disk.Vanished path → w.watches.inotifyPathToWatch.lookup path = none) :
    Cleaned kernel disk old roots (fun other => done other ∨ other = path) w := by
  have before (gone : disk.Vanished path) : done path ∨ old.inotifyPathToWatch.lookup path = none := by
    cases found : old.inotifyPathToWatch.lookup path with
    | none => exact .inr rfl
    | some watch =>
      refine .inl (Classical.byContradiction fun early => ?_)
      have known := (cleaned.byPath path watch).mpr ⟨found, fun both => early both.1⟩
      rw [kept gone] at known
      cases known
  have abandons (wd : Int) :
      Abandoned disk old (fun other => done other ∨ other = path) wd ↔ Abandoned disk old done wd := by
    refine ⟨?_, fun abandoned => abandoned.mono fun _ => .inl⟩
    rintro ⟨other, watch, early | rfl, gone, found, is⟩
    · exact ⟨other, watch, early, gone, found, is⟩
    · rcases before gone with early | absent
      · exact ⟨other, watch, early, gone, found, is⟩
      · rw [absent] at found
        cases found
  refine { cleaned with byPath := fun other watch => ?_, byWd := ?_, active := ?_ }
  · rw [cleaned.byPath]
    refine and_congr_right fun found => not_congr (and_congr_left fun gone => ?_)
    refine ⟨.inl, fun dealt => dealt.elim id ?_⟩
    rintro rfl
    refine (before gone).resolve_right fun absent => ?_
    rw [found] at absent
    cases absent
  · simpa only [abandons] using cleaned.byWd
  · simpa only [abandons] using cleaned.active

theorem remove (cleaned : Cleaned kernel disk old roots done w) {path : Str} {watch : Watch}
    (gone : disk.Vanished path) (found : w.watches.inotifyPathToWatch.lookup path = some watch)
    (sys : v.sys = (System.inotifyRmWatch w.sys watch.wd).2) (roots' : v.roots = w.roots)
    (watches : v.watches = w.watches.forget path watch.wd) :
    Cleaned kernel disk old roots (fun other => done other ∨ other = path) v := by
  obtain ⟨before, _⟩ := (cleaned.byPath path watch).mp found
  have view : kernel.view v.sys = (kernel.view w.sys).drop watch.wd := by rw [sys, kernel.rmWatch]
  have abandons (wd : Int) : Abandoned disk old (fun other => done other ∨ other = path) wd ↔
      Abandoned disk old done wd ∨ wd = watch.wd := by
    constructor
    · rintro ⟨other, watch', early | rfl, gone, found, rfl⟩
      · exact .inl ⟨other, watch', early, gone, found, rfl⟩
      · rw [before] at found
        cases found
        exact .inr rfl
    · rintro (abandoned | rfl)
      · exact abandoned.mono fun _ => .inl
      · exact ⟨path, watch, .inr rfl, gone, before, rfl⟩
  refine
    { same := view ▸ cleaned.same.trans ⟨rfl, rfl, rfl⟩
      roots := roots'.trans cleaned.roots
      byPath := fun other watch' => ?_
      byWd := fun wd watch' => ?_
      active := fun inode wd => ?_
      issued := fun wd known => view ▸ cleaned.issued wd known }
  · rw [watches, WatchTable.forget, GHashTable.lookup_erase_if]
    by_cases is : other = path
    · subst is
      simp [gone]
    · simp [is, cleaned.byPath]
  · rw [watches, WatchTable.forget, GHashTable.lookup_erase_if, abandons]
    by_cases is : wd = watch.wd <;> simp [is, cleaned.byWd]
  · rw [view, Outside.active_drop, cleaned.active, abandons]
    tauto

end Cleaned
/-! ## One step -/

/-- How far a memclean thread has come. -/
def Thread.Sweeps (disk : Outside Inode) (old : WatchTable) (done : Str → Prop) : Thread → Prop
  | .memclean => True
  | .memcleanSnapshot => True
  | .memcleanKeys keys => ∀ path ∈ old.inotifyPathToWatch.keys, done path ∨ path ∈ keys
  | .memcleanPath path keys => disk.Vanished path ∧
      ∀ other ∈ old.inotifyPathToWatch.keys, done other ∨ other = path ∨ other ∈ keys
  | .finished => ∀ path ∈ old.inotifyPathToWatch.keys, done path
  | _ => False

section
variable [System σ] [DecidableEq Inode] {platform : Platform σ Inode} {disk : Outside Inode} {old : WatchTable}
  {roots : RootTable} {done : Str → Prop} {w v : World σ}

theorem sweep_step (cleaned : Cleaned platform.toKernel disk old roots done w) {thread next : Thread}
    (sweeps : thread.Sweeps disk old done) (ran : threadStep thread w = .ok (next, v)) :
    ∃ done', Cleaned platform.toKernel disk old roots done' v ∧ next.Sweeps disk old done' := by
  by_cases cleans : thread.Cleans
  swap
  · cases thread with
    | finished =>
      obtain ⟨rfl, rfl⟩ := Program.pure_eq_ok.mp ran
      exact ⟨done, cleaned, sweeps⟩
    | memclean => exact absurd trivial cleans
    | memcleanSnapshot => exact absurd trivial cleans
    | memcleanKeys keys => exact absurd trivial cleans
    | memcleanPath path keys => exact absurd trivial cleans
    | _ => exact sweeps.elim
  have isDir (path : Str) : (System.statIsDir w.sys path).1 = (disk.directory path).isSome := by
    rw [platform.statIsDir, cleaned.same.directory]
  have asked (path : Str) :
      Cleaned platform.toKernel disk old roots done { w with sys := (System.statIsDir w.sys path).2 } :=
    cleaned.quiet (platform.statIsDir_view w.sys path) rfl rfl
  -- The path at the head of the list has been dealt with.
  have onward {path : Str} {keys : List Str}
      (all : ∀ other ∈ old.inotifyPathToWatch.keys, done other ∨ other = path ∨ other ∈ keys) :
      Thread.Sweeps disk old (fun other => done other ∨ other = path) (.memcleanKeys keys) :=
    fun other member => or_assoc.mpr (all other member)
  cases threadStep_memclean cleans ran with
  | enter => exact ⟨done, cleaned.quiet rfl rfl rfl, trivial⟩
  | snapshot =>
    refine ⟨done, cleaned, fun path member => ?_⟩
    obtain ⟨watch, found⟩ := (GHashTable.mem_keys_iff _ _).mp member
    by_cases dealt : done path
    · exact .inl dealt
    · refine .inr ((GHashTable.mem_keys_iff _ _).mpr ⟨watch, ?_⟩)
      exact (cleaned.byPath path watch).mpr ⟨found, fun both => dealt both.1⟩
  | @garbage path keys relative =>
    refine ⟨_, cleaned.skip fun (gone : disk.Vanished path) => absurd gone.1 relative, onward fun other member => ?_⟩
    exact (sweeps other member).imp_right List.mem_cons.mp
  | @directory path keys absolute is =>
    refine ⟨_, (asked path).skip fun (gone : disk.Vanished path) => ?_, onward fun other member => ?_⟩
    · rw [isDir, gone.2] at is
      cases is
    · exact (sweeps other member).imp_right List.mem_cons.mp
  | suspect absolute is =>
    refine ⟨done, asked _, ⟨absolute, ?_⟩, fun other member => ?_⟩
    · rw [isDir] at is
      exact Option.not_isSome_iff_eq_none.mp (ne_true_of_eq_false is)
    · exact (sweeps other member).imp_right List.mem_cons.mp
  | absent absent => exact ⟨_, cleaned.skip fun _ => absent, onward sweeps.2⟩
  | remove found => exact ⟨_, cleaned.remove sweeps.1 found rfl rfl rfl, onward sweeps.2⟩
  | leave =>
    exact ⟨done, cleaned.quiet rfl rfl rfl, fun path member => (sweeps path member).resolve_right (List.not_mem_nil)⟩

/-! ## The pass -/

def Sweeping (kernel : Kernel σ Inode) (disk : Outside Inode) (old : WatchTable) (roots : RootTable) (w : World σ) : Prop :=
  ∃ before thread done, (∀ other ∈ before, other = .finished) ∧ w.pool.threads = before ++ [thread] ∧
    thread.Sweeps disk old done ∧ Cleaned kernel disk old roots done w

theorem Sweeping.turn (sweeping : Sweeping platform.toKernel disk old roots w) {index : Nat}
    (ran : runThread index w = .ok ((), v)) : Sweeping platform.toKernel disk old roots v := by
  obtain ⟨_, rfl⟩ | ⟨thread, next, u, found, stepped, after⟩ := runThread_eq_ok ran
  · exact sweeping
  have threads := (threadStep_effect stepped).threads
  obtain ⟨before, sweeper, done, idle, pool, sweeps, cleaned⟩ := sweeping
  have place := found
  rw [pool] at place
  by_cases early : index < before.length
  · rw [List.getElem?_append_left early] at place
    obtain rfl := idle thread (List.mem_of_getElem? place)
    rw [runThread_finished found] at ran
    cases ran
    exact ⟨before, sweeper, done, idle, pool, sweeps, cleaned⟩
  · rw [List.getElem?_append_right (Nat.le_of_not_lt early)] at place
    obtain ⟨at_end, is⟩ := List.getElem?_eq_some_iff.mp place
    rw [List.length_singleton] at at_end
    obtain rfl : index = before.length := by omega
    simp only [Nat.sub_self, List.getElem_cons_zero] at is
    subst is after
    obtain ⟨done', cleaned', sweeps'⟩ := sweep_step cleaned sweeps stepped
    refine ⟨before, next, done', idle, ?_, sweeps', cleaned'.quiet rfl rfl rfl⟩
    change u.pool.threads.set before.length next = _
    rw [threads, pool, List.set_append_right _ _ (Nat.le_refl _), Nat.sub_self, List.set_cons_zero]

theorem Sweeping.finish (sweeping : Sweeping platform.toKernel disk old roots w)
    (finished : ∀ thread ∈ w.pool.threads, thread = .finished) :
    Cleaned platform.toKernel disk old roots (fun _ => True) w := by
  obtain ⟨before, sweeper, done, idle, pool, sweeps, cleaned⟩ := sweeping
  obtain rfl := finished sweeper (by rw [pool]; exact List.mem_append_right _ (List.mem_singleton_self _))
  have all {path : Str} {watch : Watch} (found : old.inotifyPathToWatch.lookup path = some watch) : done path :=
    sweeps path ((GHashTable.mem_keys_iff _ _).mpr ⟨watch, found⟩)
  have abandons (wd : Int) : Abandoned disk old (fun _ => True) wd ↔ Abandoned disk old done wd := by
    refine ⟨?_, fun abandoned => abandoned.mono fun _ _ => trivial⟩
    rintro ⟨path, watch, _, gone, found, is⟩
    exact ⟨path, watch, all found, gone, found, is⟩
  refine { cleaned with byPath := fun path watch => ?_, byWd := ?_, active := ?_ }
  · rw [cleaned.byPath]
    exact and_congr_right fun found => not_congr (and_congr_left fun _ => ⟨fun _ => trivial, fun _ => all found⟩)
  · simpa only [abandons] using cleaned.byWd
  · simpa only [abandons] using cleaned.active

end
end Inotispy
