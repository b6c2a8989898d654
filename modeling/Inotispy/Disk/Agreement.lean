import Inotispy.Disk.Cleaning
import Inotispy.Disk.Repair
import Inotispy.Model.Script

/-! The periodic repair: one pass of memclean and one of `inotify_rewatch_roots`.

Memclean removes what is no directory any more. A cleanup walk adds the directories it
reaches through directories without an entry; below one that has its entry it does not look.
-/

set_option autoImplicit false

namespace Inotispy
open Library

variable {σ Inode : Type}

/-! ## Directories of the trees -/

def AtOrBelow (root path : Str) : Prop :=
  path = root ∨ (root = str "/" ∧ path.head? = some '/') ∨ root ++ str "/" <+: path

theorem AtOrBelow.child {root path : Str} (inside : AtOrBelow root path) (name : Str) :
    AtOrBelow root (childPath path name) := by
  unfold childPath
  split
  · next top =>
    subst top
    obtain rfl | ⟨rfl, _⟩ | below := inside
    · exact .inr (.inl ⟨rfl, rfl⟩)
    · exact .inr (.inl ⟨rfl, rfl⟩)
    · exact .inr (.inr (below.trans (List.prefix_append _ _)))
  · next other =>
    obtain rfl | ⟨rfl, absolute⟩ | below := inside
    · exact .inr (.inr (List.prefix_append _ _))
    · refine .inr (.inl ⟨rfl, ?_⟩)
      rw [List.append_assoc, List.head?_append_of_ne_nil _ (by rintro rfl; cases absolute)]
      exact absolute
    · exact .inr (.inr (below.trans (by rw [List.append_assoc]; exact List.prefix_append _ _)))

theorem Outside.Walks.atOrBelow {disk : Outside Inode} {top path : Str} (reached : disk.Walks top path) :
    AtOrBelow top path := by
  induction reached with
  | top => exact .inl rfl
  | kid _ next _ ih =>
    obtain ⟨dir, _, _, _, rfl⟩ := next
    exact ih.child dir.name

theorem Outside.Eligible.not_vanished {disk : Outside Inode} {path : Str} (eligible : disk.Eligible path) :
    ¬disk.Vanished path := by
  rintro ⟨_, gone⟩
  have opens := eligible.opens
  rw [gone] at opens
  cases opens

theorem Outside.InTrees.eligible {disk : Outside Inode} {tops : Str → Prop} {path : Str} (inTrees : disk.InTrees tops path) :
    disk.Eligible path := by
  obtain ⟨top, _, reached⟩ := inTrees
  exact reached.eligible

theorem Exposed.congr {disk : Outside Inode} {marked other tops : Str → Prop} {path : Str}
    (exposed : Exposed disk marked tops path) (less : ∀ dir, disk.Eligible dir → other dir → marked dir) :
    Exposed disk other tops path := by
  obtain ⟨top, is, reached⟩ := exposed
  refine ⟨top, is, ?_⟩
  induction reached with
  | top fits => exact .top ⟨fits.1, fun early => fits.2 (less _ fits.1 early)⟩
  | kid _ next fits ih => exact .kid ih next ⟨fits.1, fun early => fits.2 (less _ fits.1 early)⟩

namespace Outside.SameDisk

variable {before after : Outside Inode} (same : SameDisk before after)
include same

theorem kid : after.Kid = before.Kid := by
  unfold Kid KidIn
  rw [same.isDir, same.entries]

theorem inTrees : after.InTrees = before.InTrees := by
  unfold InTrees
  rw [same.walks]

theorem vanished : after.Vanished = before.Vanished := by
  unfold Vanished
  rw [same.directory]

theorem exposed : Exposed after = Exposed before := by
  have eligible : after.Eligible = before.Eligible := funext fun path => propext (same.eligible path)
  unfold Exposed
  rw [same.kid, eligible]

end Outside.SameDisk

/-! ## The two passes -/

variable [System σ]

def AllFinished (w : World σ) : Prop := ∀ thread ∈ w.pool.threads, thread = .finished

/-- `inotify_memclean` is called where none is at work, and its thread runs to its end. -/
def MemcleanPass (w w' : World σ) : Prop :=
  w.pool.inMemclean = false ∧ ∃ v, inotifyMemclean w = .ok ((), v) ∧ Turns v w' ∧ AllFinished w'

/-- `inotify_rewatch_roots` is called where none is at work, and its walkers run to their end. -/
def RewatchPass (w w' : World σ) : Prop :=
  w.pool.inRootRewatch = false ∧ ∃ v, inotifyRewatchRoots w = .ok ((), v) ∧ Turns v w' ∧ AllFinished w'

def rewatcher (w : World σ) (root : RootRef) : Thread := .watchTree ⟨some (percentS (w.roots.heap root).path), root, true⟩

theorem doWatchTree_dying {w : World σ} {root : RootRef} (dying : (w.roots.heap root).destroy = true)
    (path : Option Str) (cleanup : Bool) :
    doWatchTree path root cleanup w = .ok (some .inotifyRootDoesNotExist, w) := by
  simp only [doWatchTree, getRoot_bind, Program.ite_apply, dying, if_true, Program.pure_apply]

section
variable [DecidableEq Inode] {kernel : Kernel σ Inode} (succeed : AllocationsSucceed σ)
  (starts : ∀ s : σ, (System.pthreadCreate s).1 = true)
include succeed starts

theorem doWatchTree_starts {w : World σ} {root : RootRef} (live : (w.roots.heap root).destroy = false)
    (path : Option Str) (cleanup : Bool) :
    ∃ s, kernel.view s = kernel.view w.sys ∧ doWatchTree path root cleanup w = .ok (none,
      { w with
        sys := s
        pool.threads := w.pool.threads ++ [.watchTree ⟨some (percentS path), root, cleanup⟩] }) := by
  refine ⟨(System.pthreadCreate (System.malloc (System.malloc w.sys).2).2).2, ?_, ?_⟩
  · rw [kernel.pthreadCreate, kernel.malloc, kernel.malloc]
  · simp only [doWatchTree, getRoot_bind, Program.ite_apply, live, malloc_bind, succeed _, mkString_bind, spawn_bind,
      starts _, if_true, Bool.not_true, Bool.false_eq_true, if_false, Program.pure_apply]

theorem rewatchers_start (roots : List RootRef) (w : World σ) :
    ∃ s, kernel.view s = kernel.view w.sys ∧
      Program.forEach (fun root => do
        let _ ← doWatchTree (← getRoot root).path root true
        return ()) roots w = .ok ((),
          { w with
            sys := s
            pool.threads := w.pool.threads ++
              (roots.filter fun root => !(w.roots.heap root).destroy).map (rewatcher w) }) := by
  induction roots generalizing w with
  | nil => exact ⟨w.sys, rfl, by simp [Program.forEach]⟩
  | cons root roots ih =>
    rw [Program.forEach]
    by_cases dying : (w.roots.heap root).destroy = true
    · obtain ⟨s, view, ran⟩ := ih w
      refine ⟨s, view, (Program.bind_ok _ _ _ _ () ?_).trans (ran.trans ?_)⟩
      · rw [getRoot_bind, Program.bind_ok _ _ _ _ _ (doWatchTree_dying dying _ true)]
        rfl
      · simp [dying]
    · have live : (w.roots.heap root).destroy = false := eq_false_of_ne_true dying
      obtain ⟨t, before, started⟩ : ∃ t, kernel.view t = kernel.view w.sys ∧ _ :=
        doWatchTree_starts succeed starts live (w.roots.heap root).path true
      obtain ⟨s, view, ran⟩ := ih { w with sys := t, pool.threads := w.pool.threads ++ [rewatcher w root] }
      refine ⟨s, view.trans before, (Program.bind_ok _ _ _ _ () ?_).trans (ran.trans ?_)⟩
      · rw [getRoot_bind, Program.bind_ok _ _ _ _ _ started]
        rfl
      · simp [live, rewatcher]

end

theorem inotifyRewatchRoots_idle {w w' : World σ} (idle : AllFinished w) (free : w.pool.inRootRewatch = false)
    (ran : inotifyRewatchRoots w = .ok ((), w')) :
    ∃ later, Program.forEach (fun root => do
      let _ ← doWatchTree (← getRoot root).path root true
      return ()) w.roots.inotifyRoots.values { w with pool.schedule := later } = .ok ((), w') := by
  simp only [inotifyRewatchRoots, Program.read_bind_apply, free, Bool.false_eq_true, if_false, lock, unlock,
    bind_assoc] at ran
  obtain ⟨before, yielded⟩ := yieldMain_idle idle
  rw [Program.bind_ok _ _ _ _ _ yielded, acquire_bind_eq_ok] at ran
  obtain ⟨unheld, ran⟩ := ran
  simp only [Program.read_bind_apply, release_bind, Locks.unlock_set unheld] at ran
  have idle' : AllFinished ({ w with pool.schedule := before } : World σ) := idle
  obtain ⟨after, yielded⟩ := yieldMain_idle idle'
  rw [Program.bind_ok _ _ _ _ _ yielded] at ran
  exact ⟨after, ran⟩

section
variable [DecidableEq Inode] {w w' : World σ}

/-- What a pass of the walkers comes to. -/
theorem RewatchPass.repairs {kernel : Kernel σ Inode} (pass : RewatchPass w w') (succeed : AllocationsSucceed σ)
    (starts : ∀ s : σ, (System.pthreadCreate s).1 = true) (idle : AllFinished w) (registered : Registered w.roots)
    (issued : Issued (kernel.view w.sys) w.watches) (distinct : (kernel.view w.sys).DistinctTrees (LiveRoot w.roots)) :
    Repairing kernel (kernel.view w.sys) w.watches w.roots w' := by
  obtain ⟨free, v, called, turns, _⟩ := pass
  obtain ⟨later, ran⟩ := inotifyRewatchRoots_idle idle free called
  obtain ⟨s, view, started⟩ : ∃ s, kernel.view s = kernel.view w.sys ∧ _ :=
    rewatchers_start succeed starts w.roots.inotifyRoots.values { w with pool.schedule := later }
  rw [started] at ran
  cases ran
  have whole : Thread.Repairs (kernel.view w.sys) (Stops (kernel.view w.sys) w.watches) (LiveRoot w.roots) w.roots
      .finished := trivial
  refine Repairing.run succeed distinct turns
    { same := view ▸ .refl _
      issued := by rw [view]; exact issued
      roots := rfl
      started := ?_
      frontier := fun top is => ⟨fun _ => .inr ?_, ?_⟩
      kept := by
        rw [view]
        exact fun _ => id
      keysKept := fun _ => id
      keysOnly := fun _ => .inl
      entered := by
        rintro path exposed stops
        rw [view] at stops
        exact absurd stops exposed.unmarked.2 }
  · intro thread member
    rcases List.mem_append.mp member with old | new
    · rw [idle thread old]
      exact whole
    · obtain ⟨root, listed, rfl⟩ := List.mem_map.mp new
      obtain ⟨listed, live⟩ := List.mem_filter.mp listed
      obtain ⟨key, found⟩ := (GHashTable.mem_values_iff _ _).mp listed
      have named : (w.roots.heap root).path = some key := registered.named key root found
      have live : (w.roots.heap root).destroy = false := by simpa using live
      exact ⟨rfl, live, key, congrArg (fun path => some (percentS path)) named, named, root, found, live⟩
  · obtain ⟨root, found, live⟩ := is
    have listed : root ∈ w.roots.inotifyRoots.values := (GHashTable.mem_values_iff _ _).mpr ⟨top, found⟩
    refine ⟨rewatcher w root, List.mem_append_right _ (List.mem_map_of_mem (List.mem_filter.mpr ⟨listed, ?_⟩)), ?_⟩
    · simp [live]
    · exact congrArg (fun path => some (percentS path)) (registered.named top root found)
  · rintro parent child reached marked _ _
    rw [view] at marked
    exact absurd marked reached.eligible.2

/-- What a pass of memclean comes to. -/
theorem MemcleanPass.cleans {platform : Platform σ Inode} (pass : MemcleanPass w w')
    (starts : ∀ s : σ, (System.pthreadCreate s).1 = true) (idle : AllFinished w) :
    Cleaned platform.toKernel (platform.view w.sys) w.watches w.roots (fun _ => True) w' := by
  obtain ⟨free, v, called, turns, finished⟩ := pass
  simp only [inotifyMemclean, Program.read_bind_apply, Program.ite_eq_ok, spawn_bind, starts _, if_true,
    Program.pure_eq_ok] at called
  obtain ⟨busy, _⟩ | ⟨_, _, rfl⟩ := called
  · rw [free] at busy
    cases busy
  have start : Sweeping platform.toKernel (platform.view w.sys) w.watches w.roots
      { w with sys := (System.pthreadCreate w.sys).2, pool.threads := w.pool.threads ++ [.memclean] } :=
    ⟨w.pool.threads, .memclean, fun _ => False, idle, rfl, trivial,
      (Cleaned.start w).quiet (platform.pthreadCreate w.sys) rfl rfl⟩
  refine Sweeping.finish ?_ finished
  clear finished
  induction turns with
  | refl => exact start
  | tail _ step ih =>
    obtain ⟨index, ran⟩ := step
    exact ih.turn ran

end

/-! ## Agreement -/

/-- At and below every root the keys are the directories of the trees. -/
def Agrees [DecidableEq Inode] (kernel : Kernel σ Inode) (w : World σ) : Prop :=
  ∀ top, LiveRoot w.roots top → ∀ path, AtOrBelow top path →
    ((w.watches.inotifyPathToWatch.lookup path).isSome ↔ (kernel.view w.sys).InTrees (LiveRoot w.roots) path)

/-- A repair brings agreement about: memclean removes every entry there that belongs to no
directory of the trees, and the walkers get to every directory that has none. -/
structure Mendable (disk : Outside Inode) (stops : Str → Prop) (w : World σ) : Prop where
  listed : ∀ top, LiveRoot w.roots top → ∀ path, AtOrBelow top path →
    (w.watches.inotifyPathToWatch.lookup path).isSome → ¬disk.Vanished path → disk.InTrees (LiveRoot w.roots) path
  reached : ∀ path, disk.InTrees (LiveRoot w.roots) path →
    (w.watches.inotifyPathToWatch.lookup path).isSome ∨ Exposed disk stops (LiveRoot w.roots) path

/-- As `Stops`, when memclean has given up the descriptors of the vanished paths. -/
def StopsCleaned (disk : Outside Inode) (watches : WatchTable) (path : Str) : Prop :=
  (watches.inotifyPathToWatch.lookup path).isSome ∨
    ∃ inode wd, disk.directory path = some inode ∧ disk.active inode = some wd ∧
      (watches.inotifyWdToWatch.lookup wd).isSome ∧ ¬Abandoned disk watches (fun _ => True) wd

section
variable [DecidableEq Inode] {kernel : Kernel σ Inode} {disk : Outside Inode} {stops : Str → Prop} {w w' : World σ}

theorem agrees_iff (same : Outside.SameDisk disk (kernel.view w'.sys)) (roots : w'.roots = w.roots)
    (keys : ∀ path, (w'.watches.inotifyPathToWatch.lookup path).isSome ↔
      (w.watches.inotifyPathToWatch.lookup path).isSome ∧ ¬disk.Vanished path ∨
        Exposed disk stops (LiveRoot w.roots) path) :
    Agrees kernel w' ↔ Mendable disk stops w := by
  unfold Agrees
  rw [same.inTrees, roots]
  constructor
  · intro agrees
    constructor
    · exact fun top live path inside known stays => (agrees top live path inside).mp ((keys path).mpr (.inl ⟨known, stays⟩))
    · intro path inTrees
      obtain ⟨top, live, reached⟩ := inTrees
      have known := (agrees top live path reached.atOrBelow).mpr ⟨top, live, reached⟩
      exact ((keys path).mp known).imp_left And.left
  · intro mendable top live path inside
    rw [keys]
    constructor
    · rintro (⟨known, stays⟩ | exposed)
      · exact mendable.listed top live path inside known stays
      · exact exposed.walks
    · intro inTrees
      exact (mendable.reached path inTrees).imp_left fun known => ⟨known, inTrees.eligible.not_vanished⟩

end

section
variable [DecidableEq Inode] {platform : Platform σ Inode} {w : World σ}

theorem Cleaned.key_iff {kernel : Kernel σ Inode} {disk : Outside Inode} {old : WatchTable} {roots : RootTable}
    (cleaned : Cleaned kernel disk old roots (fun _ => True) w) (path : Str) :
    (w.watches.inotifyPathToWatch.lookup path).isSome ↔
      (old.inotifyPathToWatch.lookup path).isSome ∧ ¬disk.Vanished path := by
  simp only [Option.isSome_iff_exists, cleaned.byPath, true_and, exists_and_right]

theorem Cleaned.stops_iff {kernel : Kernel σ Inode} {disk : Outside Inode} {old : WatchTable} {roots : RootTable}
    (cleaned : Cleaned kernel disk old roots (fun _ => True) w) {path : Str} (eligible : disk.Eligible path) :
    Stops (kernel.view w.sys) w.watches path ↔ StopsCleaned disk old path := by
  have stays := eligible.not_vanished
  unfold Stops StopsCleaned Watched
  rw [cleaned.key_iff, cleaned.same.directory]
  simp only [Option.isSome_iff_exists, cleaned.byWd, cleaned.active]
  constructor
  · rintro (⟨known, _⟩ | ⟨inode, wd, directory, ⟨active, kept⟩, watch, found, _⟩)
    · exact .inl known
    · exact .inr ⟨inode, wd, directory, active, ⟨watch, found⟩, kept⟩
  · rintro (known | ⟨inode, wd, directory, active, ⟨watch, found⟩, kept⟩)
    · exact .inl ⟨known, stays⟩
    · exact .inr ⟨inode, wd, directory, ⟨active, kept⟩, watch, found, kept⟩

theorem Cleaned.issued_kept {kernel : Kernel σ Inode} {disk : Outside Inode} {old : WatchTable} {roots : RootTable}
    {done : Str → Prop} (cleaned : Cleaned kernel disk old roots done w) (issued : Issued disk old) :
    Issued (kernel.view w.sys) w.watches :=
  fun wd watch found => cleaned.issued wd (issued wd watch ((cleaned.byWd wd watch).mp found).1)

end

section
variable [DecidableEq Inode] {platform : Platform σ Inode} {w u w' : World σ} (succeed : AllocationsSucceed σ)
  (starts : ∀ s : σ, (System.pthreadCreate s).1 = true) (idle : AllFinished w) (registered : Registered w.roots)
  (issued : Issued (platform.view w.sys) w.watches)
  (distinct : (platform.view w.sys).DistinctTrees (LiveRoot w.roots))
include succeed starts idle registered issued distinct

theorem agrees_of_rewatch_memclean (rewatch : RewatchPass w u) (memclean : MemcleanPass u w') :
    Agrees platform.toKernel w' ↔ Mendable (platform.view w.sys) (Stops (platform.view w.sys) w.watches) w := by
  have repaired : Repairing platform.toKernel _ _ _ u := rewatch.repairs succeed starts idle registered issued distinct
  obtain ⟨_, _, _, _, finished⟩ := rewatch
  have cleaned : Cleaned platform.toKernel _ _ _ _ w' := memclean.cleans starts finished
  refine agrees_iff (repaired.same.trans cleaned.same) (cleaned.roots.trans repaired.roots) fun path => ?_
  rw [cleaned.key_iff, repaired.keys_iff finished, repaired.same.vanished, or_and_right]
  exact or_congr_right (and_iff_left_of_imp fun exposed => exposed.unmarked.1.not_vanished)

theorem agrees_of_memclean_rewatch (memclean : MemcleanPass w u) (rewatch : RewatchPass u w') :
    Agrees platform.toKernel w' ↔
      Mendable (platform.view w.sys) (StopsCleaned (platform.view w.sys) w.watches) w := by
  have cleaned : Cleaned platform.toKernel _ _ _ _ u := memclean.cleans starts idle
  obtain ⟨_, _, _, _, finished⟩ := memclean
  have repaired : Repairing platform.toKernel (platform.view u.sys) u.watches u.roots w' := by
    refine rewatch.repairs succeed starts finished (cleaned.roots ▸ registered) (cleaned.issued_kept issued) ?_
    unfold Outside.DistinctTrees
    rw [cleaned.same.inTrees, cleaned.same.directory, cleaned.roots]
    exact distinct
  obtain ⟨_, _, _, _, ended⟩ := rewatch
  refine agrees_iff (cleaned.same.trans repaired.same) (repaired.roots.trans cleaned.roots) fun path => ?_
  rw [repaired.keys_iff ended, cleaned.key_iff, cleaned.same.exposed, cleaned.roots]
  refine or_congr_right ⟨fun exposed => exposed.congr ?_, fun exposed => exposed.congr ?_⟩
  · exact fun dir eligible => (cleaned.stops_iff eligible).mpr
  · exact fun dir eligible => (cleaned.stops_iff eligible).mp

end

/-- After both passes, in either order, the tables agree with the disk exactly if every
directory without an entry is reached through directories that do not stop a walker, and every
entry that memclean spares belongs to a directory of the trees. -/
theorem passes_restore_agreement_iff [DecidableEq Inode] {platform : Platform σ Inode} {w : World σ}
    (succeed : AllocationsSucceed σ) (starts : ∀ s : σ, (System.pthreadCreate s).1 = true) (idle : AllFinished w)
    (registered : Registered w.roots) (issued : Issued (platform.view w.sys) w.watches)
    (distinct : (platform.view w.sys).DistinctTrees (LiveRoot w.roots)) :
    (∀ u w', RewatchPass w u → MemcleanPass u w' →
      (Agrees platform.toKernel w' ↔
        Mendable (platform.view w.sys) (Stops (platform.view w.sys) w.watches) w)) ∧
    ∀ u w', MemcleanPass w u → RewatchPass u w' →
      (Agrees platform.toKernel w' ↔
        Mendable (platform.view w.sys) (StopsCleaned (platform.view w.sys) w.watches) w) :=
  ⟨fun _ _ => agrees_of_rewatch_memclean succeed starts idle registered issued distinct,
    fun _ _ => agrees_of_memclean_rewatch succeed starts idle registered issued distinct⟩

/-! ## On a computed kernel -/

namespace Simulated

def platform : Platform Simulated Nat where
  toKernel := kernel
  statIsDir _ _ := rfl
  statIsDir_view _ _ := rfl

theorem nested_directory {path : Str} : (nested.outside.directory path).isSome ↔ path = str "/r" ∨ path = str "/r/a" := by
  simp only [nested]
  split_ifs <;> simp [*]

theorem nested_distinct {tops : Str → Prop} {disk : Outside Nat} (same : Outside.SameDisk nested.outside disk) :
    disk.DistinctTrees tops := by
  intro first second inTrees inTrees' is
  have opens := inTrees.eligible.opens
  have opens' := inTrees'.eligible.opens
  rw [same.directory] at opens opens' is
  rcases nested_directory.mp opens with rfl | rfl <;> rcases nested_directory.mp opens' with rfl | rfl <;>
    first | rfl | exact absurd is (by decide)

end Simulated

/-- A pass of the walkers and one of memclean, with the pool as it is between them. -/
def rewatchThenMemclean (walkers cleaner : List Nat) : M Simulated Pool := do
  inotifyRewatchRoots
  Program.forEach runThread walkers
  let between ← Program.read (·.pool)
  inotifyMemclean
  Program.forEach runThread cleaner
  return between

theorem passes_of_run {walkers cleaner : List Nat} {between : Pool} {w w' : World Simulated}
    (ran : rewatchThenMemclean walkers cleaner w = .ok (between, w')) (free : w.pool.inRootRewatch = false)
    (finished : (∀ thread ∈ between.threads, thread = .finished) ∧ between.inMemclean = false) (ended : AllFinished w') :
    ∃ u, RewatchPass w u ∧ MemcleanPass u w' := by
  obtain ⟨_, v, rewatch, ran⟩ := Program.bind_eq_ok ran
  obtain ⟨_, u, walk, ran⟩ := Program.bind_eq_ok ran
  rw [Program.read_bind_apply] at ran
  obtain ⟨_, x, memclean, ran⟩ := Program.bind_eq_ok ran
  obtain ⟨_, y, clean, ran⟩ := Program.bind_eq_ok ran
  obtain ⟨rfl, rfl⟩ := Program.pure_eq_ok.mp ran
  exact ⟨u, ⟨free, v, rewatch, .of_forEach walk, finished.1⟩, finished.2, x, memclean, .of_forEach clean, ended⟩

omit [System σ] in
theorem World.watching_lookup (sys : σ) (root path : Str) :
    (World.watching sys root).roots.inotifyRoots.lookup path = if path = root then some 0 else none :=
  GHashTable.lookup_singleton_if root path 0

omit [System σ] in
theorem World.watching_finished (sys : σ) (root : Str) : AllFinished (World.watching sys root) := fun _ member => by cases member

omit [System σ] in
theorem World.watching_registered (sys : σ) (root : Str) : Registered (World.watching sys root).roots := by
  constructor
  · intro key found is
    rw [World.watching_lookup, Option.ite_none_right_eq_some] at is
    exact congrArg some is.1.symm
  · intro key found is
    rw [World.watching_lookup, Option.ite_none_right_eq_some] at is
    exact (Option.some.inj is.2) ▸ Nat.one_pos

omit [System σ] in
theorem World.watching_live (sys : σ) (root path : Str) :
    LiveRoot (World.watching sys root).roots path ↔ path = root := by
  simp only [LiveRoot, World.watching_lookup, Option.ite_none_right_eq_some]
  constructor
  · rintro ⟨_, ⟨is, _⟩, _⟩
    exact is
  · rintro rfl
    exact ⟨0, ⟨rfl, rfl⟩, rfl⟩

/-- The root "/r" is watched, with an entry for a directory "/r/b" that is gone and none for
those that exist. -/
def World.drifted : World Simulated :=
  { World.watching Simulated.nested (str "/r") with
    watches := ⟨∅, AList.singleton (str "/r/b") ⟨0, 7, str "/r/b"⟩, 1, []⟩ }

namespace Simulated

theorem nested_kid : nested.outside.Kid (str "/r") (str "/r/a") := ⟨⟨str "a", .dir⟩, by decide, by decide, rfl, by decide⟩

theorem nested_eligible {path : Str} : nested.outside.Eligible path ↔ path = str "/r" ∨ path = str "/r/a" := by
  refine ⟨fun eligible => nested_directory.mp eligible.opens, fun is => ⟨?_, nested_directory.mpr is⟩⟩
  rcases is with rfl | rfl <;> decide

end Simulated

theorem repair_mends_drift : ∃ u w', RewatchPass World.drifted u ∧ MemcleanPass u w' ∧ Agrees Simulated.kernel w' := by
  have facts : (rewatchThenMemclean [0, 0, 0, 0, 0, 0, 0, 0, 0] [1, 1, 1, 1, 1, 1, 1] World.drifted).toOption.map (fun done =>
      ((done.1.threads, done.1.inMemclean), done.2.pool.threads)) =
    some (([.finished], false), [.finished, .finished]) := by decide +kernel
  obtain ⟨⟨between, w'⟩, ran, facts⟩ := Option.map_eq_some_iff.mp facts
  obtain ⟨⟨middle, flag⟩, threads⟩ := by simpa only [Prod.mk.injEq] using facts
  obtain ⟨u, rewatch, memclean⟩ := passes_of_run (Program.ok_of_toOption ran) rfl ⟨by simp [middle], flag⟩
    (show AllFinished w' by simp [AllFinished, threads])
  have live (path : Str) : LiveRoot World.drifted.roots path ↔ path = str "/r" :=
    World.watching_live Simulated.nested (str "/r") path
  have listed (path : Str) : World.drifted.watches.inotifyPathToWatch.lookup path =
      if path = str "/r/b" then some ⟨0, 7, str "/r/b"⟩ else none := GHashTable.lookup_singleton_if _ _ _
  -- No directory has an entry, or is known to the kernel.
  have free {path : Str} (eligible : Simulated.nested.outside.Eligible path) :
      ¬Stops Simulated.nested.outside World.drifted.watches path := by
    rintro (known | ⟨_, _, _, ⟨⟩, _⟩)
    rw [listed] at known
    rcases Simulated.nested_eligible.mp eligible with rfl | rfl <;> exact absurd known (by decide)
  have topEligible := Simulated.nested_eligible.mpr (.inl rfl)
  have top : Exposed Simulated.nested.outside (Stops Simulated.nested.outside World.drifted.watches)
      (LiveRoot World.drifted.roots) (str "/r") := ⟨str "/r", (live _).mpr rfl, .top ⟨topEligible, free topEligible⟩⟩
  have mendable : Mendable Simulated.nested.outside (Stops Simulated.nested.outside World.drifted.watches) World.drifted := by
    constructor
    · intro _ _ path _ known stays
      rw [listed] at known
      split at known
      · next is => exact absurd ⟨by rw [is]; decide, by rw [is]; decide⟩ stays
      · cases known
    · rintro path inTrees
      have eligible := inTrees.eligible
      refine .inr ?_
      rcases Simulated.nested_eligible.mp eligible with rfl | rfl
      · exact top
      · exact top.kid Simulated.nested_kid eligible (free eligible)
  have issued : Issued (Simulated.platform.view World.drifted.sys) World.drifted.watches := fun _ _ found => by cases found
  have distinct : (Simulated.platform.view World.drifted.sys).DistinctTrees (LiveRoot World.drifted.roots) :=
    Simulated.nested_distinct (.refl _)
  have idle : AllFinished World.drifted := World.watching_finished Simulated.nested (str "/r")
  have registered : Registered World.drifted.roots := World.watching_registered Simulated.nested (str "/r")
  have restored := (passes_restore_agreement_iff Simulated.allocationsSucceed (fun _ => rfl) idle registered issued
    distinct).1 u w' rewatch memclean
  exact ⟨u, w', rewatch, memclean, restored.mpr mendable⟩

/-- The root has its entry, and a directory below it has none. The walker stops at the root, and
after both passes the directory still has none. -/
theorem repair_misses_directory :
    ∃ w u w' : World Simulated, AllFinished w ∧ Registered w.roots ∧
      Issued (Simulated.kernel.view w.sys) w.watches ∧ (Simulated.kernel.view w.sys).DistinctTrees (LiveRoot w.roots) ∧
      RewatchPass w u ∧ MemcleanPass u w' ∧ ¬Agrees Simulated.kernel w' := by
  have facts : (rewatchThenMemclean [0, 0, 0] [1, 1, 1, 1]
      (World.watching (Simulated.nested.grant 1) (str "/r"))).toOption.map (fun done =>
        ((done.1.threads, done.1.inMemclean), done.2.pool.threads)) =
    some (([.finished], false), [.finished, .finished]) := by decide +kernel
  obtain ⟨⟨between, w'⟩, ran, facts⟩ := Option.map_eq_some_iff.mp facts
  obtain ⟨⟨middle, flag⟩, threads⟩ := by simpa only [Prod.mk.injEq] using facts
  obtain ⟨u, rewatch, memclean⟩ := passes_of_run (Program.ok_of_toOption ran) rfl ⟨by simp [middle], flag⟩
    (show AllFinished w' by simp [AllFinished, threads])
  have same : Outside.SameDisk Simulated.nested.outside (Simulated.nested.grant 1).outside := ⟨rfl, rfl, rfl⟩
  have issued : Issued (Simulated.nested.grant 1).outside
      (World.watching (Simulated.nested.grant 1) (str "/r")).watches := by
    intro wd watch found
    have is := (GHashTable.lookup_singleton_if 1 wd _).symm.trans found
    rw [Option.ite_none_right_eq_some] at is
    exact .inl is.1
  have live := World.watching_live (Simulated.nested.grant 1) (str "/r")
  have distinct : (Simulated.nested.grant 1).outside.DistinctTrees
    (LiveRoot (World.watching (Simulated.nested.grant 1) (str "/r")).roots) := Simulated.nested_distinct same
  have registered := World.watching_registered (Simulated.nested.grant 1) (str "/r")
  have idle := World.watching_finished (Simulated.nested.grant 1) (str "/r")
  refine ⟨_, u, w', idle, registered, issued, distinct, rewatch, memclean, fun agrees => ?_⟩
  have iff : Agrees Simulated.platform.toKernel w' ↔ _ := 
    agrees_of_rewatch_memclean Simulated.allocationsSucceed (fun _ => rfl) idle registered issued distinct rewatch memclean
  have inTree : (Simulated.nested.grant 1).outside.InTrees (LiveRoot (World.watching (Simulated.nested.grant 1) (str "/r")).roots)
      (str "/r/a") := by
    rw [same.inTrees]
    exact ⟨str "/r", (live _).mpr rfl, .kid (.top (Simulated.nested_eligible.mpr (.inl rfl))) Simulated.nested_kid
      (Simulated.nested_eligible.mpr (.inr rfl))⟩
  rcases (iff.mp agrees).reached _ inTree with known | ⟨top, is, reached⟩
  · exact absurd known (by decide)
  · -- The walk would have to start at the root, which has its entry.
    obtain rfl := (live top).mp is
    have marked : Stops (Simulated.nested.grant 1).outside
        (World.watching (Simulated.nested.grant 1) (str "/r")).watches (str "/r") := .inl (by decide)
    exact reached.top_eligible.2 marked

end Inotispy
