import Inotispy.Disk.Walkers
import Inotispy.Threads.Interleaving

/-! What a number of walkers have done to the tables when all have finished. -/

set_option autoImplicit false

namespace Inotispy
open Library

variable {σ Inode : Type} [System σ] [DecidableEq Inode]

/-- Walkers are at work below `top`. They found the kernel's watches as in `disk`, which
otherwise stays as it is, and the tables as in `old`; `new` are the watches they have filed. -/
structure Walking (kernel : Kernel σ Inode) (disk : Outside Inode) (old : WatchTable) (root : RootRef) (top : Str)
    (new : List Watch) (w : World σ) : Prop where
  same : Outside.SameDisk disk (kernel.view w.sys)
  serves : Serves w.roots root top
  issued : Issued (kernel.view w.sys) w.watches
  started : ∀ thread ∈ w.pool.threads, thread.From disk root top
  frontier : Frontier disk.Kid disk.Eligible top (Watched (kernel.view w.sys) w.watches)
    (Pending disk w.pool.threads)
  byWd : w.watches.inotifyWdToWatch = GHashTable.insertAll Watch.wd new old.inotifyWdToWatch
  byPath : w.watches.inotifyPathToWatch = GHashTable.insertAll Watch.path new old.inotifyPathToWatch
  paths : (new.map Watch.path).Nodup
  wds : (new.map Watch.wd).Nodup
  fresh : ∀ watch ∈ new, old.inotifyWdToWatch.lookup watch.wd = none
  reached : ∀ watch ∈ new, disk.Walks top watch.path ∧ ¬Watched disk old watch.path
  own : ∀ watch ∈ new, ∃ inode, disk.directory watch.path = some inode ∧
    (kernel.view w.sys).active inode = some watch.wd
  kept : ∀ path, Watched disk old path → Watched (kernel.view w.sys) w.watches path
  only : ∀ path, disk.Walks top path → Watched (kernel.view w.sys) w.watches path →
    Watched disk old path ∨ path ∈ new.map Watch.path
  activeKept : ∀ inode wd, disk.active inode = some wd → (kernel.view w.sys).active inode = some wd
  activeOnly : ∀ inode wd, (kernel.view w.sys).active inode = some wd →
    disk.active inode = some wd ∨ ∃ watch ∈ new, disk.directory watch.path = some inode

/-- Different directories of the walk are different inodes. -/
def Outside.Distinct (disk : Outside Inode) (top : Str) : Prop :=
  ∀ first second, disk.Walks top first → disk.Walks top second →
    disk.directory first = disk.directory second → first = second

namespace Walking

variable {kernel : Kernel σ Inode} {disk : Outside Inode} {old : WatchTable} {root : RootRef} {top : Str}
  {new : List Watch} {w v : World σ}

theorem start {threads : List Thread} (view : kernel.view w.sys = disk) (watches : w.watches = old)
    (pool : w.pool.threads = threads) (serves : Serves w.roots root top) (issued : Issued disk old)
    (started : ∀ thread ∈ threads, thread.From disk root top)
    (frontier : Frontier disk.Kid disk.Eligible top (Watched disk old) (Pending disk threads)) :
    Walking kernel disk old root top [] w := by
  subst view watches pool
  exact
    { same := .refl _
      serves := serves
      issued := issued
      started := started
      frontier := frontier
      byWd := rfl
      byPath := rfl
      paths := .nil
      wds := .nil
      fresh := nofun
      reached := nofun
      own := nofun
      kept := fun _ => id
      only := fun _ _ => .inl
      activeKept := fun _ _ => id
      activeOnly := fun _ _ => .inl }

theorem quiet (walking : Walking kernel disk old root top new w) (view : kernel.view v.sys = kernel.view w.sys)
    (serves : Serves v.roots root top) (byWd : v.watches.inotifyWdToWatch = w.watches.inotifyWdToWatch)
    (byPath : v.watches.inotifyPathToWatch = w.watches.inotifyPathToWatch)
    (started : ∀ thread ∈ v.pool.threads, thread.From disk root top)
    (passed : ∀ child, disk.Eligible child → Pending disk w.pool.threads child →
      Watched (kernel.view w.sys) w.watches child ∨ Pending disk v.pool.threads child) :
    Walking kernel disk old root top new v := by
  have watched : Watched (kernel.view v.sys) v.watches = Watched (kernel.view w.sys) w.watches := by
    unfold Watched
    rw [view, byWd]
  exact
    { same := view ▸ walking.same
      serves := serves
      issued := by
        unfold Issued
        rw [view, byWd]
        exact walking.issued
      started := started
      frontier := by
        rw [watched]
        refine walking.frontier.step (fun _ => id) passed ?_
        exact fun _ _ _ now before => absurd now before
      byWd := byWd.trans walking.byWd
      byPath := byPath.trans walking.byPath
      paths := walking.paths
      wds := walking.wds
      fresh := walking.fresh
      reached := walking.reached
      own := view ▸ walking.own
      kept := watched ▸ walking.kept
      only := watched ▸ walking.only
      activeKept := view ▸ walking.activeKept
      activeOnly := view ▸ walking.activeOnly }

theorem file (walking : Walking kernel disk old root top new w) (distinct : disk.Distinct top) {path : Str}
    {inode : Inode} {watch : Watch} (named : watch.path = path) (reached : disk.Walks top path)
    (unknown : ¬Watched (kernel.view w.sys) w.watches path) (directory : disk.directory path = some inode)
    (granted : (kernel.view w.sys).Granted (kernel.view v.sys) inode watch.wd)
    (free : w.watches.inotifyWdToWatch.lookup watch.wd = none) (serves : Serves v.roots root top)
    (byWd : v.watches.inotifyWdToWatch = w.watches.inotifyWdToWatch.insert watch.wd watch)
    (byPath : v.watches.inotifyPathToWatch = w.watches.inotifyPathToWatch.insert watch.path watch)
    (started : ∀ thread ∈ v.pool.threads, thread.From disk root top)
    (passed : ∀ child, Pending disk w.pool.threads child → child = path ∨ Pending disk v.pool.threads child)
    (kids : ∀ child, disk.Kid path child → Pending disk v.pool.threads child) :
    Walking kernel disk old root top (watch :: new) v := by
  subst named
  have watched := watched_file granted byWd
  rw [walking.same.directory] at watched
  have own : (kernel.view v.sys).active inode = some watch.wd := by rw [granted.active, Function.update_self]
  -- The watches filed before belong to other directories.
  have others : ∀ other ∈ new, disk.directory other.path ≠ some inode := by
    intro other member same
    have one := distinct _ _ (walking.reached other member).1 reached (same.trans directory.symm)
    obtain ⟨inode', at_, active⟩ := walking.own other member
    refine unknown (one ▸ ⟨inode', other.wd, walking.same.directory.symm ▸ at_, active, ?_⟩)
    rw [walking.byWd, GHashTable.lookup_insertAll_of_mem walking.wds member]
    rfl
  -- So neither its path nor its descriptor is taken.
  have newPath : watch.path ∉ new.map Watch.path := by
    rintro member
    obtain ⟨other, member, same⟩ := List.mem_map.mp member
    exact others other member (same ▸ directory)
  have newWd : watch.wd ∉ new.map Watch.wd := by
    intro member
    obtain ⟨other, member, same⟩ := List.mem_map.mp member
    rw [← same, walking.byWd, GHashTable.lookup_insertAll_of_mem walking.wds member] at free
    cases free
  have oldWd : old.inotifyWdToWatch.lookup watch.wd = none := by
    rw [← GHashTable.lookup_insertAll_of_not_mem newWd, ← walking.byWd, free]
  have activeStill : ∀ inode' wd, (kernel.view w.sys).active inode' = some wd →
      (kernel.view v.sys).active inode' = some wd := by
    intro inode' wd active
    rw [granted.active]
    by_cases same : inode' = inode
    · subst same
      rw [Function.update_self]
      rcases granted.kept with none | same <;> rw [active] at *
      · cases none
      · exact same.symm
    · rw [Function.update_of_ne same, active]
  exact
    { same := walking.same.trans granted.toSameDisk
      serves := serves
      issued := walking.issued.file granted byWd
      started := started
      frontier := by
        refine walking.frontier.step (fun path old => (watched path).mpr (.inl old)) ?_ ?_
        · intro child _ pending
          rcases passed child pending with rfl | still
          · exact .inl ((watched _).mpr (.inr directory))
          · exact .inr still
        · intro parent child from_ now before kid _
          have is := ((watched parent).mp now).resolve_left before
          rw [distinct _ _ from_ reached (is.trans directory.symm)] at kid
          exact .inr (kids child kid)
      byWd := by rw [byWd, walking.byWd, GHashTable.insertAll_cons]
      byPath := by rw [byPath, walking.byPath, GHashTable.insertAll_cons]
      paths := List.nodup_cons.mpr ⟨newPath, walking.paths⟩
      wds := List.nodup_cons.mpr ⟨newWd, walking.wds⟩
      fresh := List.forall_mem_cons.mpr ⟨oldWd, walking.fresh⟩
      reached := List.forall_mem_cons.mpr
        ⟨⟨reached, fun before => unknown (walking.kept _ before)⟩, walking.reached⟩
      own := by
        refine List.forall_mem_cons.mpr ⟨⟨inode, directory, own⟩, fun other member => ?_⟩
        obtain ⟨inode', at_, active⟩ := walking.own other member
        exact ⟨inode', at_, activeStill _ _ active⟩
      kept := fun path before => (watched path).mpr (.inl (walking.kept path before))
      only := by
        intro path from_ now
        rcases (watched path).mp now with before | is
        · exact (walking.only path from_ before).imp_right (List.mem_cons_of_mem _)
        · rw [distinct _ _ from_ reached (is.trans directory.symm)]
          exact .inr List.mem_cons_self
      activeKept := fun inode' wd before => activeStill _ _ (walking.activeKept inode' wd before)
      activeOnly := by
        intro inode' wd active
        rw [granted.active] at active
        by_cases same : inode' = inode
        · exact .inr ⟨watch, List.mem_cons_self, same ▸ directory⟩
        · rw [Function.update_of_ne same] at active
          rcases walking.activeOnly inode' wd active with before | ⟨other, member, at_⟩
          · exact .inl before
          · exact .inr ⟨other, List.mem_cons_of_mem _ member, at_⟩ }

theorem turn (walking : Walking kernel disk old root top new w) (succeed : AllocationsSucceed σ)
    (distinct : disk.Distinct top) {index : Nat} (ran : runThread index w = .ok ((), v)) :
    ∃ new', Walking kernel disk old root top new' v := by
  obtain ⟨_, rfl⟩ | ⟨thread, next, u, found, stepped, rfl⟩ := runThread_eq_ok ran
  · exact ⟨new, walking⟩
  have threads := (threadStep_effect stepped).threads
  have member : thread ∈ w.pool.threads := List.mem_of_getElem? found
  -- One step of a walker decides what has become of its frames and of the tables.
  obtain ⟨started, effect⟩ :=
    walker_step succeed walking.same walking.serves walking.issued (walking.started thread member) stepped
  have allStarted : ∀ other ∈ w.pool.threads.set index next, other.From disk root top := by
    intro other member
    rcases List.mem_or_eq_of_mem_set member with before | rfl
    · exact walking.started other before
    · exact started
  cases effect with
  | moves skipped view roots watches pends =>
    refine ⟨new, walking.quiet view (by rw [roots]; exact walking.serves) (by rw [watches]) (by rw [watches])
      (by rw [threads]; exact allStarted) ?_⟩
    intro child eligible pending
    rw [threads]
    rcases pending.set found next with own | other
    · exact (pends child eligible own).imp_right (Pending.of_set found)
    · exact .inr other
  | files path inode watch named reached unknown directory granted free roots watches pends kids =>
    refine ⟨watch :: new, walking.file distinct named reached unknown directory granted free
      (by rw [roots]; exact walking.serves) (by rw [watches]; rfl) (by rw [watches]; rfl)
      (by rw [threads]; exact allStarted) ?_ ?_⟩
    · intro child pending
      rw [threads]
      rcases pending.set found next with own | other
      · exact (pends child own).imp_right (Pending.of_set found)
      · exact .inr other
    · intro child kid
      rw [threads]
      exact Pending.of_set found (kids child kid)

theorem complete (walking : Walking kernel disk old root top new w)
    (finished : ∀ thread ∈ w.pool.threads, thread = .finished) {path : Str} (reached : disk.Walks top path) :
    Watched (kernel.view w.sys) w.watches path := by
  refine walking.frontier.complete ?_ reached
  rintro child ⟨thread, member, pends⟩
  rw [finished thread member] at pends
  exact pends

end Walking

/-! ## Runs -/

def Turns (w w' : World σ) : Prop :=
  Relation.ReflTransGen (fun before after => ∃ index, runThread index before = .ok ((), after)) w w'

/-- A walker at its start, as a thread of its own or at the first call of `_do_watch_tree_rec`. -/
def Thread.StartsAt (root : RootRef) (path : Str) (thread : Thread) : Prop :=
  thread = .watchTree ⟨some path, root, false⟩ ∨
    thread = .watchTreeRec ⟨some path, root, false⟩ [.call path]

namespace Thread.StartsAt

variable {disk : Outside Inode} {root : RootRef} {top path : Str} {thread : Thread}
  (starts : thread.StartsAt root path)
include starts

omit [DecidableEq Inode] in
theorem pends : thread.Pends disk path := by
  rcases starts with rfl | rfl
  · rfl
  · exact ⟨_, List.mem_singleton_self _, rfl⟩

omit [DecidableEq Inode] in
theorem from_ (long : top.length ≤ path.length) (reached : disk.Eligible path → disk.Walks top path) :
    thread.From disk root top := by
  rcases starts with rfl | rfl
  · exact ⟨rfl, rfl, path, rfl, long, reached⟩
  · refine ⟨rfl, rfl, ?_⟩
    intro frame member
    rw [List.mem_singleton.mp member]
    exact reached

end Thread.StartsAt

theorem Walking.run {kernel : Kernel σ Inode} {disk : Outside Inode} {old : WatchTable} {root : RootRef} {top : Str}
    {w w' : World σ} (succeed : AllocationsSucceed σ) (distinct : disk.Distinct top) (turns : Turns w w')
    (start : ∃ new, Walking kernel disk old root top new w) :
    ∃ new, Walking kernel disk old root top new w' := by
  induction turns with
  | refl => exact start
  | tail _ step ih =>
    obtain ⟨new, walking⟩ := ih
    obtain ⟨index, ran⟩ := step
    exact walking.turn succeed distinct ran

section
variable (kernel : Kernel σ Inode) {root : RootRef} {top rootPath : Str} {w w' : World σ}

/-- Walkers that start at the top, or at directories that one of them would reach. -/
def Walkers (disk : Outside Inode) (root : RootRef) (top : Str) (threads : List Thread) : Prop :=
  ∀ thread ∈ threads, ∃ path, (path = top ∨ disk.Walks top path) ∧ thread.StartsAt root path

omit [DecidableEq Inode] in
theorem Walkers.from_ {disk : Outside Inode} {threads : List Thread} (walkers : Walkers disk root top threads) :
    ∀ thread ∈ threads, thread.From disk root top := by
  intro thread member
  obtain ⟨path, rfl | reached, starts⟩ := walkers thread member
  · exact starts.from_ (le_refl _) .top
  · exact starts.from_ reached.length_le fun _ => reached

/-- Over a tree that is watched already, walkers change nothing, at any time. -/
theorem watched_tree_unchanged (succeed : AllocationsSucceed σ) (serves : Serves w.roots root top)
    (distinct : (kernel.view w.sys).Distinct top) (issued : Issued (kernel.view w.sys) w.watches)
    (watched : ∀ path, (kernel.view w.sys).Walks top path → Watched (kernel.view w.sys) w.watches path)
    (walkers : Walkers (kernel.view w.sys) root top w.pool.threads) (turns : Turns w w') :
    w'.watches.inotifyWdToWatch = w.watches.inotifyWdToWatch ∧
      w'.watches.inotifyPathToWatch = w.watches.inotifyPathToWatch := by
  have frontier : Frontier (kernel.view w.sys).Kid (kernel.view w.sys).Eligible top
      (Watched (kernel.view w.sys) w.watches) (Pending (kernel.view w.sys) w.pool.threads) :=
    ⟨fun fits => .inl (watched top (.top fits)),
      fun _ _ reached _ kid fits => .inl (watched _ (.kid reached kid fits))⟩
  obtain ⟨new, walking⟩ := Walking.run succeed distinct turns
    ⟨[], .start rfl rfl rfl serves issued walkers.from_ frontier⟩
  have nothing : new = [] := by
    rw [List.eq_nil_iff_forall_not_mem]
    intro watch member
    obtain ⟨reached, unknown⟩ := walking.reached watch member
    exact unknown (watched _ reached)
  rw [walking.byWd, walking.byPath, nothing]
  exact ⟨rfl, rfl⟩

/-- Whatever the order of their turns, walkers that start in an unwatched tree, one of them
at its top, end with one new entry in each table for each directory of the walk. A later
walk of theirs adds nothing. -/
theorem walkers_watch_each_once (succeed : AllocationsSucceed σ) (live : (w.roots.heap root).destroy = false)
    (rooted : (w.roots.heap root).path = some rootPath) (beneath : rootPath <+: top)
    (distinct : (kernel.view w.sys).Distinct top) (issued : Issued (kernel.view w.sys) w.watches)
    (unwatched : ∀ path, (kernel.view w.sys).Walks top path →
      w.watches.inotifyPathToWatch.lookup path = none ∧ ¬Watched (kernel.view w.sys) w.watches path)
    (walkers : Walkers (kernel.view w.sys) root top w.pool.threads)
    (one : ∃ thread ∈ w.pool.threads, thread.StartsAt root top) (turns : Turns w w')
    (finished : ∀ thread ∈ w'.pool.threads, thread = .finished) :
    (∃ new : List Watch, (new.map Watch.path).Nodup ∧ (new.map Watch.wd).Nodup ∧
      (∀ path, path ∈ new.map Watch.path ↔ (kernel.view w.sys).Walks top path) ∧
      (∀ watch ∈ new, ∃ inode, (kernel.view w.sys).directory watch.path = some inode ∧
        (kernel.view w'.sys).active inode = some watch.wd) ∧
      w'.watches.inotifyWdToWatch.entries =
        new.map (fun watch => ⟨watch.wd, watch⟩) ++ w.watches.inotifyWdToWatch.entries ∧
      w'.watches.inotifyPathToWatch.entries =
        new.map (fun watch => ⟨watch.path, watch⟩) ++ w.watches.inotifyPathToWatch.entries) ∧
    ∀ again last : World σ, again.sys = w'.sys → again.roots = w'.roots → again.watches = w'.watches →
      Walkers (kernel.view w.sys) root top again.pool.threads → Turns again last →
      last.watches.inotifyWdToWatch = w'.watches.inotifyWdToWatch ∧
        last.watches.inotifyPathToWatch = w'.watches.inotifyPathToWatch := by
  have frontier : Frontier (kernel.view w.sys).Kid (kernel.view w.sys).Eligible top
      (Watched (kernel.view w.sys) w.watches) (Pending (kernel.view w.sys) w.pool.threads) := by
    obtain ⟨thread, member, starts⟩ := one
    exact ⟨fun _ => .inr ⟨thread, member, starts.pends⟩,
      fun parent _ reached marked => absurd marked (unwatched parent reached).2⟩
  obtain ⟨new, walking⟩ := Walking.run succeed distinct turns
    ⟨[], .start rfl rfl rfl ⟨live, rootPath, rooted, beneath.length_le⟩ issued walkers.from_ frontier⟩
  have watched : ∀ path, (kernel.view w.sys).Walks top path →
      Watched (kernel.view w'.sys) w'.watches path := fun path reached => walking.complete finished reached
  constructor
  · refine ⟨new, walking.paths, walking.wds, ?_, walking.own, ?_, ?_⟩
    · intro path
      constructor
      · intro filed
        obtain ⟨watch, member, rfl⟩ := List.mem_map.mp filed
        exact (walking.reached watch member).1
      · intro reached
        exact (walking.only path reached (watched path reached)).resolve_left (unwatched path reached).2
    · rw [walking.byWd]
      exact GHashTable.entries_insertAll walking.wds walking.fresh
    · rw [walking.byPath]
      exact GHashTable.entries_insertAll walking.paths fun watch member =>
        (unwatched _ (walking.reached watch member).1).1
  · intro again last sys roots watches walkers' turns'
    rw [← watches]
    have walks : (kernel.view again.sys).Walks = (kernel.view w.sys).Walks := by
      rw [sys, walking.same.walks]
    apply watched_tree_unchanged kernel succeed (roots ▸ walking.serves) ?_ ?_ ?_ ?_ turns'
    · unfold Outside.Distinct
      rw [walks, sys, walking.same.directory]
      exact distinct
    · rw [sys, watches]
      exact walking.issued
    · rw [walks, sys, watches]
      exact watched
    · unfold Walkers
      rw [walks]
      exact walkers'

end

omit [DecidableEq Inode] in
theorem Turns.of_forEach {turns : List Nat} {w w' : World σ}
    (ran : Program.forEach runThread turns w = .ok ((), w')) : Turns w w' :=
  Program.reaches_of_forEach (fun index _ _ _ turn => ⟨index, turn⟩) ran

def Simulated.twoDirectories : Simulated where
  outside :=
    { directory := fun path => if path = str "/r" then some 1 else if path = str "/r/a" then some 2 else none
      entries := fun path =>
        if path = str "/r" then [⟨str ".", .dir⟩, ⟨str "f", .other⟩, ⟨str "l", .lnk⟩, ⟨str "a", .dir⟩] else []
      mode := fun _ => .other
      active := fun _ => none
      issued := fun _ => False
      issued_nonneg := nested.outside.issued_nonneg
      active_issued := nested.outside.active_issued
      active_injective := nested.outside.active_injective }
  nextWd := 1
  nonneg := nested.nonneg
  fresh := nested.fresh

/-- The root "/r" with one walker at its top and one that an event started below it. -/
def World.twoWalkers : World Simulated :=
  let start := World.initial Simulated.twoDirectories
  { start with
    roots.heap := fun _ => { (default : Root) with path := some (str "/r") }
    pool.threads := [.watchTree ⟨some (str "/r"), 0, false⟩, .watchTree ⟨some (str "/r/a"), 0, false⟩] }

/-- The lower walker is first at the lower directory; each directory is watched once. -/
theorem two_walkers_watch_each_once : ∃ w' : World Simulated, Turns World.twoWalkers w' ∧
    ∃ new : List Watch, (new.map Watch.path).Nodup ∧
      (∀ path, path ∈ new.map Watch.path ↔ Simulated.twoDirectories.outside.Walks (str "/r") path) ∧
      w'.watches.inotifyPathToWatch.entries = new.map (fun watch => ⟨watch.path, watch⟩) ++ [] := by
  -- The kernel evaluates the run.
  have ran : (Program.forEach runThread [0, 1, 1, 0, 0, 1, 0, 1, 0, 0, 0, 1, 0, 0, 0]
      World.twoWalkers).toOption.map (fun done => done.2.pool.threads) = some [.finished, .finished] := by
    decide +kernel
  obtain ⟨⟨⟨⟩, w'⟩, ran, finished⟩ := Option.map_eq_some_iff.mp ran
  replace ran := Program.ok_of_toOption ran
  have eligibleTop : Simulated.twoDirectories.outside.Eligible (str "/r") := ⟨by decide, by decide⟩
  have eligibleBelow : Simulated.twoDirectories.outside.Eligible (str "/r/a") := ⟨by decide, by decide⟩
  have kid : Simulated.twoDirectories.outside.Kid (str "/r") (str "/r/a") :=
    ⟨⟨str "a", .dir⟩, by decide, by decide, rfl, by decide⟩
  have live : (World.twoWalkers.roots.heap 0).destroy = false := rfl
  have once := walkers_watch_each_once Simulated.kernel Simulated.allocationsSucceed live rfl
    (List.prefix_refl (str "/r")) (by
      intro first second reached reached' same
      have opens := reached.eligible.opens
      have opens' := reached'.eligible.opens
      simp only [Simulated.kernel, World.twoWalkers, World.initial, Simulated.twoDirectories] at same opens opens'
      split_ifs at same opens opens' <;> simp_all) nofun
    (fun path _ => ⟨rfl, by rintro ⟨inode, wd, _, active, _⟩; cases active⟩) (by
      intro thread member
      rcases List.mem_cons.mp member with rfl | member
      · exact ⟨str "/r", .inl rfl, .inl rfl⟩
      · rw [List.mem_singleton.mp member]
        exact ⟨str "/r/a", .inr (.kid (.top eligibleTop) kid eligibleBelow), .inl rfl⟩)
    ⟨_, List.mem_cons_self, .inl rfl⟩ (.of_forEach ran) (by rw [finished]; simp)
  obtain ⟨⟨new, paths, _, exactly, _, _, entries⟩, _⟩ := once
  exact ⟨w', .of_forEach ran, new, paths, exactly, entries⟩

end Inotispy
