import Inotispy.Disk.Agreement
import Inotispy.Disk.Tree

/-! Tables that list a set of directories, and the kernel's watches on them.

What is listed may be ahead of or behind what the disk shows: a directory that was deleted
keeps its entry until the kernel's record of it is read. Taking an entry out together with
its watch, and walking a subtree of which nothing is listed, both lead from one set of
directories to another.
-/

set_option autoImplicit false

namespace Inotispy
open Library

variable {σ Inode : Type}

/-- The path table lists just the directories `node`. Their watches are active, except those of
deleted ones, and every active watch that the tables know is one of them. -/
structure Lists (base : Str) (node : List Name → Option Inode) (deleted : Inode → Prop) (outside : Outside Inode)
    (watches : WatchTable) : Prop where
  issued : Issued outside watches
  filed : GHashTable.Filed Watch.wd watches.inotifyWdToWatch
  anchored : PairedTables.Anchored Watch.wd Watch.path watches.inotifyWdToWatch watches.inotifyPathToWatch
  keys : ∀ path, (watches.inotifyPathToWatch.lookup path).isSome ↔
    ∃ names, (node names).isSome ∧ path = Path.join base names
  own : ∀ names inode watch, node names = some inode →
    watches.inotifyPathToWatch.lookup (Path.join base names) = some watch →
      outside.active inode = some watch.wd ∨ deleted inode
  known : ∀ inode wd watch, outside.active inode = some wd → watches.inotifyWdToWatch.lookup wd = some watch →
    ∃ names, node names = some inode ∧ watches.inotifyPathToWatch.lookup (Path.join base names) = some watch

structure Outside.Loses (before after : Outside Inode) : Prop extends SameDisk before after where
  fewer : ∀ inode wd, after.active inode = some wd → before.active inode = some wd

namespace Outside.Loses

theorem refl (outside : Outside Inode) : Loses outside outside := ⟨.refl outside, fun _ _ => id⟩

theorem trans {first second third : Outside Inode} (one : Loses first second) (two : Loses second third) :
    Loses first third :=
  ⟨one.toSameDisk.trans two.toSameDisk, fun inode wd active => one.fewer inode wd (two.fewer inode wd active)⟩

theorem drop (outside : Outside Inode) (wd : Int) : Loses outside (outside.drop wd) :=
  ⟨⟨rfl, rfl, rfl⟩, fun inode wd' active => ((outside.active_drop wd inode wd').mp active).1⟩

end Outside.Loses

namespace Lists

variable {base : Str} {node : List Name → Option Inode} {deleted : Inode → Prop} {outside : Outside Inode}
  {watches : WatchTable} (lists : Lists base node deleted outside watches)
include lists

theorem entry {names : List Name} (there : (node names).isSome) :
    ∃ watch, watches.inotifyPathToWatch.lookup (Path.join base names) = some watch :=
  Option.isSome_iff_exists.mp ((lists.keys _).mpr ⟨names, there, rfl⟩)

theorem target {names : List Name} {inode : Inode} (is : node names = some inode) (stays : ¬deleted inode) {wd : Int}
    (active : outside.active inode = some wd) :
    ∃ watch, watches.inotifyWdToWatch.lookup wd = some watch ∧ watch.path = Path.join base names := by
  obtain ⟨watch, found⟩ := lists.entry (by rw [is]; rfl)
  have own := (lists.own names inode watch is found).resolve_right stays
  rw [active] at own
  cases own
  obtain ⟨named, known⟩ := lists.anchored _ watch found
  exact ⟨watch, known, named⟩

theorem remove {place : List Name} {delete : Watch}
    (found : watches.inotifyPathToWatch.lookup (Path.join base place) = some delete) :
    Lists base (Function.update node place none) deleted (outside.drop delete.wd)
      (watches.forget (Path.join base place) delete.wd) := by
  have other {names : List Name} {inode : Inode} (is : Function.update node place none names = some inode) :
      names ≠ place ∧ node names = some inode := by
    by_cases same : names = place
    · subst same
      rw [Function.update_self] at is
      cases is
    · rw [Function.update_of_ne same] at is
      exact ⟨same, is⟩
  have kept {names : List Name} (differs : names ≠ place) :
      (watches.forget (Path.join base place) delete.wd).inotifyPathToWatch.lookup (Path.join base names) =
        watches.inotifyPathToWatch.lookup (Path.join base names) := by
    rw [WatchTable.forget, AList.lookup_erase_ne fun same => differs (Path.join_injective same)]
  constructor
  · intro wd watch known
    exact lists.issued wd watch (Thins.lookup_of_erase known)
  · exact lists.filed.erase delete.wd
  · exact lists.anchored.erase found
  · intro path
    constructor
    · intro there
      obtain ⟨watch, lookup⟩ := Option.isSome_iff_exists.mp there
      obtain ⟨names, there, rfl⟩ := (lists.keys path).mp (by rw [Thins.lookup_of_erase lookup]; rfl)
      have differs : names ≠ place := by
        rintro rfl
        rw [WatchTable.forget, AList.lookup_erase] at lookup
        cases lookup
      exact ⟨names, by rwa [Function.update_of_ne differs], rfl⟩
    · rintro ⟨names, there, rfl⟩
      obtain ⟨inode, is⟩ := Option.isSome_iff_exists.mp there
      obtain ⟨differs, is⟩ := other is
      rw [kept differs, lists.keys]
      exact ⟨names, by rw [is]; rfl, rfl⟩
  · intro names inode watch is lookup
    obtain ⟨differs, is⟩ := other is
    rw [kept differs] at lookup
    rcases lists.own names inode watch is lookup with active | gone
    · refine .inl ((outside.active_drop _ _ _).mpr ⟨active, fun same => differs ?_⟩)
      exact Path.join_injective (lists.anchored.wd_injective lookup found same)
    · exact .inr gone
  · intro inode wd watch active known
    obtain ⟨active, differs⟩ := (outside.active_drop _ _ _).mp active
    obtain ⟨names, is, lookup⟩ := lists.known inode wd watch active (Thins.lookup_of_erase known)
    have other : names ≠ place := by
      rintro rfl
      rw [found] at lookup
      cases lookup
      exact differs (lists.filed wd delete (Thins.lookup_of_erase known)).symm
    exact ⟨names, by rwa [Function.update_of_ne other], by rwa [kept other]⟩

theorem settled (stays : ∀ inode, deleted inode → ∀ names, node names ≠ some inode) :
    Lists base node (fun _ => False) outside watches :=
  { lists with
    own := fun names inode watch is found =>
      .inl ((lists.own names inode watch is found).resolve_right fun gone => stays inode gone names is) }

end Lists

/-! ## Walks -/

/-- The subtree at `place` is to be walked. Around it the tables list the tree already; of what
they still list in it, all is deleted. -/
structure Awaits (base : Str) (tree : Tree Name Inode) (node : List Name → Option Inode) (deleted : Inode → Prop)
    (place : List Name) (disk : Outside Inode) (old : WatchTable) : Prop where
  shows_ : Shows disk base tree
  lists : Lists base node deleted disk old
  inactive : ∀ inode, deleted inode → disk.active inode = none
  gone : ∀ inode, deleted inode → ∀ names, tree.node names ≠ some inode
  there : (tree.node place).isSome
  outside : ∀ names, ¬place <+: names → node names = tree.node names
  inside : ∀ names inode, place <+: names → node names = some inode → (tree.node names).isSome ∧ deleted inode

namespace Awaits

variable {base : Str} {tree : Tree Name Inode} {node : List Name → Option Inode} {deleted : Inode → Prop}
  {place : List Name} {disk : Outside Inode} {old : WatchTable} (top : TopPath base)
  (awaits : Awaits base tree node deleted place disk old)
include awaits

theorem around {inode : Inode} {wd : Int} {watch : Watch} (active : disk.active inode = some wd)
    (known : old.inotifyWdToWatch.lookup wd = some watch) :
    ∃ names, ¬place <+: names ∧ tree.node names = some inode ∧
      old.inotifyPathToWatch.lookup (Path.join base names) = some watch := by
  obtain ⟨names, is, found⟩ := awaits.lists.known inode wd watch active known
  by_cases below : place <+: names
  · obtain ⟨_, lost⟩ := awaits.inside names inode below is
    rw [awaits.inactive inode lost] at active
    cases active
  · exact ⟨names, below, awaits.outside names below ▸ is, found⟩

include top

theorem walks_iff (path : Str) : disk.Walks (Path.join base place) path ↔
    ∃ names, place <+: names ∧ (tree.node names).isSome ∧ path = Path.join base names :=
  awaits.shows_.walks_iff top awaits.there path

theorem unwatched {path : Str} (reached : disk.Walks (Path.join base place) path) : ¬Watched disk old path := by
  obtain ⟨names, below, there, rfl⟩ := (awaits.walks_iff top path).mp reached
  obtain ⟨inode, is⟩ := Option.isSome_iff_exists.mp there
  rintro ⟨other, wd, directory, active, known⟩
  obtain ⟨watch, known⟩ := Option.isSome_iff_exists.mp known
  rw [awaits.shows_.directory names inode is] at directory
  cases directory
  obtain ⟨elsewhere, apart, same, _⟩ := awaits.around active known
  exact apart (tree.eq_of_some same is ▸ below)

variable [System σ] [DecidableEq Inode] {kernel : Kernel σ Inode} {root : RootRef} {new : List Watch} {w : World σ}

theorem start {threads : List Thread} (view : kernel.view w.sys = disk) (watches : w.watches = old)
    (pool : w.pool.threads = threads) (serves : Serves w.roots root (Path.join base place))
    (started : ∀ thread ∈ threads, thread = .finished ∨ thread.StartsAt root (Path.join base place))
    (one : ∃ thread ∈ threads, thread.StartsAt root (Path.join base place)) :
    Walking kernel disk old root (Path.join base place) [] w := by
  refine .start view watches pool serves awaits.lists.issued ?_ ⟨?_, ?_⟩
  · intro thread member
    rcases started thread member with rfl | starts
    · trivial
    · exact starts.from_ (le_refl _) .top
  · obtain ⟨thread, member, starts⟩ := one
    exact fun _ => .inr ⟨thread, member, starts.pends⟩
  · exact fun parent _ reached marked => absurd marked (awaits.unwatched top reached)

theorem filed (walking : Walking kernel disk old root (Path.join base place) new w) {watch : Watch} (member : watch ∈ new) :
    ∃ names inode, watch.path = Path.join base names ∧ place <+: names ∧ tree.node names = some inode ∧
      (kernel.view w.sys).active inode = some watch.wd := by
  obtain ⟨names, below, there, path⟩ := (awaits.walks_iff top _).mp (walking.reached watch member).1
  obtain ⟨inode, is⟩ := Option.isSome_iff_exists.mp there
  obtain ⟨other, directory, active⟩ := walking.own watch member
  rw [path, awaits.shows_.directory names inode is] at directory
  cases directory
  exact ⟨names, inode, path, below, is, active⟩

theorem mem_filed_iff (walking : Walking kernel disk old root (Path.join base place) new w) (finished : AllFinished w)
    (names : List Name) :
    Path.join base names ∈ new.map Watch.path ↔ place <+: names ∧ (tree.node names).isSome := by
  constructor
  · intro member
    obtain ⟨watch, member, path⟩ := List.mem_map.mp member
    obtain ⟨others, inode, same, below, is, _⟩ := awaits.filed top walking member
    rw [path] at same
    rw [Path.join_injective same]
    exact ⟨below, by rw [is]; rfl⟩
  · rintro ⟨below, there⟩
    have reached := (awaits.walks_iff top _).mpr ⟨names, below, there, rfl⟩
    exact (walking.only _ reached (walking.complete finished reached)).resolve_left (awaits.unwatched top reached)

theorem complete (walking : Walking kernel disk old root (Path.join base place) new w) (finished : AllFinished w) :
    Lists base tree.node (fun _ => False) (kernel.view w.sys) w.watches := by
  have member_iff := awaits.mem_filed_iff top walking finished
  have newPath {watch : Watch} (member : watch ∈ new) : w.watches.inotifyPathToWatch.lookup watch.path = some watch := by
    rw [walking.byPath]
    exact GHashTable.lookup_insertAll_of_mem walking.paths member
  have newWd {watch : Watch} (member : watch ∈ new) : w.watches.inotifyWdToWatch.lookup watch.wd = some watch := by
    rw [walking.byWd]
    exact GHashTable.lookup_insertAll_of_mem walking.wds member
  have oldPath {names : List Name} (apart : ¬place <+: names) :
      w.watches.inotifyPathToWatch.lookup (Path.join base names) = old.inotifyPathToWatch.lookup (Path.join base names) := by
    rw [walking.byPath]
    exact GHashTable.lookup_insertAll_of_not_mem fun member => apart ((member_iff names).mp member).1
  have oldWd {wd : Int} {watch : Watch} (known : old.inotifyWdToWatch.lookup wd = some watch) :
      w.watches.inotifyWdToWatch.lookup wd = some watch := by
    rw [walking.byWd, GHashTable.lookup_insertAll_of_not_mem, known]
    intro among
    obtain ⟨other, member, same⟩ := List.mem_map.mp among
    rw [← same, walking.fresh other member] at known
    cases known
  have wd_cases {wd : Int} {watch : Watch} (known : w.watches.inotifyWdToWatch.lookup wd = some watch) :
      (watch ∈ new ∧ watch.wd = wd) ∨ wd ∉ new.map Watch.wd ∧ old.inotifyWdToWatch.lookup wd = some watch := by
    by_cases among : wd ∈ new.map Watch.wd
    · obtain ⟨other, member, same⟩ := List.mem_map.mp among
      rw [← same, newWd member] at known
      cases known
      exact .inl ⟨member, same⟩
    · rw [walking.byWd, GHashTable.lookup_insertAll_of_not_mem among] at known
      exact .inr ⟨among, known⟩
  have path_cases {path : Str} {watch : Watch} (found : w.watches.inotifyPathToWatch.lookup path = some watch) :
      (watch ∈ new ∧ watch.path = path) ∨ old.inotifyPathToWatch.lookup path = some watch := by
    by_cases among : path ∈ new.map Watch.path
    · obtain ⟨other, member, same⟩ := List.mem_map.mp among
      rw [← same, newPath member] at found
      cases found
      exact .inl ⟨member, same⟩
    · rw [walking.byPath, GHashTable.lookup_insertAll_of_not_mem among] at found
      exact .inr found
  constructor
  · exact walking.issued
  · intro wd watch known
    exact (wd_cases known).elim And.right fun before => awaits.lists.filed wd watch before.2
  · intro path watch found
    rcases path_cases found with ⟨member, named⟩ | before
    · exact ⟨named, newWd member⟩
    · obtain ⟨named, known⟩ := awaits.lists.anchored path watch before
      exact ⟨named, oldWd known⟩
  · intro path
    constructor
    · intro there
      obtain ⟨watch, found⟩ := Option.isSome_iff_exists.mp there
      rcases path_cases found with ⟨member, rfl⟩ | before
      · obtain ⟨names, inode, path, _, is, _⟩ := awaits.filed top walking member
        exact ⟨names, by rw [is]; rfl, path⟩
      · obtain ⟨names, listed, rfl⟩ := (awaits.lists.keys path).mp (by rw [before]; rfl)
        refine ⟨names, ?_, rfl⟩
        by_cases below : place <+: names
        · obtain ⟨inode, is⟩ := Option.isSome_iff_exists.mp listed
          exact (awaits.inside names inode below is).1
        · rwa [← awaits.outside names below]
    · rintro ⟨names, there, rfl⟩
      by_cases below : place <+: names
      · obtain ⟨watch, member, named⟩ := List.mem_map.mp ((member_iff names).mpr ⟨below, there⟩)
        rw [← named, newPath member]
        rfl
      · rw [oldPath below, awaits.lists.keys]
        exact ⟨names, by rwa [awaits.outside names below], rfl⟩
  · intro names inode watch is found
    left
    by_cases below : place <+: names
    · obtain ⟨other, member, named⟩ := List.mem_map.mp ((member_iff names).mpr ⟨below, by rw [is]; rfl⟩)
      rw [← named, newPath member] at found
      cases found
      obtain ⟨names', inode', path, _, is', active⟩ := awaits.filed top walking member
      rw [named] at path
      rw [← Path.join_injective path, is] at is'
      cases is'
      exact active
    · rw [oldPath below] at found
      rw [← awaits.outside names below] at is
      refine walking.activeKept _ _ ((awaits.lists.own names inode watch is found).resolve_right fun lost => ?_)
      exact awaits.gone inode lost names (awaits.outside names below ▸ is)
  · intro inode wd watch active known
    rcases wd_cases known with ⟨member, rfl⟩ | ⟨other, before⟩
    · obtain ⟨names, inode', path, _, is, active'⟩ := awaits.filed top walking member
      obtain rfl := (kernel.view w.sys).active_injective _ _ _ active active'
      exact ⟨names, is, path ▸ newPath member⟩
    · rcases walking.activeOnly inode wd active with early | ⟨watch', member, directory⟩
      · obtain ⟨names, apart, is, found⟩ := awaits.around early before
        exact ⟨names, is, by rwa [oldPath apart]⟩
      · -- A directory that was walked has the descriptor it was filed with.
        obtain ⟨inode', directory', active'⟩ := walking.own watch' member
        rw [directory] at directory'
        cases directory'
        rw [active] at active'
        cases active'
        exact absurd (List.mem_map_of_mem member) other

end Awaits
end Inotispy
