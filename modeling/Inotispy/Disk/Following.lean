import Inotispy.Disk.Lasting
import Inotispy.Disk.Tables

/-! How the tables follow a change of the directories, record by record.

Between two changes no thread is at work and the tables list the directories. A record of a
directory that is gone takes out what is listed there; a record of a new one starts a walker,
which runs while the rest of the records is read.
-/

set_option autoImplicit false

namespace Inotispy
open Library

variable {σ Inode : Type}

/-! ## The root -/

/-- The only root there is, neither paused nor given up. -/
structure SingleRoot (base : Str) (root : RootRef) (roots : RootTable) : Prop where
  only : ∀ path other, roots.inotifyRoots.lookup path = some other ↔ path = base ∧ other = root
  path : (roots.heap root).path = some base
  live : (roots.heap root).destroy = false
  running : (roots.heap root).pause = false

namespace SingleRoot

variable {base : Str} {root : RootRef} {roots after : RootTable} (single : SingleRoot base root roots)
include single

theorem agree (agree : roots.Agree after) : SingleRoot base root after where
  only := by
    rw [agree.registered]
    exact single.only
  path := (agree.path root).trans single.path
  live := (agree.destroy root).trans single.live
  running := (agree.pause root).trans single.running

theorem serves (names : List Name) : Serves roots root (Path.join base names) :=
  ⟨single.live, base, single.path, by simp [Path.join]⟩

theorem pathToRoot (names : List Name) : roots.pathToRoot (Path.join base names) = some root := by
  have registered := (single.only base root).mpr ⟨rfl, rfl⟩
  have hit : Matches (Path.join base names) base := by
    cases names with
    | nil => exact .inl (Path.join_nil base)
    | cons name names =>
      refine .inr (List.IsPrefix.isInfix ?_)
      have below := (Path.slash_prefix_iff base [] (name :: names)).mpr ⟨name, names, rfl⟩
      rwa [Path.join_nil] at below
  cases found : roots.pathToRoot (Path.join base names) with
  | none => exact absurd hit ((pathToRoot_eq_none found).2 base ((GHashTable.mem_keys_iff _ _).mpr ⟨root, registered⟩))
  | some other =>
    obtain ⟨key, at_, _⟩ := pathToRoot_eq_some found
    rw [((single.only key other).mp at_).2]

end SingleRoot

variable [System σ] [DecidableEq Inode]

theorem Lasting.turns {host : Host σ Inode} {inv : World σ → Prop} (lasting : Lasting host inv) {w w' : World σ}
    (turns : Turns w w') (holds : inv w) : inv w' := by
  induction turns with
  | refl => exact holds
  | tail _ step ih =>
    obtain ⟨index, ran⟩ := step
    exact lasting.run index _ ih _ _ ran

/-! ## While nothing is at work -/

/-- No thread is at work. The disk shows the tree, of what was deleted no watch is active, and the
tables list the directories `node`, whose watches are as they were on the disk `start`. -/
structure Waiting (host : Host σ Inode) (base : Str) (root : RootRef) (tree : Tree Name Inode) (deleted : Inode → Prop)
    (start : Outside Inode) (node : List Name → Option Inode) (w : World σ) : Prop where
  idle : AllFinished w
  single : SingleRoot base root w.roots
  shows_ : Shows (host.view w.sys) base tree
  inactive : ∀ inode, deleted inode → (host.view w.sys).active inode = none
  gone : ∀ inode, deleted inode → ∀ names, tree.node names ≠ some inode
  fewer : ∀ inode wd, (host.view w.sys).active inode = some wd → start.active inode = some wd
  plain : ∀ names name, (node (names ++ [name])).isSome → ¬tmpStr <:+ name.text
  lists : Lists base node deleted (host.view w.sys) w.watches

variable {host : Host σ Inode} {base : Str} {root : RootRef} {tree : Tree Name Inode} {deleted : Inode → Prop}
  {start : Outside Inode} {node : List Name → Option Inode} {w : World σ}

omit [DecidableEq Inode] in
theorem AllFinished.run (idle : AllFinished w) {index : Nat} {a : Unit} {w' : World σ}
    (ran : runThread index w = .ok (a, w')) : w' = w := by
  obtain ⟨_, rfl⟩ | ⟨thread, _, _, found, _, _⟩ := runThread_eq_ok ran
  · rfl
  · rw [idle thread (List.mem_of_getElem? found)] at found
    exact (Program.ok_unique ran (runThread_finished found)).2

theorem Waiting.lasting : Lasting host (Waiting host base root tree deleted start node) where
  quiet view agree watches threads waiting :=
    { idle := by
        unfold AllFinished
        rw [threads]
        exact waiting.idle
      single := waiting.single.agree agree
      shows_ := view ▸ waiting.shows_
      inactive := view ▸ waiting.inactive
      gone := waiting.gone
      fewer := view ▸ waiting.fewer
      plain := waiting.plain
      lists := by
        rw [view, watches]
        exact waiting.lists }
  run index := by
    intro w waiting _ w' ran
    rw [waiting.idle.run ran]
    exact waiting

namespace Waiting

theorem remove (waiting : Waiting host base root tree deleted start node w) {place : List Name} {delete : Watch}
    (found : w.watches.inotifyPathToWatch.lookup (Path.join base place) = some delete) :
    Waiting host base root tree deleted start (Function.update node place none)
      { w with
        sys := (System.inotifyRmWatch w.sys delete.wd).2
        watches := w.watches.forget (Path.join base place) delete.wd } := by
  have loses := Outside.Loses.drop (host.view w.sys) delete.wd
  rw [← host.rmWatch] at loses
  exact
    { idle := waiting.idle
      single := waiting.single
      shows_ := waiting.shows_.same loses.toSameDisk
      inactive := by
        intro inode lost
        rw [Option.eq_none_iff_forall_ne_some]
        intro wd active
        have before := loses.fewer inode wd active
        rw [waiting.inactive inode lost] at before
        cases before
      gone := waiting.gone
      fewer := fun inode wd active => waiting.fewer inode wd (loses.fewer inode wd active)
      plain := by
        intro names name there
        by_cases same : names ++ [name] = place
        · rw [same, Function.update_self] at there
          cases there
        · rw [Function.update_of_ne same] at there
          exact waiting.plain names name there
      lists := by
        rw [host.rmWatch]
        exact waiting.lists.remove found }

def dropped (base : Str) (keys : List Str) (node : List Name → Option Inode) : List Name → Option Inode :=
  fun names => if Path.join base names ∈ keys then none else node names

omit [System σ] [DecidableEq Inode] in
theorem dropped_cons (place : List Name) (keys : List Str) (node : List Name → Option Inode) :
    dropped base (Path.join base place :: keys) node = dropped base keys (Function.update node place none) := by
  funext names
  unfold dropped
  by_cases same : names = place
  · subst same
    simp
  · have differs : Path.join base names ≠ Path.join base place := fun is => same (Path.join_injective is)
    simp [same, differs]

theorem unwatchBelow (waiting : Waiting host base root tree deleted start node w) {below : Str} {keys : List Str}
    {a : Unit} {w' : World σ} (ran : unwatchBelow (some below) keys w = .ok (a, w')) :
    Waiting host base root tree deleted start (dropped base (keys.filter (below <+: ·)) node) w' := by
  induction keys generalizing w node with
  | nil =>
    obtain ⟨_, rfl⟩ := Program.pure_eq_ok.mp ran
    have same : dropped base [] node = node := funext fun names => if_neg List.not_mem_nil
    rw [List.filter_nil, same]
    exact waiting
  | cons subPath keys ih =>
    simp only [Inotispy.unwatchBelow, deref, Program.pure_bind_apply, CString.strstr_eq_zero, Program.ite_eq_ok,
      lookupPath_bind] at ran
    obtain ⟨inside, ran⟩ | ⟨outside, ran⟩ := ran
    · rw [List.filter_cons_of_pos (by simpa using inside)]
      cases found : w.watches.inotifyPathToWatch.lookup subPath with
      | none =>
        rw [found] at ran
        -- The key has gone since the snapshot was taken, so no directory is listed under it.
        have same : dropped base (subPath :: keys.filter (below <+: ·)) node =
            dropped base (keys.filter (below <+: ·)) node := by
          funext names
          unfold dropped
          by_cases is : Path.join base names = subPath
          · have absent : node names = none := by
              rw [← Option.not_isSome_iff_eq_none]
              intro there
              have listed := (waiting.lists.keys subPath).mpr ⟨names, there, is.symm⟩
              rw [found] at listed
              cases listed
            simp [is, absent]
          · simp [is]
        rw [same]
        exact ih waiting ran
      | some subWatch =>
        simp only [found, inotifyRmWatch_bind, modifyWatches_bind] at ran
        obtain ⟨place, _, rfl⟩ := (waiting.lists.keys subPath).mp (by rw [found]; rfl)
        rw [dropped_cons]
        exact ih (waiting.remove found) ran
    · rw [List.filter_cons_of_neg (by simpa using outside)]
      exact ih waiting ran

omit [DecidableEq Inode] in
theorem dropped_eq_pruned {place : List Name} {keys : List Str}
    (all : ∀ names, (Function.update node place none names).isSome → Path.join base names ∈ keys) :
    dropped base (keys.filter (Path.join base place ++ str "/" <+: ·)) (Function.update node place none) =
      pruned place node := by
  have slash (names : List Name) : Path.join base place ++ str "/" <+: Path.join base names ↔
      ∃ name rest, names = place ++ name :: rest := Path.slash_prefix_iff base place names
  funext names
  unfold dropped
  by_cases same : names = place
  · subst same
    rw [pruned_below (List.prefix_refl _), Function.update_self, ite_self]
  by_cases below : place <+: names
  · rw [pruned_below below, Function.update_of_ne same]
    obtain ⟨rest, rfl⟩ := below
    cases there : node (place ++ rest) with
    | none => rw [ite_self]
    | some inode =>
      refine if_pos (List.mem_filter.mpr ⟨all _ ?_, decide_eq_true ((slash _).mpr ?_)⟩)
      · rw [Function.update_of_ne same, there]
        rfl
      · cases rest with
        | nil => exact absurd (List.append_nil place) same
        | cons name rest => exact ⟨name, rest, rfl⟩
  · rw [pruned_apart below, Function.update_of_ne same]
    refine if_neg fun member => below ?_
    obtain ⟨name, rest, rfl⟩ := (slash names).mp (of_decide_eq_true (List.mem_filter.mp member).2)
    exact List.prefix_append _ _

theorem handleGone (waiting : Waiting host base root tree deleted start node w) (top : TopPath base)
    (succeed : AllocationsSucceed σ) {event : InEvent} {place : List Name} (is : (node place).isSome)
    (alone : hasBit event.mask inMovedFrom = true ∨
      ∀ names, place <+: names → (node names).isSome → names = place) {queued : Bool} {w' : World σ}
    (ran : handleGone event (some (Path.join base place)) w = .ok (queued, w')) :
    Waiting host base root tree deleted start (pruned place node) w' := by
  obtain ⟨_, v, locking, ran⟩ := Program.bind_eq_ok ran
  have waiting := lasting.lock .inotify w waiting _ _ locking
  obtain ⟨delete, found⟩ := waiting.lists.entry is
  simp only [deref, Program.pure_bind_apply, lookupPath_bind, found, inotifyRmWatch_bind, modifyWatches_bind,
    top.join_absolute, if_true] at ran
  have removed := waiting.remove found
  simp only [Program.ite_eq_ok] at ran
  obtain ⟨moved, ran⟩ | ⟨stayed, ran⟩ := ran
  · simp only [Program.read_bind_apply, mkString_bind_allocated succeed] at ran
    obtain ⟨_, u, unwatching, ran⟩ := Program.bind_eq_ok ran
    have copied := lasting.asked (.malloc .refl) removed
    have below := copied.unwatchBelow unwatching
    rw [dropped_eq_pruned ?_] at below
    · exact (lasting.of_unlock_pure ran below).2
    · intro names there
      exact (GHashTable.mem_keys_iff _ _).mpr (copied.lists.entry there)
  · -- A directory that was deleted had nothing in it.
    have same : Function.update node place none = pruned place node := by
      funext names
      by_cases is : names = place
      · subst is
        rw [pruned_below (List.prefix_refl _), Function.update_self]
      · rw [Function.update_of_ne is]
        by_cases below : place <+: names
        · rw [pruned_below below, ← Option.not_isSome_iff_eq_none]
          exact fun there => is ((alone.resolve_left stayed) names below there)
        · rw [pruned_apart below]
    rw [same] at removed
    exact (lasting.of_unlock_pure ran removed).2

end Waiting

/-! ## While a new directory is walked -/

/-- A walker is at work at a place, below which it has found nothing listed that is left. -/
inductive Descends (host : Host σ Inode) (base : Str) (root : RootRef) (tree : Tree Name Inode) (w : World σ) : Prop where
  | intro {node : List Name → Option Inode} {deleted : Inode → Prop} {place : List Name} {disk : Outside Inode}
      {old : WatchTable} {new : List Watch} (single : SingleRoot base root w.roots)
      (awaits : Awaits base tree node deleted place disk old)
      (walking : Walking host.toKernel disk old root (Path.join base place) new w) : Descends host base root tree w

theorem Walking.roots_eq {kernel : Kernel σ Inode} {disk : Outside Inode} {old : WatchTable} {top : Str} {new : List Watch}
    {w' : World σ} (walking : Walking kernel disk old root top new w) {index : Nat} {a : Unit}
    (ran : runThread index w = .ok (a, w')) : w'.roots = w.roots := by
  obtain ⟨_, rfl⟩ | ⟨thread, next, v, found, stepped, rfl⟩ := runThread_eq_ok ran
  · rfl
  have from_ := walking.started thread (List.mem_of_getElem? found)
  have effect := (threadStep_effect stepped).roots
  change v.roots = w.roots
  generalize v.roots = after at effect ⊢
  cases effect with
  | same => rfl
  | free root is =>
    rw [is] at from_
    exact from_.elim
  | remove root tmp path is named =>
    rw [is] at from_
    exact from_.elim

theorem Descends.lasting (top : TopPath base) (succeed : AllocationsSucceed σ) :
    Lasting host (Descends host base root tree) where
  quiet view agree watches threads descends := by
    obtain ⟨single, awaits, walking⟩ := descends
    refine .intro (single.agree agree) awaits (walking.quiet view ((single.agree agree).serves _) (by rw [watches])
      (by rw [watches]) (by rw [threads]; exact walking.started) ?_)
    intro child _ pending
    rw [threads]
    exact .inr pending
  run index := by
    intro w descends _ w' ran
    obtain ⟨single, awaits, walking⟩ := descends
    obtain ⟨new, walked⟩ := walking.turn succeed (awaits.shows_.distinct top awaits.there) ran
    exact .intro (walking.roots_eq ran ▸ single) awaits walked

theorem Waiting.doWatchTree (waiting : Waiting host base root tree deleted start node w) (top : TopPath base)
    (succeed : AllocationsSucceed σ) (starts : ∀ s : σ, (System.pthreadCreate s).1 = true) {place : List Name}
    (there : (tree.node place).isSome) (outside : ∀ names, ¬place <+: names → node names = tree.node names)
    (inside : ∀ names inode, place <+: names → node names = some inode → (tree.node names).isSome ∧ deleted inode)
    {code : Option InotispyError} {w' : World σ}
    (ran : doWatchTree (some (Path.join base place)) root false w = .ok (code, w')) : Descends host base root tree w' := by
  obtain ⟨s, view, started⟩ : ∃ s, host.view s = host.view w.sys ∧ _ :=
    doWatchTree_starts succeed starts waiting.single.live (some (Path.join base place)) false
  rw [started] at ran
  cases ran
  have awaits : Awaits base tree node deleted place (host.view w.sys) w.watches :=
    ⟨waiting.shows_, waiting.lists, waiting.inactive, waiting.gone, there, outside, inside⟩
  refine .intro waiting.single awaits
    (awaits.start top view rfl rfl (waiting.single.serves place) ?_ ⟨_, List.mem_append_right _ List.mem_cons_self, .inl rfl⟩)
  intro thread member
  rcases List.mem_append.mp member with before | new
  · exact .inl (waiting.idle thread before)
  · exact .inr (.inl (List.mem_singleton.mp new))

theorem Waiting.handleNew (waiting : Waiting host base root tree deleted start node w) (top : TopPath base)
    (succeed : AllocationsSucceed σ) (starts : ∀ s : σ, (System.pthreadCreate s).1 = true) {dir place : List Name}
    (dirThere : (tree.node dir).isSome) (there : (tree.node place).isSome)
    (outside : ∀ names, ¬place <+: names → node names = tree.node names)
    (inside : ∀ names inode, place <+: names → node names = some inode → (tree.node names).isSome ∧ deleted inode)
    {queued : Bool} {w' : World σ}
    (ran : handleNew (Path.join base dir) (some (Path.join base place)) root w = .ok (queued, w')) :
    Descends host base root tree w' := by
  have plain : endsInTmp (Path.join base dir) = false := top.join_plain (waiting.shows_.plain_names dirThere)
  simp only [Inotispy.handleNew, plain, Bool.false_eq_true, if_false] at ran
  obtain ⟨_, v, yielding, ran⟩ := Program.bind_eq_ok ran
  have waiting := Waiting.lasting.yieldMain w waiting _ _ yielding
  obtain ⟨code, u, starting, ran⟩ := Program.bind_eq_ok ran
  obtain ⟨_, rfl⟩ := Program.pure_eq_ok.mp ran
  exact waiting.doWatchTree top succeed starts there outside inside starting

end Inotispy
