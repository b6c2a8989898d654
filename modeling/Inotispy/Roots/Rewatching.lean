import Inotispy.Model.Setup
import Inotispy.Requests.Whole
import Inotispy.Roots.Dump
import Inotispy.Threads.Moves
import Inotispy.Threads.Outside

/-! A daemon that starts watches the roots of its dump file again.

Each root that is registered makes it rewrite the file that it is reading. Where the file was
read at once nothing is lost by that, and since walkers leave the roots alone, the table ends
up with the roots whose directories open.
-/

set_option autoImplicit false

namespace Inotispy
open Library

variable {σ : Type} [System σ]

/-! ## What does not change while the daemon starts -/

/-- Which directories open. Asking, watching and unwatching leave that as it is. -/
structure Openings (σ : Type) [System σ] where
  opens : σ → Str → Bool
  opendir : ∀ s path, (System.opendir s path).1 = opens s path
  quiet : ∀ {s t : σ}, Quiet s t → opens t = opens s
  addWatch : ∀ s path mask, opens (System.inotifyAddWatch s path mask).2 = opens s
  rmWatch : ∀ s wd, opens (System.inotifyRmWatch s wd).2 = opens s

theorem Openings.unmoved (openings : Openings σ) (available : Str → Bool) :
    Unmoved fun s : σ => openings.opens s = available :=
  .of_addWatch (fun calls holds => (openings.quiet calls).trans holds)
    (fun s path mask holds => (openings.addWatch s path mask).trans holds)
    fun s wd holds => (openings.rmWatch s wd).trans holds

def Thread.SparesRoots : Thread → Prop
  | .destroyRoot _ => False
  | .destroyKeys _ _ _ => False
  | .destroyWatch _ _ _ _ _ => False
  | .destroyEntry _ _ _ _ _ => False
  | .destroyDump => False
  | _ => True

theorem Thread.SparesRoots.step {thread next : Thread} {w w' : World σ} (spares : thread.SparesRoots)
    (ran : threadStep thread w = .ok (next, w')) :
    next.SparesRoots ∧ w'.roots = w.roots ∧ w'.output = w.output := by
  cases threadStep_cases ran with
  | refuse | enter | leave | rest => exact ⟨trivial, rfl, rfl⟩
  | walk stepped => exact ⟨trivial, doWatchTreeRec_spares stepped⟩
  | memclean step => cases step <;> exact ⟨trivial, rfl, rfl⟩
  | _ => exact spares.elim

/-- The daemon while it starts: these roots are registered, this is its dump file, and only walkers run. -/
structure Starting (openings : Openings σ) (available : Str → Bool) (roots : RootTable) (file : Str) (w : World σ) : Prop where
  opens : openings.opens w.sys = available
  roots : w.roots = roots
  file : w.output.dumpFile = file
  threads : ∀ thread ∈ w.pool.threads, thread.SparesRoots

section
variable {openings : Openings σ} {available : Str → Bool} {roots : RootTable} {file : Str} {w : World σ}

theorem Starting.asked (starting : Starting openings available roots file w) {s : σ} (quiet : Quiet w.sys s) :
    Starting openings available roots file { w with sys := s } :=
  ⟨(openings.quiet quiet).trans starting.opens, starting.roots, starting.file, starting.threads⟩

theorem runThread_starting (index : Nat) : Keeps (Starting openings available roots file) (runThread index) := by
  intro w starting _ w' ran
  have opens := (openings.unmoved available).steady.run index w starting.opens _ w' ran
  obtain ⟨_, rfl⟩ | ⟨thread, next, v, found, stepped, rfl⟩ := runThread_eq_ok ran
  · exact starting
  · obtain ⟨spares, sameRoots, sameOutput⟩ := (starting.threads thread (List.mem_of_getElem? found)).step stepped
    refine ⟨opens, sameRoots.trans starting.roots, (congrArg (·.dumpFile) sameOutput).trans starting.file, ?_⟩
    intro other member
    rw [(threadStep_effect stepped).threads] at member
    rcases List.mem_or_eq_of_mem_set member with old | rfl
    · exact starting.threads other old
    · exact spares

theorem yieldMain_starting : Keeps (Starting openings available roots file) yieldMain := by
  intro w starting _ w' ran
  simp only [yieldMain, Program.read_bind_apply] at ran
  cases schedule : w.pool.schedule with
  | nil =>
    rw [schedule] at ran
    obtain ⟨_, rfl⟩ := Program.pure_eq_ok.mp ran
    exact starting
  | cons turn later =>
    rw [schedule] at ran
    simp only [modifyPool_bind] at ran
    refine Keeps.forEach (fun index _ => runThread_starting index) _ ?_ _ w' ran
    exact ⟨starting.opens, starting.roots, starting.file, starting.threads⟩

theorem lock_starting (mutex : Mutex) : Keeps (Starting openings available roots file) (lock mutex) := by
  apply Keeps.bind yieldMain_starting
  intro _ w starting _ w' ran
  rw [← bind_pure (acquire mutex), acquire_bind_eq_ok] at ran
  obtain ⟨_, ran⟩ := ran
  obtain ⟨_, rfl⟩ := Program.pure_eq_ok.mp ran
  exact ⟨starting.opens, starting.roots, starting.file, starting.threads⟩

theorem unlock_starting (mutex : Mutex) : Keeps (Starting openings available roots file) (unlock mutex) := by
  refine Keeps.bind ?_ fun _ => yieldMain_starting
  intro w starting _ w' ran
  rw [release_eq_ok.mp ran]
  exact ⟨starting.opens, starting.roots, starting.file, starting.threads⟩

end

/-! ## One root -/

/-- The text that `inotify_dump_roots` writes. -/
def RootTable.dump (roots : RootTable) : Str := ((roots.inotifyRoots.values.map roots.heap).filter (·.rewatch)).flatMap dumpLine

/-- The dump file after a dump, which may fail to open it. -/
def Dumps (σ : Type) [System σ] (roots : RootTable) (before after : Str) : Prop :=
  after = roots.dump ∨ after = before ∧ ¬∀ s : σ, (System.fopenDump s).1 = true

section
variable (succeed : AllocationsSucceed σ) {openings : Openings σ} {available : Str → Bool} {roots : RootTable}
  {file path : Str}

theorem inotifyDumpRoots_starting : Triple (Starting openings available roots file) inotifyDumpRoots fun _ w =>
    ∃ text, Dumps σ roots file text ∧ Starting openings available roots text w := by
  refine Triple.bind (lock_starting .inotify) ?_
  intro _
  have writes : Triple (Starting openings available roots file) dumpRootsSection fun _ w =>
      ∃ text, Dumps σ roots file text ∧ Starting openings available roots text w := by
    intro w starting _ w' ran
    have after := starting.asked (.fopenDump .refl)
    simp only [dumpRootsSection, call_bind, Program.ite_eq_ok, Program.pure_eq_ok, Program.read_bind_apply] at ran
    obtain ⟨closed, _, rfl⟩ | ⟨_, ran⟩ := ran
    · refine ⟨file, .inr ⟨rfl, fun opens => ?_⟩, after⟩
      simp [opens] at closed
    · cases ran
      exact ⟨_, .inl rfl, after.opens, after.roots, by rw [RootTable.dump, ← after.roots], after.threads⟩
  refine Triple.bind writes fun _ => ?_
  intro w dumped a w' ran
  obtain ⟨text, dumps, starting⟩ := dumped
  exact ⟨text, dumps, unlock_starting .inotify w starting a w' ran⟩

theorem doWatchTree_starting (tree : Option Str) (root : RootRef) (cleanup : Bool) :
    Keeps (Starting openings available roots file) (doWatchTree tree root cleanup) := by
  have asks : Keeps (Starting openings available roots file) malloc := by
    intro w starting _ w' ran
    cases ran
    exact starting.asked (.malloc .refl)
  have copies : Keeps (Starting openings available roots file) (mkString (percentS tree)) := by
    apply Keeps.bind asks
    intro allocated
    apply Keeps.ite' <;> exact fun _ => Keeps.pure'
  have starts (copy : Option Str) :
      Keeps (Starting openings available roots file) (spawn (.watchTree ⟨copy, root, cleanup⟩)) := by
    intro w starting started w' ran
    rw [← bind_pure (spawn _), spawn_bind] at ran
    have after := starting.asked (.pthreadCreate .refl)
    split at ran <;> obtain ⟨_, rfl⟩ := Program.pure_eq_ok.mp ran
    · refine ⟨after.opens, after.roots, after.file, fun thread member => ?_⟩
      rcases List.mem_append.mp member with old | new
      · exact starting.threads thread old
      · rw [List.mem_singleton.mp new]
        exact trivial
    · exact after
  apply Keeps.bind Keeps.read'
  intro r
  apply Keeps.ite'
  · exact fun _ => Keeps.pure'
  intro _
  apply Keeps.bind asks
  intro allocated
  apply Keeps.ite'
  · exact fun _ => Keeps.pure'
  intro _
  apply Keeps.bind copies
  intro copy
  apply Keeps.bind (starts copy)
  intro started
  apply Keeps.ite' <;> exact fun _ => Keeps.pure'

include succeed

theorem watchTreeCheck_starting (path : Str) :
    Triple (Starting openings available roots file) (watchTreeCheck path) fun code w =>
      Starting openings available roots file w ∧
        (code = none ↔ roots.pathToRoot path = none ∧ roots.isParent path = none) := by
  have still := (openings.unmoved available).still
  refine Triple.bind (lock_starting .inotify) ?_
  rintro _ w ⟨opens, rfl, rfl, threads⟩ code w' ran
  obtain ⟨s, searching⟩ := inotifyPathToRoot_run succeed path w
  have first := still.inotifyPathToRoot path w opens _ _ searching
  rw [Program.bind_ok _ _ _ _ _ searching] at ran
  cases above : w.roots.pathToRoot path with
  | some root =>
    simp only [above] at ran
    obtain ⟨_, v, leaving, ran⟩ := Program.bind_eq_ok ran
    have held : Starting openings available w.roots w.output.dumpFile { w with sys := s } := ⟨first, rfl, rfl, threads⟩
    have after := unlock_starting .inotify _ held _ _ leaving
    simp only [getRoot_bind, deref_bind_eq_ok, Program.ite_eq_ok, Program.pure_eq_ok] at ran
    obtain ⟨_, _, ⟨_, ⟨_, rfl, rfl⟩ | ⟨_, rfl, rfl⟩⟩ | ⟨_, rfl, rfl⟩⟩ := ran <;> exact ⟨after, by simp⟩
  | none =>
    simp only [above] at ran
    obtain ⟨t, parenting⟩ := inotifyIsParent_run succeed path { w with sys := s }
    have second := still.inotifyIsParent path { w with sys := s } first _ _ parenting
    rw [Program.bind_ok _ _ _ _ _ parenting] at ran
    obtain ⟨_, v, leaving, ran⟩ := Program.bind_eq_ok ran
    obtain ⟨rfl, rfl⟩ := Program.pure_eq_ok.mp ran
    refine ⟨unlock_starting .inotify _ ⟨second, rfl, rfl, threads⟩ _ _ leaving, ?_⟩
    cases below : w.roots.isParent path <;> simp

theorem watchTreeInsert_starting (mask : UInt32) (maxEvents : Int32) :
    Triple (Starting openings available roots file) (watchTreeInsert path mask maxEvents true) fun made w =>
      made = some roots.nextRoot ∧ Starting openings available
        (roots.register path ⟨some path, mask, maxEvents, some [], false, false, true, false⟩) file w := by
  refine Triple.bind (lock_starting .inotify) ?_
  intro _ w starting made w' ran
  simp only [makeRoot, bind_assoc, malloc_bind, succeed w.sys, mkString_bind_allocated succeed, Program.read_bind_apply,
    modifyRoots_bind, Program.pure_bind_apply, Bool.not_true, Bool.false_eq_true, if_false] at ran
  obtain ⟨_, v, leaving, ran⟩ := Program.bind_eq_ok ran
  obtain ⟨rfl, rfl⟩ := Program.pure_eq_ok.mp ran
  have after := starting.asked (.malloc (.malloc .refl))
  rw [← starting.roots]
  refine ⟨rfl, unlock_starting .inotify _ ?_ _ _ leaving⟩
  exact ⟨after.opens, rfl, after.file, after.threads⟩

/-- No root is found above or below the path. -/
def RootTable.Admits (roots : RootTable) (path : Str) : Prop := roots.pathToRoot path = none ∧ roots.isParent path = none

instance (roots : RootTable) (path : Str) : Decidable (roots.Admits path) :=
  inferInstanceAs (Decidable (roots.pathToRoot path = none ∧ roots.isParent path = none))

theorem inotifyWatchTree_starting (path : Str) (mask : UInt32) (maxEvents : Int32) :
    Triple (Starting openings available roots file) (inotifyWatchTree path mask maxEvents true) fun _ w =>
      if roots.Admits (trimSlash path) ∧ available (trimSlash path) = true then
        let after := roots.register (trimSlash path)
          ⟨some (trimSlash path), mask, maxEvents, some [], false, false, true, false⟩
        ∃ text, Dumps σ after file text ∧ Starting openings available after text w
      else Starting openings available roots file w := by
  rw [inotifyWatchTree]
  generalize trimSlash path = path
  refine Triple.bind (watchTreeCheck_starting succeed path) fun code => ?_
  rintro w ⟨starting, admits⟩ answer w' ran
  cases code with
  | some err =>
    obtain ⟨_, rfl⟩ := Program.pure_eq_ok.mp ran
    rw [if_neg fun both => nomatch admits.mpr both.1]
    exact starting
  | none =>
    have admits : roots.Admits path := admits.mp rfl
    simp only [opendir_bind, openings.opendir, starting.opens] at ran
    have asked := starting.asked (.opendir path .refl)
    cases open_ : available path with
    | false =>
      simp only [open_, Bool.not_false, if_true, Program.pure_eq_ok] at ran
      obtain ⟨_, rfl⟩ := ran
      simpa using asked
    | true =>
      rw [if_pos ⟨admits, rfl⟩]
      simp only [open_, Bool.not_true, Bool.false_eq_true, if_false] at ran
      obtain ⟨made, u, inserting, ran⟩ := Program.bind_eq_ok ran
      obtain ⟨rfl, inserted⟩ := watchTreeInsert_starting succeed mask maxEvents _ asked _ _ inserting
      obtain ⟨_, v, dumping, ran⟩ := Program.bind_eq_ok ran
      obtain ⟨text, dumps, dumped⟩ := inotifyDumpRoots_starting _ inserted _ _ dumping
      rw [getRoot_bind] at ran
      exact ⟨text, dumps, doWatchTree_starting _ _ _ _ dumped _ _ ran⟩

end

/-! ## Roots that are not in each other's way -/

/-- A test of a watch request for one of the paths finds the other. -/
def Clash (path other : Str) : Prop :=
  path = other ∨ path ++ str "/" <:+: other ∨ other ++ str "/" <:+: path ∨ path = str "/" ∨ other = str "/"

/-- No root is in the way of one at `path`. -/
def RootTable.Clear (roots : RootTable) (path : Str) : Prop := ∀ key ∈ roots.inotifyRoots.keys, ¬Clash key path

def RootTable.listed (roots : RootTable) : List Root := roots.inotifyRoots.values.map roots.heap

def Root.again (root : Root) : Root := ⟨root.path, root.mask, root.maxEvents, some [], false, false, true, false⟩

/-- A root whose line is read back, and whose path is taken as it stands. -/
structure Root.Rereadable (root : Root) : Prop where
  watched : root.Watched
  plain : root.Plain
  trimmed : trimSlash (percentS root.path) = percentS root.path

theorem RootTable.Clear.above {roots : RootTable} {path : Str} (clear : roots.Clear path) : roots.pathToRoot path = none := by
  by_contra found
  obtain ⟨root, found⟩ := Option.ne_none_iff_exists'.mp found
  obtain ⟨key, registered, how⟩ := pathToRoot_eq_some found
  refine clear key ((GHashTable.mem_keys_iff _ _).mpr ⟨root, registered⟩) ?_
  rcases how with top | ⟨_, same | inside⟩
  · exact .inr (.inr (.inr (.inl top)))
  · exact .inl same.symm
  · exact .inr (.inl inside)

theorem RootTable.Clear.below {roots : RootTable} {path : Str} (clear : roots.Clear path) : roots.isParent path = none := by
  rw [RootTable.isParent, List.find?_eq_none]
  intro key member found
  exact clear key member (.inr (.inr (.inl (by simpa using found))))

theorem RootTable.Clear.admits {roots : RootTable} {path : Str} (clear : roots.Clear path) : roots.Admits path :=
  ⟨clear.above, clear.below⟩

theorem RootTable.Admits.new {roots : RootTable} {path : Str} (admits : roots.Admits path) :
    roots.inotifyRoots.lookup path = none :=
  (GHashTable.lookup_eq_none_iff _ _).mpr fun member => (pathToRoot_eq_none admits.1).2 path member (.inl rfl)

theorem RootTable.Clear.new {roots : RootTable} {path : Str} (clear : roots.Clear path) :
    roots.inotifyRoots.lookup path = none :=
  (GHashTable.lookup_eq_none_iff _ _).mpr fun member => clear path member (.inl rfl)

theorem RootTable.listed_register {roots : RootTable} (registered : Registered roots) {path : Str}
    (new : roots.inotifyRoots.lookup path = none) (made : Root) :
    (roots.register path made).listed = made :: roots.listed := by
  have entries : (roots.register path made).inotifyRoots.entries = ⟨path, roots.nextRoot⟩ :: roots.inotifyRoots.entries :=
    AList.entries_insert_of_notMem ((AList.lookup_eq_none).mp new)
  rw [listed, GHashTable.values, entries, List.map_cons, List.map_cons, listed]
  refine congrArg₂ List.cons (by simp [register]) (List.map_congr_left fun root member => ?_)
  -- The cell of the new root is one that no other has.
  obtain ⟨key, found⟩ := (GHashTable.mem_values_iff _ _).mp member
  exact Function.update_of_ne (Nat.ne_of_lt (registered.made key root found)) _ _

theorem RootTable.dump_register {roots : RootTable} (registered : Registered roots) {path : Str}
    (new : roots.inotifyRoots.lookup path = none) {made : Root} (rewatch : made.rewatch = true) :
    (roots.register path made).dump = dumpLine made ++ roots.dump := by
  have are := listed_register registered new made
  simp only [listed] at are
  rw [dump, are, List.filter_cons_of_pos (by simpa using rewatch), List.flatMap_cons, dump]

/-- The roots that are still to be read, besides those that are registered. -/
structure Outstanding (limit : Nat) (roots : RootTable) (todo : List Root) : Prop where
  registered : Registered roots
  clear : ∀ root ∈ todo, roots.Clear (percentS root.path)
  apart : todo.Pairwise fun a b => ¬Clash (percentS a.path) (percentS b.path)
  readable : ∀ root ∈ todo, root.Rereadable
  room : roots.dump.length + (todo.flatMap dumpLine).length ≤ limit

section
variable {limit : Nat} {roots : RootTable} {root : Root} {todo : List Root} (outstanding : Outstanding limit roots (root :: todo))
include outstanding

theorem Outstanding.skip : Outstanding limit roots todo where
  registered := outstanding.registered
  clear other member := outstanding.clear other (List.mem_cons_of_mem _ member)
  apart := (List.pairwise_cons.mp outstanding.apart).2
  readable other member := outstanding.readable other (List.mem_cons_of_mem _ member)
  room := by
    have := outstanding.room
    rw [List.flatMap_cons, List.length_append] at this
    omega

theorem Outstanding.register : Outstanding limit (roots.register (percentS root.path) root.again) todo := by
  have new := (outstanding.clear root List.mem_cons_self).new
  obtain ⟨path, named, _⟩ := (outstanding.readable root List.mem_cons_self).watched.absolute
  refine ⟨outstanding.registered.register (by rw [Root.again, named, percentS]), ?_, outstanding.skip.apart, outstanding.skip.readable, ?_⟩
  · intro other member key is
    rcases RootTable.mem_keys_register is with rfl | old
    · exact (List.pairwise_cons.mp outstanding.apart).1 other member
    · exact outstanding.skip.clear other member key old
  · have := outstanding.room
    have line : dumpLine root.again = dumpLine root := rfl
    rw [List.flatMap_cons, List.length_append] at this
    rw [RootTable.dump_register outstanding.registered new rfl, List.length_append, line]
    omega

end

/-! ## The loop -/

theorem fgets_dumpLine {block limit : Nat} (positive : 0 < block) {root : Root} (plain : root.Plain) {stream : Stream}
    {file rest : Str} (unread : stream.unread file = dumpLine root ++ rest)
    (loads : stream.Loaded limit ∨ stream = .start ∧ file.length ≤ block ∧ limit = file.length) :
    ∃ after, stream.fgets block file lineRoom = (dumpLine root, after) ∧ after.Loaded limit ∧ after.unread file = rest := by
  obtain ⟨after, got, left⟩ := Stream.fgets_unread positive file stream lineRoom
  have lines : Stream.lines (stream.unread file) = dumpLine root :: Stream.lines rest := by
    have single := lines_dumpLine plain.newline
    rw [dumpLine_eq] at single
    rw [unread, dumpLine_eq, List.append_assoc, List.singleton_append, Stream.lines_append, single, List.singleton_append]
  rw [Stream.takeLine_lines lines, List.take_of_length_le plain.short] at got left
  refine ⟨after, got, ?_, by rw [left, unread, List.drop_left]⟩
  rw [show after = (stream.fgets block file lineRoom).2 by rw [got]]
  rcases loads with loaded | ⟨rfl, fits, rfl⟩
  · exact loaded.fgets block file lineRoom
  · exact Stream.loaded_fgets_start fits 1022

section
variable (succeed : AllocationsSucceed σ) {openings : Openings σ} {available : Str → Bool} {inv : World σ → Prop}
  (watches : ∀ (path : Str) (mask : UInt32) (maxEvents : Int32), path.head? = some '/' →
    Keeps inv (inotifyWatchTree path mask maxEvents true))

def opening (available : Str → Bool) (roots : List Root) : List Root := roots.filter fun root => available (percentS root.path)

/-- Where the loop ends up: the roots whose directories open are registered, and if there are any the dump file
lists them and no others. -/
structure Rewatched (openings : Openings σ) (available : Str → Bool) (roots : RootTable) (file : Str)
    (todo : List Root) (w : World σ) : Prop where
  starting : Starting openings available w.roots w.output.dumpFile w
  registered : Registered w.roots
  listed : w.roots.listed.Perm ((opening available todo).map Root.again ++ roots.listed)
  kept : opening available todo = [] → w.roots = roots ∧ w.output.dumpFile = file
  dumped : (∀ s : σ, (System.fopenDump s).1 = true) → opening available todo ≠ [] → w.output.dumpFile = w.roots.dump

include succeed watches

theorem inotifySetupRewatch_run {block limit : Nat} (positive : 0 < block) (todo : List Root) {roots : RootTable}
    {file : Str} {w : World σ} {rounds : Nat} {stream : Stream} (outstanding : Outstanding limit roots todo)
    (enough : todo.length < rounds) (sound : Sound w) (starting : Starting openings available roots file w) (holds : inv w)
    (unread : stream.unread file = todo.flatMap dumpLine) (short : file.length ≤ limit)
    (loads : stream.Loaded limit ∨ stream = .start ∧ file.length ≤ block ∧ limit = file.length) :
    ∃ w', inotifySetupRewatch block rounds stream w = .ok (some (.ok ()), w') ∧ Sound w' ∧ inv w' ∧
      Rewatched openings available roots file todo w' := by
  induction todo generalizing roots file w rounds stream with
  | nil =>
    obtain ⟨rounds, rfl⟩ := Nat.exists_eq_succ_of_ne_zero (Nat.ne_of_gt (Nat.lt_of_le_of_lt (Nat.zero_le _) enough))
    obtain ⟨after, got, _⟩ := Stream.fgets_unread positive file stream lineRoom
    rw [unread, List.flatMap_nil] at got
    have is := starting.roots
    refine ⟨w, ?_, sound, holds, ?_⟩
    · simp only [inotifySetupRewatch, Program.read_bind_apply, starting.file, got]
      rfl
    · refine ⟨⟨starting.opens, rfl, rfl, starting.threads⟩, is ▸ outstanding.registered, ?_, fun _ => ⟨is, starting.file⟩, fun _ none => ?_⟩
      · rw [is]
        exact List.Perm.refl _
      · exact absurd rfl none
  | cons root todo ih =>
    obtain ⟨rounds, rfl⟩ := Nat.exists_eq_succ_of_ne_zero (Nat.ne_of_gt (Nat.lt_of_le_of_lt (Nat.zero_le _) enough))
    have readable := outstanding.readable root List.mem_cons_self
    have clear := outstanding.clear root List.mem_cons_self
    rw [List.flatMap_cons] at unread
    obtain ⟨after, got, loaded, left⟩ := fgets_dumpLine positive readable.plain unread loads
    have line := (taken_iff readable.watched readable.plain.newline).mpr ⟨readable.plain.comma, readable.plain.maxEvents⟩
    obtain ⟨path, named, absolute, _⟩ := readable.watched.absolute
    -- The line is read, and the root it stands for is watched.
    have round : inotifySetupRewatch block (rounds + 1) stream w =
        (do
          let _ ← inotifyWatchTree path root.mask root.maxEvents true
          inotifySetupRewatch block rounds after : M σ (Option (Except DumpFault Unit))) w := by
      have nonempty : dumpLine root ≠ [] := by simp [dumpLine_eq]
      simp only [inotifySetupRewatch, Program.read_bind_apply, starting.file, got, nonempty, if_false, line, Root.entry,
        named, percentS, UInt32.toUInt32_toInt32]
    obtain ⟨code, v, ran, free⟩ := inotifyWatchTree_stays succeed path root.mask root.maxEvents true w
      ⟨sound.inotify, sound.zmq, rfl, sound.whole⟩
    rw [round, Program.bind_ok _ _ _ _ _ ran]
    have trimmed := readable.trimmed
    rw [named, percentS] at trimmed clear
    have watched := inotifyWatchTree_starting succeed path _ _ w starting code v ran
    rw [trimmed] at watched
    have sound' : Sound v := ⟨free.inotify, free.zmq, free.whole⟩
    have holds' := watches path root.mask root.maxEvents absolute w holds code v ran
    have enough' : todo.length < rounds := Nat.lt_of_succ_lt_succ enough
    cases open_ : available path with
    | false =>
      rw [open_, if_neg fun both => Bool.false_ne_true both.2] at watched
      have skipped : opening available (root :: todo) = opening available todo :=
        List.filter_cons_of_neg (by simp [named, percentS, open_])
      obtain ⟨w', ended, sound'', holds'', is⟩ :=
        ih outstanding.skip enough' sound' watched holds' left short (.inl loaded)
      refine ⟨w', ended, sound'', holds'', ?_⟩
      exact ⟨is.starting, is.registered, skipped ▸ is.listed, skipped ▸ is.kept, skipped ▸ is.dumped⟩
    | true =>
      rw [open_, if_pos ⟨clear.admits, rfl⟩] at watched
      obtain ⟨text, dumps, watched⟩ := watched
      have kept : opening available (root :: todo) = root :: opening available todo :=
        List.filter_cons_of_pos (by simp [named, percentS, open_])
      have registered := outstanding.register
      have made : root.again = ⟨some path, root.mask, root.maxEvents, some [], false, false, true, false⟩ := by
        rw [Root.again, named]
      rw [named, percentS, made] at registered
      have short' : text.length ≤ limit := by
        rcases dumps with rfl | ⟨rfl, _⟩
        · have := registered.room
          omega
        · exact short
      -- What was read before the file was rewritten is what is still to come.
      have left' : after.unread text = todo.flatMap dumpLine :=
        (loaded.unread short').trans ((loaded.unread short).symm.trans left)
      obtain ⟨w', ended, sound'', holds'', is⟩ :=
        ih registered enough' sound' watched holds' left' short' (.inl loaded)
      refine ⟨w', ended, sound'', holds'', is.starting, is.registered, ?_, ?_, ?_⟩
      · have listed := is.listed
        rw [RootTable.listed_register outstanding.registered clear.new, ← made] at listed
        rw [kept, List.map_cons]
        exact listed.trans List.perm_middle
      · rw [kept]
        exact fun none => absurd none (List.cons_ne_nil _ _)
      · intro opens _
        by_cases none : opening available todo = []
        · obtain ⟨same, text_⟩ := is.kept none
          rw [same, text_]
          exact dumps.resolve_right fun failed => failed.2 opens
        · exact is.dumped opens none

variable (openings inv) in
/-- `inotify_setup` over a dump that fits one block, for the daemon that comes after `w`. -/
theorem inotifySetup_run {block : Nat} (positive : 0 < block) {w : World σ} {roots : List Root}
    (file : w.output.dumpFile = roots.flatMap dumpLine) (fits : w.output.dumpFile.length ≤ block)
    (readable : ∀ root ∈ roots, root.Rereadable)
    (apart : roots.Pairwise fun a b => ¬Clash (percentS a.path) (percentS b.path)) (sys : σ) (turns : List (List Nat))
    (maxInotifyEvents : Int32) (holds : inv (w.restarted sys turns maxInotifyEvents)) {rounds : Nat}
    (enough : roots.length < rounds) :
    ∃ w', inotifySetup ⟨true, true, true⟩ block rounds (w.restarted sys turns maxInotifyEvents) =
        .ok (some (.ok true), w') ∧ Sound w' ∧ inv w' ∧
      Rewatched openings (openings.opens sys) (World.initial sys).roots w.output.dumpFile roots w' := by
  have outstanding : Outstanding w.output.dumpFile.length (World.initial sys).roots roots :=
    ⟨.empty rfl, fun _ _ => nofun, apart, readable, by rw [file]; exact Nat.le_of_eq (Nat.zero_add _)⟩
  have initial := Sound.initial sys
  have sound : Sound (w.restarted sys turns maxInotifyEvents) :=
    ⟨initial.inotify, initial.zmq, initial.whole.of_same rfl rfl⟩
  have starting : Starting openings (openings.opens sys) (World.initial sys).roots w.output.dumpFile
      (w.restarted sys turns maxInotifyEvents) := ⟨rfl, rfl, rfl, nofun⟩
  have unread : Stream.start.unread w.output.dumpFile = roots.flatMap dumpLine := file
  obtain ⟨w', ran, sound', holds', is⟩ := inotifySetupRewatch_run succeed watches positive roots outstanding enough sound
    starting holds unread (Nat.le_refl _) (.inr ⟨rfl, fits, rfl⟩)
  refine ⟨w', ?_, sound', holds', is⟩
  simp only [inotifySetup, Bool.not_true, Bool.false_eq_true, if_false, Program.bind_ok _ _ _ _ _ ran]
  rfl

end

/-- A daemon that starts over a dump that fits one block, with lines that can be read back and roots that are not in
each other's way, registers exactly those whose directories open, as they were, whatever its walkers do meanwhile.
The others are gone from the dump as soon as one is registered. -/
theorem dumped_roots_watched_again (succeed : AllocationsSucceed σ) (openings : Openings σ) {block : Nat}
    (positive : 0 < block) {w : World σ} {roots : List Root} (file : w.output.dumpFile = roots.flatMap dumpLine)
    (fits : w.output.dumpFile.length ≤ block) (readable : ∀ root ∈ roots, root.Rereadable)
    (apart : roots.Pairwise fun a b => ¬Clash (percentS a.path) (percentS b.path)) (sys : σ) (turns : List (List Nat))
    (maxInotifyEvents : Int32) {rounds : Nat} (enough : roots.length < rounds) :
    ∃ w', inotifySetup ⟨true, true, true⟩ block rounds (w.restarted sys turns maxInotifyEvents) =
        .ok (some (.ok true), w') ∧ Sound w' ∧ Registered w'.roots ∧
      w'.roots.listed.Perm ((opening (openings.opens sys) roots).map Root.again) ∧
      (opening (openings.opens sys) roots = [] → w'.output.dumpFile = w.output.dumpFile) ∧
      ((∀ s : σ, (System.fopenDump s).1 = true) → opening (openings.opens sys) roots ≠ [] →
        w'.output.dumpFile = w'.roots.dump) := by
  obtain ⟨w', ran, sound, _, is⟩ := inotifySetup_run succeed openings (fun _ => True)
    (fun _ _ _ _ _ _ _ _ _ => trivial) positive file fits readable apart sys turns maxInotifyEvents trivial enough
  have listed := is.listed
  rw [show (World.initial sys).roots.listed = [] from rfl, List.append_nil] at listed
  exact ⟨w', ran, sound, is.registered, listed, fun none => (is.kept none).2, is.dumped⟩

def Script.openings : Openings (Script true) where
  opens _ _ := true
  opendir _ _ := rfl
  quiet _ := rfl
  addWatch _ _ _ := rfl
  rmWatch _ _ := rfl

def siblings : List Root :=
  [str "/srv/a", str "/srv/b"].map fun path => ⟨some path, inotifyDefaultMask, 65536, some [], false, false, true, false⟩

def World.siblingsDumped : World (Script true) :=
  { World.initial (⟨[1, 2]⟩ : Script true) with output.dumpFile := siblings.flatMap dumpLine }

theorem siblings_rereadable : ∀ root ∈ siblings, root.Rereadable := by
  intro root member
  rcases List.mem_pair.mp member with rfl | rfl
  all_goals exact ⟨⟨⟨_, rfl, by decide, by decide⟩, by decide⟩, ⟨by decide, by decide, by decide, by decide⟩, by decide⟩

theorem siblings_watched_again : ∃ w', inotifySetup ⟨true, true, true⟩ 4096 3
      (World.siblingsDumped.restarted ⟨[1, 2]⟩ [[0], [], [0, 1]] 65536) = .ok (some (.ok true), w') ∧
    w'.roots.listed.Perm siblings ∧ w'.output.dumpFile = w'.roots.dump := by
  obtain ⟨w', ran, _, _, listed, _, dumped⟩ := dumped_roots_watched_again (fun _ => rfl) Script.openings (by decide : 0 < 4096)
    (show World.siblingsDumped.output.dumpFile = siblings.flatMap dumpLine from rfl) (by decide) siblings_rereadable
    (by simp only [siblings, List.map, List.pairwise_pair, Clash]; decide) ⟨[1, 2]⟩ [[0], [], [0, 1]] 65536
    (by decide : siblings.length < 3)
  exact ⟨w', ran, listed, dumped (fun _ => rfl) (by decide)⟩

end Inotispy
