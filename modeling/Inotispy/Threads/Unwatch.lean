import Inotispy.Events.Interleaving
import Inotispy.Model.Script

/-! Unwatching a root while its walkers run.

Once the destroy flag is set, no walker of the root gets past the test in its critical
section. The snapshot that the destroy thread takes of the keys is therefore complete,
and what is still to be removed is always among the keys it has left.
-/

set_option autoImplicit false

namespace Inotispy
open Library

variable {σ : Type} [System σ]

/-! ## Cells and addresses -/

/-- Registered roots have cells that were given out, and no other path than their key;
watches have addresses that were given out. -/
structure Placed (roots : RootTable) (watches : WatchTable) : Prop where
  made : ∀ key root, roots.inotifyRoots.lookup key = some root → root < roots.nextRoot
  named : ∀ key root, roots.inotifyRoots.lookup key = some root →
    ∀ path, (roots.heap root).path = some path → path = key
  addressed : ∀ entry ∈ watches.inserted, entry.2.addr < watches.nextWatch

section
variable {roots after : RootTable} {watches left : WatchTable} (placed : Placed roots watches)
include placed

theorem Placed.settle (settles : Settles roots after) : Placed after watches := by
  refine ⟨fun key root found => ?_, fun key root found path is => ?_, placed.addressed⟩
  · rw [settles.nextRoot]
    exact placed.made key root (settles.kept key root found)
  · rw [settles.paths] at is
    exact placed.named key root (settles.kept key root found) path is

theorem Placed.thin (thins : Thins watches left) : Placed roots left := by
  refine ⟨placed.made, placed.named, fun entry member => ?_⟩
  rw [thins.inserted] at member
  rw [thins.nextWatch]
  exact placed.addressed entry member

theorem Placed.register {path : Str} {made : Root} (is : Made path made) :
    Placed (roots.register path made) watches := by
  refine ⟨fun key root found => ?_, fun key root found path' named => ?_, placed.addressed⟩
  · simp only [RootTable.register, GHashTable.lookup_insert_if] at found
    split at found
    · cases found
      exact Nat.lt_succ_self _
    · exact Nat.lt_succ_of_lt (placed.made key root found)
  · simp only [RootTable.register, GHashTable.lookup_insert_if] at found named
    split at found
    · cases found
      rw [Function.update_self] at named
      rcases is.path with same | none
      · rw [same] at named
        cases named
        exact (‹key = path›).symm
      · rw [none] at named
        cases named
    · rw [Function.update_of_ne (Nat.ne_of_lt (placed.made key root found))] at named
      exact placed.named key root found path' named

end

theorem Placed.watchesEffect {w : World σ} (placed : Placed w.roots w.watches) {thread : Thread}
    {watches : WatchTable} (effect : WatchesEffect thread w watches) : Placed w.roots watches := by
  refine ⟨placed.made, placed.named, fun entry member => ?_⟩
  cases effect with
  | same skipped => exact Nat.lt_add_right skipped (placed.addressed entry member)
  | forget path watch how => exact placed.addressed entry member
  | file data path rest is files =>
    rcases List.mem_append.mp member with old | new
    · exact Nat.lt_succ_of_lt (placed.addressed entry old)
    · cases List.mem_singleton.mp new
      exact Nat.lt_succ_self _

theorem durable_placed : Durable fun w : World σ => Placed w.roots w.watches where
  toSteady := .of_tables Placed fun effect placed =>
    (placed.watchesEffect effect.watches).settle (Shrinks.of_effect effect.roots).toSettles
  toThinning := .of_thins (fun _ _ => id) fun _ _ thins placed => placed.thin thins
  settles _ _ settles placed := placed.settle settles
  uses _ _ := id
  joins _ _ := id
  registers _ _ _ placed is _ := placed.register is

omit [System σ] in
theorem placed_initial (sys : σ) : Placed (World.initial sys).roots (World.initial sys).watches := by
  constructor <;> simp [World.initial]

theorem Reachable.placed {w : World σ} (reachable : Reachable w) : Placed w.roots w.watches := by
  obtain ⟨sys, run⟩ := reachable
  induction run with
  | refl => exact placed_initial sys
  | tail _ next ih =>
    cases next with
    | restart sys => exact placed_initial sys
    | step next => exact next.keeps durable_placed ih

/-! ## A destroyed root -/

/-- The root at `path` is destroyed, and no walker of it has entered a watch since the tables
were `old`. -/
structure Doomed (root : RootRef) (path : Str) (old : WatchTable) (roots : RootTable)
    (watches : WatchTable) : Prop extends Placed roots watches where
  given : root < roots.nextRoot
  path : (roots.heap root).path = some path
  destroyed : (roots.heap root).destroy = true
  entered : watches.inserted.filter (·.1 = root) = old.inserted.filter (·.1 = root)

/-- The entries that the root's walkers have made at or below a path, and that are still there,
lie under the given keys. -/
def Remain (root : RootRef) (watches : WatchTable) (below : Str → Prop) (keys : List Str) : Prop :=
  ∀ key watch, watches.inotifyPathToWatch.lookup key = some watch → below key →
    (root, watch) ∈ watches.inserted → key ∈ keys

structure Gone (root : RootRef) (path : Str) (roots : RootTable) (watches : WatchTable) : Prop where
  entries : Remain root watches (fun key => key = path ∨ path ++ str "/" <+: key) []
  root : ∀ key, roots.inotifyRoots.lookup key ≠ some root

/-- What the root's destroy thread knows at each point. -/
def DestroyedUpTo (root : RootRef) (path : Str) (roots : RootTable) (watches : WatchTable) :
    Thread → Prop
  | .destroyRoot r => r = root
  | .destroyKeys r tmp keys => r = root ∧ (tmp = none ∨ tmp = some (path ++ str "/")) ∧
      Remain root watches (path ++ str "/" <+: ·) keys
  | .destroyWatch r tmp key _ keys => r = root ∧ (tmp = none ∨ tmp = some (path ++ str "/")) ∧
      Remain root watches (path ++ str "/" <+: ·) (key :: keys)
  | .destroyEntry r tmp key _ keys => r = root ∧ (tmp = none ∨ tmp = some (path ++ str "/")) ∧
      Remain root watches (path ++ str "/" <+: ·) (key :: keys)
  | .destroyDump => Gone root path roots watches
  | .finished => Gone root path roots watches
  | _ => False

/-- No entry of the root's walkers comes back. -/
def Calm (root : RootRef) (before after : WatchTable) : Prop :=
  ∀ key watch, after.inotifyPathToWatch.lookup key = some watch → (root, watch) ∈ after.inserted →
    before.inotifyPathToWatch.lookup key = some watch ∧ (root, watch) ∈ before.inserted

section
variable {root : RootRef} {path : Str} {old before after : WatchTable} {roots later : RootTable}

theorem Remain.calm {below : Str → Prop} {keys : List Str} (remain : Remain root before below keys)
    (calm : Calm root before after) : Remain root after below keys := by
  intro key watch found inside entered
  obtain ⟨found, entered⟩ := calm key watch found entered
  exact remain key watch found inside entered

theorem DestroyedUpTo.calm {thread : Thread} (upTo : DestroyedUpTo root path roots before thread)
    (calm : Calm root before after)
    (kept : ∀ key, later.inotifyRoots.lookup key = some root → roots.inotifyRoots.lookup key = some root) :
    DestroyedUpTo root path later after thread := by
  cases thread with
  | destroyRoot r => exact upTo
  | destroyKeys r tmp keys => exact ⟨upTo.1, upTo.2.1, upTo.2.2.calm calm⟩
  | destroyWatch r tmp key watch keys => exact ⟨upTo.1, upTo.2.1, upTo.2.2.calm calm⟩
  | destroyEntry r tmp key watch keys => exact ⟨upTo.1, upTo.2.1, upTo.2.2.calm calm⟩
  | destroyDump => exact ⟨upTo.entries.calm calm, fun key found => upTo.root key (kept key found)⟩
  | finished => exact ⟨upTo.entries.calm calm, fun key found => upTo.root key (kept key found)⟩
  | _ => exact upTo.elim

theorem Calm.thin (thins : Thins before after) : Calm root before after :=
  fun key watch found entered => ⟨thins.byPath key watch found, thins.inserted ▸ entered⟩

end

/-- A walker of a destroyed root enters nothing. -/
theorem Doomed.watchesEffect {root : RootRef} {path : Str} {old : WatchTable} {w : World σ}
    (doomed : Doomed root path old w.roots w.watches) {thread : Thread} {watches : WatchTable}
    (effect : WatchesEffect thread w watches) :
    Doomed root path old w.roots watches ∧ Calm root w.watches watches := by
  have placed := doomed.toPlaced.watchesEffect effect
  cases effect with
  | same skipped =>
    exact ⟨⟨placed, doomed.given, doomed.path, doomed.destroyed, doomed.entered⟩, fun _ _ => And.intro⟩
  | forget key watch how =>
    exact ⟨⟨placed, doomed.given, doomed.path, doomed.destroyed, doomed.entered⟩,
      .thin (.forget w.watches key watch.wd)⟩
  | file data key rest is files =>
    -- The walker found its root live, so it works for another.
    have other : data.root ≠ root := by
      rintro rfl
      have live := files.live
      rw [doomed.destroyed] at live
      cases live
    refine ⟨⟨placed, doomed.given, doomed.path, doomed.destroyed, ?_⟩, fun key' watch found entered => ?_⟩
    · simpa [WatchTable.file, other] using doomed.entered
    · have entered : (root, watch) ∈ w.watches.inserted := by
        simpa [WatchTable.file, Ne.symm other] using entered
      refine ⟨?_, entered⟩
      simp only [WatchTable.file, GHashTable.lookup_insert_if] at found
      split at found
      · cases found
        -- The new entry has an address that no entry made before it has.
        exact absurd (doomed.addressed _ entered) (Nat.lt_irrefl _)
      · exact found

theorem Doomed.settle {root : RootRef} {path : Str} {old watches : WatchTable} {roots after : RootTable}
    (doomed : Doomed root path old roots watches) (settles : Settles roots after) :
    Doomed root path old after watches :=
  ⟨doomed.toPlaced.settle settles, settles.nextRoot ▸ doomed.given, settles.paths root ▸ doomed.path,
    settles.destroyed root doomed.destroyed, doomed.entered⟩

omit [System σ] in
theorem Doomed.remove {root : RootRef} {path key : Str} {old watches : WatchTable} {w : World σ}
    (doomed : Doomed root path old w.roots w.watches)
    (remain : Remain root w.watches (path ++ str "/" <+: ·) []) (named : (w.roots.heap root).path = some key)
    (own : w.watches.inotifyPathToWatch.lookup key = none ∧ watches = w.watches ∨
      ∃ wd, watches = w.watches.forget key wd) : Gone root path (w.roots.remove key) watches := by
  rw [doomed.path] at named
  cases named
  have unregistered : ∀ key, (w.roots.remove path).inotifyRoots.lookup key ≠ some root := by
    intro key found
    simp only [RootTable.remove, GHashTable.lookup_erase_if] at found
    split at found
    · cases found
    · exact ‹key ≠ path› (doomed.named key root found path doomed.path).symm
  obtain ⟨missing, rfl⟩ | ⟨wd, rfl⟩ := own
  · refine ⟨fun key watch found inside entered => ?_, unregistered⟩
    rcases inside with rfl | below
    · rw [missing] at found
      cases found
    · exact remain key watch found below entered
  · refine ⟨fun key watch' found inside entered => ?_, unregistered⟩
    simp only [WatchTable.forget, GHashTable.lookup_erase_if] at found
    split at found
    · cases found
    · exact remain key watch' found (inside.resolve_left ‹_›) entered

theorem DestroyedUpTo.step {root : RootRef} {path : Str} {old : WatchTable} {thread next : Thread}
    {w w' : World σ} (doomed : Doomed root path old w.roots w.watches)
    (upTo : DestroyedUpTo root path w.roots w.watches thread)
    (ran : threadStep thread w = .ok (next, w')) :
    DestroyedUpTo root path w'.roots w'.watches next := by
  cases threadStep_cases ran with
  | free made =>
    obtain rfl := upTo
    -- Every entry that is there now is in the snapshot.
    refine ⟨rfl, ?_, fun key watch found _ _ => (GHashTable.mem_keys_iff _ _).mpr ⟨watch, found⟩⟩
    rwa [doomed.path] at made
  | @pass r below key keys skipped =>
    obtain ⟨rfl, made, remain⟩ := upTo
    refine ⟨rfl, made, fun other watch found inside entered => ?_⟩
    rcases List.mem_cons.mp (remain other watch found inside entered) with rfl | member
    · obtain ⟨rfl⟩ : below = path ++ str "/" := by simpa using made
      rcases skipped with outside | missing
      · exact absurd inside outside
      · rw [missing] at found
        cases found
    · exact member
  | look | giveUp | dump | rest => exact upTo
  | forget =>
    obtain ⟨rfl, made, remain⟩ := upTo
    refine ⟨rfl, made, fun other watch' found inside entered => ?_⟩
    simp only [WatchTable.forget, GHashTable.lookup_erase_if] at found
    split at found
    · cases found
    · exact (List.mem_cons.mp (remain other watch' found inside entered)).resolve_left ‹_›
  | bare named missing =>
    obtain ⟨rfl, _, remain⟩ := upTo
    exact doomed.remove remain named (.inl ⟨missing, rfl⟩)
  | finish named found =>
    obtain ⟨rfl, _, remain⟩ := upTo
    exact doomed.remove remain named (.inr ⟨_, rfl⟩)
  | memclean step => cases step <;> exact upTo.elim
  | _ => exact upTo.elim

/-! ## The destroy thread in the pool -/

/-- The root is destroyed, and its destroy thread stands at a position of the pool. -/
def BeingDestroyed (root : RootRef) (path : Str) (old : WatchTable) (index : Nat) (w : World σ) : Prop :=
  Doomed root path old w.roots w.watches ∧
    ∃ thread, w.pool.threads[index]? = some thread ∧ DestroyedUpTo root path w.roots w.watches thread

omit [System σ] in
theorem BeingDestroyed.joins {root : RootRef} {path : Str} {old : WatchTable} {index : Nat} {w : World σ}
    (holds : BeingDestroyed root path old index w) (thread : Thread) :
    BeingDestroyed root path old index { w with pool.threads := w.pool.threads ++ [thread] } := by
  obtain ⟨doomed, known, at_index, upTo⟩ := holds
  refine ⟨doomed, known, ?_, upTo⟩
  rw [List.getElem?_append_left (List.getElem?_eq_some_iff.mp at_index).1]
  exact at_index

theorem steady_doomed (root : RootRef) (path : Str) (old : WatchTable) :
    Steady fun w : World σ => Doomed root path old w.roots w.watches :=
  .of_tables (Doomed root path old) fun effect doomed =>
    (doomed.watchesEffect effect.watches).1.settle (Shrinks.of_effect effect.roots).toSettles

theorem steady_beingDestroyed (root : RootRef) (path : Str) (old : WatchTable) (index : Nat) :
    Steady (σ := σ) (BeingDestroyed root path old index) where
  quiet rests holds := by rwa [BeingDestroyed, rests.roots, rests.watches, rests.threads]
  spawned thread _ holds := holds.joins thread
  run turn := by
    rintro w ⟨doomed, known, at_index, upTo⟩ _ w' ran
    obtain ⟨_, rfl⟩ | ⟨thread, next, v, found, stepped, rfl⟩ := runThread_eq_ok ran
    · exact ⟨doomed, known, at_index, upTo⟩
    have effect := threadStep_effect stepped
    obtain ⟨after, calm⟩ := doomed.watchesEffect effect.watches
    have settles := (Shrinks.of_effect effect.roots).toSettles
    refine ⟨after.settle settles, ?_⟩
    have inside := (List.getElem?_eq_some_iff.mp at_index).1
    by_cases mine : turn = index
    · -- The destroy thread itself takes the step.
      subst mine
      rw [at_index] at found
      cases found
      have done := upTo.step doomed stepped
      refine ⟨next, ?_, done⟩
      rw [effect.threads, List.getElem?_set_self inside]
    · refine ⟨known, ?_, upTo.calm calm fun key => settles.kept key root⟩
      simpa [effect.threads, List.getElem?_set_ne mine] using at_index

theorem durable_beingDestroyed (root : RootRef) (path : Str) (old : WatchTable) (index : Nat) :
    Durable (σ := σ) (BeingDestroyed root path old index) where
  toSteady := steady_beingDestroyed root path old index
  toThinning := by
    refine .of_thins (fun _ _ => id) ?_
    rintro v watches thins ⟨doomed, thread, at_index, upTo⟩
    exact ⟨⟨doomed.toPlaced.thin thins, doomed.given, doomed.path, doomed.destroyed,
      thins.inserted ▸ doomed.entered⟩, thread, at_index, upTo.calm (.thin thins) fun _ => id⟩
  settles := by
    rintro v roots settles ⟨doomed, thread, at_index, upTo⟩
    exact ⟨doomed.settle settles, thread, at_index, upTo.calm (fun _ _ => And.intro)
      fun key => settles.kept key root⟩
  uses _ _ := id
  joins _ other holds := holds.joins (.destroyRoot other)
  registers := by
    rintro v path' made ⟨doomed, thread, at_index, upTo⟩ is _
    have older := Nat.ne_of_lt doomed.given
    refine ⟨⟨doomed.toPlaced.register is, Nat.lt_succ_of_lt doomed.given, ?_, ?_, doomed.entered⟩,
      thread, at_index, upTo.calm (fun _ _ => And.intro) fun key found => ?_⟩
    · simpa [RootTable.register, Function.update_of_ne older] using doomed.path
    · simpa [RootTable.register, Function.update_of_ne older] using doomed.destroyed
    · simp only [RootTable.register, GHashTable.lookup_insert_if] at found
      split at found
      · cases found
        exact absurd rfl older
      · exact found

theorem destroyRoot_beingDestroyed {root : RootRef} {path : Str} {w w' : World σ}
    (reachable : Reachable w) (registered : w.roots.inotifyRoots.lookup path = some root)
    (named : (w.roots.heap root).path = some path) (ran : destroyRoot root w = .ok (none, w')) :
    BeingDestroyed root path w.watches (w'.pool.threads.length - 1) w' := by
  have placed := reachable.placed
  have settles := Settles.setRoot w.roots root (fun r => { r with destroy := true }) (fun _ => rfl)
    fun _ _ => rfl
  rw [destroyRoot, modifyRoots_bind] at ran
  obtain ⟨_, u, yielding, ran⟩ := Program.bind_eq_ok ran
  -- The flag is set before any other thread runs.
  have flagged : Doomed root path w.watches
      (w.roots.setRoot root fun r => { r with destroy := true }) w.watches :=
    ⟨placed.settle settles, placed.made path root registered, (settles.paths root).trans named,
      by simp, rfl⟩
  have doomed : Doomed root path w.watches u.roots u.watches :=
    (steady_doomed root path w.watches).yieldMain _ flagged _ _ yielding
  rw [spawn_bind] at ran
  split at ran
  · obtain ⟨_, rfl⟩ := Program.pure_eq_ok.mp ran
    exact ⟨doomed, .destroyRoot root, by simp, rfl⟩
  · cases ran

/-- After `destroy_root`, no walker of the root enters a watch any more; and when its destroy
thread has ended, no entry that a walker of the root made at or below its path is left, and
the root is no longer registered. -/
theorem unwatch_wins {root : RootRef} {path : Str} {w v w' : World σ} (reachable : Reachable w)
    (registered : w.roots.inotifyRoots.lookup path = some root)
    (named : (w.roots.heap root).path = some path) (started : destroyRoot root w = .ok (none, v))
    (run : Relation.ReflTransGen DaemonStep v w') :
    w'.watches.inserted.filter (·.1 = root) = w.watches.inserted.filter (·.1 = root) ∧
      (w'.pool.threads[v.pool.threads.length - 1]? = some .finished →
        (∀ key watch, w'.watches.inotifyPathToWatch.lookup key = some watch →
          key = path ∨ path ++ str "/" <+: key → (root, watch) ∉ w'.watches.inserted) ∧
        ∀ key, w'.roots.inotifyRoots.lookup key ≠ some root) := by
  have holds : BeingDestroyed root path w.watches (v.pool.threads.length - 1) w' := by
    -- The thread keeps its place in the pool, and how far it has come is kept up with the tables.
    induction run with
    | refl => exact destroyRoot_beingDestroyed reachable registered named started
    | tail _ step ih => exact step.keeps (durable_beingDestroyed root path _ _) ih
  obtain ⟨doomed, thread, at_index, upTo⟩ := holds
  refine ⟨doomed.entered, fun finished => ?_⟩
  rw [at_index] at finished
  cases finished
  refine ⟨fun key watch found inside entered => ?_, upTo.root⟩
  exact List.not_mem_nil (upTo.entries key watch found inside entered)

theorem DaemonStep.of_turns {turns : List Nat} {w w' : World σ} (ran : Program.forEach runThread turns w = .ok ((), w')) :
    Relation.ReflTransGen DaemonStep w w' :=
  Program.reaches_of_forEach (fun _ _ _ _ turn => .thread turn) ran

/-- "/a" is watched with "/a/b" in it, which is made, and a walker for "/a/b/c" has been started when "/a" is unwatched.
The walker runs while the destroy thread goes through its keys. -/
theorem unwatched_root_gone :
    ∃ w : World (Script true), w.pool.threads = [.finished, .finished, .finished, .finished] ∧
      (w.watches.inserted.map fun entry => (entry.1, entry.2.path)) = [(0, str "/a"), (0, str "/a/b")] ∧
      (∀ key watch, w.watches.inotifyPathToWatch.lookup key = some watch →
        key = str "/a" ∨ str "/a" ++ str "/" <+: key → (0, watch) ∉ w.watches.inserted) ∧
      ∀ key, w.roots.inotifyRoots.lookup key ≠ some 0 := by
  have facts : (((do
      let _ ← inotifyWatchTree (str "/a") inotifyDefaultMask 65536 false
      Program.forEach runThread [0, 0, 0, 0, 0]
      let _ ← inotifyHandleRecord ⟨1, inCreate ||| inIsdir, 0, 16, str "b"⟩
      Program.forEach runThread [1, 1, 1, 1, 1]
      let _ ← inotifyHandleRecord ⟨2, inCreate ||| inIsdir, 0, 16, str "c"⟩
      return () : M (Script true) Unit)
        (World.initial ⟨[1, 2]⟩)).toOption.bind fun r =>
      (destroyRoot 0 r.2).toOption.bind fun started =>
        (Program.forEach runThread [3, 3, 2, 3, 3, 3, 3, 3] started.2).toOption.map fun done =>
          decide (r.2.roots.inotifyRoots.lookup (str "/a") = some 0 ∧ (r.2.roots.heap 0).path = some (str "/a") ∧
            started.1 = none ∧ started.2.pool.threads.length = 4 ∧
            done.2.pool.threads = [.finished, .finished, .finished, .finished] ∧
            (done.2.watches.inserted.map fun entry => (entry.1, entry.2.path)) = [(0, str "/a"), (0, str "/a/b")]))
      = some true := by decide +kernel
  obtain ⟨⟨_, w⟩, before, facts⟩ := Option.bind_eq_some_iff.mp facts
  obtain ⟨⟨code, v⟩, started, facts⟩ := Option.bind_eq_some_iff.mp facts
  obtain ⟨⟨_, w'⟩, after, facts⟩ := Option.map_eq_some_iff.mp facts
  obtain ⟨registered, named, rfl, length, finished, inserted⟩ := of_decide_eq_true facts
  have reachable : Reachable w := by
    have next {a b : World (Script true)} (steps : Relation.ReflTransGen DaemonStep a b) :
        Relation.ReflTransGen DaemonOrRestart a b := steps.lift id fun _ _ => .step
    obtain ⟨_, _, watched, rest⟩ := Program.bind_eq_ok (Program.ok_of_toOption before)
    obtain ⟨_, _, walked, rest⟩ := Program.bind_eq_ok rest
    obtain ⟨_, _, created, rest⟩ := Program.bind_eq_ok rest
    obtain ⟨_, _, walked', rest⟩ := Program.bind_eq_ok rest
    obtain ⟨_, _, created', rest⟩ := Program.bind_eq_ok rest
    obtain ⟨_, rfl⟩ := Program.pure_eq_ok.mp rest
    exact ⟨_, ((((Relation.ReflTransGen.single (.step (.watch watched))).trans (next (DaemonStep.of_turns walked))).tail
      (.step (.record created))).trans (next (DaemonStep.of_turns walked'))).tail (.step (.record created'))⟩
  have gone := (unwatch_wins reachable registered named (Program.ok_of_toOption started)
    (DaemonStep.of_turns (Program.ok_of_toOption after))).2
  rw [length, finished] at gone
  exact ⟨w', finished, inserted, gone rfl⟩

end Inotispy
