import Inotispy.Events.Effects
import Inotispy.Model.Script

/-! The two tables of watches.

One thread at a time changes the tables: a walker that inserts a directory, the main
thread that handles an event, a destroy thread or the memclean thread. The entries of
`inotify_path_to_watch` always have their counterpart in `inotify_wd_to_watch`; the
converse holds as long as no path is watched again while its old entry stands.
-/

set_option autoImplicit false

namespace Inotispy
open Library

variable {σ : Type} [System σ]

namespace WatchTable

/-- Each entry of the path table is filed under its own, absolute path, and the
descriptor table holds the same entry. -/
structure Anchored (watches : WatchTable) : Prop where
  anchored : PairedTables.Anchored Watch.wd Watch.path watches.inotifyWdToWatch
    watches.inotifyPathToWatch
  absolute : ∀ p watch, watches.inotifyPathToWatch.lookup p = some watch → p.head? = some '/'

/-- And no entry of the descriptor table is left over. -/
structure Consistent (watches : WatchTable) : Prop extends Anchored watches where
  filed : GHashTable.Filed Watch.wd watches.inotifyWdToWatch
  current : PairedTables.Current Watch.path watches.inotifyWdToWatch watches.inotifyPathToWatch

structure ForgetClosed (inv : WatchTable → Prop) : Prop where
  absolute : ∀ watches, inv watches →
    ∀ p watch, watches.inotifyPathToWatch.lookup p = some watch → p.head? = some '/'
  nextWatch : ∀ watches n, inv watches → inv { watches with nextWatch := n }
  forget : ∀ watches path watch, inv watches →
    watches.inotifyPathToWatch.lookup path = some watch → inv (watches.forget path watch.wd)

theorem lookupPath_forget {watches : WatchTable} {path p : Str} {wd : Int} {watch : Watch}
    (found : (watches.forget path wd).inotifyPathToWatch.lookup p = some watch) :
    watches.inotifyPathToWatch.lookup p = some watch := by
  simp only [forget, GHashTable.lookup_erase_if] at found
  split at found
  · cases found
  · exact found

theorem Anchored.closed : ForgetClosed Anchored where
  absolute _ inv := inv.absolute
  nextWatch _ _ inv := ⟨inv.anchored, inv.absolute⟩
  forget _ _ _ inv found :=
    ⟨inv.anchored.erase found, fun p watch lookup => inv.absolute p watch (lookupPath_forget lookup)⟩

theorem Consistent.closed : ForgetClosed Consistent where
  absolute _ inv := inv.absolute
  nextWatch _ _ inv := ⟨⟨inv.anchored, inv.absolute⟩, inv.filed, inv.current⟩
  forget watches path watch inv found :=
    ⟨Anchored.closed.forget watches path watch inv.toAnchored found, inv.filed.erase watch.wd,
      inv.current.erase inv.filed found⟩

theorem Anchored.file {watches : WatchTable} (inv : Anchored watches) (root : RootRef) (watch : Watch)
    (absolute : watch.path.head? = some '/')
    (new : watches.inotifyWdToWatch.lookup watch.wd = none) : Anchored (watches.file root watch) := by
  refine ⟨inv.anchored.insert watch new, fun p v found => ?_⟩
  simp only [WatchTable.file, GHashTable.lookup_insert_if] at found
  split at found
  · subst p
    exact absolute
  · exact inv.absolute p v found

theorem Consistent.file {watches : WatchTable} (inv : Consistent watches) (root : RootRef)
    (watch : Watch) (absolute : watch.path.head? = some '/')
    (new : watches.inotifyWdToWatch.lookup watch.wd = none)
    (first : watches.inotifyPathToWatch.lookup watch.path = none) :
    Consistent (watches.file root watch) :=
  ⟨inv.toAnchored.file root watch absolute new, inv.filed.insert watch, inv.current.insert watch first⟩

theorem Consistent.empty {watches : WatchTable} (noWd : watches.inotifyWdToWatch = ∅)
    (noPath : watches.inotifyPathToWatch = ∅) : Consistent watches := by
  refine ⟨⟨?_, ?_⟩, ?_, ?_⟩ <;> simp only [noWd, noPath]
  · exact .empty
  · simp
  · exact .empty
  · exact .empty

end WatchTable

/-! ## One thread at a time -/

/-- What a destroy thread knows of the watch it has looked up. Walkers are left out:
what they do to the tables is an insertion. -/
def Owns (watches : WatchTable) : Thread → Prop
  | .destroyWatch _ _ path watch _ => watches.inotifyPathToWatch.lookup path = some watch
  | .destroyEntry _ _ path watch _ => watches.inotifyPathToWatch.lookup path = some watch
  | .watchTree _ => False
  | .watchTreeRec _ _ => False
  | _ => True

theorem threadStep_owns {thread next : Thread} {w w' : World σ} (owns : Owns w.watches thread)
    (ran : threadStep thread w = .ok (next, w')) : Owns w'.watches next := by
  cases threadStep_cases ran with
  | refuse => trivial
  | enter | walk | leave => exact owns.elim
  | look inside found => exact found
  | giveUp => exact owns
  | memclean step => cases step <;> trivial
  | _ => trivial

section
variable {inv : WatchTable → Prop} (closed : WatchTable.ForgetClosed inv)
include closed

theorem threadStep_closed {thread next : Thread} {w w' : World σ} (owns : Owns w.watches thread)
    (start : inv w.watches) (ran : threadStep thread w = .ok (next, w')) : inv w'.watches := by
  have effect := (threadStep_effect ran).watches
  generalize w'.watches = after at effect
  cases effect with
  | same n => exact closed.nextWatch _ _ start
  | file data path rest is => subst is; exact owns.elim
  | forget path watch how =>
    cases how with
    | entry root tmp keys is => subst is; exact closed.forget _ path watch start owns
    | root root tmp is named found => exact closed.forget _ path watch start found
    | memclean keys is found => exact closed.forget _ path watch start found

theorem inotifyHandleRecord_closed {event : InEvent} {round : Round} {w w' : World σ}
    (alone : w.pool.schedule = []) (start : inv w.watches)
    (ran : inotifyHandleRecord event w = .ok (round, w')) : inv w'.watches := by
  obtain ⟨_, ⟨s, n, rfl⟩, _⟩ | ⟨path, root, queued, v, _, _, effect, offer⟩ :=
    inotifyHandleRecord_eq_ok alone ran
  · exact start
  have handled : inv v.watches := by
    cases effect with
    | plain s => exact start
    | notStarted s => exact start
    | started s => exact start
    | unknown s => exact start
    | gone s delete _ _ _ known =>
      simp only [WatchTable.forgetGone_absolute (closed.absolute _ start _ delete known) known]
      exact WatchTable.forgetAll_keeps closed.forget _ _ start
  obtain ⟨_, rfl⟩ | ⟨code, _, _, _, offering⟩ := offer
  · exact handled
  obtain ⟨s, locks, used, ⟨_, rfl⟩ | ⟨name, copy, _, _, _, _, rfl⟩⟩ :=
    inotifyEnqueue_eq_ok (effect.frame.2.1.trans alone) offering
  · exact handled
  · exact handled

end

/-- The steps that can change the tables, each begun when no other is under way: the
first component is the thread at work, `finished` between two of them. Insertions are
subject to a condition; what leaves the tables alone may happen at any time. -/
inductive TableStep (may : World σ → Str → RootRef → Bool → Prop) :
    Thread × World σ → Thread × World σ → Prop where
  | insertion {w w' : World σ} (path : Str) (root : RootRef) (cleanup went : Bool)
      (absolute : path.head? = some '/') (allowed : may w path root cleanup)
      (ran : doWatchTreeSection path root cleanup w = .ok (went, w')) :
      TableStep may (.finished, w) (.finished, w')
  | event {w w' : World σ} (event : InEvent) (round : Round) (alone : w.pool.schedule = [])
      (ran : inotifyHandleRecord event w = .ok (round, w')) :
      TableStep may (.finished, w) (.finished, w')
  | destruction (w : World σ) (root : RootRef) : TableStep may (.finished, w) (.destroyRoot root, w)
  | memclean (w : World σ) : TableStep may (.finished, w) (.memclean, w)
  | thread {thread next : Thread} {w w' : World σ} (ran : threadStep thread w = .ok (next, w')) :
      TableStep may (thread, w) (next, w')
  | outside (thread : Thread) {w w' : World σ} (same : w'.watches = w.watches) :
      TableStep may (thread, w) (thread, w')

theorem TableStep.closed {may : World σ → Str → RootRef → Bool → Prop} {inv : WatchTable → Prop}
    (closed : WatchTable.ForgetClosed inv)
    (files : ∀ {w w' : World σ} {path : Str} {root : RootRef} {cleanup went : Bool},
      path.head? = some '/' → may w path root cleanup → inv w.watches →
      doWatchTreeSection path root cleanup w = .ok (went, w') → inv w'.watches)
    {before after : Thread × World σ} (run : Relation.ReflTransGen (TableStep may) before after)
    (idle : before.1 = .finished) (start : inv before.2.watches) : inv after.2.watches := by
  -- A destroy thread erases what it looked up a step before, so the entry must still be there.
  suffices both : inv after.2.watches ∧ Owns after.2.watches after.1 from both.1
  induction run with
  | refl => exact ⟨start, by rw [idle]; trivial⟩
  | tail _ step ih =>
    obtain ⟨holds, owns⟩ := ih
    cases step with
    | insertion path root cleanup went absolute allowed ran =>
      exact ⟨files absolute allowed holds ran, trivial⟩
    | event event round alone ran =>
      exact ⟨inotifyHandleRecord_closed closed alone holds ran, trivial⟩
    | destruction w root => exact ⟨holds, trivial⟩
    | memclean w => exact ⟨holds, trivial⟩
    | thread ran => exact ⟨threadStep_closed closed owns holds ran, threadStep_owns owns ran⟩
    | outside thread same => exact ⟨same ▸ holds, same ▸ owns⟩

/-! ## Whole runs -/

/-- In every state reached, whatever is inserted, each entry of the path table has its
counterpart, and different paths have different descriptors. -/
theorem path_entries_anchored (sys : σ) {thread : Thread} {w : World σ}
    (run : Relation.ReflTransGen (TableStep fun _ _ _ _ => True)
      (.finished, World.initial sys) (thread, w)) :
    (∀ p watch, w.watches.inotifyPathToWatch.lookup p = some watch →
        watch.path = p ∧ w.watches.inotifyWdToWatch.lookup watch.wd = some watch) ∧
      ∀ p q v watch, w.watches.inotifyPathToWatch.lookup p = some v →
        w.watches.inotifyPathToWatch.lookup q = some watch → p ≠ q → v.wd ≠ watch.wd := by
  have final : w.watches.Anchored := by
    refine TableStep.closed WatchTable.Anchored.closed ?_ run rfl (WatchTable.Consistent.empty rfl rfl).toAnchored
    intro w w' path root cleanup went absolute _ inv ran
    obtain ⟨s, ⟨_, ⟨n, rfl⟩, _⟩ | ⟨_, files, rfl⟩⟩ := doWatchTreeSection_cases ran
    · exact WatchTable.Anchored.closed.nextWatch _ _ inv
    · exact (WatchTable.Anchored.closed.nextWatch _ _ inv).file root _ absolute files.new
  refine ⟨final.anchored, fun p q v watch atP atQ differs same => ?_⟩
  exact differs (final.anchored.wd_injective atP atQ same)

/-- Two directories are watched, the second is filed again under a new descriptor, and a destroy thread has come as
far as removing it. -/
theorem path_entries_anchored_removal :
    ∃ (thread : Thread) (w : World (Script true)),
      Relation.ReflTransGen (TableStep fun _ _ _ _ => True) (.finished, World.initial ⟨[1, 2, 3]⟩) (thread, w) ∧
      w.watches.inotifyPathToWatch.keys = [str "/r"] ∧ w.watches.inotifyWdToWatch.keys = [2, 1] ∧
      ∀ p watch, w.watches.inotifyPathToWatch.lookup p = some watch →
        watch.path = p ∧ w.watches.inotifyWdToWatch.lookup watch.wd = some watch := by
  have facts : ((do
      let _ ← doWatchTreeSection (str "/r") 0 false
      let _ ← doWatchTreeSection (str "/r/b") 0 false
      let _ ← doWatchTreeSection (str "/r/b") 0 false
      threadStep (← threadStep (← threadStep (← threadStep (.destroyRoot 0)))) : M (Script true) Thread)
        (World.initial ⟨[1, 2, 3]⟩)).toOption.map (fun r => decide (r.2.watches.inotifyPathToWatch.keys = [str "/r"] ∧
          r.2.watches.inotifyWdToWatch.keys = [2, 1])) = some true := by decide +kernel
  obtain ⟨⟨thread, w⟩, ran, keys⟩ := Option.map_eq_some_iff.mp facts
  obtain ⟨_, _, first, ran⟩ := Program.bind_eq_ok (Program.ok_of_toOption ran)
  obtain ⟨_, _, second, ran⟩ := Program.bind_eq_ok ran
  obtain ⟨_, _, again, ran⟩ := Program.bind_eq_ok ran
  obtain ⟨_, _, start, ran⟩ := Program.bind_eq_ok ran
  obtain ⟨_, _, found, ran⟩ := Program.bind_eq_ok ran
  obtain ⟨_, _, unwatched, removed⟩ := Program.bind_eq_ok ran
  have run : Relation.ReflTransGen (TableStep fun _ _ _ _ => True)
      (.finished, World.initial (⟨[1, 2, 3]⟩ : Script true)) (thread, w) :=
    (((((((Relation.ReflTransGen.single (.insertion _ _ _ _ rfl trivial first)).tail
      (.insertion _ _ _ _ rfl trivial second)).tail (.insertion _ _ _ _ rfl trivial again)).tail
      (.destruction _ 0)).tail (.thread start)).tail (.thread found)).tail (.thread unwatched)).tail (.thread removed)
  obtain ⟨paths, descriptors⟩ := of_decide_eq_true keys
  exact ⟨thread, w, run, paths, descriptors, (path_entries_anchored _ run).1⟩

/-- The walker is about to file a watch under a path that has an entry. -/
def Refiles (w : World σ) (path : Str) (root : RootRef) (cleanup : Bool) : Prop :=
  Files w path root cleanup ∧ (w.watches.inotifyPathToWatch.lookup path).isSome

/-- Such an insertion leaves the descriptor of the older entry behind. -/
theorem refiles_leaves_descriptor (succeed : AllocationsSucceed σ) {w w' : World σ} {path : Str}
    {root : RootRef} {cleanup went : Bool} (inv : w.watches.Anchored)
    (refiles : Refiles w path root cleanup)
    (ran : doWatchTreeSection path root cleanup w = .ok (went, w')) :
    ¬PairedTables.Current Watch.path w'.watches.inotifyWdToWatch w'.watches.inotifyPathToWatch := by
  obtain ⟨older, found⟩ := Option.isSome_iff_exists.mp refiles.2
  obtain ⟨s, ⟨_, _, stuck⟩ | ⟨_, files, rfl⟩⟩ := doWatchTreeSection_cases ran
  · exact absurd refiles.1 (stuck succeed)
  · exact inv.anchored.insert_stale (w := ⟨_, _, path⟩) found files.new

/-- As long as no insertion does that, every descriptor entry is current. -/
theorem descriptor_entries_current (sys : σ) {thread : Thread} {w : World σ}
    (run : Relation.ReflTransGen
      (TableStep fun w path root cleanup => ¬Refiles w path root cleanup)
      (.finished, World.initial sys) (thread, w)) :
    ∀ d watch, w.watches.inotifyWdToWatch.lookup d = some watch →
      w.watches.inotifyPathToWatch.lookup watch.path = some watch := by
  have final : w.watches.Consistent := by
    refine TableStep.closed WatchTable.Consistent.closed ?_ run rfl (WatchTable.Consistent.empty rfl rfl)
    intro w w' path root cleanup went absolute fresh inv ran
    obtain ⟨s, ⟨_, ⟨n, rfl⟩, _⟩ | ⟨_, files, rfl⟩⟩ := doWatchTreeSection_cases ran
    · exact WatchTable.Consistent.closed.nextWatch _ _ inv
    -- A path with an entry would leave the descriptor of that entry behind.
    · refine (WatchTable.Consistent.closed.nextWatch _ _ inv).file root _ absolute files.new ?_
      exact Option.not_isSome_iff_eq_none.mp fun known => fresh ⟨files, known⟩
  exact final.current

theorem descriptor_entries_current_insertions :
    ∃ v w : World (Script true),
      doWatchTreeSection (str "/r") 0 false (World.initial ⟨[1, 2]⟩) = .ok (true, v) ∧
      doWatchTreeSection (str "/r/b") 0 false v = .ok (true, w) ∧
      w.watches.inotifyWdToWatch.lookup 2 = some ⟨1, 2, str "/r/b"⟩ ∧
      ∀ d watch, w.watches.inotifyWdToWatch.lookup d = some watch →
        w.watches.inotifyPathToWatch.lookup watch.path = some watch :=
  ⟨_, _, rfl, rfl, rfl, descriptor_entries_current ⟨[1, 2]⟩
    (.tail (.single (.insertion (str "/r") 0 false true rfl (fun refiles => nomatch refiles.2) rfl))
      (.insertion (str "/r/b") 0 false true rfl (fun refiles => nomatch refiles.2) rfl))⟩

/-- A directory is renamed over "/r/b", which is being watched: the walker that the event
starts is given a new descriptor for the path, and the entry of the old one stays. -/
theorem renamed_over_leaves_descriptor :
    ∃ w : World (Script true),
      Relation.ReflTransGen (TableStep fun _ _ _ _ => True)
        (.finished, World.initial ⟨[1, 2]⟩) (.finished, w) ∧
      w.locks.inotify = false ∧
      w.watches.inotifyWdToWatch.lookup 1 = some ⟨0, 1, str "/r/b"⟩ ∧
      w.watches.inotifyPathToWatch.lookup (str "/r/b") = some ⟨1, 2, str "/r/b"⟩ ∧
      ¬∀ d watch, w.watches.inotifyWdToWatch.lookup d = some watch →
        w.watches.inotifyPathToWatch.lookup watch.path = some watch := by
  refine ⟨_, .tail (.single (.insertion (str "/r/b") 0 false true rfl trivial rfl))
    (.insertion (str "/r/b") 0 false true rfl trivial rfl), rfl, rfl, rfl, fun current => ?_⟩
  exact absurd (current 1 ⟨0, 1, str "/r/b"⟩ rfl) (by decide)

end Inotispy
