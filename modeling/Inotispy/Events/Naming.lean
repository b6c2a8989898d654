import Inotispy.Events.Delivery
import Inotispy.Library.Path
import Inotispy.Model.Daemon

/-! The path an event gives to a directory, and the path a walk gives to it.

The two joins are written twice in the source. Their results are the keys under which a
directory is filed and looked up, so both are observed here where they come out: at the
walker a round starts, at the entry a round removes, and at the call a walker goes on with.
-/

set_option autoImplicit false

namespace Inotispy
open Library

variable {σ : Type} [System σ]

/-! ## The two joins -/

/-- A directory's path, a slash and the name of an entry, with one slash after "/". -/
def joined (path name : Str) : Str := if path = str "/" then '/' :: name else path ++ '/' :: name

theorem childPath_eq_joined (path name : Str) : childPath path name = joined path name := by
  unfold childPath joined
  split
  · rfl
  · rw [List.append_assoc]
    rfl

theorem eventPath_of_ne {path : Str} (below : path ≠ str "/") (name : Str) :
    eventPath path name = joined path name := by
  rw [← childPath_eq_joined, eventPath, childPath, if_neg below, if_neg below]

/-- For "/" the path of the event does not hold its name. -/
theorem eventPath_top (name : Str) : eventPath (str "/") name = ['/', '/'] := by
  rw [eventPath, if_pos rfl]
  rfl

theorem eventPath_eq_joined_iff (path : Str) (name : Name) :
    eventPath path name.text = joined path name.text ↔ path ≠ str "/" := by
  constructor
  · intro same top
    subst top
    rw [eventPath_top, joined, if_pos rfl] at same
    -- What follows the first slash would be a name that is a slash.
    have text : ['/'] = name.text := (List.cons.inj same).2
    exact name.noSlash (text ▸ List.mem_singleton_self '/')
  · intro below
    exact eventPath_of_ne below name.text

/-! ## Where they come out -/

def StartsOn (w : World σ) (event : InEvent) (absPath : Str) : Prop :=
  ∃ round w' root, inotifyHandleRecord event w = .ok (round, w') ∧
    w'.pool.threads = w.pool.threads ++ [.watchTree ⟨some absPath, root, false⟩]

def Unfiles (w : World σ) (event : InEvent) (path : Str) : Prop :=
  ∃ round w', inotifyHandleRecord event w = .ok (round, w') ∧
    w'.watches.inotifyPathToWatch.lookup path = none

/-- A walker at an entry of the directory it reads goes on with a call on a path. -/
def Visits (w : World σ) (path : Str) (dir : Dirent) (child : Str) : Prop :=
  ∃ data entries rest w', doWatchTreeRec data rest (.reading path (dir :: entries)) w =
    .ok (.call child :: .reading path entries :: rest, w')

theorem Visits.path_eq {w : World σ} {path child : Str} {dir : Dirent} (visits : Visits w path dir child) :
    child = joined path dir.name := by
  obtain ⟨data, entries, rest, w', ran⟩ := visits
  simp only [doWatchTreeRec, Program.ite_eq_ok, Program.pure_eq_ok, mkString_bind] at ran
  obtain ⟨_, looping, _⟩ | ⟨_, ran⟩ := ran
  · cases looping
  obtain ⟨isDir, v, _, ran⟩ := Program.bind_eq_ok ran
  simp only [Program.ite_eq_ok, Program.pure_eq_ok, getRoot_bind, deref_bind_eq_ok] at ran
  obtain ⟨_, looping, _⟩ | ⟨_, ⟨_, ended, _⟩ | ⟨_, built, made, going, _⟩⟩ := ran
  · cases looping
  · -- A call that ends leaves a shorter stack.
    have lengths := congrArg List.length ended
    simp only [List.length_cons] at lengths
    omega
  · cases going
    split at made
    · cases made
      exact childPath_eq_joined path dir.name
    · cases made

section
variable {w : World σ} (succeed : AllocationsSucceed σ) (alone : w.pool.schedule = [])
  (free : w.locks.held .inotify = false) {event : InEvent} {path : Str} {root : RootRef}
  (target : eventTarget w event.wd = some (path, root)) (considered : ¬Overlooked w event)
include succeed alone free target considered

/-- A round that comes to the bookkeeping leaves the threads and the watches as that leaves them,
and of the roots it changes at most the queue of the one that serves the event. -/
theorem inotifyHandleRecord_directory :
    ∃ queued v round w', DirectoryEffect event path root w queued v ∧
      inotifyHandleRecord event w = .ok (round, w') ∧ w'.pool.threads = v.pool.threads ∧
      w'.watches = v.watches ∧ w'.roots.inotifyRoots = w.roots.inotifyRoots ∧
      ∃ queue, w'.roots.heap =
        Function.update w.roots.heap root { w.roots.heap root with queue := queue } := by
  obtain ⟨⟨round, w'⟩, ran⟩ := inotifyHandleRecord_returns alone succeed free event
  obtain ⟨_, _, overlooked⟩ | ⟨_, _, queued, v, known, _, effect, offering⟩ :=
    inotifyHandleRecord_eq_ok alone ran
  · exact absurd (overlooked succeed) considered
  rw [target] at known
  cases known
  obtain ⟨roots, schedule, _⟩ := effect.frame
  refine ⟨queued, v, round, w', effect, ran, ?_⟩
  rw [← roots]
  have same : v.roots.heap = Function.update v.roots.heap root
      { v.roots.heap root with queue := (v.roots.heap root).queue } := (Function.update_eq_self _ _).symm
  obtain ⟨_, rfl⟩ | ⟨code, _, _, _, enqueue⟩ := offering
  · exact ⟨rfl, rfl, rfl, _, same⟩
  · obtain ⟨_, _, _, ⟨_, rfl⟩ | ⟨_, _, _, _, _, _, rfl⟩⟩ := inotifyEnqueue_eq_ok (schedule.trans alone) enqueue
    · exact ⟨rfl, rfl, rfl, _, same⟩
    · exact ⟨rfl, rfl, rfl, _, rfl⟩

theorem startsOn_iff (starts : ∀ s : σ, (System.pthreadCreate s).1 = true)
    (isDir : hasBit event.mask inIsdir = true) (plain : endsInTmp path = false)
    (created : (hasBit event.mask inCreate || hasBit event.mask inMovedTo) = true) (absPath : Str) :
    StartsOn w event absPath ↔ absPath = eventPath path event.name := by
  obtain ⟨queued, v, round, w', effect, ran, threads, _, _⟩ :=
    inotifyHandleRecord_directory succeed alone free target considered
  have live := (eventTarget_eq_some.mp target).choose_spec.2.2.2.2
  have started : v.pool.threads =
      w.pool.threads ++ [.watchTree ⟨some (eventPath path event.name), root, false⟩] := by
    cases effect with
    | plain s ordinary => simp [created] at ordinary; simp [ordinary] at isDir
    | notStarted s isDir new why =>
      obtain tmp | dying | failed | ⟨t, refused⟩ := why
      · rw [plain] at tmp; cases tmp
      · rw [live] at dying; cases dying
      · exact absurd succeed failed
      · rw [starts t] at refused; cases refused
    | started s t copy isDir new plain live created copied => rw [copied succeed]
    | unknown s isDir old => rw [created] at old; cases old
    | gone s delete isDir old => rw [created] at old; cases old
  constructor
  · rintro ⟨round', u, root', ran', threads'⟩
    obtain ⟨_, rfl⟩ := Program.ok_unique ran ran'
    rw [threads, started] at threads'
    have walker := List.append_cancel_left threads'
    simp only [List.cons.injEq, Thread.watchTree.injEq, TData.mk.injEq, Option.some.injEq] at walker
    exact walker.1.1.symm
  · rintro rfl
    exact ⟨round, w', root, ran, threads.trans started⟩

theorem unfiles_iff (isDir : hasBit event.mask inIsdir = true)
    (old : (hasBit event.mask inCreate || hasBit event.mask inMovedTo) = false)
    (gone : (hasBit event.mask inDelete || hasBit event.mask inMovedFrom) = true)
    (absolute : path.head? = some '/') {name : Name} (named : event.name = name.text)
    (known : w.watches.inotifyPathToWatch.lookup (joined path name.text) ≠ none) :
    Unfiles w event (joined path name.text) ↔ path ≠ str "/" := by
  obtain ⟨queued, v, round, w', effect, ran, _, watches, _⟩ :=
    inotifyHandleRecord_directory succeed alone free target considered
  have absolute' : (eventPath path event.name).head? = some '/' := by
    obtain ⟨tail, rfl⟩ := List.head?_eq_some_iff.mp absolute
    unfold eventPath
    split <;> rfl
  have after : v.watches.inotifyPathToWatch.lookup (joined path name.text) = none ↔ path ≠ str "/" := by
    by_cases top : path = str "/"
    · -- Neither the key that is looked up nor one below it is a single name after a slash.
      subst top
      simp only [ne_eq, not_true_eq_false, iff_false]
      have other : joined (str "/") name.text ∉ gonePaths event (eventPath (str "/") event.name) w.watches := by
        rw [eventPath_top, joined, if_pos rfl, gonePaths, List.mem_cons, not_or]
        constructor
        · intro same
          have text : name.text = ['/'] := (List.cons.inj same).2
          exact name.noSlash (text ▸ List.mem_singleton_self '/')
        · split
          · intro member
            obtain ⟨_, below⟩ := List.mem_filter.mp member
            obtain ⟨tail, below⟩ := of_decide_eq_true below
            have text : '/' :: '/' :: tail = name.text := (List.cons.inj below).2
            exact name.noSlash (text ▸ List.mem_cons_self)
          · exact List.not_mem_nil
      cases effect with
      | gone s delete isDir old gone found =>
        rwa [WatchTable.forgetGone_absolute absolute' found, WatchTable.lookupPath_forgetAll, if_neg other]
      | _ => exact known
    · simp only [ne_eq, top, not_false_eq_true, iff_true]
      have same := eventPath_of_ne top event.name
      cases effect with
      | plain s ordinary => simp [gone] at ordinary; simp [ordinary] at isDir
      | notStarted s isDir new => rw [old] at new; cases new
      | started s t copy isDir new => rw [old] at new; cases new
      | unknown s isDir old gone missing =>
        rw [same, named] at missing
        exact absurd missing known
      | gone s delete isDir old gone found =>
        rw [WatchTable.forgetGone_absolute absolute' found, WatchTable.lookupPath_forgetAll, if_pos]
        rw [same, named]
        exact List.mem_cons_self
  rw [← after, ← watches]
  constructor
  · rintro ⟨round', u, ran', none'⟩
    obtain ⟨_, rfl⟩ := Program.ok_unique ran ran'
    exact none'
  · intro none'
    exact ⟨round, w', ran, none'⟩

/-- The path a walk gives to a directory is that of the directory it reads, a slash and the
name. An event on the same directory starts a walker under this path, and removes the entry
under it, just when the directory that is watched is not "/". -/
theorem event_named_as_walked_iff (starts : ∀ s : σ, (System.pthreadCreate s).1 = true)
    (isDir : hasBit event.mask inIsdir = true) {name : Name} (named : event.name = name.text)
    {dir : Dirent} (entry : dir.name = name.text) {child : Str} (visits : Visits w path dir child) :
    child = joined path name.text ∧
      ((hasBit event.mask inCreate || hasBit event.mask inMovedTo) = true → endsInTmp path = false →
        (StartsOn w event child ↔ path ≠ str "/")) ∧
      ((hasBit event.mask inCreate || hasBit event.mask inMovedTo) = false →
        (hasBit event.mask inDelete || hasBit event.mask inMovedFrom) = true →
        path.head? = some '/' → w.watches.inotifyPathToWatch.lookup child ≠ none →
        (Unfiles w event child ↔ path ≠ str "/")) := by
  obtain rfl : child = joined path name.text := entry ▸ visits.path_eq
  refine ⟨rfl, fun created plain => ?_, fun old gone absolute known => ?_⟩
  · rw [startsOn_iff succeed alone free target considered starts isDir plain created, named, eq_comm]
    exact eventPath_eq_joined_iff path name
  · exact unfiles_iff succeed alone free target considered isDir old gone absolute named known

end

/-- A directory is made in a watched one: its walker is started under the path that a walk
would give to it. -/
theorem made_directory_named_as_walked :
    StartsOn (World.watching (⟨[2]⟩ : Script true) (str "/r"))
      ⟨1, inCreate ||| inIsdir, 0, 16, str "new"⟩ (str "/r/new") := by
  have visits : Visits (World.watching (⟨[2]⟩ : Script true) (str "/r")) (str "/r") ⟨str "new", .dir⟩
      (str "/r/new") := ⟨⟨some (str "/r"), 0, false⟩, [], [], _, rfl⟩
  have considered : ¬Overlooked (World.watching (⟨[2]⟩ : Script true) (str "/r"))
      ⟨1, inCreate ||| inIsdir, 0, 16, str "new"⟩ := by
    unfold Overlooked
    decide
  let name : Name := ⟨str "new", by decide, by decide⟩
  have named : str "new" = name.text := rfl
  exact ((event_named_as_walked_iff (fun _ => rfl) rfl rfl rfl considered (fun _ => rfl) (by decide) named named
    visits).2.1 (by decide) (by decide)).mpr (by decide)

def watchTop : M (Script true) Unit := do
  let _ ← inotifyWatchTree (str "/") inotifyDefaultMask 65536 false
  Program.forEach runThread [0, 0]

theorem watchTop_reachable {w w' : World (Script true)} (reachable : Reachable w) {a : Unit}
    (ran : watchTop w = .ok (a, w')) : Reachable w' := by
  obtain ⟨sys, run⟩ := reachable
  obtain ⟨_, v, asked, walking⟩ := Program.bind_eq_ok ran
  have keeps : Keeps (Relation.ReflTransGen DaemonOrRestart (World.initial sys)) (Program.forEach runThread [0, 0]) :=
    Keeps.forEach fun index _ u run _ _ stepped => run.tail (.step (.thread stepped))
  exact ⟨sys, keeps v (run.tail (.step (.watch asked))) _ _ walking⟩

/-- "/" is watched and "/etc" is made: the walker for it is started on "//", while a walk of
"/" goes on with "/etc". -/
theorem directory_in_top_not_named_as_walked :
    ∃ w : World (Script true), Reachable w ∧ eventTarget w 1 = some (str "/", 0) ∧
      Visits w (str "/") ⟨str "etc", .dir⟩ (str "/etc") ∧
      StartsOn w ⟨1, inCreate ||| inIsdir, 0, 16, str "etc"⟩ (str "//") ∧
      ¬StartsOn w ⟨1, inCreate ||| inIsdir, 0, 16, str "etc"⟩ (str "/etc") := by
  have facts : (watchTop (World.initial ⟨[1]⟩)).toOption.map (fun r =>
      (eventTarget r.2 1, r.2.pool.schedule, r.2.locks.inotify)) =
    some (some (str "/", 0), [], false) := by decide +kernel
  obtain ⟨⟨_, w⟩, ran, facts⟩ := Option.map_eq_some_iff.mp facts
  simp only [Prod.mk.injEq] at facts
  obtain ⟨target, alone, free⟩ := facts
  obtain ⟨_, _, _, _, _, live⟩ := eventTarget_eq_some.mp target
  have considered : ¬Overlooked w ⟨1, inCreate ||| inIsdir, 0, 16, str "etc"⟩ := by
    rintro (named | overflow | skips | missing)
    · cases named
    · cases overflow
    · cases skips
    · rw [target] at missing
      cases missing
  have starts := startsOn_iff (fun _ => rfl) alone free target considered (fun _ => rfl) (by decide) (by decide)
    (by decide)
  refine ⟨w, watchTop_reachable ⟨_, .refl⟩ (Program.ok_of_toOption ran), target,
    ⟨⟨some (str "/"), 0, false⟩, [], [], w, ?_⟩, (starts _).mpr (by decide), fun started => ?_⟩
  · simp only [doWatchTreeRec, Program.ite_apply, mkString_bind, entryIsDir, Program.pure_bind_apply, getRoot_bind,
      live]
    rfl
  · exact absurd ((starts _).mp started) (by decide)

end Inotispy
