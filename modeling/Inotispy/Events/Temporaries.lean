import Inotispy.Library.Path
import Inotispy.Locks.Keeping

/-! The temporaries of rsync, which are to be neither watched nor queued.

The names of records, the paths of watches and the paths the walkers come to all go through the
same test, which looks for the first marker only. Where a text has one marker at most, nothing
that ends in it gets into the tables; a text with an earlier marker goes through.
-/

set_option autoImplicit false

namespace Inotispy
open Library

variable {σ : Type}

/-! ## The test -/

theorem endsInTmp_iff (text : Str) : endsInTmp text = true ↔ tmpStr <:+ text ∧ ¬tmpStr <:+: text.dropLast := by
  rw [← CString.strstr_at_end_iff (by decide), endsInTmp]
  cases CString.strstr text tmpStr with
  | none => simp
  | some idx => simp

/-- A text that ends in the marker and has it before that, too. -/
def MarkedTwice (text : Str) : Prop := tmpStr <:+ text ∧ tmpStr <:+: text.dropLast

instance (text : Str) : Decidable (MarkedTwice text) := inferInstanceAs (Decidable (_ ∧ _))

theorem markedTwice_iff (text : Str) : MarkedTwice text ↔ tmpStr <:+ text ∧ endsInTmp text = false := by
  rw [MarkedTwice, ← Bool.not_eq_true, endsInTmp_iff]
  tauto

/-! ## The tables -/

/-- An event that is not about a temporary. -/
def Kept (event : Event) : Prop := ∀ name, event.name = some name → ¬tmpStr <:+ name

/-- No temporary is watched, except as the top of a root, and none is queued. -/
structure Clean (w : World σ) : Prop where
  watched : ∀ path ∈ w.watches.inotifyPathToWatch.keys, tmpStr <:+ Path.lastComponent path →
    path ∈ w.roots.inotifyRoots.keys
  queued : ∀ root, ∀ event ∈ (w.roots.heap root).events, Kept event

variable {w w' : World σ}

theorem suffix_iff (path : Str) : tmpStr <:+ Path.lastComponent path ↔ tmpStr <:+ path :=
  Path.suffix_lastComponent_iff (by decide) path

theorem Clean.initial (sys : σ) : Clean (World.initial sys) where
  watched _ member := by cases member
  queued root event member := by cases member

theorem Clean.shrink (clean : Clean w)
    (watches : ∀ path ∈ w'.watches.inotifyPathToWatch.keys, path ∈ w.watches.inotifyPathToWatch.keys)
    (roots : ∀ path ∈ w.roots.inotifyRoots.keys, path ∈ w'.roots.inotifyRoots.keys)
    (events : ∀ root, ∀ event ∈ (w'.roots.heap root).events, event ∈ (w.roots.heap root).events) : Clean w' where
  watched path member ends := roots path (clean.watched path (watches path member) ends)
  queued root event member := clean.queued root event (events root event member)

theorem Clean.setRoot (clean : Clean w) (root : RootRef) (change : Root → Root)
    (watches : w'.watches = w.watches) (roots : w'.roots.inotifyRoots = w.roots.inotifyRoots)
    (heap : w'.roots.heap = (w.roots.setRoot root change).heap)
    (queued : ∀ event ∈ (change (w.roots.heap root)).events, Kept event) : Clean w' where
  watched := by
    rw [watches, roots]
    exact clean.watched
  queued other event member := by
    rw [heap] at member
    by_cases is : other = root
    · subst is
      rw [RootTable.heap_setRoot_self] at member
      exact queued event member
    · rw [RootTable.heap_setRoot_of_ne is] at member
      exact clean.queued other event member

def CleanAlone (w : World σ) : Prop := w.pool.schedule = [] ∧ Clean w

variable [System σ]

theorem cleanAlone_patient : Patient Kept (CleanAlone (σ := σ)) where
  quiet rests schedule holds :=
    ⟨schedule.trans holds.1, holds.2.shrink (by simp [rests.watches]) (by simp [rests.roots]) (by simp [rests.roots])⟩
  spawned _ _ holds := ⟨holds.1, holds.2.shrink (by simp) (by simp) (by simp)⟩
  mute _ _ holds := ⟨holds.1, holds.2.shrink (by simp) (by simp) (by simp)⟩
  alone _ holds := holds.1
  fitting _ root holds := holds.2.queued root
  queues w root queue holds kept := by
    refine ⟨holds.1, holds.2.setRoot root _ rfl rfl rfl fun event member => kept event ?_⟩
    cases is : (w.roots.heap root).queue with
    | none => simp [Root.events, is] at member
    | some _ => simpa [Root.events, is] using member
  pauses w root pause holds := ⟨holds.1, holds.2.setRoot root _ rfl rfl rfl (holds.2.queued root)⟩
  marks w root holds := ⟨holds.1, holds.2.setRoot root _ rfl rfl rfl (holds.2.queued root)⟩
  outside _ _ holds := ⟨holds.1, holds.2.shrink (by simp) (by simp) (by simp)⟩
  thins w watches thins holds := by
    refine ⟨holds.1, holds.2.shrink (fun path member => ?_) (by simp) (by simp)⟩
    obtain ⟨watch, found⟩ := (GHashTable.mem_keys_iff _ _).mp member
    exact (GHashTable.mem_keys_iff _ _).mpr ⟨watch, thins.byPath path watch found⟩
  uses _ _ holds := ⟨holds.1, holds.2.shrink (by simp) (by simp) (by simp)⟩
  joins _ _ holds := ⟨holds.1, holds.2.shrink (by simp) (by simp) (by simp)⟩
  makes w made holds empty :=
    ⟨holds.1, holds.2.setRoot w.roots.nextRoot (fun _ => made) rfl rfl rfl (by simp [Root.events, empty])⟩
  inserts w path root holds := by
    refine ⟨holds.1, holds.2.shrink (by simp) (fun other member => ?_) (by simp)⟩
    rw [← AList.mem_keys] at member ⊢
    exact (AList.mem_insert _).mpr (.inr member)

/-! ## Threads -/

/-- A walker is about to file a watch for a temporary that is no root. -/
def FilesTemporary (w : World σ) (thread : Thread) : Prop :=
  ∃ data path rest, thread = .watchTreeRec data (.call path :: rest) ∧ Files w path data.root data.cleanup ∧
    MarkedTwice path ∧ path ∉ w.roots.inotifyRoots.keys

theorem WatchesEffect.keys {thread : Thread} {watches : WatchTable} (effect : WatchesEffect thread w watches)
    {path : Str} (member : path ∈ watches.inotifyPathToWatch.keys) :
    path ∈ w.watches.inotifyPathToWatch.keys ∨
      ∃ data rest, thread = .watchTreeRec data (.call path :: rest) ∧ Files w path data.root data.cleanup := by
  cases effect with
  | same skipped => exact .inl member
  | file data filed rest is files =>
    rw [← AList.mem_keys] at member ⊢
    rcases (AList.mem_insert _).mp member with rfl | old
    · exact .inr ⟨data, rest, is, files⟩
    · exact .inl old
  | forget gone watch how =>
    rw [← AList.mem_keys] at member ⊢
    exact .inl (AList.mem_erase.mp member).2

theorem RootsEffect.shrinks {thread : Thread} {before after : RootTable} (effect : RootsEffect thread before after) :
    (after.inotifyRoots = before.inotifyRoots ∨ ∃ root tmp, thread = .destroyKeys root tmp []) ∧
      ∀ root, ∀ event ∈ (after.heap root).events, event ∈ (before.heap root).events := by
  cases effect with
  | same => exact ⟨.inl rfl, fun _ _ => id⟩
  | free gone is =>
    refine ⟨.inl rfl, fun root event member => ?_⟩
    by_cases same : root = gone
    · subst same
      rw [RootTable.heap_setRoot_self] at member
      cases member
    · rwa [RootTable.heap_setRoot_of_ne same] at member
  | remove root tmp path is named => exact ⟨.inr ⟨root, tmp, is⟩, fun _ _ => id⟩

omit [System σ] in
theorem Clean.destroyRootEnd {root : RootRef} {a : Unit} (clean : Clean w)
    (ran : destroyRootEnd root w = .ok (a, w')) : Clean w' := by
  obtain ⟨path, _, ends⟩ := destroyRootEnd_eq_ok ran
  have fewer : w'.roots = w.roots.remove path ∧ ∀ other ∈ w'.watches.inotifyPathToWatch.keys,
      other ≠ path ∧ other ∈ w.watches.inotifyPathToWatch.keys := by
    obtain ⟨missing, rfl⟩ | ⟨watch, _, rfl⟩ := ends
    · refine ⟨rfl, fun other member => ⟨?_, member⟩⟩
      rintro rfl
      exact (GHashTable.lookup_eq_none_iff _ _).mp missing member
    · refine ⟨rfl, fun other member => ?_⟩
      rw [← AList.mem_keys] at member ⊢
      exact AList.mem_erase.mp member
  refine ⟨fun other member ends => ?_, fun root event member => ?_⟩
  · obtain ⟨differs, old⟩ := fewer.2 other member
    rw [fewer.1, ← AList.mem_keys]
    exact AList.mem_erase.mpr ⟨differs, (AList.mem_keys).mpr (clean.watched other old ends)⟩
  · rw [fewer.1] at member
    exact clean.queued root event member

theorem Clean.step {thread next : Thread} (clean : Clean w) (tidy : ¬FilesTemporary w thread)
    (ran : threadStep thread w = .ok (next, w')) : Clean w' := by
  have effect := threadStep_effect ran
  obtain ⟨same | ⟨root, tmp, rfl⟩, events⟩ := effect.roots.shrinks
  · refine ⟨fun path member ends => ?_, fun root event member => clean.queued root event (events root event member)⟩
    rw [same]
    rcases effect.watches.keys member with old | ⟨data, rest, is, files⟩
    · exact clean.watched path old ends
    · by_contra missing
      have twice : MarkedTwice path := (markedTwice_iff path).mpr ⟨(suffix_iff path).mp ends, files.plain⟩
      exact tidy ⟨data, path, rest, is, files, twice, missing⟩
  · obtain ⟨_, v, step, ran⟩ := Program.bind_eq_ok ran
    obtain ⟨_, rfl⟩ := Program.pure_eq_ok.mp ran
    exact clean.destroyRootEnd step

/-- A step of a thread spoils clean tables exactly when it files a temporary. -/
theorem Clean.step_iff {thread next : Thread} (succeed : AllocationsSucceed σ) (clean : Clean w)
    (ran : threadStep thread w = .ok (next, w')) : Clean w' ↔ ¬FilesTemporary w thread := by
  refine ⟨?_, fun tidy => clean.step tidy ran⟩
  rintro after ⟨data, path, rest, rfl, files, twice, missing⟩
  obtain ⟨stack, v, walk, ran⟩ := Program.bind_eq_ok ran
  obtain ⟨_, rfl⟩ := Program.pure_eq_ok.mp ran
  obtain ⟨went, section_, _⟩ := doWatchTreeRec_call walk
  obtain ⟨s, ⟨_, _, stuck⟩ | ⟨_, _, rfl⟩⟩ := doWatchTreeSection_cases section_
  · exact stuck succeed files
  · have filed : path ∈ (w.watches.inotifyPathToWatch.insert path
        ⟨w.watches.nextWatch, answeredWd w path data.root, path⟩).keys := by
      rw [← AList.mem_keys]
      exact (AList.mem_insert _).mpr (.inl rfl)
    exact missing (after.watched path filed ((suffix_iff path).mpr twice.1))

/-! ## DaemonRuns -/

/-- What the main thread starts on, where no record of a temporary goes through the test. -/
inductive TidyStarts : Stepwise.Code σ Unit → Prop where
  | setup (path : Str) (mask : UInt32) (maxEvents : Int32) :
      TidyStarts (do
        let _ ← Stepwise.inotifyWatchTree path mask maxEvents true
        return ())
  | round (poll : Stepwise.Poll)
      (names : ∀ event ∈ poll.events, event.len ≠ 0 → skipped event = false → ¬MarkedTwice event.name) :
      TidyStarts (Stepwise.mainRound poll)

/-- What happens beside the main thread, where no walker files a temporary. -/
inductive TidyMeanwhile (d : Daemon σ) : Daemon σ → Prop where
  | thread {index : Nat} {v : World σ} (ran : runThread index d.world = .ok ((), v))
      (tidy : ∀ thread, d.world.pool.threads[index]? = some thread → ¬FilesTemporary d.world thread) :
      TidyMeanwhile d { d with world := v }
  | received (inbox : List (Option (List Char))) : TidyMeanwhile d { d with world.socket.inbox := inbox }

/-- A run of the daemon from its start, with what the main thread may start on and what may happen beside it. -/
abbrev DaemonRuns (starts : Stepwise.Code σ Unit → Prop) (outside : Daemon σ → Daemon σ → Prop) (sys : σ)
    (thread : MainThread σ) : Prop :=
  Relation.ReflTransGen
    (fun before after => ∃ cause, Library.Moves Operation.does starts Stepwise.sigHandler outside cause before after)
    (MainThread.initial sys) thread

theorem tidy_runs {sys : σ} {thread : MainThread σ} (run : DaemonRuns TidyStarts TidyMeanwhile sys thread) :
    DaemonRuns Stepwise.Starts Meanwhile sys thread := by
  have fresh : ∀ code : Stepwise.Code σ Unit, TidyStarts code → Stepwise.Starts code := by
    rintro _ (⟨path, mask, maxEvents⟩ | ⟨poll, _⟩)
    · exact .setup path mask maxEvents
    · exact .round poll
  have around : ∀ d d' : Daemon σ, TidyMeanwhile d d' → Meanwhile d d' := by
    rintro d _ (⟨ran, _⟩ | inbox)
    · exact .thread ran
    · exact .received inbox
  refine Relation.ReflTransGen.mono ?_ _ _ run
  rintro _ _ ⟨cause, move⟩
  exact ⟨cause, move.weaken fresh around⟩

/-- A record whose name goes through the test is queued with a name that is no temporary's. -/
theorem makeNode_kept {event : InEvent} (heeded : skipped event = false) (once : ¬MarkedTwice event.name)
    {name : Option Str} (named : name = some event.name ∨ name = none) (path : Option Str) : Kept (makeNode event name path) := by
  rintro text is ends
  have plain : endsInTmp event.name = false := by
    simp only [skipped, Bool.or_eq_false_iff] at heeded
    exact heeded.2
  obtain rfl | rfl := named
  · cases is
    exact once ((markedTwice_iff _).mpr ⟨ends, plain⟩)
  · cases is

theorem TidyStarts.keeps {code : Stepwise.Code σ Unit} (tidy : TidyStarts code) : EachStep CleanAlone code := by
  cases tidy with
  | setup path mask maxEvents =>
    exact EachStep.bind (cleanAlone_patient.inotifyWatchTree path mask maxEvents true) fun _ => .pure' _
  | round poll names =>
    apply cleanAlone_patient.mainRound
    intro event member named heeded name path copied
    exact makeNode_kept heeded (names event member named heeded) copied path

theorem TidyMeanwhile.keeps {d d' : Daemon σ} (holds : CleanAlone d.world) (tidy : TidyMeanwhile d d') :
    CleanAlone d'.world := by
  obtain ⟨alone, clean⟩ := holds
  cases tidy with
  | thread ran tidy =>
    obtain ⟨_, rfl⟩ | ⟨thread, next, v, found, stepped, rfl⟩ := runThread_eq_ok ran
    · exact ⟨alone, clean⟩
    · have after := clean.step (tidy thread found) stepped
      exact ⟨(threadStep_effect stepped).schedule.trans alone, after.watched, after.queued⟩
  | received inbox => exact ⟨alone, clean.watched, clean.queued⟩

/-- In every run in which neither a record nor a walker gets a temporary through the test by an earlier
marker, no temporary is watched or queued at any time. -/
theorem temporaries_kept_out {sys : σ} {thread : MainThread σ} (run : DaemonRuns TidyStarts TidyMeanwhile sys thread) :
    Clean thread.state.world := by
  have fresh : ∀ code, TidyStarts code → EachStep (CleanAlone (σ := σ)) code := fun _ => TidyStarts.keeps
  have around : ∀ d d' : Daemon σ, CleanAlone d.world → TidyMeanwhile d d' → CleanAlone d'.world :=
    fun _ _ => TidyMeanwhile.keeps
  exact (moves_keeps fresh cleanAlone_patient.sigHandler around ⟨rfl, .initial sys⟩ run).2

section
variable {starts : Stepwise.Code σ Unit → Prop} {outside : Daemon σ → Daemon σ → Prop} {sys : σ} {v v' : World σ}

theorem DaemonRuns.started (run : DaemonRuns starts outside sys ⟨[], ⟨v, false⟩⟩) {code : Stepwise.Code σ Unit}
    (is : starts code) {x : M σ Unit} (mirrors : Mirrors code x) (ran : x v = .ok ((), v')) :
    DaemonRuns starts outside sys ⟨[], ⟨v', false⟩⟩ := by
  have whole : code.run Operation.does ⟨v, false⟩ = .ok ((), ⟨v', false⟩) := by rw [mirrors _ rfl, onWorld, ran]
  have moved : Relation.ReflTransGen (Library.Moves Operation.does starts Stepwise.sigHandler outside .main)
      ⟨[code], _⟩ ⟨[], _⟩ := moves_of_run _ _ _ _ whole
  refine (run.tail ⟨.main, .started is⟩).trans ?_
  exact Relation.ReflTransGen.mono (fun _ _ move => ⟨.main, move⟩) _ _ moved

theorem DaemonRuns.meanwhile (run : DaemonRuns starts outside sys ⟨[], ⟨v, false⟩⟩)
    (change : outside ⟨v, false⟩ ⟨v', false⟩) : DaemonRuns starts outside sys ⟨[], ⟨v', false⟩⟩ :=
  run.tail ⟨.outside, .changed change⟩

/-- The directory "/r" is watched, its walker files the watch, and a round follows. The values are
the walker before each of its two steps. -/
def watchedRound (poll : Stepwise.Poll) : M σ (Option Thread × Option Thread) := do
  let _ ← inotifyWatchTree (str "/r") inotifyDefaultMask 65536 true
  let entering ← Program.read (·.pool.threads[0]?)
  runThread 0
  let filing ← Program.read (·.pool.threads[0]?)
  runThread 0
  mainRound poll
  return (entering, filing)

theorem watchedRound_runs {poll : Stepwise.Poll} {walker : Option Thread × Option Thread}
    (ran : watchedRound poll (World.initial sys) = .ok (walker, v))
    (setup : ∀ path mask maxEvents, starts do
      let _ ← Stepwise.inotifyWatchTree path mask maxEvents true
      return ())
    (round : starts (Stepwise.mainRound poll))
    (thread : ∀ w w' : World σ, w.pool.threads[0]? = walker.1 ∨ w.pool.threads[0]? = walker.2 →
      runThread 0 w = .ok ((), w') → outside ⟨w, false⟩ ⟨w', false⟩) :
    DaemonRuns starts outside sys ⟨[], ⟨v, false⟩⟩ := by
  obtain ⟨code, w₁, watching, ran⟩ := Program.bind_eq_ok ran
  rw [Program.read_bind_apply] at ran
  obtain ⟨_, w₂, entering, ran⟩ := Program.bind_eq_ok ran
  rw [Program.read_bind_apply] at ran
  obtain ⟨_, w₃, filing, ran⟩ := Program.bind_eq_ok ran
  obtain ⟨_, w₄, reading, ran⟩ := Program.bind_eq_ok ran
  obtain ⟨rfl, rfl⟩ := Program.pure_eq_ok.mp ran
  have watched : (do
      let _ ← inotifyWatchTree (str "/r") inotifyDefaultMask 65536 true
      return () : M σ Unit) (World.initial sys) = .ok ((), w₁) := Program.bind_ok _ _ _ _ _ watching
  have start : DaemonRuns starts outside sys ⟨[], ⟨World.initial sys, false⟩⟩ := .refl
  have set := start.started (setup (str "/r") inotifyDefaultMask 65536)
    ((inotifyWatchTree_renders _ _ _ true).bind fun _ => .pure' ()).mirrors watched
  have entered := set.meanwhile (thread w₁ w₂ (.inl rfl) entering)
  have filed := entered.meanwhile (thread w₂ w₃ (.inr rfl) filing)
  exact filed.started round (mainRound_mirrors poll) reading

end

/-- In "/r" the directory "a.~tmp~" and the file "b" are made. -/
theorem temporaries_kept_out_of_a_root :
    ∃ thread, DaemonRuns TidyStarts TidyMeanwhile (⟨[1, 2]⟩ : Script true) thread ∧
      thread.state.world.watches.inotifyPathToWatch.keys = [str "/r"] ∧
      (thread.state.world.roots.heap 0).events.map Event.name = [some (str "b")] ∧ Clean thread.state.world := by
  let poll : Stepwise.Poll :=
    ⟨false, false, [⟨1, inCreate ||| inIsdir, 0, 16, str "a.~tmp~"⟩, ⟨1, inCreate, 0, 16, str "b"⟩], false⟩
  have ran : ((watchedRound poll (World.initial (⟨[1, 2]⟩ : Script true))).toOption.map fun r =>
      (r.1, r.2.watches.inotifyPathToWatch.keys, (r.2.roots.heap 0).events.map Event.name)) =
        some ((some (.watchTree ⟨some (str "/r"), 0, false⟩),
          some (.watchTreeRec ⟨some (str "/r"), 0, false⟩ [.call (str "/r")])), [str "/r"], [some (str "b")]) := by
    decide +kernel
  obtain ⟨⟨walker, v⟩, is, same⟩ := Option.map_eq_some_iff.mp ran
  simp only [Prod.mk.injEq] at same
  obtain ⟨rfl, watched, queued⟩ := same
  have run : DaemonRuns TidyStarts TidyMeanwhile (⟨[1, 2]⟩ : Script true) ⟨[], ⟨v, false⟩⟩ := by
    refine watchedRound_runs (Program.ok_of_toOption is) .setup (.round poll ?_) ?_
    · decide +kernel
    -- The walker stands at the start of its function, and then in front of "/r".
    · rintro w w' before ran
      refine .thread ran fun thread found => ?_
      rcases before with is | is
      · cases found.symm.trans is
        rintro ⟨_, _, _, is, _⟩
        cases is
      · cases found.symm.trans is
        rintro ⟨_, _, _, is, _, twice, _⟩
        cases is
        exact absurd twice (by decide)
  exact ⟨_, run, watched, queued, temporaries_kept_out run⟩

/-- In "/r" a directory is made whose name ends in the marker and has it before that, too: its creation is
queued, and its walker files a watch for it. -/
theorem temporary_watched_and_queued :
    ∃ thread, DaemonRuns Stepwise.Starts Meanwhile (⟨[1, 2]⟩ : Script true) thread ∧
      (∃ path ∈ thread.state.world.watches.inotifyPathToWatch.keys, tmpStr <:+ Path.lastComponent path ∧
        path ∉ thread.state.world.roots.inotifyRoots.keys) ∧
      (∃ event ∈ (thread.state.world.roots.heap 0).events, ¬Kept event) ∧ ¬Clean thread.state.world := by
  let poll : Stepwise.Poll := ⟨false, false, [⟨1, inCreate ||| inIsdir, 0, 16, str "a.~tmp~b.~tmp~"⟩], false⟩
  have ran : ((do
      let _ ← watchedRound poll
      runThread 1
      runThread 1 : M (Script true) Unit) (World.initial (⟨[1, 2]⟩ : Script true))).toOption.map (fun r =>
        (r.2.watches.inotifyPathToWatch.keys, r.2.roots.inotifyRoots.keys,
          (r.2.roots.heap 0).events.map Event.name)) =
        some ([str "/r/a.~tmp~b.~tmp~", str "/r"], [str "/r"], [some (str "a.~tmp~b.~tmp~")]) := by
    decide +kernel
  obtain ⟨⟨_, v⟩, is, same⟩ := Option.map_eq_some_iff.mp ran
  simp only [Prod.mk.injEq] at same
  obtain ⟨watched, rooted, queued⟩ := same
  have run : DaemonRuns Stepwise.Starts Meanwhile (⟨[1, 2]⟩ : Script true) ⟨[], ⟨v, false⟩⟩ := by
    obtain ⟨_, w₁, reading, ran⟩ := Program.bind_eq_ok (Program.ok_of_toOption is)
    obtain ⟨_, w₂, entering, filing⟩ := Program.bind_eq_ok ran
    have read : DaemonRuns Stepwise.Starts Meanwhile _ ⟨[], ⟨w₁, false⟩⟩ :=
      watchedRound_runs reading .setup (.round poll) fun _ _ _ ran => .thread ran
    exact (read.meanwhile (.thread entering)).meanwhile (.thread filing)
  have spoiled : ∃ path ∈ v.watches.inotifyPathToWatch.keys, tmpStr <:+ Path.lastComponent path ∧
      path ∉ v.roots.inotifyRoots.keys := by
    rw [watched, rooted]
    exact ⟨str "/r/a.~tmp~b.~tmp~", by decide, by decide, by decide⟩
  have stale : ∃ event ∈ (v.roots.heap 0).events, ¬Kept event := by
    have named : some (str "a.~tmp~b.~tmp~") ∈ (v.roots.heap 0).events.map Event.name := by rw [queued]; decide
    obtain ⟨event, member, is⟩ := List.mem_map.mp named
    exact ⟨event, member, fun kept => kept _ is (by decide)⟩
  refine ⟨_, run, spoiled, stale, fun clean => ?_⟩
  obtain ⟨event, member, spoils⟩ := stale
  exact spoils (clean.queued 0 event member)

end Inotispy
