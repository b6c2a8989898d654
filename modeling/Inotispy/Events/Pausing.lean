import Inotispy.Events.Interleaving
import Inotispy.Events.Queue

/-! What a pause keeps from happening.

The test that stops a record for a paused root stands before the bookkeeping for
directories, so during a pause the tables are not kept up either.
-/

set_option autoImplicit false

namespace Inotispy
open Library

variable {σ : Type}

/-! ## How many entries a removal leaves -/

namespace WatchTable

def size (watches : WatchTable) : Nat :=
  watches.inotifyWdToWatch.keys.length + watches.inotifyPathToWatch.keys.length

theorem size_forget_le (watches : WatchTable) (path : Str) (wd : Int) : (watches.forget path wd).size ≤ watches.size := by
  have wds := GHashTable.length_keys_erase_le watches.inotifyWdToWatch wd
  have paths := GHashTable.length_keys_erase_le watches.inotifyPathToWatch path
  simp only [size, forget]
  omega

theorem size_forgetAll_le (watches : WatchTable) (paths : List Str) : (watches.forgetAll paths).size ≤ watches.size := by
  induction paths generalizing watches with
  | nil => exact Nat.le_refl _
  | cons path paths ih =>
    unfold forgetAll
    cases watches.inotifyPathToWatch.lookup path with
    | none => exact ih watches
    | some watch => exact Nat.le_trans (ih _) (size_forget_le watches path watch.wd)

theorem size_forgetAll_lt {watches : WatchTable} {paths : List Str} {path : Str} (member : path ∈ paths)
    (known : path ∈ watches.inotifyPathToWatch.keys) : (watches.forgetAll paths).size < watches.size := by
  induction paths generalizing watches with
  | nil => cases member
  | cons first paths ih =>
    unfold forgetAll
    cases found : watches.inotifyPathToWatch.lookup first with
    | none =>
      rcases List.mem_cons.mp member with rfl | later
      · exact absurd known ((GHashTable.lookup_eq_none_iff _ _).mp found)
      · exact ih later known
    | some watch =>
      have inside : first ∈ watches.inotifyPathToWatch.keys := (GHashTable.mem_keys_iff _ _).mpr ⟨watch, found⟩
      have shorter := GHashTable.length_keys_erase inside
      have wds := GHashTable.length_keys_erase_le watches.inotifyWdToWatch watch.wd
      have rest := size_forgetAll_le (watches.forget first watch.wd) paths
      simp only [size, forget] at rest ⊢
      omega

theorem size_forgetEntry_le (watches : WatchTable) (path : Str) (delete : Watch) :
    (watches.forgetEntry path delete).size ≤ watches.size := by
  have wds := GHashTable.length_keys_erase_le watches.inotifyWdToWatch delete.wd
  have paths := GHashTable.length_keys_erase_le watches.inotifyPathToWatch path
  simp only [size, forgetEntry]
  split <;> omega

theorem size_forgetGone_le (watches : WatchTable) (event : InEvent) (path : Str) (delete : Watch) :
    (watches.forgetGone event path delete).size ≤ watches.size :=
  Nat.le_trans (size_forgetAll_le _ _) (size_forgetEntry_le watches path delete)

theorem thins_forgetAll (watches : WatchTable) (paths : List Str) : Thins watches (watches.forgetAll paths) := by
  have forgets (left : WatchTable) (path : Str) (watch : Watch) (thins : Thins watches left)
      (_ : left.inotifyPathToWatch.lookup path = some watch) : Thins watches (left.forget path watch.wd) :=
    thins.trans (.forget left path watch.wd)
  exact forgetAll_keeps forgets paths watches (.refl watches)

theorem thins_forgetGone (watches : WatchTable) (event : InEvent) (path : Str) (delete : Watch) :
    Thins watches (watches.forgetGone event path delete) := by
  have entry : Thins watches (watches.forgetEntry path delete) := by
    refine ⟨fun _ _ => Thins.lookup_of_erase, fun key watch found => ?_, rfl, rfl⟩
    simp only [forgetEntry] at found
    split at found
    · exact Thins.lookup_of_erase found
    · exact found
  exact entry.trans (thins_forgetAll _ _)

/-- The tables have something that is removed when the directory at `path` is gone. Where its
entry is as it should be, with an absolute path and a counterpart, that is the entry. -/
def Loses (watches : WatchTable) (event : InEvent) (path : Str) : Prop :=
  ∃ delete, watches.inotifyPathToWatch.lookup path = some delete ∧
    (path.head? = some '/' ∨ (watches.inotifyWdToWatch.lookup delete.wd).isSome ∨
      (hasBit event.mask inMovedFrom = true ∧
        ∃ below ∈ watches.inotifyPathToWatch.keys, path ++ str "/" <+: below))

theorem size_forgetGone_lt {watches : WatchTable} {event : InEvent} {path : Str} {delete : Watch}
    (loses : watches.Loses event path) (known : watches.inotifyPathToWatch.lookup path = some delete) :
    (watches.forgetGone event path delete).size < watches.size := by
  obtain ⟨_, same, how⟩ := loses
  rw [known] at same
  cases same
  have rest := size_forgetAll_le (watches.forgetEntry path delete)
    (if hasBit event.mask inMovedFrom then
      (watches.forgetEntry path delete).inotifyPathToWatch.keys.filter (path ++ str "/" <+: ·) else [])
  have wds := GHashTable.length_keys_erase_le watches.inotifyWdToWatch delete.wd
  have paths := GHashTable.length_keys_erase_le watches.inotifyPathToWatch path
  rw [← forgetGone] at rest
  -- An entry goes from the one table or the other, or one below it does.
  by_cases absolute : path.head? = some '/'
  · have shorter := GHashTable.length_keys_erase ((GHashTable.mem_keys_iff _ _).mpr ⟨delete, known⟩)
    simp only [size, forgetEntry, if_pos absolute] at rest ⊢
    omega
  rcases how with slash | counterpart | ⟨moved, below, inside, start⟩
  · exact absurd slash absolute
  · have shorter := GHashTable.length_keys_erase
      ((GHashTable.mem_keys_iff _ _).mpr (Option.isSome_iff_exists.mp counterpart))
    simp only [size, forgetEntry, if_neg absolute] at rest ⊢
    omega
  · rw [forgetGone, if_pos moved]
    have same : (watches.forgetEntry path delete).inotifyPathToWatch = watches.inotifyPathToWatch := by
      simp only [forgetEntry, if_neg absolute]
    refine Nat.lt_of_lt_of_le (size_forgetAll_lt ?_ (same ▸ inside)) (size_forgetEntry_le watches path delete)
    rw [same]
    exact List.mem_filter.mpr ⟨inside, by simpa using start⟩

theorem forgetGone_of_not_loses {watches : WatchTable} {event : InEvent} {path : Str} {delete : Watch}
    (keeps : ¬watches.Loses event path) (known : watches.inotifyPathToWatch.lookup path = some delete) :
    watches.forgetGone event path delete = watches := by
  have relative : path.head? ≠ some '/' := fun slash => keeps ⟨delete, known, .inl slash⟩
  have alone : watches.inotifyWdToWatch.lookup delete.wd = none :=
    Option.not_isSome_iff_eq_none.mp fun counterpart => keeps ⟨delete, known, .inr (.inl counterpart)⟩
  have entry : watches.forgetEntry path delete = watches := by
    simp only [forgetEntry, if_neg relative, GHashTable.erase_of_not_mem alone]
  rw [forgetGone, entry]
  split
  · have none_below : watches.inotifyPathToWatch.keys.filter (path ++ str "/" <+: ·) = [] := by
      rw [List.filter_eq_nil_iff]
      intro below inside start
      exact keeps ⟨delete, known, .inr (.inr ⟨‹_›, below, inside, by simpa using start⟩)⟩
    rw [none_below]
    rfl
  · rfl

end WatchTable

/-! ## Records on one root -/

structure QueueOnly (root : RootRef) (roots after : RootTable) : Prop where
  inotifyRoots : after.inotifyRoots = roots.inotifyRoots
  others : ∀ other ≠ root, after.heap other = roots.heap other
  own : { after.heap root with queue := none } = { roots.heap root with queue := none }

namespace QueueOnly

variable {root : RootRef} {roots after : RootTable}

theorem refl (root : RootRef) (roots : RootTable) : QueueOnly root roots roots := ⟨rfl, fun _ _ => rfl, rfl⟩

theorem trans {last : RootTable} (first : QueueOnly root roots after) (second : QueueOnly root after last) :
    QueueOnly root roots last :=
  ⟨second.inotifyRoots.trans first.inotifyRoots,
    fun other differs => (second.others other differs).trans (first.others other differs),
    second.own.trans first.own⟩

theorem flags (only : QueueOnly root roots after) (other : RootRef) :
    (after.heap other).pause = (roots.heap other).pause ∧
      (after.heap other).destroy = (roots.heap other).destroy := by
  by_cases same : other = root
  · subst same
    have own := only.own
    simp only [Root.mk.injEq] at own
    exact ⟨own.2.2.2.2.2.1, own.2.2.2.2.1⟩
  · rw [only.others other same]
    exact ⟨rfl, rfl⟩

end QueueOnly

/-- The record is for a watch of the root, if it is for a watch that is still in the table. -/
def OnRoot (w : World σ) (root : RootRef) (event : InEvent) : Prop :=
  ∀ watch, w.watches.inotifyWdToWatch.lookup event.wd = some watch → w.roots.pathToRoot watch.path = some root

/-- The record makes the daemon change its tables or start a walker. -/
def Maintains (w : World σ) (event : InEvent) : Prop :=
  ¬Overlooked w event ∧ hasBit event.mask inIsdir = true ∧
    ∃ path root, eventTarget w event.wd = some (path, root) ∧
      if (hasBit event.mask inCreate || hasBit event.mask inMovedTo) = true then endsInTmp path = false
      else (hasBit event.mask inDelete || hasBit event.mask inMovedFrom) = true ∧
        w.watches.Loses event (eventPath path event.name)

section
variable {w v : World σ} {root : RootRef} (only : QueueOnly root w.roots v.roots)
  (watches : v.watches = w.watches)
include only watches

theorem eventTarget_congr (wd : Int) : eventTarget v wd = eventTarget w wd := by
  have search : v.roots.pathToRoot = w.roots.pathToRoot := by
    funext path
    simp only [RootTable.pathToRoot, only.inotifyRoots]
  simp only [eventTarget, watches, search, only.flags]

theorem maintains_congr (event : InEvent) : Maintains v event ↔ Maintains w event := by
  simp only [Maintains, Overlooked, eventTarget_congr only watches, watches]

end

/-- The work that has been done: walkers started, entries removed. -/
def World.work (w : World σ) : Int := w.pool.threads.length - w.watches.size

section
variable [System σ] {w w' : World σ} (alone : w.pool.schedule = [])
include alone

theorem inotifyEnqueue_only {root : RootRef} {event : InEvent} {path : Str} {code : Option InotispyError}
    (ran : inotifyEnqueue root event path w = .ok (code, w')) :
    QueueOnly root w.roots w'.roots ∧ w'.watches = w.watches ∧ w'.pool = w.pool ∧
      (AllocationsSucceed σ → w'.locks = w.locks) := by
  obtain ⟨s, locks, used, ⟨⟨_, same, _⟩ | ⟨_, failed⟩, rfl⟩ | ⟨name, copy, _, _, _, _, rfl⟩⟩ :=
    inotifyEnqueue_eq_ok alone ran
  · exact ⟨.refl _ _, rfl, rfl, fun _ => same⟩
  · exact ⟨.refl _ _, rfl, rfl, fun succeed => absurd succeed failed⟩
  · refine ⟨⟨rfl, fun other differs => ?_, ?_⟩, rfl, rfl, fun _ => rfl⟩
    · simp only [RootTable.heap_setRoot_of_ne differs]
    · simp only [RootTable.heap_setRoot_self]

omit alone in
theorem DirectoryEffect.maintains {event : InEvent} {path : Str} {root : RootRef} {queued : Bool}
    (effect : DirectoryEffect event path root w queued w') (target : eventTarget w event.wd = some (path, root))
    (considered : ¬Overlooked w event) :
    w.work ≤ w'.work ∧
      (¬Maintains w event → w'.watches = w.watches ∧ w'.pool.threads = w.pool.threads) ∧
      (AllocationsSucceed σ → (∀ s : σ, (System.pthreadCreate s).1 = true) → Maintains w event → w.work < w'.work) := by
  have same_target {path' : Str} {root' : RootRef} (other : eventTarget w event.wd = some (path', root')) :
      path' = path ∧ root' = root := by
    rw [target] at other
    cases other
    exact ⟨rfl, rfl⟩
  cases effect with
  | plain s ordinary =>
    refine ⟨Int.le_refl _, fun _ => ⟨rfl, rfl⟩, ?_⟩
    rintro _ _ ⟨_, isDir, _, _, _, how⟩
    obtain ⟨old, neither⟩ := ordinary isDir
    simp [old, neither] at how
  | notStarted s isDir new why =>
    refine ⟨Int.le_refl _, fun _ => ⟨rfl, rfl⟩, ?_⟩
    rintro succeed starts ⟨_, _, path', root', other, how⟩
    obtain ⟨rfl, rfl⟩ := same_target other
    rw [if_pos new] at how
    obtain tmp | dying | failed | ⟨t, refused⟩ := why
    · rw [how] at tmp
      cases tmp
    · obtain ⟨_, _, _, _, _, live⟩ := eventTarget_eq_some.mp target
      rw [live] at dying
      cases dying
    · exact absurd succeed failed
    · rw [starts t] at refused
      cases refused
  | started s t copy isDir new plain live created copied =>
    have more : w.work < World.work { w with
        sys := s, pool.threads := w.pool.threads ++ [.watchTree ⟨copy, root, false⟩] } := by
      simp only [World.work, List.length_append, List.length_singleton]
      omega
    have maintains : Maintains w event := ⟨considered, isDir, path, root, target, by rwa [if_pos new]⟩
    exact ⟨Int.le_of_lt more, absurd maintains, fun _ _ _ => more⟩
  | unknown s isDir old gone missing =>
    refine ⟨Int.le_refl _, fun _ => ⟨rfl, rfl⟩, ?_⟩
    rintro _ _ ⟨_, _, path', root', other, how⟩
    obtain ⟨rfl, rfl⟩ := same_target other
    rw [if_neg (by simp [old])] at how
    obtain ⟨_, delete, known, _⟩ := how
    rw [missing] at known
    cases known
  | gone s delete isDir old gone known =>
    have fewer := WatchTable.size_forgetGone_le w.watches event (eventPath path event.name) delete
    refine ⟨?_, fun idle => ⟨?_, rfl⟩, ?_⟩
    · simp only [World.work]
      omega
    · refine WatchTable.forgetGone_of_not_loses (fun loses => idle ⟨considered, isDir, path, root, target, ?_⟩) known
      rw [if_neg (by simp [old])]
      exact ⟨gone, loses⟩
    · rintro _ _ ⟨_, _, path', root', other, how⟩
      obtain ⟨rfl, rfl⟩ := same_target other
      rw [if_neg (by simp [old])] at how
      have less := WatchTable.size_forgetGone_lt how.2 known
      simp only [World.work]
      omega

/-- What records for watches of `root` do. -/
structure Handled (w : World σ) (root : RootRef) (events : List InEvent) (w' : World σ) : Prop where
  only : QueueOnly root w.roots w'.roots
  thins : Thins w.watches w'.watches
  schedule : w'.pool.schedule = w.pool.schedule
  locks : AllocationsSucceed σ → w'.locks = w.locks
  grows : w.work ≤ w'.work
  idle : (∀ event ∈ events, ¬Maintains w event) → w'.watches = w.watches ∧ w'.pool.threads = w.pool.threads
  works : AllocationsSucceed σ → (∀ s : σ, (System.pthreadCreate s).1 = true) →
    (∃ event ∈ events, Maintains w event) → w.work < w'.work

theorem inotifyHandleRecord_handled {root : RootRef} {event : InEvent} {round : Round} (on : OnRoot w root event)
    (ran : inotifyHandleRecord event w = .ok (round, w')) : Handled w root [event] w' := by
  obtain ⟨_, ⟨s, n, rfl⟩, stopped⟩ | ⟨path, target, queued, v, found, considered, effect, offer⟩ :=
    inotifyHandleRecord_eq_ok alone ran
  · refine ⟨.refl _ _, .refl _, rfl, fun _ => rfl, Int.le_refl _, fun _ => ⟨rfl, rfl⟩, ?_⟩
    rintro succeed _ ⟨_, member, maintains⟩
    obtain rfl := List.mem_singleton.mp member
    exact absurd (stopped succeed) maintains.1
  obtain ⟨watch, known, rfl, served, _⟩ := eventTarget_eq_some.mp found
  obtain rfl : root = target := Option.some.inj ((on watch known).symm.trans served)
  obtain ⟨roots, schedule, locks⟩ := effect.frame
  obtain ⟨grows, idle, works⟩ := effect.maintains found considered
  have thins : Thins w.watches v.watches := by
    cases effect with
    | gone s delete => exact WatchTable.thins_forgetGone _ _ _ _
    | _ => exact .refl _
  have handled : Handled w root [event] v := by
    refine ⟨roots ▸ .refl _ _, thins, schedule, fun _ => locks, grows, fun none => idle (none event (by simp)), ?_⟩
    rintro succeed starts ⟨_, member, maintains⟩
    obtain rfl := List.mem_singleton.mp member
    exact works succeed starts maintains
  obtain ⟨_, rfl⟩ | ⟨code, _, _, _, offering⟩ := offer
  · exact handled
  · obtain ⟨only, watches, pool, kept⟩ := inotifyEnqueue_only (schedule.trans alone) offering
    have work : w'.work = v.work := by simp only [World.work, watches, pool]
    refine ⟨roots ▸ only, watches ▸ thins, pool ▸ schedule, fun succeed => (kept succeed).trans locks, work ▸ grows,
      ?_, ?_⟩
    · rw [watches, pool]
      exact handled.idle
    · rw [work]
      exact handled.works

omit alone in
/-- Until the first record that makes the daemon change something, the later ones stand
where they stood at the start. -/
theorem Handled.cons {root : RootRef} {event : InEvent} {events : List InEvent} {v : World σ}
    (first : Handled w root [event] v) (rest : Handled v root events w') : Handled w root (event :: events) w' := by
  refine ⟨first.only.trans rest.only, first.thins.trans rest.thins, rest.schedule.trans first.schedule,
    fun succeed => (rest.locks succeed).trans (first.locks succeed), Int.le_trans first.grows rest.grows, ?_, ?_⟩
  · intro idle
    obtain ⟨watches, threads⟩ := first.idle fun one member => idle one (List.mem_singleton.mp member ▸ List.mem_cons_self)
    have later : ∀ one ∈ events, ¬Maintains v one := by
      intro one member
      rw [maintains_congr first.only watches]
      exact idle one (List.mem_cons_of_mem _ member)
    obtain ⟨watches', threads'⟩ := rest.idle later
    exact ⟨watches'.trans watches, threads'.trans threads⟩
  · rintro succeed starts ⟨one, member, maintains⟩
    by_cases now : Maintains w event
    · have grown := first.works succeed starts ⟨event, by simp, now⟩
      exact Int.lt_of_lt_of_le grown rest.grows
    have idle : ∀ one ∈ [event], ¬Maintains w one := by
      intro one member
      rwa [List.mem_singleton.mp member]
    rcases List.mem_cons.mp member with rfl | later
    · exact absurd maintains now
    · have maintains' := (maintains_congr first.only (first.idle idle).1 one).mpr maintains
      exact Int.lt_of_le_of_lt first.grows (rest.works succeed starts ⟨one, later, maintains'⟩)

end

/-! ## Buffers of records -/

section
variable [System σ]

omit [System σ] in
theorem OnRoot.thin {w v : World σ} {root : RootRef} {event : InEvent} (on : OnRoot w root event)
    (only : QueueOnly root w.roots v.roots) (thins : Thins w.watches v.watches) : OnRoot v root event := by
  intro watch known
  have served := on watch (thins.byWd event.wd watch known)
  simpa only [RootTable.pathToRoot, only.inotifyRoots] using served

theorem inotifyHandleEvent_handled {root : RootRef} {events : List InEvent} {w w' : World σ}
    (alone : w.pool.schedule = []) (on : ∀ event ∈ events, OnRoot w root event)
    (ran : inotifyHandleEvent events w = .ok ((), w')) : Handled w root events w' := by
  induction events generalizing w with
  | nil =>
    obtain ⟨_, rfl⟩ := Program.pure_eq_ok.mp ran
    exact ⟨.refl _ _, .refl _, rfl, fun _ => rfl, Int.le_refl _, fun _ => ⟨rfl, rfl⟩, by simp⟩
  | cons event events ih =>
    obtain ⟨_, v, first, rest⟩ := Program.bind_eq_ok ran
    obtain ⟨round, v', record, first⟩ := Program.bind_eq_ok first
    obtain ⟨_, rfl⟩ := Program.pure_eq_ok.mp first
    have handled := inotifyHandleRecord_handled alone (on event List.mem_cons_self) record
    have on' : ∀ one ∈ events, OnRoot v root one :=
      fun one member => (on one (List.mem_cons_of_mem _ member)).thin handled.only handled.thins
    exact handled.cons (ih (handled.schedule.trans alone) on' rest)

theorem inotifyHandleEvent_returns (succeed : AllocationsSucceed σ) {root : RootRef} {events : List InEvent}
    {w : World σ} (alone : w.pool.schedule = []) (free : w.locks.held .inotify = false)
    (on : ∀ event ∈ events, OnRoot w root event) : ∃ w', inotifyHandleEvent events w = .ok ((), w') := by
  induction events generalizing w with
  | nil => exact ⟨w, rfl⟩
  | cons event events ih =>
    obtain ⟨⟨round, v⟩, record⟩ := inotifyHandleRecord_returns alone succeed free event
    have handled := inotifyHandleRecord_handled alone (on event List.mem_cons_self) record
    have on' : ∀ one ∈ events, OnRoot v root one :=
      fun one member => (on one (List.mem_cons_of_mem _ member)).thin handled.only handled.thins
    have free' : v.locks.held .inotify = false := by rwa [handled.locks succeed]
    obtain ⟨w', rest⟩ := ih (handled.schedule.trans alone) free' on'
    exact ⟨w', (Program.bind_ok _ _ _ _ _ (Program.bind_ok _ _ _ _ _ record)).trans rest⟩

/-! ## With a pause and without -/

def pausedRun (path : Str) (events : List InEvent) : M σ Unit := do
  let _ ← inotifyPauseTree path
  inotifyHandleEvent events
  let _ ← inotifyUnpauseTree path
  return ()

/-- Two ends that differ at most in the queue of `root`, or in whether it is paused. -/
structure Agree (root : RootRef) (v u : World σ) : Prop where
  wds : v.watches.inotifyWdToWatch = u.watches.inotifyWdToWatch
  paths : v.watches.inotifyPathToWatch = u.watches.inotifyPathToWatch
  walkers : v.pool.threads = u.pool.threads
  inotifyRoots : v.roots.inotifyRoots = u.roots.inotifyRoots
  others : ∀ other ≠ root, v.roots.heap other = u.roots.heap other
  own : { v.roots.heap root with queue := none, pause := false } =
    { u.roots.heap root with queue := none, pause := false }

/-- What `inotify_pause_tree` and `inotify_unpause_tree` make of the state. -/
def World.withPause (w : World σ) (root : RootRef) (pause : Bool) : World σ :=
  { w with roots := w.roots.setRoot root fun r => { r with pause := pause } }

theorem setPause_eq_ok {pause : Bool} {path : Str} {root : RootRef} {w w' : World σ} {code : Option InotispyError}
    (alone : w.pool.schedule = []) (registered : w.roots.inotifyRoots.lookup path = some root)
    (ran : setPause pause path w = .ok (code, w')) : w' = w.withPause root pause := by
  have locking := ran
  simp only [setPause, lock_bind_eq_ok alone] at locking
  rw [setPause_run alone locking.1 registered] at ran
  cases ran
  rfl

omit [System σ] in
theorem OnRoot.overlooked {w : World σ} {root : RootRef} {event : InEvent} (on : OnRoot w root event)
    (paused : (w.roots.heap root).pause = true) : ¬Maintains w event := by
  rintro ⟨_, _, path, other, target, _⟩
  obtain ⟨watch, known, rfl, served, running, _⟩ := eventTarget_eq_some.mp target
  rw [on watch known] at served
  cases served
  rw [paused] at running
  cases running

section
variable {w : World σ} {path : Str} {root : RootRef} {events : List InEvent} (alone : w.pool.schedule = [])
  (registered : w.roots.inotifyRoots.lookup path = some root) (on : ∀ event ∈ events, OnRoot w root event)
include alone registered on

theorem pausedRun_eq_ok {v : World σ} (ran : pausedRun path events w = .ok ((), v)) :
    v.watches = w.watches ∧ v.pool.threads = w.pool.threads ∧ v.roots.inotifyRoots = w.roots.inotifyRoots ∧
      (∀ other ≠ root, v.roots.heap other = w.roots.heap other) ∧
      { v.roots.heap root with queue := none, pause := false } =
        { w.roots.heap root with queue := none, pause := false } := by
  obtain ⟨code, p, pausing, ran⟩ := Program.bind_eq_ok ran
  obtain ⟨_, q, handling, ran⟩ := Program.bind_eq_ok ran
  obtain ⟨code', r, unpausing, ran⟩ := Program.bind_eq_ok ran
  obtain ⟨_, rfl⟩ := Program.pure_eq_ok.mp ran
  have during := setPause_eq_ok alone registered pausing
  have handled : Handled p root events q := by
    subst during
    exact inotifyHandleEvent_handled alone on handling
  have idle : q.watches = p.watches ∧ q.pool.threads = p.pool.threads := by
    refine handled.idle fun event member => ?_
    subst during
    have on' : OnRoot (w.withPause root true) root event := on event member
    exact on'.overlooked (by simp only [World.withPause, RootTable.heap_setRoot_self])
  have there : q.roots.inotifyRoots.lookup path = some root := by
    rw [handled.only.inotifyRoots, during]
    exact registered
  have schedule : q.pool.schedule = [] := by
    rw [handled.schedule, during]
    exact alone
  obtain rfl := setPause_eq_ok schedule there unpausing
  refine ⟨?_, ?_, ?_, fun other differs => ?_, ?_⟩
  · rw [World.withPause, idle.1, during, World.withPause]
  · rw [World.withPause, idle.2, during, World.withPause]
  · rw [World.withPause, RootTable.setRoot, handled.only.inotifyRoots, during, World.withPause, RootTable.setRoot]
  · have kept := handled.only.others other differs
    simp only [during, World.withPause, RootTable.heap_setRoot_of_ne differs] at kept ⊢
    exact kept
  · have own := handled.only.own
    simp only [during, World.withPause, RootTable.heap_setRoot_self, Root.mk.injEq] at own ⊢
    simp only [own, and_self]

theorem agree_of_idle {v u : World σ} (paused : pausedRun path events w = .ok ((), v))
    (plain : inotifyHandleEvent events w = .ok ((), u)) (idle : ∀ event ∈ events, ¬Maintains w event) :
    Agree root v u := by
  obtain ⟨watches, threads, roots, others, own⟩ := pausedRun_eq_ok alone registered on paused
  have handled := inotifyHandleEvent_handled alone on plain
  obtain ⟨watches', threads'⟩ := handled.idle idle
  refine ⟨by rw [watches, watches'], by rw [watches, watches'], threads.trans threads'.symm,
    roots.trans handled.only.inotifyRoots.symm,
    fun other differs => (others other differs).trans (handled.only.others other differs).symm, own.trans ?_⟩
  have same := handled.only.own
  simp only [Root.mk.injEq] at same ⊢
  simp only [same, and_self]

theorem pausedRun_returns (succeed : AllocationsSucceed σ) (free : w.locks.held .inotify = false) :
    ∃ v, pausedRun path events w = .ok ((), v) := by
  have pausing := setPause_run alone free registered true
  have on' : ∀ event ∈ events, OnRoot (w.withPause root true) root event := on
  have alone' : (w.withPause root true).pool.schedule = [] := alone
  obtain ⟨q, handling⟩ := inotifyHandleEvent_returns succeed alone' free on'
  have handled : Handled (w.withPause root true) root events q := inotifyHandleEvent_handled alone on handling
  have there : q.roots.inotifyRoots.lookup path = some root := by rwa [handled.only.inotifyRoots]
  have unpausing := setPause_run (handled.schedule.trans alone) (by rwa [handled.locks succeed]) there false
  exact ⟨_, (Program.bind_ok _ _ _ _ _ pausing).trans
    ((Program.bind_ok _ _ _ _ _ handling).trans (Program.bind_ok _ _ _ _ _ unpausing))⟩

/-- Whatever the outside answers, the run with the pause and the run without end alike when no
record makes the daemon change its tables or start a walker; if the outside grants
everything, they end alike only then. -/
theorem pause_only_stops_queueing_iff :
    (∀ v u, pausedRun path events w = .ok ((), v) → inotifyHandleEvent events w = .ok ((), u) →
      (∀ event ∈ events, ¬Maintains w event) → Agree root v u) ∧
    (AllocationsSucceed σ → (∀ s : σ, (System.pthreadCreate s).1 = true) → w.locks.held .inotify = false →
      ∃ v u, pausedRun path events w = .ok ((), v) ∧ inotifyHandleEvent events w = .ok ((), u) ∧
        (Agree root v u ↔ ∀ event ∈ events, ¬Maintains w event)) := by
  refine ⟨fun v u => agree_of_idle alone registered on, fun succeed starts free => ?_⟩
  obtain ⟨u, plain⟩ := inotifyHandleEvent_returns succeed alone free on
  obtain ⟨v, paused⟩ := pausedRun_returns alone registered on succeed free
  refine ⟨v, u, paused, plain, fun agree event member maintains => ?_, agree_of_idle alone registered on paused plain⟩
  obtain ⟨watches, threads, _⟩ := pausedRun_eq_ok alone registered on paused
  have grown := (inotifyHandleEvent_handled alone on plain).works succeed starts ⟨event, member, maintains⟩
  have same : u.work = w.work := by
    simp only [World.work, WatchTable.size, ← agree.wds, ← agree.paths, ← agree.walkers, watches, threads]
  omega

end

/-- A directory that has no entry is removed while "/r" is paused. -/
theorem pause_only_stops_queueing_removal :
    ∃ v u, pausedRun (str "/r") [⟨1, inDelete ||| inIsdir, 0, 16, str "new"⟩]
        (World.watching (⟨[]⟩ : Script true) (str "/r")) = .ok ((), v) ∧
      inotifyHandleEvent [⟨1, inDelete ||| inIsdir, 0, 16, str "new"⟩]
        (World.watching (⟨[]⟩ : Script true) (str "/r")) = .ok ((), u) ∧ Agree 0 v u := by
  have registered : (World.watching (⟨[]⟩ : Script true) (str "/r")).roots.inotifyRoots.lookup (str "/r") = some 0 :=
    rfl
  have target : eventTarget (World.watching (⟨[]⟩ : Script true) (str "/r")) 1 = some (str "/r", 0) := rfl
  have on : ∀ event ∈ [⟨1, inDelete ||| inIsdir, 0, 16, str "new"⟩],
      OnRoot (World.watching (⟨[]⟩ : Script true) (str "/r")) 0 event := by
    intro event member watch known
    obtain ⟨watch', known', named, served, _⟩ := eventTarget_eq_some.mp target
    rw [List.mem_singleton.mp member, known'] at known
    cases known
    rw [named, served]
  obtain ⟨v, u, paused, plain, iff⟩ :=
    (pause_only_stops_queueing_iff rfl registered on).2 (fun _ => rfl) (fun _ => rfl) rfl
  refine ⟨v, u, paused, plain, iff.mpr ?_⟩
  rintro event member ⟨_, _, path, root, is, how⟩
  rw [List.mem_singleton.mp member] at is how
  rw [target] at is
  cases is
  rw [if_neg (by decide)] at how
  obtain ⟨_, delete, known, _⟩ := how
  exact absurd known (by decide +revert)

/-- A directory is made while "/r" is paused: no walker is started on it. -/
theorem paused_directory_not_walked :
    ∃ v u, pausedRun (str "/r") [⟨1, inCreate ||| inIsdir, 0, 16, str "new"⟩]
        (World.watching (⟨[]⟩ : Script true) (str "/r")) = .ok ((), v) ∧
      inotifyHandleEvent [⟨1, inCreate ||| inIsdir, 0, 16, str "new"⟩]
        (World.watching (⟨[]⟩ : Script true) (str "/r")) = .ok ((), u) ∧
      v.pool.threads = [] ∧ u.pool.threads = [.watchTree ⟨some (str "/r/new"), 0, false⟩] ∧ ¬Agree 0 v u := by
  have paused : ((pausedRun (str "/r") [⟨1, inCreate ||| inIsdir, 0, 16, str "new"⟩]
      (World.watching (⟨[]⟩ : Script true) (str "/r"))).toOption.map fun r => r.2.pool.threads) = some [] := by
    decide +kernel
  have plain : ((inotifyHandleEvent [⟨1, inCreate ||| inIsdir, 0, 16, str "new"⟩]
      (World.watching (⟨[]⟩ : Script true) (str "/r"))).toOption.map fun r => r.2.pool.threads) =
        some [.watchTree ⟨some (str "/r/new"), 0, false⟩] := by
    decide +kernel
  obtain ⟨⟨_, v⟩, is, threads⟩ := Option.map_eq_some_iff.mp paused
  obtain ⟨⟨_, u⟩, is', threads'⟩ := Option.map_eq_some_iff.mp plain
  refine ⟨v, u, Program.ok_of_toOption is, Program.ok_of_toOption is', threads, threads', fun agree => ?_⟩
  have same := threads.symm.trans (agree.walkers.trans threads')
  cases same

end
end Inotispy
