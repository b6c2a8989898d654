import Inotispy.Model.Events
import Inotispy.Roots.Search
import Inotispy.Threads.Alone

/-! What one round of `inotify_handle_event` does to the state, while no other thread runs. -/

set_option autoImplicit false

namespace Inotispy
open Library

variable {σ : Type} [System σ]

/-! ## Forgetting a list of paths -/

def WatchTable.forgetAll (watches : WatchTable) : List Str → WatchTable
  | [] => watches
  | path :: paths =>
    match watches.inotifyPathToWatch.lookup path with
    | none => watches.forgetAll paths
    | some watch => (watches.forget path watch.wd).forgetAll paths

namespace WatchTable

theorem lookupPath_forgetAll (watches : WatchTable) (paths : List Str) (p : Str) :
    (watches.forgetAll paths).inotifyPathToWatch.lookup p =
      if p ∈ paths then none else watches.inotifyPathToWatch.lookup p := by
  induction paths generalizing watches with
  | nil => rfl
  | cons path paths ih =>
    unfold forgetAll
    cases found : watches.inotifyPathToWatch.lookup path with
    | none =>
      simp only [ih, List.mem_cons]
      by_cases same : p = path
      · subst same
        simp [found]
      · simp [same]
    | some watch =>
      simp only [ih, List.mem_cons, forget, GHashTable.lookup_erase_if]
      by_cases same : p = path <;> simp [same]

theorem lookupWd_forgetAll (watches : WatchTable) (paths : List Str) (d : Int) :
    (watches.forgetAll paths).inotifyWdToWatch.lookup d =
      if ∃ p ∈ paths, ∃ watch, watches.inotifyPathToWatch.lookup p = some watch ∧ watch.wd = d then none
      else watches.inotifyWdToWatch.lookup d := by
  induction paths generalizing watches with
  | nil => simp [forgetAll]
  | cons path paths ih =>
    unfold forgetAll
    cases found : watches.inotifyPathToWatch.lookup path with
    | none => simp [ih, found]
    | some watch =>
      simp only [ih, forget, GHashTable.lookup_erase_if, List.exists_mem_cons_iff, found]
      by_cases same : d = watch.wd
      · subst same
        simp
      -- The entry that goes has another descriptor, so it hides nothing that is looked for.
      · have other : ¬∃ v, some watch = some v ∧ v.wd = d := by
          rintro ⟨v, is, rfl⟩
          cases is
          exact same rfl
        simp only [same, if_false, other, false_or]
        congr 1
        simp only [eq_iff_iff]
        constructor
        · rintro ⟨p, member, v, lookup, rfl⟩
          split at lookup
          · cases lookup
          · exact ⟨p, member, v, lookup, rfl⟩
        · rintro ⟨p, member, v, lookup, rfl⟩
          refine ⟨p, member, v, ?_, rfl⟩
          rw [if_neg ?_]
          · exact lookup
          · rintro rfl
            rw [found] at lookup
            cases lookup
            exact same rfl

theorem forgetAll_keeps {inv : WatchTable → Prop}
    (forget : ∀ watches path watch, inv watches →
      watches.inotifyPathToWatch.lookup path = some watch → inv (watches.forget path watch.wd))
    (paths : List Str) (watches : WatchTable) (start : inv watches) : inv (watches.forgetAll paths) := by
  induction paths generalizing watches with
  | nil => exact start
  | cons path paths ih =>
    unfold forgetAll
    cases found : watches.inotifyPathToWatch.lookup path with
    | none => exact ih watches start
    | some watch => exact ih _ (forget watches path watch start found)

end WatchTable

theorem unwatchBelow_eq_ok {below : Str} {tmp : Option Str} (made : tmp = none ∨ tmp = some below)
    {keys : List Str} {w w' : World σ} {a : Unit} (ran : unwatchBelow tmp keys w = .ok (a, w')) :
    ∃ s, w' = { w with sys := s, watches := w.watches.forgetAll (keys.filter (below <+: ·)) } := by
  induction keys generalizing w with
  | nil =>
    obtain ⟨_, rfl⟩ := Program.pure_eq_ok.mp ran
    exact ⟨_, rfl⟩
  | cons subPath keys ih =>
    simp only [unwatchBelow, deref_bind_eq_ok, CString.strstr_eq_zero, Program.ite_eq_ok,
      lookupPath_bind] at ran
    obtain ⟨text, rfl, ran⟩ := ran
    -- A null prefix stops the loop at its first key.
    obtain rfl : text = below := by simpa using made
    obtain ⟨inside, ran⟩ | ⟨outside, ran⟩ := ran
    · rw [List.filter_cons_of_pos (by simpa using inside), WatchTable.forgetAll]
      cases found : w.watches.inotifyPathToWatch.lookup subPath with
      | none =>
        rw [found] at ran
        exact ih ran
      | some subWatch =>
        rw [found] at ran
        exact ih ran
    · rw [List.filter_cons_of_neg (by simpa using outside)]
      exact ih ran

/-- The paths whose entries go when the directory at `absPath` is gone. -/
def gonePaths (event : InEvent) (absPath : Str) (watches : WatchTable) : List Str :=
  absPath :: if hasBit event.mask inMovedFrom then
    (watches.inotifyPathToWatch.erase absPath).keys.filter (absPath ++ str "/" <+: ·) else []

/-- What the removal leaves of the entry that was found for `path`. Under a path that is not
absolute the entry itself stays in the table. -/
def WatchTable.forgetEntry (watches : WatchTable) (path : Str) (delete : Watch) : WatchTable :=
  { watches with
    inotifyWdToWatch := watches.inotifyWdToWatch.erase delete.wd
    inotifyPathToWatch :=
      if path.head? = some '/' then watches.inotifyPathToWatch.erase path else watches.inotifyPathToWatch }

def WatchTable.forgetGone (watches : WatchTable) (event : InEvent) (path : Str) (delete : Watch) : WatchTable :=
  (watches.forgetEntry path delete).forgetAll (if hasBit event.mask inMovedFrom then
    (watches.forgetEntry path delete).inotifyPathToWatch.keys.filter (path ++ str "/" <+: ·) else [])

theorem WatchTable.forgetGone_absolute {watches : WatchTable} {event : InEvent} {path : Str} {delete : Watch}
    (absolute : path.head? = some '/') (known : watches.inotifyPathToWatch.lookup path = some delete) :
    watches.forgetGone event path delete = watches.forgetAll (gonePaths event path watches) := by
  have entry : watches.forgetEntry path delete = watches.forget path delete.wd := by
    simp only [forgetEntry, forget, if_pos absolute]
  rw [forgetGone, gonePaths, forgetAll, known, entry]
  rfl

def NotStarted (w : World σ) (root : RootRef) : Prop :=
  (w.roots.heap root).destroy = true ∨ ¬AllocationsSucceed σ ∨
    ∃ t : σ, (System.pthreadCreate t).1 = false

theorem doWatchTree_eq_ok {path : Option Str} {root : RootRef} {cleanup : Bool} {w w' : World σ}
    {code : Option InotispyError} (ran : doWatchTree path root cleanup w = .ok (code, w')) :
    ∃ s, (code ≠ none ∧ w' = { w with sys := s } ∧ NotStarted w root) ∨
      ∃ copy t, (AllocationsSucceed σ → copy = some (percentS path)) ∧ code = none ∧
        (w.roots.heap root).destroy = false ∧ (System.pthreadCreate (σ := σ) t).1 = true ∧
        w' = { w with
          sys := s
          pool.threads := w.pool.threads ++ [.watchTree ⟨copy, root, cleanup⟩] } := by
  simp only [doWatchTree, getRoot_bind, Program.ite_eq_ok, Program.pure_eq_ok, malloc_bind,
    mkString_bind, spawn_bind] at ran
  obtain ⟨dying, rfl, rfl⟩ | ⟨live, ⟨failed, rfl, rfl⟩ | ⟨_, ran⟩⟩ := ran
  · exact ⟨_, .inl ⟨by simp, rfl, .inl dying⟩⟩
  · exact ⟨_, .inl ⟨by simp, rfl, .inr (.inl fun succeed => by simp [succeed _] at failed)⟩⟩
  · split at ran
    · obtain ⟨rfl, rfl⟩ := Program.pure_eq_ok.mp ran
      exact ⟨_, .inr ⟨_, _, fun succeed => if_pos (succeed _), rfl, by simpa using live, ‹_›, rfl⟩⟩
    · obtain ⟨rfl, rfl⟩ := Program.pure_eq_ok.mp ran
      exact ⟨_, .inl ⟨by simp, rfl, .inr (.inr ⟨_, eq_false_of_ne_true ‹_›⟩)⟩⟩

/-- What the bookkeeping for directories does, with the value that says whether the
event goes on to be queued. -/
inductive DirectoryEffect (event : InEvent) (path : Str) (root : RootRef) (w : World σ) :
    Bool → World σ → Prop where
  | plain (s : σ) (ordinary : hasBit event.mask inIsdir = true →
        (hasBit event.mask inCreate || hasBit event.mask inMovedTo) = false ∧
          (hasBit event.mask inDelete || hasBit event.mask inMovedFrom) = false) :
      DirectoryEffect event path root w true { w with sys := s }
  | notStarted (s : σ) (isDir : hasBit event.mask inIsdir = true)
      (new : (hasBit event.mask inCreate || hasBit event.mask inMovedTo) = true)
      (why : endsInTmp path = true ∨ NotStarted w root) :
      DirectoryEffect event path root w false { w with sys := s }
  | started (s t : σ) (copy : Option Str) (isDir : hasBit event.mask inIsdir = true)
      (new : (hasBit event.mask inCreate || hasBit event.mask inMovedTo) = true)
      (plain : endsInTmp path = false) (live : (w.roots.heap root).destroy = false)
      (created : (System.pthreadCreate t).1 = true)
      (copied : AllocationsSucceed σ → copy = some (eventPath path event.name)) :
      DirectoryEffect event path root w true
        { w with sys := s, pool.threads := w.pool.threads ++ [.watchTree ⟨copy, root, false⟩] }
  | unknown (s : σ) (isDir : hasBit event.mask inIsdir = true)
      (old : (hasBit event.mask inCreate || hasBit event.mask inMovedTo) = false)
      (gone : (hasBit event.mask inDelete || hasBit event.mask inMovedFrom) = true)
      (missing : w.watches.inotifyPathToWatch.lookup (eventPath path event.name) = none) :
      DirectoryEffect event path root w false { w with sys := s }
  | gone (s : σ) (delete : Watch) (isDir : hasBit event.mask inIsdir = true)
      (old : (hasBit event.mask inCreate || hasBit event.mask inMovedTo) = false)
      (gone : (hasBit event.mask inDelete || hasBit event.mask inMovedFrom) = true)
      (known : w.watches.inotifyPathToWatch.lookup (eventPath path event.name) = some delete) :
      DirectoryEffect event path root w true
        { w with sys := s, watches := w.watches.forgetGone event (eventPath path event.name) delete }

theorem DirectoryEffect.of_sys {event : InEvent} {path : Str} {root : RootRef} {w v : World σ}
    {queued : Bool} {t : σ} (effect : DirectoryEffect event path root { w with sys := t } queued v) :
    DirectoryEffect event path root w queued v := by
  cases effect with
  | plain s ordinary => exact .plain s ordinary
  | notStarted s isDir new why => exact .notStarted s isDir new why
  | started s t copy isDir new plain live created copied =>
    exact .started s t copy isDir new plain live created copied
  | unknown s isDir old gone missing => exact .unknown s isDir old gone missing
  | gone s delete isDir old gone known => exact .gone s delete isDir old gone known

theorem DirectoryEffect.frame {event : InEvent} {path : Str} {root : RootRef} {w v : World σ}
    {queued : Bool} (effect : DirectoryEffect event path root w queued v) :
    v.roots = w.roots ∧ v.pool.schedule = w.pool.schedule ∧ v.locks = w.locks := by
  cases effect <;> exact ⟨rfl, rfl, rfl⟩

/-- Where an event goes: the path of its watch and the root that serves it, unless that
root is paused or being destroyed. -/
def eventTarget (w : World σ) (wd : Int) : Option (Str × RootRef) := do
  let watch ← w.watches.inotifyWdToWatch.lookup wd
  let root ← w.roots.pathToRoot watch.path
  if (w.roots.heap root).pause || (w.roots.heap root).destroy then none else some (watch.path, root)

omit [System σ] in
theorem eventTarget_eq_some {w : World σ} {wd : Int} {path : Str} {root : RootRef} :
    eventTarget w wd = some (path, root) ↔
      ∃ watch, w.watches.inotifyWdToWatch.lookup wd = some watch ∧ watch.path = path ∧
        w.roots.pathToRoot path = some root ∧ (w.roots.heap root).pause = false ∧
        (w.roots.heap root).destroy = false := by
  unfold eventTarget
  constructor
  · intro target
    obtain ⟨watch, known, target⟩ := Option.bind_eq_some_iff.mp target
    obtain ⟨found, served, target⟩ := Option.bind_eq_some_iff.mp target
    split at target
    · cases target
    · cases target
      exact ⟨watch, known, rfl, served, by simp_all⟩
  · rintro ⟨watch, known, rfl, served, running, live⟩
    simp [known, served, running, live]

omit [System σ] in
theorem rootQueue_bind {A : Type} (root : RootRef) (f : List Event → M σ A) (w : World σ) :
    (rootQueue root >>= f) w = f (w.roots.heap root).events
      { w with
        output.releasedQueueUsed := w.output.releasedQueueUsed || (w.roots.heap root).queue.isNone } := by
  simp only [rootQueue, bind_assoc, getRoot_bind, Root.events]
  cases (w.roots.heap root).queue <;> simp [modifyOutput_bind]

omit [System σ] in
theorem setRootQueue_bind {A : Type} (root : RootRef) (queue : List Event) (f : Unit → M σ A)
    (w : World σ) :
    (setRootQueue root queue >>= f) w = f ()
      { w with roots := w.roots.setRoot root fun r => { r with queue := r.queue.map fun _ => queue } } := rfl

theorem le_queueLength_iff {queue : List Event} (fits : queue.length < 2 ^ 31) (maxEvents : Int32) :
    maxEvents ≤ queueLength queue ↔ maxEvents.toInt ≤ queue.length := by
  rw [Int32.le_iff_toInt_le, queueLength, Int32.toInt_ofNat_of_lt fits]

section
variable {w w' : World σ} (alone : w.pool.schedule = [])
include alone

theorem handleGone_eq_ok {event : InEvent} {absPath : Option Str} {queued : Bool}
    (ran : handleGone event absPath w = .ok (queued, w')) :
    ∃ path s, absPath = some path ∧
      ((queued = false ∧ w.watches.inotifyPathToWatch.lookup path = none ∧ w' = { w with sys := s }) ∨
        ∃ delete, queued = true ∧ w.watches.inotifyPathToWatch.lookup path = some delete ∧
          w' = { w with sys := s, watches := w.watches.forgetGone event path delete }) := by
  simp only [handleGone, lock_bind_eq_ok alone, deref_bind_eq_ok, lookupPath_bind] at ran
  obtain ⟨free, path, rfl, ran⟩ := ran
  cases found : w.watches.inotifyPathToWatch.lookup path with
  | none =>
    simp only [found] at ran
    obtain ⟨rfl, rfl⟩ := of_unlock_pure ran alone
    exact ⟨path, _, rfl, .inl ⟨rfl, found, by rw [Locks.unlock_set free]⟩⟩
  | some delete =>
    -- Both removals of the entry come before the loop over what lies below.
    have finish {t : σ} {watches : WatchTable} (entry : watches = w.watches.forgetEntry path delete)
        {w' : World σ} (ran : (do
          if hasBit event.mask inMovedFrom then
            let keys ← Program.read (·.watches.inotifyPathToWatch.keys)
            let tmp ← mkString (path ++ str "/")
            unwatchBelow tmp keys
          unlock .inotify
          return true : M σ Bool)
            { w with locks := w.locks.set .inotify true, sys := t, watches := watches } = .ok (queued, w')) :
        queued = true ∧ ∃ s, w' = { w with sys := s, watches := w.watches.forgetGone event path delete } := by
      subst entry
      simp only [Program.ite_eq_ok] at ran
      obtain ⟨moved, ran⟩ | ⟨stayed, ran⟩ := ran
      · simp only [Program.read_bind_apply, mkString_bind] at ran
        obtain ⟨_, v, unwatching, ran⟩ := Program.bind_eq_ok ran
        obtain ⟨s, rfl⟩ := unwatchBelow_eq_ok (ite_eq_or_eq _ _ _).symm unwatching
        obtain ⟨rfl, rfl⟩ := of_unlock_pure ran alone
        exact ⟨rfl, s, by rw [WatchTable.forgetGone, if_pos moved, Locks.unlock_set free]⟩
      · obtain ⟨rfl, rfl⟩ := of_unlock_pure ran alone
        exact ⟨rfl, t, by rw [WatchTable.forgetGone, if_neg stayed, Locks.unlock_set free]; rfl⟩
    simp only [found, inotifyRmWatch_bind, modifyWatches_bind] at ran
    rw [Program.ite_eq_ok] at ran
    obtain ⟨slash, ran⟩ | ⟨relative, ran⟩ := ran
    · obtain ⟨rfl, s, rfl⟩ := finish (by simp only [WatchTable.forgetEntry, if_pos slash]) ran
      exact ⟨path, s, rfl, .inr ⟨delete, rfl, found, rfl⟩⟩
    · obtain ⟨rfl, s, rfl⟩ := finish (by simp only [WatchTable.forgetEntry, if_neg relative]) ran
      exact ⟨path, s, rfl, .inr ⟨delete, rfl, found, rfl⟩⟩

theorem handleNew_eq_ok {path : Str} {absPath : Option Str} {root : RootRef} {queued : Bool}
    (ran : handleNew path absPath root w = .ok (queued, w')) :
    ∃ s, (queued = false ∧ w' = { w with sys := s } ∧ (endsInTmp path = true ∨ NotStarted w root)) ∨
      ∃ copy t, (AllocationsSucceed σ → copy = some (percentS absPath)) ∧ queued = true ∧
        endsInTmp path = false ∧ (w.roots.heap root).destroy = false ∧
        (System.pthreadCreate (σ := σ) t).1 = true ∧
        w' = { w with
          sys := s
          pool.threads := w.pool.threads ++ [.watchTree ⟨copy, root, false⟩] } := by
  simp only [handleNew, Program.ite_eq_ok, Program.pure_eq_ok, yieldMain_bind alone] at ran
  obtain ⟨tmp, rfl, rfl⟩ | ⟨plain, ran⟩ := ran
  · exact ⟨_, .inl ⟨rfl, rfl, .inl tmp⟩⟩
  · obtain ⟨code, v, starting, ran⟩ := Program.bind_eq_ok ran
    obtain ⟨rfl, rfl⟩ := Program.pure_eq_ok.mp ran
    obtain ⟨s, ⟨failed, rfl, why⟩ | ⟨copy, t, made, rfl, live, created, rfl⟩⟩ := doWatchTree_eq_ok starting
    · exact ⟨s, .inl ⟨by simpa [Option.isSome_iff_ne_none] using failed, rfl, .inr why⟩⟩
    · exact ⟨s, .inr ⟨copy, t, made, rfl, eq_false_of_ne_true plain, live, created, rfl⟩⟩

theorem handleDirectory_eq_ok {event : InEvent} {path : Str} {absPath : Option Str} {root : RootRef}
    {queued : Bool} (made : absPath = some (eventPath path event.name) ∨ absPath = none)
    (allocated : AllocationsSucceed σ → absPath = some (eventPath path event.name))
    (ran : handleDirectory event path absPath root w = .ok (queued, w')) :
    DirectoryEffect event path root w queued w' := by
  simp only [handleDirectory, Program.ite_eq_ok, Program.pure_eq_ok] at ran
  obtain ⟨file, rfl, rfl⟩ | ⟨isDir, ⟨new, ran⟩ | ⟨old, ⟨gone, ran⟩ | ⟨other, rfl, rfl⟩⟩⟩ := ran
  · exact .plain _ fun isDir => by simp [isDir] at file
  · have isDir : hasBit event.mask inIsdir = true := by simpa using isDir
    obtain ⟨s, ⟨rfl, rfl, why⟩ | ⟨copy, t, copied, rfl, plain, live, created, rfl⟩⟩ := handleNew_eq_ok alone ran
    · exact .notStarted s isDir new why
    · refine .started s t copy isDir new plain live created fun succeed => ?_
      rw [copied succeed, allocated succeed]
      rfl
  · have isDir : hasBit event.mask inIsdir = true := by simpa using isDir
    have old := eq_false_of_ne_true old
    obtain ⟨abs, s, rfl, how⟩ := handleGone_eq_ok alone ran
    obtain ⟨rfl⟩ : abs = eventPath path event.name := by simpa using made
    obtain ⟨rfl, missing, rfl⟩ | ⟨delete, rfl, known, rfl⟩ := how
    · exact .unknown s isDir old gone missing
    · exact .gone s delete isDir old gone known
  · exact .plain _ fun _ => ⟨eq_false_of_ne_true old, eq_false_of_ne_true other⟩

theorem lookupEvent_eq_ok {wd : Int} {target : Option (Str × RootRef)}
    (ran : lookupEvent wd w = .ok (target, w')) :
    (target = eventTarget w wd ∨ (target = none ∧ ¬AllocationsSucceed σ)) ∧ w.locks.inotify = false ∧
      ∃ s, w' = { w with sys := s } := by
  simp only [lookupEvent, lock_bind_eq_ok alone, lookupWd_bind] at ran
  obtain ⟨free, ran⟩ := ran
  cases known : w.watches.inotifyWdToWatch.lookup wd with
  | none =>
    simp only [known] at ran
    obtain ⟨rfl, rfl⟩ := of_unlock_pure ran alone
    exact ⟨.inl (by simp [eventTarget, known]), free, _, by rw [Locks.unlock_set free]⟩
  | some watch =>
    simp only [known, malloc_bind, Program.ite_eq_ok] at ran
    obtain ⟨failed, ran⟩ | ⟨_, ran⟩ := ran
    · obtain ⟨rfl, rfl⟩ := of_unlock_pure ran alone
      exact ⟨.inr ⟨rfl, fun succeed => by simp [succeed w.sys] at failed⟩, free, _, by rw [Locks.unlock_set free]⟩
    · obtain ⟨found, v, searching, ran⟩ := Program.bind_eq_ok ran
      obtain ⟨rfl, s, rfl⟩ := inotifyPathToRoot_eq_ok searching
      cases served : w.roots.pathToRoot watch.path with
      | none =>
        simp only [served] at ran
        obtain ⟨rfl, rfl⟩ := of_unlock_pure ran alone
        exact ⟨.inl (by simp [eventTarget, known, served]), free, s, by rw [Locks.unlock_set free]⟩
      | some root =>
        simp only [served, getRoot_bind] at ran
        have ran := of_unlock_bind ran alone
        simp only [Program.ite_eq_ok, Program.pure_eq_ok] at ran
        obtain ⟨stopped, rfl, rfl⟩ | ⟨running, rfl, rfl⟩ := ran
        · exact ⟨.inl (by simp_all [eventTarget]), free, s, by rw [Locks.unlock_set free]⟩
        · refine ⟨.inl ?_, free, s, by rw [Locks.unlock_set free]⟩
          symm
          rw [eventTarget_eq_some]
          exact ⟨watch, known, rfl, served, by simp_all⟩

theorem inotifyEnqueue_eq_ok {root : RootRef} {event : InEvent} {path : Str}
    {code : Option InotispyError} (ran : inotifyEnqueue root event path w = .ok (code, w')) :
    ∃ s locks used,
      (((code = some .inotifyRootQueueFull ∧ locks = w.locks ∧
            (w.roots.heap root).maxEvents ≤ queueLength (w.roots.heap root).events) ∨
          (code = some .memoryAllocation ∧ ¬AllocationsSucceed σ)) ∧
        w' = { w with sys := s, locks := locks, output.releasedQueueUsed := used }) ∨
      ∃ name copy, code = none ∧ ¬(w.roots.heap root).maxEvents ≤ queueLength (w.roots.heap root).events ∧
        (copy = some path ∨ copy = none) ∧
        (AllocationsSucceed σ → name = some event.name ∧ copy = some path) ∧
        w' = { w with
          sys := s
          output.releasedQueueUsed := used
          roots := w.roots.setRoot root fun r =>
            { r with queue := r.queue.map fun _ => (w.roots.heap root).events ++ [makeNode event name copy] } } := by
  simp only [inotifyEnqueue, lock_bind_eq_ok alone, rootQueue_bind, getRoot_bind, Program.ite_eq_ok,
    malloc_bind, Program.pure_eq_ok, mkString_bind, setRootQueue_bind] at ran
  obtain ⟨free, ⟨full, ran⟩ | ⟨room, ⟨failed, rfl, rfl⟩ | ⟨_, ran⟩⟩⟩ := ran
  · obtain ⟨rfl, rfl⟩ := of_unlock_pure ran alone
    exact ⟨_, _, _, .inl ⟨.inl ⟨rfl, Locks.unlock_set free, full⟩, rfl⟩⟩
  · exact ⟨_, _, _, .inl ⟨.inr ⟨rfl, fun succeed => by simp [succeed w.sys] at failed⟩, rfl⟩⟩
  · obtain ⟨rfl, rfl⟩ := of_unlock_pure ran alone
    exact ⟨_, w.locks, _, .inr ⟨_, _, rfl, room, ite_eq_or_eq _ _ _,
      fun succeed => ⟨if_pos (succeed _), if_pos (succeed _)⟩, by rw [Locks.unlock_set free]⟩⟩

/-- The records that the loop passes over before it comes to the bookkeeping for directories. -/
def Overlooked (w : World σ) (event : InEvent) : Prop :=
  event.len = 0 ∨ hasBit event.mask inQOverflow = true ∨ skipped event = true ∨ eventTarget w event.wd = none

/-- A round either stops before the bookkeeping for directories or does that bookkeeping
for the event's target and then, perhaps, offers the event to the target's queue. -/
theorem inotifyHandleRecord_eq_ok {event : InEvent} {round : Round}
    (ran : inotifyHandleRecord event w = .ok (round, w')) :
    (round.offered = none ∧ (∃ s n, w' = { w with sys := s, output.overflowReports := n }) ∧
        (AllocationsSucceed σ → Overlooked w event)) ∨
      ∃ path root queued v, eventTarget w event.wd = some (path, root) ∧ ¬Overlooked w event ∧
        DirectoryEffect event path root w queued v ∧
        ((round.offered = none ∧ w' = v) ∨
          ∃ code, queued = true ∧ hasBit event.mask (v.roots.heap root).mask = true ∧
            round.offered = some (root, code) ∧ inotifyEnqueue root event path v = .ok (code, w')) := by
  simp only [inotifyHandleRecord, Program.ite_eq_ok, Program.pure_eq_ok, modifyOutput_bind] at ran
  obtain ⟨empty, rfl, rfl⟩ | ⟨named, ⟨overflow, rfl, rfl⟩ | ⟨fits, ⟨skips, rfl, rfl⟩ | ⟨heeded, ran⟩⟩⟩ := ran
  · exact .inl ⟨rfl, ⟨_, _, rfl⟩, fun _ => .inl empty⟩
  · exact .inl ⟨rfl, ⟨_, _, rfl⟩, fun _ => .inr (.inl overflow)⟩
  · exact .inl ⟨rfl, ⟨_, _, rfl⟩, fun _ => .inr (.inr (.inl skips))⟩
  obtain ⟨target, v, looking, ran⟩ := Program.bind_eq_ok ran
  obtain ⟨known, _, s, rfl⟩ := lookupEvent_eq_ok alone looking
  match target, known, ran with
  | none, known, ran =>
    obtain ⟨rfl, rfl⟩ := Program.pure_eq_ok.mp ran
    refine .inl ⟨rfl, ⟨_, _, rfl⟩, fun succeed => ?_⟩
    rcases known with unknown | ⟨_, failed⟩
    · exact .inr (.inr (.inr unknown.symm))
    · exact absurd succeed failed
  | some (path, root), known, ran =>
    have known : eventTarget w event.wd = some (path, root) := by simpa [eq_comm] using known
    simp only [mkString_bind] at ran
    obtain ⟨queued, v, handling, ran⟩ := Program.bind_eq_ok ran
    have effect := (handleDirectory_eq_ok (w := { w with sys := (System.malloc s).2 }) alone
      (ite_eq_or_eq _ _ _) (fun succeed => if_pos (succeed s)) handling).of_sys
    have considered : ¬Overlooked w event := by
      rintro (empty | overflow | skips | unknown)
      · exact named empty
      · exact fits overflow
      · exact heeded skips
      · rw [known] at unknown
        cases unknown
    refine .inr ⟨path, root, queued, v, known, considered, effect, ?_⟩
    simp only [Program.ite_eq_ok, Program.pure_eq_ok, getRoot_bind] at ran
    obtain ⟨_, rfl, rfl⟩ | ⟨going, ⟨_, rfl, rfl⟩ | ⟨wanted, ran⟩⟩ := ran
    · exact .inl ⟨rfl, rfl⟩
    · exact .inl ⟨rfl, rfl⟩
    · obtain ⟨code, u, offering, ran⟩ := Program.bind_eq_ok ran
      obtain ⟨rfl, rfl⟩ := Program.pure_eq_ok.mp ran
      exact .inr ⟨code, by simpa using going, by simpa using wanted, rfl, offering⟩

end
end Inotispy
