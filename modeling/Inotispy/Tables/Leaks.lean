import Inotispy.Disk.Walk
import Inotispy.Threads.Moves

/-! The kernel's watches and the table of descriptors.

Every descriptor that is active should have an entry, so that it can be found and given up.
Two pieces of code lose one: a destroy thread forgets the entry of the root itself without
giving up its descriptor, and a walker without memory for an entry keeps the descriptor.
-/

set_option autoImplicit false

namespace Inotispy
open Library

variable {σ : Type} [System σ]

/-- What the kernel does with descriptors. None is issued twice. -/
structure Descriptors (σ : Type) [System σ] where
  active : σ → Int → Prop
  issued : σ → Int → Prop
  active_issued : ∀ s wd, active s wd → issued s wd
  quiet_active : ∀ {s t}, Quiet s t → ∀ wd, active t wd ↔ active s wd
  quiet_issued : ∀ {s t}, Quiet s t → ∀ wd, issued s wd → issued t wd
  addWatch_active : ∀ s path mask wd, active (System.inotifyAddWatch s path mask).2 wd ↔
    active s wd ∨ wd = (System.inotifyAddWatch s path mask).1 ∧ 0 ≤ wd
  /-- A directory keeps its active descriptor, or is given one that was never used. -/
  addWatch_new : ∀ s path mask, 0 ≤ (System.inotifyAddWatch s path mask).1 →
    issued s (System.inotifyAddWatch s path mask).1 → active s (System.inotifyAddWatch s path mask).1
  addWatch_issued : ∀ s path mask wd, issued s wd → issued (System.inotifyAddWatch s path mask).2 wd
  rmWatch_active : ∀ s wd other, active (System.inotifyRmWatch s wd).2 other ↔ active s other ∧ other ≠ wd
  rmWatch_issued : ∀ s wd other, issued s other → issued (System.inotifyRmWatch s wd).2 other

def Unallocated (w : World σ) (path : Str) (root : RootRef) : Prop :=
  ¬((System.malloc (askedSys w path root)).1 = true ∧
    (System.malloc (System.malloc (askedSys w path root)).2).1 = true)

/-! ## The walker's critical section -/

inductive SectionEffect (w w' : World σ) (path : Str) (root : RootRef) (cleanup : Bool) : Prop where
  | none (sys : Quiet w.sys w'.sys) (skipped : Nat)
      (watches : w'.watches = { w.watches with nextWatch := w.watches.nextWatch + skipped })
      (idle : ¬Files w path root cleanup)
  | known (sys : Quiet (askedSys w path root) w'.sys) (skipped : Nat)
      (watches : w'.watches = { w.watches with nextWatch := w.watches.nextWatch + skipped })
      (answer : answeredWd w path root < 0 ∨ (w.watches.inotifyWdToWatch.lookup (answeredWd w path root)).isSome)
  | lost (sys : Quiet (askedSys w path root) w'.sys) (watches : w'.watches = w.watches)
      (files : Files w path root cleanup) (unallocated : Unallocated w path root)
  | filed (sys : Quiet (askedSys w path root) w'.sys) (files : Files w path root cleanup)
      (allocated : ¬Unallocated w path root)
      (watches : w'.watches = ({ w.watches with nextWatch := w.watches.nextWatch + 1 } : WatchTable).file root
        ⟨w.watches.nextWatch, answeredWd w path root, path⟩)

theorem doWatchTreeSection_effect {path : Str} {root : RootRef} {cleanup went : Bool} {w w' : World σ}
    (ran : doWatchTreeSection path root cleanup w = .ok (went, w')) : SectionEffect w w' path root cleanup := by
  simp only [doWatchTreeSection, Program.ite_eq_ok, Program.pure_eq_ok, acquire_bind_eq_ok,
    release_bind, getRoot_bind, lookupPath_bind] at ran
  obtain ⟨tmp, _, rfl⟩ | ⟨plain, free, ⟨dead, _, rfl⟩ | ⟨live, ⟨known, _, rfl⟩ | ⟨orphan, ran⟩⟩⟩ := ran
  · exact .none .refl 0 rfl fun files => by simp [files.plain] at tmp
  · exact .none .refl 0 rfl fun files => by simp [files.live] at dead
  · refine .none .refl 0 rfl fun files => ?_
    obtain ⟨cleaning, known⟩ := Bool.and_eq_true_iff.mp known
    simp [files.orphan cleaning] at known
  obtain ⟨_, v, adding, ran⟩ := Program.bind_eq_ok ran
  rw [release_bind, Program.pure_eq_ok] at ran
  obtain ⟨_, rfl⟩ := ran
  have orphan' : cleanup = true → w.watches.inotifyPathToWatch.lookup path = none := by
    intro cleaning
    simpa [cleaning] using orphan
  simp only [addTreeWatch, Program.ite_eq_ok, Program.pure_eq_ok, getRoot_bind, opendir_bind,
    inotifyAddWatch_bind, Program.bind_eq_ok_iff] at adding
  obtain ⟨closed, _, rfl⟩ | ⟨opens, ⟨refused, _, rfl⟩ | ⟨granted, made, u, making, ran⟩⟩ := adding
  · exact .none (.opendir path .refl) 0 rfl fun files => by simp [files.opens] at closed
  · exact .known .refl 0 rfl (.inl refused)
  simp only [makeWatch, malloc_bind, Program.ite_eq_ok, Program.pure_eq_ok, Program.read_bind_apply,
    modifyWatches_bind] at making
  have failed (unallocated : Unallocated w path root) (sys : Quiet (askedSys w path root) v.sys)
      (watches : v.watches = w.watches) :
      SectionEffect w { v with locks := v.locks.unlock .inotify } path root cleanup := by
    cases found : w.watches.inotifyWdToWatch.lookup (answeredWd w path root) with
    | some watch => exact .known sys 0 watches (.inr (by rw [found]; rfl))
    | none =>
      exact .lost sys watches ⟨by simpa using plain, by simpa using live, orphan', by simpa using opens,
        Int.not_lt.mp granted, found⟩ unallocated
  obtain ⟨one, rfl, rfl⟩ | ⟨one, ⟨two, rfl, rfl⟩ | ⟨two, rfl, rfl⟩⟩ := making
  · obtain ⟨_, rfl⟩ := Program.pure_eq_ok.mp ran
    have unallocated : Unallocated w path root := by
      rintro ⟨first, _⟩
      rw [askedSys] at first
      simp [first] at one
    exact failed unallocated (.malloc .refl) rfl
  · obtain ⟨_, rfl⟩ := Program.pure_eq_ok.mp ran
    have unallocated : Unallocated w path root := by
      rintro ⟨_, second⟩
      rw [askedSys] at second
      simp [second] at two
    exact failed unallocated (.malloc (.malloc .refl)) rfl
  · simp only [lookupWd_bind, Program.ite_eq_ok, Program.pure_eq_ok, modifyWatches_bind] at ran
    obtain ⟨known, _, rfl⟩ | ⟨new, _, rfl⟩ := ran
    · exact .known (.malloc (.malloc .refl)) 1 rfl (.inr known)
    · refine .filed (.malloc (.malloc .refl)) ⟨by simpa using plain, by simpa using live, orphan', by simpa using opens,
        Int.not_lt.mp granted, Option.not_isSome_iff_eq_none.mp new⟩ (not_not.mpr ⟨?_, ?_⟩) rfl
      · simpa [askedSys] using one
      · simpa [askedSys] using two

/-! ## All threads -/

def Thread.lookedUp : Thread → Option Watch
  | .destroyWatch _ _ _ watch _ => some watch
  | _ => none

def Thread.gaveUp : Thread → Option Watch
  | .destroyEntry _ _ _ watch _ => some watch
  | _ => none

/-- The next step of the thread loses an active descriptor: a destroy thread is about to forget
the root's own entry, or a walker gets a new descriptor and no memory for its entry. -/
def Thread.Loses (thread : Thread) (w : World σ) (active : Int → Prop) : Prop :=
  match thread with
  | .destroyKeys root _ [] => ∃ path watch, (w.roots.heap root).path = some path ∧
      w.watches.inotifyPathToWatch.lookup path = some watch ∧ active watch.wd
  | .watchTreeRec data (.call path :: _) => Files w path data.root data.cleanup ∧ Unallocated w path data.root
  | _ => False

/-- What a step does to the outside, to the tables and to the watch the thread is at. -/
inductive DescriptorEffect (thread next : Thread) (w w' : World σ) : Prop where
  | quiet (idle : ∀ active, ¬thread.Loses w active) (sys : Quiet w.sys w'.sys) (watches : w'.watches = w.watches)
      (looked : ∀ watch, next.lookedUp = some watch → ∃ path, w.watches.inotifyPathToWatch.lookup path = some watch)
      (gave : next.gaveUp = none)
  | walk {data : TData} {path : Str} {rest : List Frame} (is : thread = .watchTreeRec data (.call path :: rest))
      (section_ : SectionEffect w w' path data.root data.cleanup) (looked : next.lookedUp = none)
      (gave : next.gaveUp = none)
  | giveUp {watch : Watch} (is : thread.lookedUp = some watch) (looked : next.lookedUp = none)
      (gave : next.gaveUp = some watch) (sys : w'.sys = (System.inotifyRmWatch w.sys watch.wd).2)
      (watches : w'.watches = w.watches)
  | forget {path : Str} {watch : Watch} (is : thread.gaveUp = some watch) (looked : next.lookedUp = none)
      (gave : next.gaveUp = none) (sys : w'.sys = w.sys) (watches : w'.watches = w.watches.forget path watch.wd)
  | finish {root : RootRef} {tmp : Option Str} {path : Str} {watch : Watch} (is : thread = .destroyKeys root tmp [])
      (named : (w.roots.heap root).path = some path)
      (found : w.watches.inotifyPathToWatch.lookup path = some watch) (looked : next.lookedUp = none)
      (gave : next.gaveUp = none) (sys : w'.sys = w.sys) (watches : w'.watches = w.watches.forget path watch.wd)
  | clean {path : Str} {watch : Watch} (is : thread.Cleans) (found : w.watches.inotifyPathToWatch.lookup path = some watch)
      (looked : next.lookedUp = none) (gave : next.gaveUp = none)
      (sys : w'.sys = (System.inotifyRmWatch w.sys watch.wd).2)
      (watches : w'.watches = w.watches.forget path watch.wd)

theorem doWatchTreeRec_quiet {data : TData} {rest next : List Frame} {frame : Frame} {w w' : World σ}
    (reads : ∀ path, frame ≠ .call path) (ran : doWatchTreeRec data rest frame w = .ok (next, w')) :
    Quiet w.sys w'.sys ∧ w'.watches = w.watches := by
  cases frame with
  | call path => exact absurd rfl (reads path)
  | opened path =>
    simp only [doWatchTreeRec, call_bind] at ran
    cases listed : (System.readdir w.sys path).1 <;> rw [listed] at ran <;>
      obtain ⟨_, rfl⟩ := Program.pure_eq_ok.mp ran <;> exact ⟨.readdir path .refl, rfl⟩
  | reading path entries =>
    cases entries with
    | nil =>
      obtain ⟨_, rfl⟩ := Program.pure_eq_ok.mp ran
      exact ⟨.refl, rfl⟩
    | cons dir entries =>
      simp only [doWatchTreeRec, Program.ite_eq_ok, Program.pure_eq_ok, mkString_bind] at ran
      obtain ⟨_, _, rfl⟩ | ⟨_, ran⟩ := ran
      · exact ⟨.refl, rfl⟩
      obtain ⟨isDir, v, asking, ran⟩ := Program.bind_eq_ok ran
      have asked : Quiet w.sys v.sys ∧ v.watches = w.watches := by
        cases kind : dir.dType <;>
          simp only [kind, entryIsDir, deref_bind_eq_ok, call_bind, Program.pure_eq_ok] at asking
        case unknown =>
          obtain ⟨_, _, _, rfl⟩ := asking
          exact ⟨.lstat _ (.malloc .refl), rfl⟩
        all_goals
          obtain ⟨_, rfl⟩ := asking
          exact ⟨.malloc .refl, rfl⟩
      simp only [Program.ite_eq_ok, Program.pure_eq_ok, getRoot_bind, deref_bind_eq_ok] at ran
      obtain ⟨_, _, rfl⟩ | ⟨_, ⟨_, _, rfl⟩ | ⟨_, _, _, _, rfl⟩⟩ := ran <;> exact asked

theorem threadStep_descriptors {thread next : Thread} {w w' : World σ}
    (ran : threadStep thread w = .ok (next, w')) : DescriptorEffect thread next w w' := by
  cases threadStep_cases ran with
  | @walk data frame rest stack w' step =>
    cases frame with
    | call path =>
      obtain ⟨went, section_, _⟩ := doWatchTreeRec_call step
      exact .walk rfl (doWatchTreeSection_effect section_) rfl rfl
    | _ =>
      obtain ⟨sys, watches⟩ := doWatchTreeRec_quiet (fun _ is => by cases is) step
      exact .quiet (fun _ => id) sys watches (by simp [Thread.lookedUp]) rfl
  | free => exact .quiet (fun _ => id) (.malloc .refl) rfl (by simp [Thread.lookedUp]) rfl
  | @look root below path keys watch inside found =>
    refine .quiet (fun _ => id) .refl rfl (fun other is => ?_) rfl
    cases is
    exact ⟨path, found⟩
  | giveUp => exact .giveUp rfl rfl rfl rfl rfl
  | forget => exact .forget rfl rfl rfl rfl rfl
  | bare named absent =>
    refine .quiet ?_ .refl rfl (by simp [Thread.lookedUp]) rfl
    rintro active ⟨other, watch, named', found, _⟩
    obtain rfl := Option.some.inj (named.symm.trans named')
    rw [absent] at found
    cases found
  | finish named found => exact .finish rfl named found rfl rfl rfl rfl
  | dump => exact .quiet (fun _ => id) (.fopenDump .refl) rfl (by simp [Thread.lookedUp]) rfl
  | memclean step =>
    have cleans := step.cleans
    cases step with
    | directory | suspect => exact .quiet (fun _ => id) (.statIsDir _ .refl) rfl (by simp [Thread.lookedUp]) rfl
    | remove found => exact .clean cleans found rfl rfl rfl rfl
    | _ => exact .quiet (fun _ => id) .refl rfl (by simp [Thread.lookedUp]) rfl
  | _ => exact .quiet (fun _ => id) .refl rfl (by simp [Thread.lookedUp]) rfl

/-! ## Descriptors over time -/

namespace Descriptors

variable (laws : Descriptors σ)

/-- What has been issued stays so, and once it is inactive it stays inactive. -/
structure Later (s t : σ) : Prop where
  issued : ∀ wd, laws.issued s wd → laws.issued t wd
  active : ∀ wd, laws.issued s wd → laws.active t wd → laws.active s wd

variable {laws}

theorem Later.refl (s : σ) : laws.Later s s := ⟨fun _ => id, fun _ _ => id⟩

theorem Later.trans {s t u : σ} (first : laws.Later s t) (second : laws.Later t u) : laws.Later s u :=
  ⟨fun wd old => second.issued wd (first.issued wd old),
    fun wd old still => first.active wd old (second.active wd (first.issued wd old) still)⟩

theorem Later.quiet {s t : σ} (quiet : Quiet s t) : laws.Later s t :=
  ⟨laws.quiet_issued quiet, fun wd _ => (laws.quiet_active quiet wd).mp⟩

theorem Later.addWatch (s : σ) (path : Str) (mask : UInt32) :
    laws.Later s (System.inotifyAddWatch s path mask).2 := by
  refine ⟨laws.addWatch_issued s path mask, fun wd old still => ?_⟩
  rcases (laws.addWatch_active s path mask wd).mp still with before | ⟨rfl, nonneg⟩
  · exact before
  · exact laws.addWatch_new s path mask nonneg old

theorem Later.rmWatch (s : σ) (wd : Int) : laws.Later s (System.inotifyRmWatch s wd).2 :=
  ⟨laws.rmWatch_issued s wd, fun other _ still => ((laws.rmWatch_active s wd other).mp still).1⟩

theorem Later.asked (w : World σ) (path : Str) (root : RootRef) : laws.Later w.sys (askedSys w path root) :=
  (Later.quiet (.opendir path .refl)).trans (Later.addWatch _ path _)

theorem asked_active (w : World σ) (path : Str) (root : RootRef) (wd : Int) :
    laws.active (askedSys w path root) wd ↔ laws.active w.sys wd ∨ wd = answeredWd w path root ∧ 0 ≤ wd := by
  have opened := laws.quiet_active (.opendir path .refl : Quiet w.sys (System.opendir w.sys path).2) wd
  rw [askedSys, laws.addWatch_active, opened, answeredWd]

variable (laws)

def Tracked (w : World σ) : Prop :=
  ∀ wd, laws.active w.sys wd → (w.watches.inotifyWdToWatch.lookup wd).isSome

/-- Whoever has a descriptor got it from the kernel, and what was given up is inactive. -/
structure Sound (w : World σ) : Prop where
  entries : ∀ path watch, w.watches.inotifyPathToWatch.lookup path = some watch → laws.issued w.sys watch.wd
  looked : ∀ thread ∈ w.pool.threads, ∀ watch, thread.lookedUp = some watch → laws.issued w.sys watch.wd
  gave : ∀ thread ∈ w.pool.threads, ∀ watch, thread.gaveUp = some watch →
    laws.issued w.sys watch.wd ∧ ¬laws.active w.sys watch.wd

variable {laws} {w w' : World σ}

theorem Sound.later (sound : laws.Sound w) (later : laws.Later w.sys w'.sys)
    (entries : ∀ path watch, w'.watches.inotifyPathToWatch.lookup path = some watch →
      w.watches.inotifyPathToWatch.lookup path = some watch ∨ laws.issued w'.sys watch.wd)
    (threads : ∀ thread ∈ w'.pool.threads, thread ∈ w.pool.threads ∨
      (∀ watch, thread.lookedUp = some watch → laws.issued w'.sys watch.wd) ∧
        ∀ watch, thread.gaveUp = some watch → laws.issued w'.sys watch.wd ∧ ¬laws.active w'.sys watch.wd) :
    laws.Sound w' where
  entries path watch found := (entries path watch found).elim
    (fun old => later.issued _ (sound.entries path watch old)) id
  looked thread member watch is := (threads thread member).elim
    (fun old => later.issued _ (sound.looked thread old watch is)) fun new => new.1 watch is
  gave thread member watch is := by
    rcases threads thread member with old | new
    · obtain ⟨issued, inactive⟩ := sound.gave thread old watch is
      exact ⟨later.issued _ issued, fun still => inactive (later.active _ issued still)⟩
    · exact new.2 watch is

theorem later_of_section {path : Str} {root : RootRef} {cleanup : Bool} (section_ : SectionEffect w w' path root cleanup) :
    laws.Later w.sys w'.sys := by
  cases section_ with
  | none sys => exact .quiet sys
  | known sys => exact (Later.asked w path root).trans (.quiet sys)
  | lost sys => exact (Later.asked w path root).trans (.quiet sys)
  | filed sys => exact (Later.asked w path root).trans (.quiet sys)

theorem later_of_effect {thread next : Thread} (effect : DescriptorEffect thread next w w') :
    laws.Later w.sys w'.sys := by
  cases effect with
  | quiet idle sys => exact .quiet sys
  | walk is section_ => exact later_of_section section_
  | giveUp is looked gave sys => exact sys ▸ .rmWatch _ _
  | forget is looked gave sys => exact sys ▸ .refl _
  | finish is named found looked gave sys => exact sys ▸ .refl _
  | clean is found looked gave sys => exact sys ▸ .rmWatch _ _

theorem entries_of_effect {thread next : Thread} (effect : DescriptorEffect thread next w w') (path : Str)
    (watch : Watch) (found : w'.watches.inotifyPathToWatch.lookup path = some watch) :
    w.watches.inotifyPathToWatch.lookup path = some watch ∨ laws.issued w'.sys watch.wd := by
  have forgotten {gone : Str} {old : Watch} (watches : w'.watches = w.watches.forget gone old.wd) :
      w.watches.inotifyPathToWatch.lookup path = some watch := by
    rw [watches] at found
    exact (Thins.forget w.watches gone old.wd).byPath path watch found
  cases effect with
  | quiet idle sys watches => exact .inl (watches ▸ found)
  | @walk data sub rest is section_ =>
    cases section_ with
    | none sys skipped watches => exact .inl (by rwa [watches] at found)
    | known sys skipped watches => exact .inl (by rwa [watches] at found)
    | lost sys watches => exact .inl (watches ▸ found)
    | filed sys files allocated watches =>
      rw [watches, WatchTable.file, GHashTable.lookup_insert_if] at found
      split at found
      · cases found
        have active : laws.active (askedSys w sub data.root) (answeredWd w sub data.root) :=
          (asked_active w sub data.root _).mpr (.inr ⟨rfl, files.granted⟩)
        exact .inr (laws.quiet_issued sys _ (laws.active_issued _ _ active))
      · exact .inl found
  | giveUp is looked gave sys watches => exact .inl (watches ▸ found)
  | forget is looked gave sys watches => exact .inl (forgotten watches)
  | finish is named known looked gave sys watches => exact .inl (forgotten watches)
  | clean is known looked gave sys watches => exact .inl (forgotten watches)

theorem Sound.step {index : Nat} {thread next : Thread} {v : World σ} (sound : laws.Sound w)
    (found : w.pool.threads[index]? = some thread) (effect : DescriptorEffect thread next w v) :
    laws.Sound { v with pool.threads := w.pool.threads.set index next } := by
  have later : laws.Later w.sys v.sys := later_of_effect effect
  refine sound.later later (fun path watch known => entries_of_effect effect path watch known) fun other member => ?_
  rcases List.mem_or_eq_of_mem_set member with old | rfl
  · exact .inl old
  right
  have plain (looked : other.lookedUp = none) (gave : other.gaveUp = none) :
      (∀ watch, other.lookedUp = some watch → laws.issued v.sys watch.wd) ∧
        ∀ watch, other.gaveUp = some watch → laws.issued v.sys watch.wd ∧ ¬laws.active v.sys watch.wd := by
    rw [looked, gave]
    exact ⟨nofun, nofun⟩
  cases effect with
  | quiet idle sys watches looked gave =>
    refine ⟨fun watch is => ?_, by rw [gave]; exact nofun⟩
    obtain ⟨path, entry⟩ := looked watch is
    exact later.issued _ (sound.entries path watch entry)
  | walk is section_ looked gave => exact plain looked gave
  | giveUp is looked gave sys watches =>
    rw [looked, gave]
    refine ⟨nofun, fun watch same => ?_⟩
    cases same
    refine ⟨later.issued _ (sound.looked thread (List.mem_of_getElem? found) _ is), fun still => ?_⟩
    rw [sys, laws.rmWatch_active] at still
    exact still.2 rfl
  | forget is looked gave sys watches => exact plain looked gave
  | finish is named known looked gave sys watches => exact plain looked gave
  | clean is known looked gave sys watches => exact plain looked gave

omit [System σ] in
theorem lookup_forget_of_ne {watches : WatchTable} {path : Str} {gone wd : Int} (differs : wd ≠ gone) :
    (watches.forget path gone).inotifyWdToWatch.lookup wd = watches.inotifyWdToWatch.lookup wd :=
  AList.lookup_erase_ne differs

omit [System σ] in
theorem lookup_forget_self (watches : WatchTable) (path : Str) (gone : Int) :
    (watches.forget path gone).inotifyWdToWatch.lookup gone = none := AList.lookup_erase _ _

/-- A step keeps all active descriptors in the table, or it loses one. -/
theorem Tracked.step {index : Nat} {thread next : Thread} (sound : laws.Sound w) (tracked : laws.Tracked w)
    (found : w.pool.threads[index]? = some thread) (effect : DescriptorEffect thread next w w') :
    laws.Tracked w' ↔ ¬thread.Loses w (laws.active w.sys) := by
  have keeps (tracks : laws.Tracked w') (idle : ¬thread.Loses w (laws.active w.sys)) :
      laws.Tracked w' ↔ ¬thread.Loses w (laws.active w.sys) := ⟨fun _ => idle, fun _ => tracks⟩
  cases effect with
  | quiet idle sys watches =>
    refine keeps (fun wd active => ?_) (idle _)
    rw [watches]
    exact tracked wd ((laws.quiet_active sys wd).mp active)
  | @walk data path rest is section_ =>
    subst is
    cases section_ with
    | none sys skipped watches idle =>
      refine keeps (fun wd active => ?_) fun loses => idle loses.1
      rw [watches]
      exact tracked wd ((laws.quiet_active sys wd).mp active)
    | known sys skipped watches answer =>
      refine keeps (fun wd active => ?_) fun loses => ?_
      · rw [watches]
        rcases (asked_active w path data.root wd).mp ((laws.quiet_active sys wd).mp active) with before | ⟨rfl, nonneg⟩
        · exact tracked wd before
        · exact answer.resolve_left (Int.not_lt.mpr nonneg)
      · rcases answer with error | known
        · exact absurd loses.1.granted (Int.not_le.mpr error)
        · rw [loses.1.new] at known
          cases known
    | lost sys watches files unallocated =>
      refine ⟨fun tracks => ?_, fun idle => absurd ⟨files, unallocated⟩ idle⟩
      have active := (laws.quiet_active sys _).mpr ((asked_active w path data.root _).mpr (.inr ⟨rfl, files.granted⟩))
      have known := tracks _ active
      rw [watches, files.new] at known
      cases known
    | filed sys files allocated watches =>
      refine keeps (fun wd active => ?_) fun loses => allocated loses.2
      rw [watches, WatchTable.file, GHashTable.lookup_insert_if]
      split
      · rfl
      rcases (asked_active w path data.root wd).mp ((laws.quiet_active sys wd).mp active) with before | ⟨same, _⟩
      · exact tracked wd before
      · exact absurd same ‹_›
  | giveUp is looked gave sys watches =>
    refine keeps (fun wd active => ?_) (by cases thread <;> first | exact id | cases is)
    rw [sys, laws.rmWatch_active] at active
    rw [watches]
    exact tracked wd active.1
  | forget is looked gave sys watches =>
    refine keeps (fun wd active => ?_) (by cases thread <;> first | exact id | cases is)
    rw [sys] at active
    have inactive := (sound.gave thread (List.mem_of_getElem? found) _ is).2
    rw [watches, lookup_forget_of_ne (by rintro rfl; exact inactive active)]
    exact tracked wd active
  | @finish root tmp path watch is named known looked gave sys watches =>
    subst is
    by_cases active : laws.active w.sys watch.wd
    · refine ⟨fun tracks => ?_, fun idle => absurd ⟨path, watch, named, known, active⟩ idle⟩
      have entry := tracks watch.wd (sys ▸ active)
      rw [watches, lookup_forget_self] at entry
      cases entry
    · refine keeps (fun wd still => ?_) ?_
      · rw [sys] at still
        rw [watches, lookup_forget_of_ne (by rintro rfl; exact active still)]
        exact tracked wd still
      · rintro ⟨path', watch', named', known', active'⟩
        obtain rfl := Option.some.inj (named.symm.trans named')
        obtain rfl := Option.some.inj (known.symm.trans known')
        exact active active'
  | clean is known looked gave sys watches =>
    refine keeps (fun wd active => ?_) (by cases thread <;> first | exact id | exact is.elim)
    rw [sys, laws.rmWatch_active] at active
    rw [watches, lookup_forget_of_ne active.2]
    exact tracked wd active.1

theorem Sound.main (sound : laws.Sound w) (later : laws.Later w.sys w'.sys)
    (entries : ∀ path watch, w'.watches.inotifyPathToWatch.lookup path = some watch →
      w.watches.inotifyPathToWatch.lookup path = some watch)
    (threads : ∀ thread ∈ w'.pool.threads, thread ∈ w.pool.threads ∨ thread.Entered) : laws.Sound w' := by
  refine sound.later later (fun path watch found => .inl (entries path watch found)) fun thread member => ?_
  refine (threads thread member).imp_right fun entered => ?_
  have plain : thread.lookedUp = none ∧ thread.gaveUp = none := by
    rcases entered with fresh | ⟨root, rfl⟩
    · cases thread <;> first | exact ⟨rfl, rfl⟩ | exact fresh.elim
    · exact ⟨rfl, rfl⟩
  rw [plain.1, plain.2]
  exact ⟨nofun, nofun⟩

variable (laws)

def LosesBetween (w w' : World σ) : Prop :=
  ∃ index thread, w.pool.threads[index]? = some thread ∧ runThread index w = .ok ((), w') ∧
    thread.Loses w (laws.active w.sys)

variable {laws}

theorem Tracked.run {index : Nat} {thread : Thread} (sound : laws.Sound w) (tracked : laws.Tracked w)
    (found : w.pool.threads[index]? = some thread) (ran : runThread index w = .ok ((), w')) :
    laws.Tracked w' ↔ ¬thread.Loses w (laws.active w.sys) := by
  obtain ⟨none, _⟩ | ⟨thread', next, v, found', stepped, rfl⟩ := runThread_eq_ok ran
  · rw [found] at none
    cases none
  · obtain rfl := Option.some.inj (found.symm.trans found')
    have step : laws.Tracked v ↔ ¬thread.Loses w (laws.active w.sys) :=
      tracked.step sound found (threadStep_descriptors stepped)
    exact step

theorem Sound.move (sound : laws.Sound w) (move : Move w w') : laws.Sound w' := by
  cases move with
  | thread ran =>
    obtain ⟨_, rfl⟩ | ⟨thread, next, v, found, stepped, rfl⟩ := runThread_eq_ok ran
    · exact sound
    · have after := sound.step found (threadStep_descriptors stepped)
      rwa [← (threadStep_effect stepped).threads] at after
  | rest rests =>
    exact sound.main (.quiet rests.sys) (fun path watch found => by rwa [rests.watches] at found)
      fun thread member => .inl (rests.threads ▸ member)
  | spawn thread fresh =>
    refine sound.main (.refl _) (fun _ _ => id) fun other member => (List.mem_append.mp member).imp_right fun new => ?_
    exact List.mem_singleton.mp new ▸ .inl fresh
  | destroy root =>
    refine sound.main (.refl _) (fun _ _ => id) fun other member => (List.mem_append.mp member).imp_right fun new => ?_
    exact List.mem_singleton.mp new ▸ .inr ⟨root, rfl⟩
  | remove wd watches thins others => exact sound.main (.rmWatch _ wd) thins.byPath fun _ => .inl
  | erase path => exact sound.main (.refl _) (Thins.erasePath w.watches path).byPath fun _ => .inl
  | settle roots settles => exact sound.main (.refl _) (fun _ _ => id) fun _ => .inl
  | use root => exact sound.main (.refl _) (fun _ _ => id) fun _ => .inl
  | register path made is => exact sound.main (.refl _) (fun _ _ => id) fun _ => .inl

/-! ## Runs -/

variable (laws)

/-- A move of the daemon, or a change of the disk. The kernel drops the descriptors of
directories that are deleted. -/
inductive Step (w : World σ) : World σ → Prop where
  | move {w' : World σ} (move : Move w w') : Step w w'
  | disk (s : σ) (issued : ∀ wd, laws.issued w.sys wd → laws.issued s wd)
      (drops : ∀ wd, laws.active s wd → laws.active w.sys wd) : Step w { w with sys := s }

/-- A run, with the states it passes from and to in each step. -/
inductive Runs (start : World σ) : List (World σ × World σ) → World σ → Prop where
  | start : Runs start [] start
  | step {steps : List (World σ × World σ)} {w w' : World σ} (run : Runs start steps w) (step : laws.Step w w') :
      Runs start (steps ++ [(w, w')]) w'

structure NoWatches (w : World σ) : Prop where
  entries : w.watches.inotifyPathToWatch = ∅
  threads : w.pool.threads = []
  inactive : ∀ wd, ¬laws.active w.sys wd

variable {laws}

theorem NoWatches.sound (none : laws.NoWatches w) : laws.Sound w where
  entries path watch found := by simp [none.entries] at found
  looked thread member := by simp [none.threads] at member
  gave thread member := by simp [none.threads] at member

theorem Step.sound (step : laws.Step w w') (sound : laws.Sound w) : laws.Sound w' := by
  cases step with
  | move move => exact sound.move move
  | disk s issued drops => exact sound.main ⟨issued, fun wd _ => drops wd⟩ (fun _ _ => id) fun _ => .inl

theorem Step.tracked_iff (step : laws.Step w w') (sound : laws.Sound w) (tracked : laws.Tracked w) :
    laws.Tracked w' ↔ ¬laws.LosesBetween w w' := by
  constructor
  · rintro tracks ⟨index, thread, found, ran, loses⟩
    exact (tracked.run sound found ran).mp tracks loses
  intro keeps
  cases step with
  | disk s issued drops => exact fun wd active => tracked wd (drops wd active)
  | move move =>
    cases move with
    | @thread index _ ran =>
      obtain ⟨_, rfl⟩ | ⟨thread, _, _, found, _, _⟩ := runThread_eq_ok ran
      · exact tracked
      · exact (tracked.run sound found ran).mpr fun loses => keeps ⟨index, thread, found, ran, loses⟩
    | rest rests =>
      intro wd active
      rw [rests.watches]
      exact tracked wd ((laws.quiet_active rests.sys wd).mp active)
    | remove wd watches thins others =>
      intro other active
      obtain ⟨active, differs⟩ := (laws.rmWatch_active _ _ _).mp active
      rw [others other differs]
      exact tracked other active
    | _ => exact tracked

theorem Runs.sound {start : World σ} {steps : List (World σ × World σ)} (run : laws.Runs start steps w)
    (none : laws.NoWatches start) : laws.Sound w := by
  induction run with
  | start => exact none.sound
  | step _ step ih => exact step.sound ih

/-- In every run from no watches, every active descriptor has an entry in every state reached
exactly if no step of the run loses one. -/
theorem active_descriptors_tracked_iff {start : World σ} {steps : List (World σ × World σ)}
    (none : laws.NoWatches start) (run : laws.Runs start steps w) :
    (∀ step ∈ steps, laws.Tracked step.2) ↔ ∀ step ∈ steps, ¬laws.LosesBetween step.1 step.2 := by
  -- The induction needs the state at the end of the run too.
  suffices both : ((∀ step ∈ steps, laws.Tracked step.2) ↔ ∀ step ∈ steps, ¬laws.LosesBetween step.1 step.2) ∧
      ((∀ step ∈ steps, laws.Tracked step.2) → laws.Tracked w) from both.1
  induction run with
  | start => exact ⟨by simp, fun _ wd active => absurd active (none.inactive wd)⟩
  | @step steps w w' run step ih =>
    obtain ⟨exactly, last⟩ := ih
    simp only [List.forall_mem_append, List.forall_mem_singleton]
    refine ⟨?_, And.right⟩
    constructor
    · rintro ⟨before, tracks⟩
      exact ⟨exactly.mp before, (step.tracked_iff (run.sound none) (last before)).mp tracks⟩
    · rintro ⟨before, keeps⟩
      have tracked := exactly.mpr before
      exact ⟨tracked, (step.tracked_iff (run.sound none) (last tracked)).mpr keeps⟩

end Descriptors

/-! ## On a computed kernel -/

namespace Simulated

theorem same_of_quiet {s t : Simulated} (quiet : Quiet s t) : t = s := by
  induction quiet with
  | refl => rfl
  | _ => exact ‹_ = s›

theorem addWatch_cases (s : Simulated) (path : Str) :
    s.addWatch path = (-1, s) ∨
      (∃ inode wd, s.outside.active inode = some wd ∧ s.addWatch path = (wd, s)) ∨
        ∃ inode, s.outside.active inode = none ∧ s.addWatch path = (s.nextWd, s.grant inode) := by
  unfold addWatch
  cases s.outside.directory path with
  | none => exact .inl rfl
  | some inode =>
    right
    cases active : s.outside.active inode with
    | some wd => exact .inl ⟨inode, wd, active, by simp only [active]⟩
    | none => exact .inr ⟨inode, active, by simp only [active]⟩

theorem active_grant {s : Simulated} {inode : Nat} (none : s.outside.active inode = none) (wd : Int) :
    (∃ other, (s.grant inode).outside.active other = some wd) ↔
      (∃ other, s.outside.active other = some wd) ∨ wd = s.nextWd := by
  simp only [grant, Outside.grant]
  constructor
  · rintro ⟨other, is⟩
    by_cases same : other = inode
    · subst same
      rw [Function.update_self] at is
      exact .inr (Option.some.inj is).symm
    · rw [Function.update_of_ne same] at is
      exact .inl ⟨other, is⟩
  · rintro (⟨other, is⟩ | rfl)
    · have differs : other ≠ inode := by
        rintro rfl
        rw [none] at is
        cases is
      exact ⟨other, by rw [Function.update_of_ne differs, is]⟩
    · exact ⟨inode, Function.update_self ..⟩

def descriptors : Descriptors Simulated where
  active s wd := ∃ inode, s.outside.active inode = some wd
  issued s wd := s.outside.issued wd
  active_issued s wd := fun ⟨inode, is⟩ => s.outside.active_issued inode wd is
  quiet_active quiet wd := by rw [same_of_quiet quiet]
  quiet_issued quiet wd := by rw [same_of_quiet quiet]; exact id
  addWatch_active s path mask wd := by
    have nonneg : (∃ inode, s.outside.active inode = some wd) → 0 ≤ wd := fun ⟨inode, is⟩ =>
      s.outside.issued_nonneg wd (s.outside.active_issued inode wd is)
    change (∃ inode, (s.addWatch path).2.outside.active inode = some wd) ↔ _ ∨ wd = (s.addWatch path).1 ∧ _
    rcases addWatch_cases s path with is | ⟨inode, old, active, is⟩ | ⟨inode, none, is⟩ <;> rw [is]
    · refine ⟨.inl, fun either => either.elim id ?_⟩
      rintro ⟨rfl, absurd⟩
      exact False.elim (by omega)
    · refine ⟨.inl, fun either => either.elim id ?_⟩
      rintro ⟨rfl, _⟩
      exact ⟨inode, active⟩
    · rw [active_grant none]
      refine or_congr_right ⟨fun same => ⟨same, ?_⟩, And.left⟩
      rw [same]
      exact s.nonneg
  addWatch_new s path mask nonneg old := by
    change s.outside.issued (s.addWatch path).1 at old
    change ∃ inode, s.outside.active inode = some (s.addWatch path).1
    change 0 ≤ (s.addWatch path).1 at nonneg
    rcases addWatch_cases s path with is | ⟨inode, wd, active, is⟩ | ⟨inode, _, is⟩ <;> rw [is] at old nonneg ⊢
    · exact absurd nonneg (Int.not_le.mpr (Int.negSucc_lt_zero 0))
    · exact ⟨inode, active⟩
    · exact absurd (s.fresh _ old) (Int.lt_irrefl _)
  addWatch_issued s path mask wd old := by
    change (s.addWatch path).2.outside.issued wd
    rcases addWatch_cases s path with is | ⟨inode, wd, active, is⟩ | ⟨inode, _, is⟩ <;> rw [is]
    · exact old
    · exact old
    · exact .inr old
  rmWatch_active s wd other := by
    change (∃ inode, (s.outside.drop wd).active inode = some other) ↔ _
    simp only [Outside.drop]
    constructor
    · rintro ⟨inode, is⟩
      split at is
      · cases is
      · rename_i kept
        exact ⟨⟨inode, is⟩, fun same => kept (same ▸ is)⟩
    · rintro ⟨⟨inode, is⟩, differs⟩
      refine ⟨inode, ?_⟩
      rw [if_neg (by rw [is]; exact fun same => differs (Option.some.inj same)), is]
  rmWatch_issued _ _ _ := id

end Simulated

theorem active_descriptors_tracked_walker :
    ∃ w w' : World Simulated, Simulated.descriptors.Runs (World.initial Simulated.nested)
      [(World.initial Simulated.nested, w), (w, w')] w' ∧ Simulated.descriptors.Tracked w' := by
  let data : TData := ⟨some (str "/r"), 0, false⟩
  let w : World Simulated := { World.initial Simulated.nested with pool.threads := [.watchTree data] }
  let w' : World Simulated :=
    { World.initial Simulated.nested with pool.threads := [.watchTreeRec data [.call (str "/r")]] }
  have ran : runThread 0 w = .ok ((), w') := rfl
  have run : Simulated.descriptors.Runs (World.initial Simulated.nested)
      [(World.initial Simulated.nested, w), (w, w')] w' :=
    .step (.step .start (.move (.spawn (.watchTree data) trivial))) (.move (.thread ran))
  have none : Simulated.descriptors.NoWatches (World.initial Simulated.nested) :=
    ⟨rfl, rfl, fun _ ⟨_, active⟩ => by cases active⟩
  refine ⟨w, w', run, (Descriptors.active_descriptors_tracked_iff none run).mpr ?_ (w, w') (by simp)⟩
  rintro step member ⟨index, thread, found, _, loses⟩
  rcases List.mem_cons.mp member with rfl | member
  · cases found
  · obtain rfl := List.mem_singleton.mp member
    cases List.mem_singleton.mp (List.mem_of_getElem? found)
    exact loses

/-- The tree at "/r" is watched and unwatched again; all threads run to their ends. -/
def watchAndUnwatch : M Simulated Unit := do
  let _ ← inotifyWatchTree (str "/r") inotifyDefaultMask 8 false
  Program.forEach runThread [0, 0, 0, 0, 0, 0, 0, 0, 0, 0]
  let _ ← inotifyUnwatchTree (str "/r")
  Program.forEach runThread [1, 1, 1, 1, 1, 1, 1]

theorem watchAndUnwatch_runs (start : World Simulated) :
    Keeps (fun w => ∃ steps, Simulated.descriptors.Runs start steps w) watchAndUnwatch := by
  have step {v v' : World Simulated} (before : ∃ steps, Simulated.descriptors.Runs start steps v)
      (step : DaemonStep v v') : ∃ steps, Simulated.descriptors.Runs start steps v' := by
    have moves := step.moves
    clear step
    induction moves with
    | refl => exact before
    | tail _ move ih =>
      obtain ⟨steps, run⟩ := ih
      exact ⟨_, run.step (.move move)⟩
  have run (turns : List Nat) :
      Keeps (fun w => ∃ steps, Simulated.descriptors.Runs start steps w) (Program.forEach runThread turns) :=
    Keeps.forEach fun index _ v before _ _ ran => step before (.thread ran)
  apply Keeps.bind fun v before _ _ ran => step before (.watch ran)
  intro _
  apply Keeps.bind (run _)
  intro _
  apply Keeps.bind fun v before _ _ ran => step before (.unwatch ran)
  intro _
  exact run _

/-- The directory "/r" is watched by the kernel for good, and nothing is left to find it by. -/
theorem root_descriptor_leaks :
    ∃ (steps : List (World Simulated × World Simulated)) (w : World Simulated),
      Simulated.descriptors.NoWatches (World.initial Simulated.nested) ∧
      Simulated.descriptors.Runs (World.initial Simulated.nested) steps w ∧
      w.pool.threads = [.finished, .finished] ∧ w.sys.outside.active 1 = some 1 ∧
      ¬Simulated.descriptors.Tracked w := by
  have facts : (watchAndUnwatch (World.initial Simulated.nested)).toOption.map (fun done =>
      (done.2.pool.threads, done.2.sys.outside.active 1, done.2.watches.inotifyWdToWatch.lookup 1)) =
    some ([.finished, .finished], some 1, none) := by decide +kernel
  obtain ⟨⟨⟨⟩, w⟩, ran, facts⟩ := Option.map_eq_some_iff.mp facts
  obtain ⟨threads, active, lost⟩ := by simpa only [Prod.mk.injEq] using facts
  obtain ⟨steps, run⟩ := watchAndUnwatch_runs (World.initial Simulated.nested) _ ⟨[], .start⟩ _ _
    (Program.ok_of_toOption ran)
  refine ⟨steps, w, ⟨rfl, rfl, fun _ ⟨_, active⟩ => by cases active⟩, run, threads, active, fun tracked => ?_⟩
  have entry := tracked 1 ⟨1, active⟩
  rw [lost] at entry
  cases entry

end Inotispy
