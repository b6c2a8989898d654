import Inotispy.Model.Script
import Inotispy.Roots.Registry
import Inotispy.Threads.Alone

/-! Requests that fail.

A watch request checks and allocates first, and an unwatch request looks its root up first,
but the thread that does the work is started last, after the root was registered or marked.
-/

set_option autoImplicit false

namespace Inotispy
open Library

variable {σ : Type} [System σ]

/-! ## What comes before the thread -/

/-- `inotify_watch_tree`, up to the start of the walker. -/
def watchTreeRegister (path : Str) (mask : UInt32) (maxEvents : Int32) (rewatch : Bool) :
    M σ (Except InotispyError RootRef) := do
  let path := trimSlash path
  if let some err ← watchTreeCheck path then return .error err
  if !(← opendir path) then return .error .inotifyRootDoesNotExist
  let some newRoot ← watchTreeInsert path mask maxEvents rewatch
    | return .error .memoryAllocation
  inotifyDumpRoots
  return .ok newRoot

theorem inotifyWatchTree_eq (path : Str) (mask : UInt32) (maxEvents : Int32) (rewatch : Bool) :
    (inotifyWatchTree path mask maxEvents rewatch : M σ (Option InotispyError)) = (do
      match ← watchTreeRegister path mask maxEvents rewatch with
      | .error err => return some err
      | .ok newRoot => doWatchTree (← getRoot newRoot).path newRoot false) := by
  simp only [inotifyWatchTree, watchTreeRegister, bind_assoc]
  congr 1
  funext code
  cases code with
  | some err => rfl
  | none =>
    simp only [bind_assoc]
    congr 1
    funext opened
    cases opened with
    | false => rfl
    | true =>
      simp only [Bool.not_true, Bool.false_eq_true, if_false, bind_assoc]
      congr 1
      funext made
      cases made with
      | none => rfl
      | some newRoot =>
        simp only [bind_assoc, pure_bind]

section
variable {w w' : World σ} (alone : w.pool.schedule = [])
include alone

theorem watchTreeCheck_eq_ok {path : Str} {code : Option InotispyError}
    (ran : watchTreeCheck path w = .ok (code, w')) : ∃ s, w' = { w with sys := s } := by
  simp only [watchTreeCheck, lock_bind_eq_ok alone] at ran
  obtain ⟨free, ran⟩ := ran
  obtain ⟨found, v, searching, ran⟩ := Program.bind_eq_ok ran
  obtain ⟨_, s, rfl⟩ := inotifyPathToRoot_eq_ok searching
  cases found with
  | some root =>
    have ran := of_unlock_bind ran alone
    simp only [getRoot_bind, deref_bind_eq_ok, Program.ite_eq_ok, Program.pure_eq_ok, Locks.unlock_set free] at ran
    obtain ⟨rootPath, _, ⟨_, ⟨_, _, rfl⟩ | ⟨_, _, rfl⟩⟩ | ⟨_, _, rfl⟩⟩ := ran <;> exact ⟨s, rfl⟩
  | none =>
    obtain ⟨subPath, u, asking, ran⟩ := Program.bind_eq_ok ran
    obtain ⟨t, rfl⟩ := inotifyIsParent_eq_ok asking
    have ran := of_unlock_bind ran alone
    simp only [Program.pure_eq_ok, Locks.unlock_set free] at ran
    exact ⟨t, ran.2⟩

theorem inotifyDumpRoots_eq_ok {a : Unit} (ran : inotifyDumpRoots w = .ok (a, w')) :
    ∃ s text, w' = { w with sys := s, output.dumpFile := text } := by
  rw [inotifyDumpRoots, lock_bind_eq_ok alone] at ran
  obtain ⟨free, ran⟩ := ran
  obtain ⟨_, v, dump, ran⟩ := Program.bind_eq_ok ran
  obtain ⟨text, rfl⟩ := dumpRootsSection_eq_ok dump
  obtain rfl := of_unlock ran alone
  exact ⟨_, text, by rw [Locks.unlock_set free]⟩

theorem watchTreeRegister_eq_ok {path : Str} {mask : UInt32} {maxEvents : Int32} {rewatch : Bool}
    {outcome : Except InotispyError RootRef}
    (ran : watchTreeRegister path mask maxEvents rewatch w = .ok (outcome, w')) :
    ((∃ err, outcome = .error err) ∧ ∃ s, w' = { w with sys := s }) ∨
      ∃ root, outcome = .ok root ∧ (w'.roots.heap root).destroy = false ∧
        w'.roots.inotifyNumWatchedRoots = w.roots.inotifyNumWatchedRoots + 1 := by
  obtain ⟨code, v, checking, ran⟩ := Program.bind_eq_ok ran
  obtain ⟨s, rfl⟩ := watchTreeCheck_eq_ok alone checking
  cases code with
  | some err =>
    obtain ⟨rfl, rfl⟩ := Program.pure_eq_ok.mp ran
    exact .inl ⟨⟨err, rfl⟩, s, rfl⟩
  | none =>
    simp only [opendir_bind, Program.ite_eq_ok, Program.pure_eq_ok] at ran
    obtain ⟨_, rfl, rfl⟩ | ⟨_, ran⟩ := ran
    · exact .inl ⟨⟨_, rfl⟩, _, rfl⟩
    obtain ⟨made, u, inserting, ran⟩ := Program.bind_eq_ok ran
    simp only [watchTreeInsert] at inserting
    rw [lock_bind_eq_ok (by exact alone)] at inserting
    obtain ⟨free, inserting⟩ := inserting
    obtain ⟨new, t, making, inserting⟩ := Program.bind_eq_ok inserting
    obtain ⟨s', _, ⟨rfl, rfl⟩ | ⟨copy, _, _, rfl, rfl⟩⟩ := makeRoot_eq_ok making
    · obtain ⟨rfl, rfl⟩ := of_unlock_pure inserting alone
      obtain ⟨rfl, rfl⟩ := Program.pure_eq_ok.mp ran
      exact .inl ⟨⟨_, rfl⟩, s', by rw [Locks.unlock_set free]⟩
    · simp only [modifyRoots_bind] at inserting
      obtain ⟨rfl, rfl⟩ := of_unlock_pure inserting alone
      obtain ⟨_, x, dumping, ran⟩ := Program.bind_eq_ok ran
      obtain ⟨s'', text, rfl⟩ := inotifyDumpRoots_eq_ok (by exact alone) dumping
      obtain ⟨rfl, rfl⟩ := Program.pure_eq_ok.mp ran
      exact .inr ⟨_, rfl, by simp [RootTable.setRoot], rfl⟩

end

/-- What a walker needs to be started: its data, and a thread. -/
def CanStart (s : σ) : Prop :=
  (System.malloc s).1 = true ∧ (System.pthreadCreate (System.malloc (System.malloc s).2).2).1 = true

theorem doWatchTree_eq_none_iff {path : Option Str} {root : RootRef} {cleanup : Bool} {w w' : World σ}
    {code : Option InotispyError} (live : (w.roots.heap root).destroy = false)
    (ran : doWatchTree path root cleanup w = .ok (code, w')) :
    (code = none ↔ CanStart w.sys) ∧ w'.roots = w.roots := by
  simp only [doWatchTree, getRoot_bind, Program.ite_eq_ok, Program.pure_eq_ok, malloc_bind,
    mkString_bind, spawn_bind, live, Bool.false_eq_true, false_and, false_or, not_false_eq_true, true_and] at ran
  obtain ⟨failed, rfl, rfl⟩ | ⟨allocated, ran⟩ := ran
  · simp_all [CanStart]
  · split at ran
    · obtain ⟨rfl, rfl⟩ := Program.pure_eq_ok.mp ran
      simp_all [CanStart]
    · obtain ⟨rfl, rfl⟩ := Program.pure_eq_ok.mp ran
      simp_all [CanStart]

/-! ## What a failed request leaves -/

/-- Roots, watches and dump file are as before the request, which would now have the outcome it
had. -/
structure AsBefore {A : Type} (request : M σ A) (w w' : World σ) : Prop where
  inotifyRoots : w'.roots.inotifyRoots = w.roots.inotifyRoots
  numWatchedRoots : w'.roots.inotifyNumWatchedRoots = w.roots.inotifyNumWatchedRoots
  wds : w'.watches.inotifyWdToWatch = w.watches.inotifyWdToWatch
  paths : w'.watches.inotifyPathToWatch = w.watches.inotifyPathToWatch
  dumpFile : w'.output.dumpFile = w.output.dumpFile
  retry : request { w' with sys := w.sys } = request w

omit [System σ] in
theorem AsBefore.of_sys {A : Type} (request : M σ A) (w : World σ) (s : σ) :
    AsBefore request w { w with sys := s } := ⟨rfl, rfl, rfl, rfl, rfl, rfl⟩

def WalkerStarts (path : Str) (mask : UInt32) (maxEvents : Int32) (rewatch : Bool) (w : World σ) : Prop :=
  ∀ root v, watchTreeRegister path mask maxEvents rewatch w = .ok (.ok root, v) → CanStart v.sys

def DestroyStarts (path : Str) (w : World σ) : Prop :=
  ∀ root, w.roots.inotifyRoots.lookup (trimLastSlash path) = some root → (w.roots.heap root).destroy = false →
    (System.pthreadCreate w.sys).1 = true

section
variable {w w' : World σ} (alone : w.pool.schedule = []) {path : Str} {code : Option InotispyError}
include alone

theorem inotifyWatchTree_asBefore_iff {mask : UInt32} {maxEvents : Int32} {rewatch : Bool}
    (ran : inotifyWatchTree path mask maxEvents rewatch w = .ok (code, w')) :
    (code ≠ none → AsBefore (inotifyWatchTree path mask maxEvents rewatch) w w') ↔
      WalkerStarts path mask maxEvents rewatch w := by
  have whole := ran
  rw [inotifyWatchTree_eq] at whole
  obtain ⟨outcome, v, registering, whole⟩ := Program.bind_eq_ok whole
  obtain ⟨⟨err, rfl⟩, s, rfl⟩ | ⟨root, rfl, live, counted⟩ := watchTreeRegister_eq_ok alone registering
  · obtain ⟨rfl, rfl⟩ := Program.pure_eq_ok.mp whole
    constructor
    · intro _ root v registered
      rw [registering] at registered
      cases registered
    · exact fun _ _ => .of_sys _ w s
  · obtain ⟨starts, roots⟩ := doWatchTree_eq_none_iff live whole
    constructor
    · intro unchanged root' v' registered
      obtain ⟨_, rfl⟩ := Program.ok_unique registering registered
      by_contra stuck
      -- The new root stays registered, so there is one more than before.
      have before := unchanged fun done => stuck (starts.mp done)
      have same := before.numWatchedRoots
      rw [roots] at same
      omega
    · intro can failed
      exact absurd (starts.mpr (can root v registering)) failed

theorem inotifyUnwatchTree_asBefore_iff (ran : inotifyUnwatchTree path w = .ok (code, w')) :
    (code ≠ none → AsBefore (inotifyUnwatchTree path) w w' ∧
      ∀ root, (w'.roots.heap root).destroy = (w.roots.heap root).destroy) ↔ DestroyStarts path w := by
  have whole := ran
  simp only [inotifyUnwatchTree, inotifyIsRoot, Program.read_bind_apply] at whole
  unfold DestroyStarts
  cases found : w.roots.inotifyRoots.lookup (trimLastSlash path) with
  | none =>
    rw [found] at whole
    obtain ⟨rfl, rfl⟩ := Program.pure_eq_ok.mp whole
    exact ⟨by simp, fun _ _ => ⟨.of_sys _ w' w'.sys, fun _ => rfl⟩⟩
  | some root =>
    simp only [found, getRoot_bind, Program.ite_eq_ok, Program.pure_eq_ok] at whole
    obtain ⟨dying, rfl, rfl⟩ | ⟨live, whole⟩ := whole
    · constructor
      · rintro _ _ ⟨⟩ live
        rw [live] at dying
        cases dying
      · exact fun _ _ => ⟨.of_sys _ w' w'.sys, fun _ => rfl⟩
    -- The flag is set before the thread is asked for, and nothing resets it.
    · simp only [destroyRoot, modifyRoots_bind] at whole
      rw [yieldMain_bind (by exact alone), spawn_bind] at whole
      have other : (w.roots.heap root).destroy = false := eq_false_of_ne_true live
      split at whole
      · obtain ⟨rfl, rfl⟩ := Program.pure_eq_ok.mp whole
        rename_i created
        exact ⟨fun _ _ _ _ => created, fun _ failed => absurd rfl failed⟩
      · obtain ⟨rfl, rfl⟩ := Program.pure_eq_ok.mp whole
        rename_i refused
        constructor
        · intro unchanged
          have same := (unchanged (by simp)).2 root
          simp only [RootTable.heap_setRoot_self, other] at same
          cases same
        · exact fun starts => absurd (starts root rfl other) refused

end

/-- A watch request that fails leaves everything as it was unless it is its walker that could
not be started; an unwatch request, unless it is the destroy thread. -/
theorem failed_request_changes_nothing_iff {w : World σ} (alone : w.pool.schedule = []) :
    (∀ path mask maxEvents rewatch code w', inotifyWatchTree path mask maxEvents rewatch w = .ok (code, w') →
      ((code ≠ none → AsBefore (inotifyWatchTree path mask maxEvents rewatch) w w') ↔
        WalkerStarts path mask maxEvents rewatch w)) ∧
    ∀ path code w', inotifyUnwatchTree path w = .ok (code, w') →
      ((code ≠ none → AsBefore (inotifyUnwatchTree path) w w' ∧
        ∀ root, (w'.roots.heap root).destroy = (w.roots.heap root).destroy) ↔ DestroyStarts path w) :=
  ⟨fun _ _ _ _ _ _ => inotifyWatchTree_asBefore_iff alone, fun _ _ _ => inotifyUnwatchTree_asBefore_iff alone⟩

/-- "/s" is to be watched beside "/r", and there is no memory for its root; "/r" is to be unwatched once more. -/
theorem failed_request_changes_nothing_refused :
    (∃ w', inotifyWatchTree (str "/s") inCreate 8 true (World.watching (⟨[true, true, false]⟩ : Ration) (str "/r")) =
        .ok (some .memoryAllocation, w') ∧
      AsBefore (inotifyWatchTree (str "/s") inCreate 8 true) (World.watching ⟨[true, true, false]⟩ (str "/r")) w') ∧
    ∃ v w', inotifyUnwatchTree (str "/r") (World.watching (⟨[]⟩ : Ration) (str "/r")) = .ok (none, v) ∧
      inotifyUnwatchTree (str "/r/") v = .ok (some .inotifyRootBeingDestroyed, w') ∧
      AsBefore (inotifyUnwatchTree (str "/r/")) v w' ∧
      ∀ root, (w'.roots.heap root).destroy = (v.roots.heap root).destroy := by
  constructor
  · have facts : ((inotifyWatchTree (str "/s") inCreate 8 true
        (World.watching (⟨[true, true, false]⟩ : Ration) (str "/r"))).toOption.map fun r => r.1) =
          some (some .memoryAllocation) := by decide +kernel
    have unregistered : ((watchTreeRegister (str "/s") inCreate 8 true
        (World.watching (⟨[true, true, false]⟩ : Ration) (str "/r"))).toOption.map fun r => r.1.toOption) =
          some none := by decide +kernel
    obtain ⟨⟨_, w'⟩, ran, rfl⟩ := Option.map_eq_some_iff.mp facts
    have starts : WalkerStarts (str "/s") inCreate 8 true (World.watching (⟨[true, true, false]⟩ : Ration) (str "/r")) := by
      intro root v registered
      rw [registered] at unregistered
      cases unregistered
    have ran := Program.ok_of_toOption ran
    exact ⟨w', ran, ((failed_request_changes_nothing_iff rfl).1 _ _ _ _ _ _ ran).mpr starts nofun⟩
  · have facts : ((inotifyUnwatchTree (str "/r") (World.watching (⟨[]⟩ : Ration) (str "/r"))).toOption.bind fun r =>
        (inotifyUnwatchTree (str "/r/") r.2).toOption.map fun r' =>
          decide (r.1 = none ∧ r.2.pool.schedule = [] ∧ r'.1 = some .inotifyRootBeingDestroyed)) = some true := by
      decide +kernel
    obtain ⟨⟨_, v⟩, unwatched, facts⟩ := Option.bind_eq_some_iff.mp facts
    obtain ⟨⟨_, w'⟩, again, facts⟩ := Option.map_eq_some_iff.mp facts
    obtain ⟨rfl, alone, rfl⟩ := of_decide_eq_true facts
    have ran := Program.ok_of_toOption again
    have unchanged := ((failed_request_changes_nothing_iff alone).2 _ _ _ ran).mpr fun _ _ _ => rfl
    exact ⟨v, w', Program.ok_of_toOption unwatched, ran, unchanged nofun⟩

/-- No thread can be started: the request to watch "/a" fails, and "/a" is registered and listed
in the dump file; a request to unwatch "/r" fails, and the root is marked for good. -/
theorem failed_watch_registered :
    (∃ w', inotifyWatchTree (str "/a") inCreate 8 true (World.initial (⟨[]⟩ : Script false)) =
        .ok (some .failedToCreateNewThread, w') ∧ w'.roots.inotifyRoots.lookup (str "/a") = some 0 ∧
      w'.output.dumpFile = str "/a,256,8\n" ∧
      ¬AsBefore (inotifyWatchTree (str "/a") inCreate 8 true) (World.initial (⟨[]⟩ : Script false)) w') ∧
    ∃ w', inotifyUnwatchTree (str "/r") (World.watching (⟨[]⟩ : Script false) (str "/r")) =
        .ok (some .failedToCreateNewThread, w') ∧ (w'.roots.heap 0).destroy = true ∧
      ((World.watching (⟨[]⟩ : Script false) (str "/r")).roots.heap 0).destroy = false := by
  have watching : ((inotifyWatchTree (str "/a") inCreate 8 true (World.initial (⟨[]⟩ : Script false))).toOption.map
      fun r => (r.1, r.2.roots.inotifyRoots.lookup (str "/a"), r.2.output.dumpFile)) =
        some (some .failedToCreateNewThread, some 0, str "/a,256,8\n") := by decide +kernel
  have unwatching : ((inotifyUnwatchTree (str "/r")
      (World.watching (⟨[]⟩ : Script false) (str "/r"))).toOption.map
        fun r => (r.1, (r.2.roots.heap 0).destroy)) = some (some .failedToCreateNewThread, true) := by decide +kernel
  constructor
  · obtain ⟨⟨code, w'⟩, ran, result⟩ := Option.map_eq_some_iff.mp watching
    obtain ⟨rfl, registered, dumped⟩ := by simpa only [Prod.mk.injEq] using result
    refine ⟨w', Program.ok_of_toOption ran, registered, dumped, fun before => ?_⟩
    rw [before.dumpFile] at dumped
    cases dumped
  · obtain ⟨⟨code, w'⟩, ran, result⟩ := Option.map_eq_some_iff.mp unwatching
    obtain ⟨rfl, marked⟩ := by simpa only [Prod.mk.injEq] using result
    exact ⟨w', Program.ok_of_toOption ran, marked, rfl⟩

end Inotispy
