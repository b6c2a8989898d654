import Inotispy.Disk.Kernel
import Inotispy.Events.Interleaving

/-! What the main thread can rely on that a new thread might break.

Where only certain threads are at work, more can be said than of any threads. It holds from
the lookup of an event's root to the end of its record, as long as the code in between leaves
the tables alone and starts no thread.
-/

set_option autoImplicit false

namespace Inotispy
open Library

variable {σ Inode : Type} [System σ] [DecidableEq Inode]

/-- A kernel that is not told anything by `stat`, or when the dump file is opened. -/
structure Host (σ Inode : Type) [System σ] [DecidableEq Inode] extends Kernel σ Inode where
  statIsDir_view : ∀ s path, view (System.statIsDir s path).2 = view s
  fopenDump_view : ∀ s, view (System.fopenDump s).2 = view s

theorem Host.view_quiet (host : Host σ Inode) {s t : σ} (quiet : Quiet s t) : host.view t = host.view s := by
  induction quiet with
  | refl => rfl
  | malloc _ ih => exact (host.malloc _).trans ih
  | pthreadCreate _ ih => exact (host.pthreadCreate _).trans ih
  | opendir path _ ih => exact (host.opendir_view _ path).trans ih
  | readdir path _ ih => exact (host.readdir_view _ path).trans ih
  | lstat path _ ih => exact (host.lstat_view _ path).trans ih
  | statIsDir path _ ih => exact (host.statIsDir_view _ path).trans ih
  | fopenDump _ ih => exact (host.fopenDump_view _).trans ih

/-- The same roots, but for what waits in their queues. -/
structure RootTable.Agree (before after : RootTable) : Prop where
  registered : after.inotifyRoots = before.inotifyRoots
  others : ∀ root, { after.heap root with queue := none } = { before.heap root with queue := none }

namespace RootTable.Agree

theorem refl (roots : RootTable) : Agree roots roots := ⟨rfl, fun _ => rfl⟩

theorem queue (roots : RootTable) (root : RootRef) (change : Option (List Event) → Option (List Event)) :
    Agree roots (roots.setRoot root fun r => { r with queue := change r.queue }) := by
  refine ⟨rfl, fun other => ?_⟩
  by_cases same : other = root
  · subst same
    rw [heap_setRoot_self]
  · rw [heap_setRoot_of_ne same]

variable {before after : RootTable} (agree : Agree before after) (root : RootRef)
include agree

theorem path : (after.heap root).path = (before.heap root).path := by
  have same := congrArg Root.path (agree.others root)
  exact same

theorem destroy : (after.heap root).destroy = (before.heap root).destroy := by
  have same := congrArg Root.destroy (agree.others root)
  exact same

theorem pause : (after.heap root).pause = (before.heap root).pause := by
  have same := congrArg Root.pause (agree.others root)
  exact same

end RootTable.Agree

/-- A property of the directories, the watches, the threads and the roots that no turn of a
thread breaks. -/
structure Lasting (host : Host σ Inode) (inv : World σ → Prop) : Prop where
  quiet : ∀ {w w' : World σ}, host.view w'.sys = host.view w.sys → w.roots.Agree w'.roots → w'.watches = w.watches →
    w'.pool.threads = w.pool.threads → inv w → inv w'
  run : ∀ index, Keeps inv (runThread index)

theorem quiet_still (s : σ) : Still fun w : World σ => Quiet s w.sys :=
  ⟨fun rests _ before => before.trans rests.sys, fun _ _ before => before⟩

namespace Lasting

variable {host : Host σ Inode} {inv : World σ → Prop} (lasting : Lasting host inv)
include lasting

theorem rests {w w' : World σ} (rests : Rests w w') (holds : inv w) : inv w' :=
  lasting.quiet (host.view_quiet rests.sys) (rests.roots ▸ .refl _) rests.watches rests.threads holds

theorem asked {w : World σ} {s : σ} (quiet : Quiet w.sys s) (holds : inv w) : inv { w with sys := s } :=
  lasting.rests (w := w) ⟨quiet, rfl, rfl, rfl, rfl, rfl⟩ holds

theorem yieldMain : Keeps inv yieldMain := by
  apply Keeps.bind Keeps.read'
  intro schedule
  cases schedule with
  | nil => exact Keeps.pure'
  | cons turn later =>
    apply Keeps.bind
    · exact Keeps.update' fun w holds => lasting.rests (w := w) ⟨.refl, rfl, rfl, rfl, rfl, rfl⟩ holds
    · exact fun _ => Keeps.forEach fun index _ => lasting.run index

theorem lock (mutex : Mutex) : Keeps inv (lock mutex) := by
  apply Keeps.bind lasting.yieldMain
  intro _ w holds _ w' ran
  have ran' : (acquire mutex >>= pure) w = .ok ((), w') := by rwa [bind_pure]
  rw [acquire_bind_eq_ok] at ran'
  obtain ⟨_, ran'⟩ := ran'
  obtain ⟨_, rfl⟩ := Program.pure_eq_ok.mp ran'
  exact lasting.rests (w := w) ⟨.refl, rfl, rfl, rfl, rfl, rfl⟩ holds

theorem unlock (mutex : Mutex) : Keeps inv (unlock mutex) := by
  apply Keeps.bind
  · exact Keeps.update' fun w holds => lasting.rests (w := w) ⟨.refl, rfl, rfl, rfl, rfl, rfl⟩ holds
  · exact fun _ => lasting.yieldMain

theorem of_unlock_pure {A : Type} {mutex : Mutex} {w w' : World σ} {a b : A}
    (leaving : (do Inotispy.unlock mutex; return a : M σ A) w = .ok (b, w')) (holds : inv w) : b = a ∧ inv w' := by
  obtain ⟨_, v, unlocking, ran⟩ := Program.bind_eq_ok leaving
  obtain ⟨rfl, rfl⟩ := Program.pure_eq_ok.mp ran
  exact ⟨rfl, lasting.unlock mutex w holds _ _ unlocking⟩

theorem asks {A : Type} {x : M σ A} (only : ∀ {w w' : World σ} {a : A}, x w = .ok (a, w') → ∃ s, w' = { w with sys := s })
    (quiet : ∀ s : σ, Keeps (fun w => Quiet s w.sys) x) : Keeps inv x := by
  intro w holds a w' ran
  have asked := quiet w.sys w .refl a w' ran
  obtain ⟨s, rfl⟩ := only ran
  exact lasting.asked asked holds

theorem watchTreeCheck (path : Str) : Keeps inv (watchTreeCheck path) := by
  apply Keeps.bind (lasting.lock .inotify)
  intro _
  apply Keeps.bind
  · exact lasting.asks (fun ran => (inotifyPathToRoot_eq_ok ran).2) fun s => (quiet_still s).inotifyPathToRoot path
  intro found
  cases found with
  | some root =>
    apply Keeps.bind (lasting.unlock .inotify)
    intro _
    apply Keeps.bind Keeps.read'
    intro r
    apply Keeps.bind (Still.deref r.path)
    intro rootPath
    apply Keeps.ite'
    · intro _
      apply Keeps.ite' <;> exact fun _ => Keeps.pure'
    · exact fun _ => Keeps.pure'
  | none =>
    apply Keeps.bind
    · exact lasting.asks inotifyIsParent_eq_ok fun s => (quiet_still s).inotifyIsParent path
    intro subPath
    apply Keeps.bind (lasting.unlock .inotify)
    exact fun _ => Keeps.pure'

theorem inotifyDumpRoots : Keeps inv inotifyDumpRoots := by
  apply Keeps.bind (lasting.lock .inotify)
  intro _ w holds _ w' ran
  obtain ⟨_, v, dumping, ran⟩ := Program.bind_eq_ok ran
  have quiet := (quiet_still w.sys).dumpRootsSection w .refl _ _ dumping
  obtain ⟨text, rfl⟩ := dumpRootsSection_eq_ok dumping
  exact lasting.unlock .inotify _ (lasting.rests (w := w) ⟨quiet, rfl, rfl, rfl, rfl, rfl⟩ holds) _ _ ran

theorem lookupEvent (succeed : AllocationsSucceed σ) (wd : Int) :
    Triple inv (lookupEvent wd) fun found w => inv w ∧ ∃ u, inv u ∧ found = eventTarget u wd := by
  refine Triple.bind (lasting.lock .inotify) ?_
  intro _ w holds found w' ran
  simp only [lookupWd_bind] at ran
  cases known : w.watches.inotifyWdToWatch.lookup wd with
  | none =>
    rw [known] at ran
    obtain ⟨rfl, after⟩ := lasting.of_unlock_pure ran holds
    exact ⟨after, w, holds, by simp [eventTarget, known]⟩
  | some watch =>
    simp only [known, malloc_bind, succeed _, Bool.not_true, Bool.false_eq_true, if_false] at ran
    obtain ⟨root, v, searching, ran⟩ := Program.bind_eq_ok ran
    have quiet := (quiet_still w.sys).inotifyPathToRoot watch.path _ (.malloc .refl) _ _ searching
    obtain ⟨rfl, s, rfl⟩ := inotifyPathToRoot_eq_ok searching
    have kept := lasting.asked quiet holds
    cases served : w.roots.pathToRoot watch.path with
    | none =>
      simp only [served] at ran
      obtain ⟨rfl, after⟩ := lasting.of_unlock_pure ran kept
      exact ⟨after, w, holds, by simp [eventTarget, known, served]⟩
    | some root =>
      simp only [served, getRoot_bind] at ran
      obtain ⟨_, u, leaving, ran⟩ := Program.bind_eq_ok ran
      have after := lasting.unlock .inotify _ kept _ _ leaving
      simp only [Program.ite_eq_ok, Program.pure_eq_ok] at ran
      obtain ⟨stopped, rfl, rfl⟩ | ⟨running, rfl, rfl⟩ := ran
      · exact ⟨after, w, holds, by simp_all [eventTarget]⟩
      · refine ⟨after, w, holds, Eq.symm ?_⟩
        rw [eventTarget_eq_some]
        exact ⟨watch, known, rfl, served, by simp_all⟩

theorem inotifyEnqueue (root : RootRef) (event : InEvent) (path : Str) : Keeps inv (inotifyEnqueue root event path) := by
  apply Keeps.bind (lasting.lock .inotify)
  intro _ w holds code w' ran
  simp only [rootQueue_bind, getRoot_bind, Program.ite_eq_ok, malloc_bind, Program.pure_eq_ok, mkString_bind,
    setRootQueue_bind] at ran
  let used : World σ :=
    { w with output.releasedQueueUsed := w.output.releasedQueueUsed || (w.roots.heap root).queue.isNone }
  have holds : inv used := lasting.quiet (w := w) rfl (.refl _) rfl rfl holds
  obtain ⟨_, ran⟩ | ⟨_, ran⟩ := ran
  · exact (lasting.of_unlock_pure ran holds).2
  have asked := lasting.asked (.malloc .refl) holds
  obtain ⟨_, _, rfl⟩ | ⟨_, ran⟩ := ran
  · exact asked
  · have copied := lasting.asked (.malloc (.malloc .refl)) asked
    have adds (u : World σ) (node : Event) (holds : inv u) : inv { u with roots := u.roots.setRoot root fun r =>
        { r with queue := r.queue.map fun _ => (u.roots.heap root).events ++ [node] } } :=
      lasting.quiet (w := u) rfl (.queue u.roots root (Option.map _)) rfl rfl holds
    exact (lasting.of_unlock_pure ran (adds _ _ copied)).2

end Lasting

/-- A record leads from one lasting property to another if it is passed over only where it need not
do anything, and the bookkeeping for directories leads there. -/
theorem inotifyHandleRecord_leads {host : Host σ Inode} {before after : World σ → Prop} (lasting : Lasting host before)
    (later : Lasting host after) (succeed : AllocationsSucceed σ) {event : InEvent}
    (overlooked : ∀ u, before u → Overlooked u event → ∀ w, before w → after w)
    (handles : ∀ u path root, before u → eventTarget u event.wd = some (path, root) →
      Triple before (handleDirectory event path (some (eventPath path event.name)) root) fun _ => after) :
    Triple before (inotifyHandleRecord event) fun _ => after := by
  apply Triple.ite'
  · exact fun empty => Triple.pure' fun w holds => overlooked w holds (.inl empty) w holds
  intro _
  apply Triple.ite'
  · intro overflow
    have reports : Keeps before (modifyOutput fun out => { out with overflowReports := out.overflowReports + 1 }) :=
      Keeps.update' fun w holds => lasting.rests (w := w) ⟨.refl, rfl, rfl, rfl, rfl, rfl⟩ holds
    exact Triple.bind reports fun _ => Triple.pure' fun w holds => overlooked w holds (.inr (.inl overflow)) w holds
  intro _
  apply Triple.ite'
  · exact fun skips => Triple.pure' fun w holds => overlooked w holds (.inr (.inr (.inl skips))) w holds
  intro _
  refine Triple.bind (lasting.lookupEvent succeed event.wd) fun found => ?_
  cases found with
  | none =>
    refine Triple.pure' ?_
    rintro w ⟨holds, u, early, unknown⟩
    exact overlooked u early (.inr (.inr (.inr unknown.symm))) w holds
  | some found =>
    obtain ⟨path, root⟩ := found
    refine Triple.assume fun w => ?_
    rintro ⟨holds, u, early, known⟩
    intro _ start round w' ran
    subst start
    simp only [mkString_bind_allocated succeed] at ran
    obtain ⟨queued, v, handling, ran⟩ := Program.bind_eq_ok ran
    have done := handles u path root early known.symm _ (lasting.asked (.malloc .refl) holds) _ _ handling
    simp only [Program.ite_eq_ok, Program.pure_eq_ok, getRoot_bind] at ran
    obtain ⟨_, _, rfl⟩ | ⟨_, ⟨_, _, rfl⟩ | ⟨_, ran⟩⟩ := ran
    · exact done
    · exact done
    · obtain ⟨code, x, offering, ran⟩ := Program.bind_eq_ok ran
      obtain ⟨_, rfl⟩ := Program.pure_eq_ok.mp ran
      exact later.inotifyEnqueue root event path _ done _ _ offering

/-- A record that is not one of a directory that comes or goes. -/
def Unrelated (event : InEvent) : Prop :=
  event.len = 0 ∨ (hasBit event.mask inIsdir = true →
    (hasBit event.mask inCreate || hasBit event.mask inMovedTo) = false ∧
      (hasBit event.mask inDelete || hasBit event.mask inMovedFrom) = false)

theorem Lasting.unrelated {host : Host σ Inode} {inv : World σ → Prop} (lasting : Lasting host inv)
    (succeed : AllocationsSucceed σ) {event : InEvent} (unrelated : Unrelated event) :
    Keeps inv (inotifyHandleRecord event) := by
  rcases unrelated with empty | other
  · rw [Keeps, inotifyHandleRecord, if_pos empty]
    exact Keeps.pure'
  · refine inotifyHandleRecord_leads lasting lasting succeed (fun _ _ _ _ => id) fun u path root _ _ => ?_
    apply Keeps.ite'
    · exact fun _ => Keeps.pure'
    intro isDir
    obtain ⟨old, stays⟩ := other (by simpa using isDir)
    rw [old, stays]
    exact Keeps.pure'

end Inotispy
