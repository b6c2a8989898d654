import Inotispy.Threads.Interleaving

/-! What the threads ask of the outside.

A property of the outside alone holds after a step of any thread if the calls that change
nothing, the end of a watch and the walker's critical section keep it.
-/

set_option autoImplicit false

namespace Inotispy
open Library

variable {σ : Type} [System σ]

structure Unmoved (ok : σ → Prop) : Prop where
  quiet : ∀ {s t}, Quiet s t → ok s → ok t
  rmWatch : ∀ s wd, ok s → ok (System.inotifyRmWatch s wd).2
  enters : ∀ path root cleanup, Keeps (fun w : World σ => ok w.sys) (doWatchTreeSection path root cleanup)

namespace Unmoved

variable {ok : σ → Prop} (unmoved : Unmoved ok)
include unmoved

theorem still : Still fun w : World σ => ok w.sys where
  quiet rests _ holds := unmoved.quiet rests.sys holds
  spawned _ _ holds := holds

theorem inotifyRmWatch (wd : Int) : Keeps (fun w : World σ => ok w.sys) (inotifyRmWatch wd) := by
  intro w holds _ w' ran
  cases ran
  exact unmoved.rmWatch _ wd holds

omit unmoved [System σ] in
theorem modifyWatches (change : WatchTable → WatchTable) : Keeps (fun w : World σ => ok w.sys) (modifyWatches change) :=
  Keeps.update' fun _ holds => holds

omit unmoved [System σ] in
theorem modifyRoots (change : RootTable → RootTable) : Keeps (fun w : World σ => ok w.sys) (modifyRoots change) :=
  Keeps.update' fun _ holds => holds

omit unmoved [System σ] in
theorem modifyPool (change : Pool → Pool) : Keeps (fun w : World σ => ok w.sys) (modifyPool change) :=
  Keeps.update' fun _ holds => holds

theorem doWatchTreeRec (data : TData) (rest : List Frame) (frame : Frame) :
    Keeps (fun w : World σ => ok w.sys) (doWatchTreeRec data rest frame) := by
  have still := unmoved.still
  cases frame with
  | call path =>
    apply Keeps.bind (unmoved.enters path data.root data.cleanup)
    intro went
    apply Keeps.ite' <;> exact fun _ => Keeps.pure'
  | opened path =>
    apply Keeps.bind (still.call _ fun _ => .readdir path .refl)
    intro entries
    cases entries <;> exact Keeps.pure'
  | reading path entries =>
    cases entries with
    | nil => exact Keeps.pure'
    | cons dir entries =>
      have asks (tmp : Option Str) : Keeps (fun w : World σ => ok w.sys) (entryIsDir tmp dir.dType) := by
        cases dir.dType with
        | unknown =>
          apply Keeps.bind (Still.deref tmp)
          intro path
          apply Keeps.bind (still.call _ fun _ => .lstat path .refl)
          exact fun _ => Keeps.pure'
        | _ => exact Keeps.pure'
      apply Keeps.ite'
      · exact fun _ => Keeps.pure'
      intro _
      apply Keeps.bind (still.mkString _)
      intro tmp
      apply Keeps.bind (asks tmp)
      intro isDir
      apply Keeps.ite'
      · exact fun _ => Keeps.pure'
      intro _
      apply Keeps.bind Keeps.read'
      intro r
      apply Keeps.ite'
      · exact fun _ => Keeps.pure'
      intro _
      apply Keeps.bind (Still.deref tmp)
      exact fun _ => Keeps.pure'

theorem destroyRootEnd (root : RootRef) : Keeps (fun w : World σ => ok w.sys) (destroyRootEnd root) := by
  have still := unmoved.still
  have finish (rootPath : Str) : Keeps (fun w : World σ => ok w.sys) (do
      Inotispy.modifyRoots fun roots =>
        { roots with
          inotifyRoots := roots.inotifyRoots.erase rootPath
          inotifyNumWatchedRoots := roots.inotifyNumWatchedRoots - 1 }
      release .inotify) := Keeps.bind (modifyRoots _) fun _ => still.release .inotify
  apply Keeps.bind (still.acquire .inotify)
  intro _
  apply Keeps.bind Keeps.read'
  intro r
  apply Keeps.bind (Still.deref r.path)
  intro rootPath
  apply Keeps.bind Keeps.read'
  intro found
  cases found with
  | none => exact finish rootPath
  | some watch => exact Keeps.bind (modifyWatches _) fun _ => finish rootPath

theorem memcleanSection (path : Str) : Keeps (fun w : World σ => ok w.sys) (memcleanSection path) := by
  have still := unmoved.still
  apply Keeps.bind (still.acquire .inotify)
  intro _
  apply Keeps.bind Keeps.read'
  intro found
  cases found with
  | none => exact still.release .inotify
  | some watch =>
    apply Keeps.bind (unmoved.inotifyRmWatch watch.wd)
    intro _
    apply Keeps.bind (modifyWatches _)
    exact fun _ => still.release .inotify

theorem threadStep (thread : Thread) : Keeps (fun w : World σ => ok w.sys) (threadStep thread) := by
  have still := unmoved.still
  cases thread with
  | watchTree data =>
    intro w holds next w' ran
    obtain ⟨_, rfl, _⟩ | ⟨_, _, _, _, _, _, _, rfl⟩ := doWatchTreeEnter_eq_ok ran <;> exact holds
  | watchTreeRec data stack =>
    cases stack with
    | nil =>
      apply Keeps.ite'
      · exact fun _ => Keeps.bind (modifyPool _) fun _ => Keeps.pure'
      · exact fun _ => Keeps.pure'
    | cons frame rest => exact Keeps.bind (unmoved.doWatchTreeRec data rest frame) fun _ => Keeps.pure'
  | destroyRoot root =>
    apply Keeps.bind (still.acquire .inotify)
    intro _
    apply Keeps.bind Keeps.read'
    intro r
    apply Keeps.bind (still.mkString _)
    intro tmp
    apply Keeps.bind (modifyRoots _)
    intro _
    apply Keeps.bind Keeps.read'
    intro keys
    apply Keeps.bind (still.release .inotify)
    exact fun _ => Keeps.pure'
  | destroyKeys root tmp keys =>
    cases keys with
    | nil => exact Keeps.bind (unmoved.destroyRootEnd root) fun _ => Keeps.pure'
    | cons path keys =>
      intro w holds next w' ran
      obtain ⟨rfl, _⟩ := destroyRootKey_eq_ok ran
      exact holds
  | destroyWatch root tmp path watch keys => exact Keeps.bind (unmoved.inotifyRmWatch watch.wd) fun _ => Keeps.pure'
  | destroyEntry root tmp path watch keys =>
    intro w holds next w' ran
    obtain ⟨_, v, removing, ran⟩ := Program.bind_eq_ok ran
    obtain ⟨_, rfl⟩ := Program.pure_eq_ok.mp ran
    rw [destroyRootEntry_eq_ok removing]
    exact holds
  | destroyDump =>
    apply Keeps.bind (still.acquire .inotify)
    intro _
    apply Keeps.bind still.dumpRootsSection
    intro _
    apply Keeps.bind (still.release .inotify)
    exact fun _ => Keeps.pure'
  | memclean => exact Keeps.bind (modifyPool _) fun _ => Keeps.pure'
  | memcleanSnapshot =>
    apply Keeps.bind (still.acquire .inotify)
    intro _
    apply Keeps.bind Keeps.read'
    intro keys
    apply Keeps.bind (still.release .inotify)
    exact fun _ => Keeps.pure'
  | memcleanKeys keys =>
    cases keys with
    | nil =>
      apply Keeps.bind (still.acquire .inotify)
      intro _
      apply Keeps.bind (modifyPool _)
      intro _
      apply Keeps.bind (still.release .inotify)
      exact fun _ => Keeps.pure'
    | cons path keys =>
      apply Keeps.ite'
      · exact fun _ => Keeps.pure'
      intro _
      apply Keeps.bind (still.call _ fun _ => .statIsDir path .refl)
      intro isDir
      apply Keeps.ite' <;> exact fun _ => Keeps.pure'
  | memcleanPath path keys => exact Keeps.bind (unmoved.memcleanSection path) fun _ => Keeps.pure'
  | finished => exact Keeps.pure'

theorem steady : Steady fun w : World σ => ok w.sys where
  quiet rests holds := unmoved.quiet rests.sys holds
  spawned _ _ holds := holds
  run index := by
    intro w holds _ w' ran
    obtain ⟨_, rfl⟩ | ⟨thread, next, v, _, stepped, rfl⟩ := runThread_eq_ok ran
    · exact holds
    · exact unmoved.threadStep thread w holds next v stepped

end Unmoved

theorem Unmoved.of_addWatch {ok : σ → Prop} (quiet : ∀ {s t}, Quiet s t → ok s → ok t)
    (addWatch : ∀ s path mask, ok s → ok (System.inotifyAddWatch s path mask).2)
    (rmWatch : ∀ s wd, ok s → ok (System.inotifyRmWatch s wd).2) : Unmoved ok := by
  refine ⟨quiet, rmWatch, fun path root cleanup => ?_⟩
  have still : Still fun w : World σ => ok w.sys :=
    ⟨fun rests _ holds => quiet rests.sys holds, fun _ _ holds => holds⟩
  have asks (mask : UInt32) : Keeps (fun w : World σ => ok w.sys) (inotifyAddWatch path mask) := by
    intro w holds _ w' ran
    cases ran
    exact addWatch _ _ _ holds
  have makes (wd : Int) : Keeps (fun w : World σ => ok w.sys) (makeWatch wd path) := by
    apply Keeps.bind still.malloc
    intro allocated
    apply Keeps.ite'
    · exact fun _ => Keeps.pure'
    intro _
    apply Keeps.bind still.malloc
    intro copied
    apply Keeps.ite'
    · exact fun _ => Keeps.pure'
    intro _
    apply Keeps.bind Keeps.read'
    intro addr
    exact Keeps.bind (Unmoved.modifyWatches _) fun _ => Keeps.pure'
  have adds : Keeps (fun w : World σ => ok w.sys) (addTreeWatch path root) := by
    apply Keeps.bind (still.opendir path)
    intro opened
    apply Keeps.ite'
    · exact fun _ => Keeps.pure'
    intro _
    apply Keeps.bind Keeps.read'
    intro r
    apply Keeps.bind (asks _)
    intro wd
    apply Keeps.ite'
    · exact fun _ => Keeps.pure'
    intro _
    apply Keeps.bind (makes wd)
    intro made
    cases made with
    | none => exact Keeps.pure'
    | some watch =>
      apply Keeps.bind Keeps.read'
      intro known
      apply Keeps.ite'
      · exact fun _ => Keeps.pure'
      · exact fun _ => Keeps.bind (Unmoved.modifyWatches _) fun _ => Keeps.pure'
  apply Keeps.ite'
  · exact fun _ => Keeps.pure'
  intro _
  apply Keeps.bind (still.acquire .inotify)
  intro _
  apply Keeps.bind Keeps.read'
  intro r
  apply Keeps.ite'
  · exact fun _ => Keeps.bind (still.release .inotify) fun _ => Keeps.pure'
  intro _
  apply Keeps.bind Keeps.read'
  intro known
  apply Keeps.ite'
  · exact fun _ => Keeps.bind (still.release .inotify) fun _ => Keeps.pure'
  intro _
  apply Keeps.bind adds
  intro went
  exact Keeps.bind (still.release .inotify) fun _ => Keeps.pure'

end Inotispy
