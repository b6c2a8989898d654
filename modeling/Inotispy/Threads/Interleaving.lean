import Inotispy.Model.Trees
import Inotispy.Threads.Effects

/-! What the main thread can rely on while other threads run.

Other threads run wherever the main thread holds no mutex, in any order the schedule
gives. A property that no step of a thread breaks, a steady one, therefore holds through
all the code of the main thread that does not change the tables itself.
-/

set_option autoImplicit false

namespace Inotispy
open Library

variable {σ : Type} [System σ]

/-- The outside after questions that neither ask for a watch nor give one up. -/
inductive Quiet (s : σ) : σ → Prop where
  | refl : Quiet s s
  | malloc {t : σ} (before : Quiet s t) : Quiet s (System.malloc t).2
  | pthreadCreate {t : σ} (before : Quiet s t) : Quiet s (System.pthreadCreate t).2
  | opendir {t : σ} (path : Str) (before : Quiet s t) : Quiet s (System.opendir t path).2
  | readdir {t : σ} (path : Str) (before : Quiet s t) : Quiet s (System.readdir t path).2
  | lstat {t : σ} (path : Str) (before : Quiet s t) : Quiet s (System.lstat t path).2
  | statIsDir {t : σ} (path : Str) (before : Quiet s t) : Quiet s (System.statIsDir t path).2
  | fopenDump {t : σ} (before : Quiet s t) : Quiet s (System.fopenDump t).2

theorem Quiet.trans {s t u : σ} (first : Quiet s t) (second : Quiet t u) : Quiet s u := by
  induction second with
  | refl => exact first
  | malloc _ ih => exact ih.malloc
  | pthreadCreate _ ih => exact ih.pthreadCreate
  | opendir path _ ih => exact ih.opendir path
  | readdir path _ ih => exact ih.readdir path
  | lstat path _ ih => exact ih.lstat path
  | statIsDir path _ ih => exact ih.statIsDir path
  | fopenDump _ ih => exact ih.fopenDump

structure Rests (w w' : World σ) : Prop where
  sys : Quiet w.sys w'.sys
  roots : w'.roots = w.roots
  watches : w'.watches = w.watches
  threads : w'.pool.threads = w.pool.threads
  socket : w'.socket = w.socket
  released : w'.output.releasedQueueUsed = w.output.releasedQueueUsed

/-- The root that a thread has yet to take out of the table. -/
def Thread.destroys : Thread → Option RootRef
  | .destroyRoot root => some root
  | .destroyKeys root _ _ => some root
  | .destroyWatch root _ _ _ _ => some root
  | .destroyEntry root _ _ _ _ => some root
  | _ => none

/-- A thread at its start. Threads that destroy a root are left out: only an unwatch request
starts one. -/
def Thread.Fresh : Thread → Prop
  | .watchTree _ => True
  | .memclean => True
  | _ => False

theorem Thread.Fresh.destroys {thread : Thread} (fresh : thread.Fresh) : thread.destroys = none := by
  cases thread with
  | watchTree data => rfl
  | memclean => rfl
  | _ => exact fresh.elim

/-- A property that no step of a thread breaks, nor a new thread. -/
structure Steady (inv : World σ → Prop) : Prop where
  quiet : ∀ {w w' : World σ}, Rests w w' → inv w → inv w'
  spawned : ∀ {w : World σ} (thread : Thread), thread.Fresh → inv w →
    inv { w with pool.threads := w.pool.threads ++ [thread] }
  run : ∀ index, Keeps inv (runThread index)

theorem threads_set_eq_some {threads : List Thread} {index place : Nat} {thread next other : Thread}
    (found : threads[index]? = some thread) (at_ : (threads.set index next)[place]? = some other) :
    (place = index ∧ other = next) ∨ (place ≠ index ∧ threads[place]? = some other) := by
  by_cases same : index = place
  · subst same
    rw [List.getElem?_set_self (List.getElem?_eq_some_iff.mp found).1] at at_
    exact .inl ⟨rfl, (Option.some.inj at_).symm⟩
  · rw [List.getElem?_set_ne same] at at_
    exact .inr ⟨Ne.symm same, at_⟩

theorem runThread_eq_ok {index : Nat} {w w' : World σ} {a : Unit}
    (ran : runThread index w = .ok (a, w')) :
    (w.pool.threads[index]? = none ∧ w' = w) ∨
      ∃ thread next v, w.pool.threads[index]? = some thread ∧ threadStep thread w = .ok (next, v) ∧
        w' = { v with pool.threads := v.pool.threads.set index next } := by
  simp only [runThread, Program.read_bind_apply] at ran
  cases found : w.pool.threads[index]? with
  | none =>
    rw [found] at ran
    exact .inl ⟨rfl, (Program.pure_eq_ok.mp ran).2⟩
  | some thread =>
    rw [found] at ran
    obtain ⟨next, v, step, ran⟩ := Program.bind_eq_ok ran
    cases ran
    exact .inr ⟨thread, next, v, rfl, step, rfl⟩

/-- A property that survives what the main thread does between two points at which other threads may
run, as long as it leaves the tables alone. -/
structure Still (inv : World σ → Prop) : Prop where
  quiet : ∀ {w w' : World σ}, Rests w w' → w'.pool.schedule = w.pool.schedule → inv w → inv w'
  spawned : ∀ {w : World σ} (thread : Thread), thread.Fresh → inv w →
    inv { w with pool.threads := w.pool.threads ++ [thread] }

theorem Steady.still {inv : World σ → Prop} (steady : Steady inv) : Still inv :=
  ⟨fun rests _ => steady.quiet rests, fun {_} => steady.spawned⟩

namespace Still

variable {inv : World σ → Prop} (still : Still inv)
include still

theorem update {change : World σ → World σ} (rests : ∀ w, Rests w (change w))
    (schedule : ∀ w, (change w).pool.schedule = w.pool.schedule) : Keeps inv (Program.update change : M σ Unit) :=
  Keeps.update' fun w holds => still.quiet (rests w) (schedule w) holds

theorem asked {w : World σ} {s : σ} (quiet : Quiet w.sys s) (holds : inv w) : inv { w with sys := s } :=
  still.quiet (w := w) ⟨quiet, rfl, rfl, rfl, rfl, rfl⟩ rfl holds

theorem call {A : Type} (question : σ → A × σ) (quiet : ∀ s, Quiet s (question s).2) :
    Keeps inv (call question) := by
  intro w holds _ w' ran
  cases ran
  exact still.asked (quiet w.sys) holds

theorem malloc : Keeps inv malloc := still.call _ fun _ => .malloc .refl

theorem opendir (path : Str) : Keeps inv (opendir path) := still.call _ fun _ => .opendir path .refl

theorem mkString (text : Str) : Keeps inv (mkString text) := by
  apply Keeps.bind still.malloc
  intro allocated
  apply Keeps.ite' <;> exact fun _ => Keeps.pure'

omit [System σ] still in
theorem deref {A : Type} (pointer : Option A) : Keeps inv (deref pointer) := by
  cases pointer with
  | none => exact Keeps.fault'
  | some value => exact Keeps.pure'

theorem acquire (mutex : Mutex) : Keeps inv (acquire mutex) := by
  intro w holds _ w' ran
  have ran' : (Inotispy.acquire mutex >>= pure) w = .ok ((), w') := by rwa [bind_pure]
  rw [acquire_bind_eq_ok] at ran'
  obtain ⟨_, ran'⟩ := ran'
  obtain ⟨_, rfl⟩ := Program.pure_eq_ok.mp ran'
  exact still.quiet (w := w) ⟨.refl, rfl, rfl, rfl, rfl, rfl⟩ rfl holds

theorem release (mutex : Mutex) : Keeps inv (release mutex) :=
  still.update (fun _ => ⟨.refl, rfl, rfl, rfl, rfl, rfl⟩) fun _ => rfl

theorem start (thread : Thread)
    (joins : ∀ w : World σ, inv w → inv { w with pool.threads := w.pool.threads ++ [thread] }) :
    Keeps inv (spawn thread) := by
  apply Keeps.bind (still.call _ fun _ => .pthreadCreate .refl)
  intro created
  apply Keeps.ite'
  · exact fun _ => Keeps.pure'
  intro _
  apply Keeps.bind (Keeps.update' joins)
  exact fun _ => Keeps.pure'

theorem spawn (thread : Thread) (fresh : thread.Fresh) : Keeps inv (spawn thread) :=
  still.start thread fun _ => still.spawned thread fresh

theorem doWatchTree (path : Option Str) (root : RootRef) (cleanup : Bool) :
    Keeps inv (doWatchTree path root cleanup) := by
  apply Keeps.bind Keeps.read'
  intro r
  apply Keeps.ite'
  · exact fun _ => Keeps.pure'
  intro _
  apply Keeps.bind still.malloc
  intro allocated
  apply Keeps.ite'
  · exact fun _ => Keeps.pure'
  intro _
  apply Keeps.bind (still.mkString _)
  intro copy
  apply Keeps.bind (still.spawn (.watchTree _) trivial)
  intro started
  apply Keeps.ite' <;> exact fun _ => Keeps.pure'

theorem dumpRootsSection : Keeps inv dumpRootsSection := by
  apply Keeps.bind (still.call _ fun _ => .fopenDump .refl)
  intro opened
  apply Keeps.ite'
  · exact fun _ => Keeps.pure'
  intro _
  apply Keeps.bind Keeps.read'
  intro roots
  exact still.update (fun _ => ⟨.refl, rfl, rfl, rfl, rfl, rfl⟩) fun _ => rfl

theorem inotifyMemclean : Keeps inv inotifyMemclean := by
  apply Keeps.bind Keeps.read'
  intro running
  apply Keeps.ite'
  · exact fun _ => Keeps.pure'
  intro _
  apply Keeps.bind (still.spawn .memclean trivial)
  exact fun _ => Keeps.pure'

/-! ## Searching the table of roots -/

theorem pathToRootLoop (path : Str) (keys : List Str) : Keeps inv (pathToRootLoop path keys) := by
  induction keys with
  | nil => exact Keeps.pure'
  | cons key keys ih =>
    apply Keeps.bind (still.mkString _)
    intro tmp
    apply Keeps.ite'
    · exact fun _ => Keeps.read'
    intro _
    apply Keeps.bind (deref tmp)
    intro tmp
    apply Keeps.ite'
    · exact fun _ => Keeps.read'
    · exact fun _ => ih

theorem inotifyPathToRoot (path : Str) : Keeps inv (inotifyPathToRoot path) := by
  apply Keeps.bind Keeps.read'
  intro top
  cases top with
  | some root => exact Keeps.pure'
  | none =>
    apply Keeps.bind Keeps.read'
    exact fun keys => still.pathToRootLoop path keys

theorem isParentLoop (tmp : Option Str) (keys : List Str) : Keeps inv (isParentLoop tmp keys) := by
  induction keys with
  | nil => exact Keeps.pure'
  | cons key keys ih =>
    apply Keeps.bind (deref tmp)
    intro tmp'
    apply Keeps.ite'
    · exact fun _ => still.mkString key
    · exact fun _ => ih

theorem inotifyIsParent (path : Str) : Keeps inv (inotifyIsParent path) := by
  apply Keeps.bind (still.mkString _)
  intro tmp
  apply Keeps.bind Keeps.read'
  exact fun keys => still.isParentLoop tmp keys

end Still

namespace Steady

theorem always : Steady fun _ : World σ => True := ⟨fun _ => id, fun _ _ => id, fun _ _ _ _ _ _ => trivial⟩

theorem of_socket (inv : Socket → Prop) : Steady fun w : World σ => inv w.socket where
  quiet rests holds := by rwa [rests.socket]
  spawned _ _ holds := holds
  run index := by
    intro w holds _ w' ran
    obtain ⟨_, rfl⟩ | ⟨thread, next, v, _, stepped, rfl⟩ := runThread_eq_ok ran
    · exact holds
    · have same := (threadStep_effect stepped).socket
      exact same ▸ holds

theorem of_each {A : Type} {inv : World σ → Prop} {each : A → World σ → Prop}
    (steady : ∀ a, Steady fun w => inv w ∧ each a w) : Steady fun w => inv w ∧ ∃ a, each a w where
  quiet := by
    rintro w w' rests ⟨holds, a, one⟩
    have after := (steady a).quiet rests ⟨holds, one⟩
    exact ⟨after.1, a, after.2⟩
  spawned := by
    rintro w thread fresh ⟨holds, a, one⟩
    have after := (steady a).spawned thread fresh ⟨holds, one⟩
    exact ⟨after.1, a, after.2⟩
  run index := by
    rintro w ⟨holds, a, one⟩ _ w' ran
    have after := (steady a).run index w ⟨holds, one⟩ _ w' ran
    exact ⟨after.1, a, after.2⟩

theorem of_tables (inv : RootTable → WatchTable → Prop)
    (step : ∀ {thread : Thread} {w w' : World σ}, ThreadEffect thread w w' →
      inv w.roots w.watches → inv w'.roots w'.watches) :
    Steady fun w : World σ => inv w.roots w.watches where
  quiet rests holds := by rwa [rests.roots, rests.watches]
  spawned _ _ holds := holds
  run index := by
    intro w holds _ w' ran
    obtain ⟨_, rfl⟩ | ⟨thread, next, v, _, stepped, rfl⟩ := runThread_eq_ok ran
    · exact holds
    · have after := step (threadStep_effect stepped) holds
      exact after

variable {inv : World σ → Prop} (steady : Steady inv)
include steady

theorem and {other : World σ → Prop} (second : Steady other) : Steady fun w => inv w ∧ other w where
  quiet rests holds := ⟨steady.quiet rests holds.1, second.quiet rests holds.2⟩
  spawned thread fresh holds := ⟨steady.spawned thread fresh holds.1, second.spawned thread fresh holds.2⟩
  run index := Triple.and ((steady.run index).strengthen fun _ => And.left)
    ((second.run index).strengthen fun _ => And.right)

theorem update {change : World σ → World σ} (rests : ∀ w, Rests w (change w)) :
    Keeps inv (Program.update change : M σ Unit) :=
  Keeps.update' fun w holds => steady.quiet (rests w) holds

theorem yieldMain : Keeps inv yieldMain := by
  apply Keeps.bind Keeps.read'
  intro schedule
  cases schedule with
  | nil => exact Keeps.pure'
  | cons turn later =>
    apply Keeps.bind
    -- No thread reads the schedule.
    · exact steady.update fun _ => ⟨.refl, rfl, rfl, rfl, rfl, rfl⟩
    · exact fun _ => Keeps.forEach fun index _ => steady.run index

theorem lock (mutex : Mutex) : Keeps inv (lock mutex) :=
  Keeps.bind steady.yieldMain fun _ => steady.still.acquire mutex

theorem unlock (mutex : Mutex) : Keeps inv (unlock mutex) :=
  Keeps.bind (steady.still.release mutex) fun _ => steady.yieldMain

theorem of_unlock {mutex : Mutex} {w w' : World σ} {a : Unit}
    (leaving : Inotispy.unlock mutex w = .ok (a, w')) (holds : inv w) : inv w' :=
  steady.unlock mutex w holds a w' leaving

theorem of_unlock_pure {A : Type} {mutex : Mutex} {w w' : World σ} {a b : A}
    (leaving : (do Inotispy.unlock mutex; return a : M σ A) w = .ok (b, w')) (holds : inv w) :
    b = a ∧ inv w' := by
  obtain ⟨_, v, unlocking, ran⟩ := Program.bind_eq_ok leaving
  obtain ⟨rfl, rfl⟩ := Program.pure_eq_ok.mp ran
  exact ⟨rfl, steady.of_unlock unlocking holds⟩

theorem inotifyDumpRoots : Keeps inv inotifyDumpRoots := by
  apply Keeps.bind (steady.lock .inotify)
  intro _
  apply Keeps.bind steady.still.dumpRootsSection
  exact fun _ => steady.unlock .inotify

theorem inotifyRewatchRoots : Keeps inv inotifyRewatchRoots := by
  apply Keeps.bind Keeps.read'
  intro running
  apply Keeps.ite'
  · exact fun _ => Keeps.pure'
  intro _
  apply Keeps.bind (steady.lock .inotify)
  intro _
  apply Keeps.bind Keeps.read'
  intro roots
  apply Keeps.bind (steady.unlock .inotify)
  intro _
  apply Keeps.forEach
  intro root _
  apply Keeps.bind Keeps.read'
  intro r
  apply Keeps.bind (steady.still.doWatchTree _ _ _)
  exact fun _ => Keeps.pure'

end Steady
end Inotispy
