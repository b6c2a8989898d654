import Inotispy.Disk.Kernel
import Inotispy.Model.Script
import Inotispy.Threads.Snapshots

/-! Memclean and directories that come back.

Memclean tests a path outside the mutex and removes its entry later, under the mutex. By then
there may be a directory at the path again.
-/

set_option autoImplicit false

namespace Inotispy
open Library

variable {σ : Type} [System σ]

/-- How `stat` tells directories from other paths. -/
structure Stat (σ : Type) [System σ] where
  isDir : σ → Str → Bool
  answer : ∀ s path, (System.statIsDir s path).1 = isDir s path
  same : ∀ s path, isDir (System.statIsDir s path).2 = isDir s

/-- A move of the daemon, or anything that happens outside. -/
inductive MoveOrDisk (w : World σ) : World σ → Prop where
  | move {w' : World σ} (move : Move w w') : MoveOrDisk w w'
  | disk (s : σ) : MoveOrDisk w { w with sys := s }

theorem MoveOrDisk.holds {w w' : World σ} (step : MoveOrDisk w w') (kept : KeysKept w w')
    (holds : ∀ thread ∈ w.pool.threads, thread.Holds w.watches) : ∀ thread ∈ w'.pool.threads, thread.Holds w'.watches := by
  cases step with
  | move move => exact move.holds kept holds
  | disk s => exact holds

/-- The path has been tested by memclean, and its entry is about to be removed. -/
def Suspected (w : World σ) (path : Str) : Prop := ∃ keys, .memcleanPath path keys ∈ w.pool.threads

structure Removal (w : World σ) (path : Str) (watch : Watch) (w' : World σ) : Prop where
  thread : ∃ index keys, w.pool.threads[index]? = some (.memcleanPath path keys) ∧ runThread index w = .ok ((), w')
  found : w.watches.inotifyPathToWatch.lookup path = some watch
  watches : w'.watches = w.watches.forget path watch.wd
  sys : w'.sys = (System.inotifyRmWatch w.sys watch.wd).2

theorem removal_of_memclean {index : Nat} {thread : Thread} {w w' : World σ}
    (found : w.pool.threads[index]? = some thread) (cleans : thread.Cleans) (ran : runThread index w = .ok ((), w')) :
    w'.watches = w.watches ∨ thread.Drops ∧ ∃ path watch, Removal w path watch w' := by
  obtain ⟨none, _⟩ | ⟨_, next, v, found', stepped, rfl⟩ := runThread_eq_ok ran
  · rw [found] at none
    cases none
  obtain rfl := Option.some.inj (found.symm.trans found')
  cases threadStep_memclean cleans stepped with
  | remove known => exact .inr ⟨trivial, _, _, ⟨index, _, found, ran⟩, known, rfl, rfl⟩
  | _ => exact .inl rfl

theorem removal_of_suspected {w : World σ} {path : Str} {watch : Watch} (suspected : Suspected w path)
    (free : w.locks.inotify = false) (found : w.watches.inotifyPathToWatch.lookup path = some watch) :
    ∃ w', Removal w path watch w' := by
  obtain ⟨keys, member⟩ := suspected
  obtain ⟨index, at_index⟩ := List.mem_iff_getElem?.mp member
  have free' : w.locks.held .inotify = false := free
  have ran : runThread index w = .ok ((),
      { w with
        sys := (System.inotifyRmWatch w.sys watch.wd).2
        watches := w.watches.forget path watch.wd
        pool.threads := w.pool.threads.set index (.memcleanKeys keys) }) := by
    simp only [runThread, Program.read_bind_apply, at_index, threadStep, memcleanSection, bind_assoc,
      acquire_bind free', lookupPath_bind, found, inotifyRmWatch_bind, modifyWatches_bind, release_bind,
      Program.pure_bind_apply, Locks.unlock_set free']
    rfl
  exact ⟨_, ⟨index, keys, at_index, ran⟩, found, rfl, rfl⟩

namespace Stat

variable (stat : Stat σ)

/-- No directory is created at a path between the test of a memclean thread and its removal. -/
def Careful (w w' : World σ) : Prop :=
  ∀ path, Suspected w path → stat.isDir w'.sys path = true → stat.isDir w.sys path = true

def Rogue (w : World σ) : Prop := ∀ path, Suspected w path → stat.isDir w.sys path = false

variable {stat} {w w' : World σ}

theorem Careful.keeps {path : Str} (careful : stat.Careful w w') (rogue : stat.Rogue w) (suspected : Suspected w path) :
    stat.isDir w'.sys path = false := by
  by_contra came
  have before := careful path suspected (eq_true_of_ne_false came)
  rw [rogue path suspected] at before
  cases before

theorem Rogue.step (rogue : stat.Rogue w) (step : MoveOrDisk w w') (careful : stat.Careful w w') : stat.Rogue w' := by
  cases step with
  | disk s => exact fun path suspected => careful.keeps rogue suspected
  | move move =>
    rintro path ⟨keys, member⟩
    obtain ⟨index, thread, next, v, found, stepped, rfl⟩ | ⟨started, entered, threads⟩ := move.threads
    · rcases List.mem_or_eq_of_mem_set member with old | rfl
      · exact careful.keeps rogue ⟨keys, old⟩
      -- The thread has just tested the path.
      have cleans : thread.Cleans := by
        by_contra other
        exact threadStep_not_cleans other stepped trivial
      cases threadStep_memclean cleans stepped with
      | suspect absolute is =>
        have same := congrFun (stat.same w.sys path) path
        exact same.trans ((stat.answer w.sys path).symm.trans is)
    · rw [threads] at member
      rcases List.mem_append.mp member with old | new
      · exact careful.keeps rogue ⟨keys, old⟩
      · obtain fresh | ⟨root, is⟩ := entered _ new
        · exact fresh.elim
        · cases is

/-- In runs in which no directory is created at a path between the test and the removal, and no
entry is dropped or replaced whose key a thread still holds, the keys stay good and memclean never
removes the entry of a directory. Where an entry is left at a path that has been tested, a
directory that is created there loses it, whatever else the threads hold. -/
theorem memclean_spares_directories_when :
    (∀ {w v : World σ}, (∀ thread ∈ w.pool.threads, thread.snapshot = []) →
      Relation.ReflTransGen (fun u u' => MoveOrDisk u u' ∧ stat.Careful u u' ∧ KeysKept u u') w v →
        (∀ thread ∈ v.pool.threads, thread.Holds v.watches) ∧
        ∀ path watch v', Removal v path watch v' → stat.isDir v.sys path = false) ∧
    ∀ (v : World σ) (path : Str) (watch : Watch) (s : σ), Suspected v path → v.locks.inotify = false →
      v.watches.inotifyPathToWatch.lookup path = some watch → stat.isDir s path = true →
        (MoveOrDisk v { v with sys := s } ∧ KeysKept v { v with sys := s }) ∧
          ∃ v', Removal { v with sys := s } path watch v' := by
  constructor
  · intro w v start run
    have kept : (∀ thread ∈ v.pool.threads, thread.Holds v.watches) ∧ stat.Rogue v := by
      induction run with
      | refl =>
        refine ⟨fun thread member => .of_nothing (start thread member), ?_⟩
        rintro path ⟨keys, member⟩
        cases start _ member
      | tail _ next ih => exact ⟨next.1.holds next.2.2 ih.1, ih.2.step next.1 next.2.1⟩
    refine ⟨kept.1, fun path watch v' removal => ?_⟩
    obtain ⟨index, keys, found, _⟩ := removal.thread
    exact kept.2 path ⟨keys, List.mem_of_getElem? found⟩
  · intro v path watch s suspected free found _
    exact ⟨⟨.disk s, .of_same rfl⟩, removal_of_suspected suspected free found⟩

end Stat

/-! ## On a computed kernel -/

namespace Simulated

theorem statIsDir_fst (s : Simulated) (path : Str) :
    (System.statIsDir s path).1 = (s.outside.directory path).isSome := rfl

theorem statIsDir_snd (s : Simulated) (path : Str) :
    (fun other => ((System.statIsDir s path).2.outside.directory other).isSome) =
      fun other => (s.outside.directory other).isSome := rfl

def stat : Stat Simulated where
  isDir s path := (s.outside.directory path).isSome
  answer := statIsDir_fst
  same := statIsDir_snd

end Simulated

/-- The root "/r" is watched, whose directory is gone, and memclean is at work. -/
def World.cleaning (thread : Thread) : World Simulated :=
  { World.watching (Simulated.nested.change (str "/r") none) (str "/r") with pool.threads := [thread] }

theorem memclean_removes_rogue :
    ∃ v', Removal (World.cleaning (.memcleanPath (str "/r") [])) (str "/r") ⟨0, 1, str "/r"⟩ v' ∧
      Simulated.stat.isDir (World.cleaning (.memcleanPath (str "/r") [])).sys (str "/r") = false := by
  have careful {thread : Thread} {w : World Simulated} (none : thread.snapshot = [] ∨ thread = .memcleanKeys [str "/r"]) :
      Simulated.stat.Careful (World.cleaning thread) w := by
    rintro path ⟨keys, member⟩
    cases List.mem_singleton.mp member
    rcases none with is | is <;> cases is
  have listed : runThread 0 (World.cleaning .memcleanSnapshot) = .ok ((), World.cleaning (.memcleanKeys [str "/r"])) := rfl
  have tested : runThread 0 (World.cleaning (.memcleanKeys [str "/r"])) =
      .ok ((), World.cleaning (.memcleanPath (str "/r") [])) := rfl
  obtain ⟨v', removal⟩ : ∃ v', Removal (World.cleaning (.memcleanPath (str "/r") [])) (str "/r") ⟨0, 1, str "/r"⟩ v' :=
    removal_of_suspected ⟨[], List.mem_singleton.mpr rfl⟩ rfl rfl
  have start : ∀ thread ∈ (World.cleaning .memcleanSnapshot).pool.threads, thread.snapshot = [] := by
    intro thread member
    rw [List.mem_singleton.mp member]
    rfl
  have spared := (Simulated.stat.memclean_spares_directories_when).1 start
    ((Relation.ReflTransGen.single ⟨.move (.thread listed), careful (.inl rfl), .of_same rfl⟩).tail
      ⟨.move (.thread tested), careful (.inr rfl), .of_same rfl⟩)
  exact ⟨v', removal, spared.2 _ _ _ removal⟩

def changeDisk (path : Str) (inode : Option Nat) : M Simulated Unit :=
  Program.update fun w => { w with sys := w.sys.change path inode }

/-- "/r" and the directory "/r/a" in it are watched, and then "/r/a" is removed. -/
def abandoned : M Simulated Unit := do
  let _ ← inotifyWatchTree (str "/r") inotifyDefaultMask 8 false
  Program.forEach runThread [0, 0, 0, 0, 0, 0, 0, 0, 0]
  changeDisk (str "/r/a") none

theorem abandoned_moves (w : World Simulated) : Keeps (Relation.ReflTransGen MoveOrDisk w) abandoned := by
  have moves {v v' : World Simulated} (reached : Relation.ReflTransGen MoveOrDisk w v) (step : DaemonStep v v') :
      Relation.ReflTransGen MoveOrDisk w v' :=
    reached.trans (Relation.ReflTransGen.mono (fun _ _ => MoveOrDisk.move) _ _ step.moves)
  apply Keeps.bind fun v reached _ _ ran => moves reached (.watch ran)
  intro _
  apply Keeps.bind (Keeps.forEach fun index _ v reached _ _ ran => moves reached (.thread ran))
  intro _
  exact Keeps.update' fun v reached => reached.tail (.disk _)

def World.startMemclean (w : World Simulated) : World Simulated :=
  { w with pool.threads := w.pool.threads ++ [.memclean] }

/-- The daemon has just been started. Memclean finds that "/r/a" is gone, another directory is
created there, of which no record has been handled yet, and its entry is removed. -/
theorem memclean_removes_live_watch :
    ∃ (w v v' : World Simulated) (watch : Watch),
      Relation.ReflTransGen MoveOrDisk (World.initial Simulated.nested) w ∧
      (∀ thread ∈ w.pool.threads, thread.snapshot = []) ∧
      Relation.ReflTransGen (fun u u' => MoveOrDisk u u' ∧ KeysKept u u') w v ∧
      Simulated.stat.isDir v.sys (str "/r/a") = true ∧ Removal v (str "/r/a") watch v' := by
  have facts : (abandoned (World.initial Simulated.nested)).toOption.bind (fun start =>
      (runThread 1 start.2.startMemclean).toOption.bind fun one =>
        (runThread 1 one.2).toOption.bind fun two => (runThread 1 two.2).toOption.map fun three =>
          decide (start.2.pool.threads = [.finished] ∧ one.2.pool.threads[1]? = some .memcleanSnapshot ∧
            two.2.pool.threads[1]? = some (.memcleanKeys [str "/r/a", str "/r"]) ∧
            three.2.pool.threads[1]? = some (.memcleanPath (str "/r/a") [str "/r"]) ∧ three.2.locks.inotify = false ∧
            three.2.watches.inotifyPathToWatch.lookup (str "/r/a") = some ⟨1, 2, str "/r/a"⟩)) = some true := by
    decide +kernel
  obtain ⟨⟨_, w⟩, starting, facts⟩ := Option.bind_eq_some_iff.mp facts
  obtain ⟨⟨_, one⟩, entering, facts⟩ := Option.bind_eq_some_iff.mp facts
  obtain ⟨⟨_, two⟩, listing, facts⟩ := Option.bind_eq_some_iff.mp facts
  obtain ⟨⟨_, three⟩, testing, facts⟩ := Option.map_eq_some_iff.mp facts
  obtain ⟨idle, entered, listed, tested, free, found⟩ := of_decide_eq_true facts
  have reached := abandoned_moves (World.initial Simulated.nested) _ .refl _ _ (Program.ok_of_toOption starting)
  have idle : w.pool.threads = [.finished] := idle
  have started : w.startMemclean.pool.threads[1]? = some .memclean := by
    rw [World.startMemclean, idle]
    rfl
  -- Up to the test a memclean thread leaves the tables alone.
  have turn {u u' : World Simulated} {thread : Thread} (at_ : u.pool.threads[1]? = some thread) (cleans : thread.Cleans)
      (keeps : ¬thread.Drops) (ran : runThread 1 u = .ok ((), u')) : MoveOrDisk u u' ∧ KeysKept u u' :=
    ⟨.move (.thread ran), .of_same ((removal_of_memclean at_ cleans ran).resolve_right fun removes => keeps removes.1)⟩
  have spawned : Relation.ReflTransGen (fun u u' => MoveOrDisk u u' ∧ KeysKept u u') w w.startMemclean :=
    .single ⟨.move (.spawn .memclean trivial), .of_same rfl⟩
  have tests := ((spawned.tail (turn started trivial id (Program.ok_of_toOption entering))).tail
    (turn entered trivial id (Program.ok_of_toOption listing))).tail
      (turn listed trivial id (Program.ok_of_toOption testing))
  have created : MoveOrDisk three { three with sys := three.sys.change (str "/r/a") (some 3) } ∧
      KeysKept three { three with sys := three.sys.change (str "/r/a") (some 3) } := ⟨.disk _, .of_same rfl⟩
  obtain ⟨v', removal⟩ := removal_of_suspected (w := { three with sys := three.sys.change (str "/r/a") (some 3) })
    ⟨_, List.mem_of_getElem? tested⟩ free found
  refine ⟨w, _, v', _, reached, ?_, tests.tail created, ?_, removal⟩
  · intro thread member
    rw [idle] at member
    rw [List.mem_singleton.mp member]
    rfl
  · simp [Simulated.stat, Simulated.change]

end Inotispy
