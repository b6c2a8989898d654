import Inotispy.Model.Script
import Inotispy.Roots.Lifecycle

/-! Queues that have been freed.

A root stays registered, and can be asked for, until its destroy thread is done, but the
first thing that thread does is to free the queue. The events of a record and a request
for the queue's size go to live roots only; get_events and pause take any root.
-/

set_option autoImplicit false

namespace Inotispy
open Library

variable {σ : Type}

/-- No thread is destroying the root registered at `path`, if there is one. -/
def Clear (path : Str) (roots : RootTable) (threads : List Thread) : Prop :=
  ∀ root, roots.inotifyRoots.lookup path = some root → ∀ thread ∈ threads, thread.destroys ≠ some root

def Request.Takes (req : Request) : Prop := req.call = some (str "get_events") ∨ req.call = some (str "pause")

/-- Events are not taken from a root that is being destroyed. -/
def Orderly (action : Action) (w : World σ) : Prop :=
  ∀ req path, action = .request req → req.Takes → requestGetPath req = some path →
    Clear path w.roots w.pool.threads

section
variable [System σ]

theorem living_clear (path : Str) :
    Living fun w : World σ => Lifecycle w.roots w.pool.threads ∧ Clear path w.roots w.pool.threads := by
  apply Living.of_roots (Clear path)
  · intro roots threads thread plain clear root at_ other member
    rcases List.mem_append.mp member with old | new
    · exact clear root at_ other old
    · rw [List.mem_singleton.mp new, plain]
      exact nofun
  · intro roots after threads index thread next found effect life clear root at_ other member mine
    have before : roots.inotifyRoots.lookup path = some root := by
      cases effect with
      | stays => exact at_
      | frees => exact at_
      | removes _ gone => exact (Shrinks.remove roots gone).kept path root at_
    obtain ⟨old, inside, same⟩ := effect.mem_destroyer found member mine
    exact clear root before old inside same
  · intro roots threads key made life new clear root at_ thread member mine
    simp only [RootTable.register, GHashTable.lookup_insert_if] at at_
    split at at_
    -- The new root has a cell that no thread knows.
    · obtain ⟨key, registered⟩ := life.registered thread member root mine
      exact Nat.ne_of_lt (life.made key root registered) (Option.some.inj at_).symm
    · exact clear root at_ thread member mine
  · exact fun _ _ _ _ _ => id

/-- The root registered at `path`, which no thread is destroying. -/
structure Undisturbed (path : Str) (root : RootRef) (roots : RootTable) (threads : List Thread) : Prop where
  registered : roots.inotifyRoots.lookup path = some root
  unserved : ∀ thread ∈ threads, thread.destroys ≠ some root

omit [System σ] in
theorem Undisturbed.clear {path : Str} {root : RootRef} {roots : RootTable} {threads : List Thread}
    (undisturbed : Undisturbed path root roots threads) : Clear path roots threads := by
  intro other at_
  rw [undisturbed.registered] at at_
  cases at_
  exact undisturbed.unserved

omit [System σ] in
theorem Undisturbed.queue_ne_none {path : Str} {root : RootRef} {roots : RootTable} {threads : List Thread}
    (undisturbed : Undisturbed path root roots threads) (life : Lifecycle roots threads) :
    (roots.heap root).queue ≠ none := by
  intro freed
  obtain ⟨thread, member, mine⟩ := life.freed path root undisturbed.registered freed
  exact undisturbed.unserved thread member mine

omit [System σ] in
theorem Undisturbed.step {path : Str} {root : RootRef} {roots after : RootTable} {threads : List Thread} {index : Nat}
    {thread next : Thread} (undisturbed : Undisturbed path root roots threads) (life : Lifecycle roots threads)
    (found : threads[index]? = some thread) (effect : LifeEffect thread next roots after) :
    Undisturbed path root after (threads.set index next) := by
  constructor
  · rcases effect.keeps_registered found life undisturbed.registered with stays | ⟨mine, _⟩
    · exact stays
    · exact absurd mine (undisturbed.unserved thread (List.mem_of_getElem? found))
  · intro other member mine
    obtain ⟨old, inside, same⟩ := effect.mem_destroyer found member mine
    exact undisturbed.unserved old inside same

theorem living_undisturbed (path : Str) (root : RootRef) :
    Living fun w : World σ => Lifecycle w.roots w.pool.threads ∧ Undisturbed path root w.roots w.pool.threads := by
  apply Living.of_roots (Undisturbed path root)
  · intro roots threads thread plain undisturbed
    refine ⟨undisturbed.registered, fun other member => ?_⟩
    rcases List.mem_append.mp member with old | new
    · exact undisturbed.unserved other old
    · rw [List.mem_singleton.mp new, plain]
      exact nofun
  · exact fun found effect life undisturbed => undisturbed.step life found effect
  · intro roots threads key made life new undisturbed
    refine ⟨?_, undisturbed.unserved⟩
    have differs : path ≠ key := by
      rintro rfl
      rw [undisturbed.registered] at new
      cases new
    rw [RootTable.register, AList.lookup_insert_ne differs]
    exact undisturbed.registered
  · exact fun _ _ _ _ _ undisturbed => ⟨undisturbed.registered, undisturbed.unserved⟩

theorem ServerStep.undisturbed {req : Request} {w w' : World σ} (step : ServerStep (.request req) w w')
    (other : req.call ≠ some (str "unwatch")) {path : Str} {root : RootRef} (life : Lifecycle w.roots w.pool.threads)
    (undisturbed : Undisturbed path root w.roots w.pool.threads) :
    Lifecycle w'.roots w'.pool.threads ∧ Undisturbed path root w'.roots w'.pool.threads := by
  have living := living_undisturbed (σ := σ) path root
  refine step.keeps ⟨life, undisturbed⟩ living.toSteadyMute ?_ living.watches living.records
  rintro _ ⟨⟩
  exact living.serves (fun unwatch => absurd unwatch other) fun _ path count _ => living.gets (fun _ _ => id) path count

theorem inotifyGetEvents_unused (path : Str) (count : Int32) :
    Keeps (fun w : World σ => (Lifecycle w.roots w.pool.threads ∧ Clear path w.roots w.pool.threads) ∧
      w.output.releasedQueueUsed = false) (inotifyGetEvents path count) := by
  intro w holds taken w' ran
  simp only [inotifyGetEvents, inotifyIsRoot, Program.read_bind_apply] at ran
  cases found : w.roots.inotifyRoots.lookup path with
  | none =>
    rw [found] at ran
    obtain ⟨_, rfl⟩ := Program.pure_eq_ok.mp ran
    exact holds
  | some root =>
    rw [found] at ran
    have living := (living_undisturbed (σ := σ) path root).unused
    have uses : Uses (fun w : World σ => (Lifecycle w.roots w.pool.threads ∧
        Undisturbed path root w.roots w.pool.threads) ∧ w.output.releasedQueueUsed = false) root := by
      rintro w ⟨⟨life, undisturbed⟩, unused⟩
      refine ⟨⟨life, undisturbed⟩, ?_⟩
      have there := undisturbed.queue_ne_none life
      simp only [unused, Bool.false_or, Option.isNone_eq_false_iff]
      exact Option.isSome_iff_ne_none.mpr there
    have after := inotifyDequeue_keeps living.toSteady uses (fun w _ holds => living.queues w root _ holds) count
      w ⟨⟨holds.1.1, found, holds.1.2 root found⟩, holds.2⟩ taken w' ran
    exact ⟨⟨after.1.1, after.1.2.clear⟩, after.2⟩

/-- One step of the daemon, in order. -/
theorem ServerStep.unused {action : Action} {w w' : World σ} (step : ServerStep action w w')
    (orderly : Orderly action w) (life : Lifecycle w.roots w.pool.threads)
    (unused : w.output.releasedQueueUsed = false) :
    Lifecycle w'.roots w'.pool.threads ∧ w'.output.releasedQueueUsed = false := by
  by_cases takes : ∃ req path, action = .request req ∧ req.Takes ∧ requestGetPath req = some path
  -- Only this request is dealt with, so the root it is for stays undisturbed.
  · obtain ⟨req, path, rfl, takes, asked⟩ := takes
    have living := (living_clear (σ := σ) path).unused
    have clear := orderly req path rfl takes asked
    have after := step.keeps ⟨⟨life, clear⟩, unused⟩ living.toSteadyMute ?_ living.watches living.records
    · exact ⟨after.1.1, after.2⟩
    rintro _ ⟨⟩
    apply living.serves
    · intro unwatch
      rcases takes with called | called <;> rw [called] at unwatch <;> exact absurd unwatch (by decide)
    · intro _ other count asked'
      rw [asked] at asked'
      cases asked'
      exact inotifyGetEvents_unused path count
  · have living := (living_life (σ := σ)).unused
    have after := step.keeps ⟨⟨life, trivial⟩, unused⟩ living.toSteadyMute ?_ living.watches living.records
    · exact ⟨after.1.1, after.2⟩
    rintro req rfl
    apply living.serves
    · intro _ path _
      apply living.unwatches
      · exact fun w root holds _ _ => ⟨⟨holds.1.1.mark root, trivial⟩, holds.2⟩
      · exact fun w root holds marked => ⟨⟨holds.1.1.join marked, trivial⟩, holds.2⟩
    · exact fun called path count asked => absurd ⟨req, path, rfl, called, asked⟩ takes

/-- In runs in which no events are taken from a root that is being destroyed, no step uses a
queue that has been freed. -/
theorem freed_queue_unused {sys : σ} {w : World σ}
    (run : Relation.ReflTransGen (fun v v' => ∃ action, Orderly action v ∧ ServerStep action v v')
      (World.initial sys) w) : w.output.releasedQueueUsed = false := by
  have kept : Lifecycle w.roots w.pool.threads ∧ w.output.releasedQueueUsed = false := by
    induction run with
    | refl => exact ⟨.initial sys, rfl⟩
    | tail _ step ih =>
      obtain ⟨action, orderly, step⟩ := step
      exact step.unused orderly ih.1 ih.2
  exact kept.2

end

theorem Orderly.of_idle {w : World σ} (idle : ∀ thread ∈ w.pool.threads, thread.destroys = none) (action : Action) :
    Orderly action w := by
  intro req path _ _ _ root _ thread member mine
  rw [idle thread member] at mine
  cases mine

theorem freed_queue_unused_in_order :
    ∃ w : World (Script true), w.pool.threads.length = 2 ∧ w.output.releasedQueueUsed = false := by
  have watched : Relation.ReflTransGen (fun v v' => ∃ action, Orderly action v ∧ ServerStep action v v')
      (World.initial (⟨[]⟩ : Script true)) _ :=
    .single ⟨.request (.about "watch" "/a"), .of_idle (by decide) _, trivial, rfl⟩
  have asked := watched.tail ⟨.request (.about "get_events" "/a"), .of_idle (by decide) _, trivial, rfl⟩
  have unwatched := asked.tail ⟨.request (.about "unwatch" "/a"), .of_idle (by decide) _, trivial, rfl⟩
  exact ⟨_, rfl, freed_queue_unused unwatched⟩

/-- "/a" is unwatched, its destroy thread frees the queue, and then its events are asked for. -/
theorem freed_queue_used : ∃ w : World (Script true), Served w ∧ w.output.releasedQueueUsed = true := by
  have ran : ((Program.forEach Action.perform [.request (.about "watch" "/a"), .request (.about "unwatch" "/a"),
      .thread 1, .request (.about "get_events" "/a")] (World.initial (⟨[]⟩ : Script true))).toOption.map
        fun r => r.2.output.releasedQueueUsed) = some true := by decide +kernel
  obtain ⟨⟨_, w⟩, is, used⟩ := Option.map_eq_some_iff.mp ran
  refine ⟨w, ⟨_, ServerStep.of_forEach ?_ (Program.ok_of_toOption is)⟩, used⟩
  simp [Action.Possible]

end Inotispy
