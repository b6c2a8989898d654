import Inotispy.Requests.Release
import Inotispy.Threads.Snapshots

/-! Threads that do not get into each other's way.

A destroy thread and memclean use keys and watches that any other thread can free, and a walker
reads a root that its destroy thread frees. With one thread at a time that takes entries out, and
walkers that only file what is missing and work for roots that stay, nothing is freed that is
still used.
-/

set_option autoImplicit false

namespace Inotispy
open Library

def Thread.walks : Thread → Option TData
  | .watchTree data => some data
  | .watchTreeRec data _ => some data
  | _ => none

variable {σ : Type}

structure Peaceful (w : World σ) : Prop where
  life : Lifecycle w.roots w.pool.threads
  held : ∀ thread ∈ w.pool.threads, thread.Holds w.watches
  once : ∀ thread ∈ w.pool.threads, thread.snapshot.Nodup
  single : ∀ (i j : Nat) (first second : Thread), w.pool.threads[i]? = some first → w.pool.threads[j]? = some second →
    first.Sifts → second.Sifts → i = j
  -- Such a walker leaves the entries alone that are there.
  cleanup : ∀ thread ∈ w.pool.threads, thread.Sifts → ∀ walker ∈ w.pool.threads, ∀ data, walker.walks = some data →
    data.cleanup = true
  rooted : ∀ walker ∈ w.pool.threads, ∀ data, walker.walks = some data →
    ∃ key, Undisturbed key data.root w.roots w.pool.threads

section
variable [System σ] {w w' : World σ} {thread next : Thread}

theorem threadStep_walks (ran : threadStep thread w = .ok (next, w')) {data : TData} (is : next.walks = some data) :
    thread.walks = some data := by
  cases threadStep_cases ran with
  | enter | walk => exact is
  | memclean step => cases step <;> cases is
  | _ => cases is

/-- Whoever takes entries out after the step did so before it, at the same position. -/
theorem Thread.Sifts.before {index : Nat} (found : w.pool.threads[index]? = some thread)
    (ran : threadStep thread w = .ok (next, w')) {place : Nat} {other : Thread}
    (at_ : (w.pool.threads.set index next)[place]? = some other) (sifts : other.Sifts) :
    ∃ old, w.pool.threads[place]? = some old ∧ old.Sifts := by
  obtain ⟨rfl, rfl⟩ | ⟨_, at_⟩ := threads_set_eq_some found at_
  · exact ⟨thread, found, (threadStep_advances ran).sifts sifts⟩
  · exact ⟨other, at_, sifts⟩

namespace Peaceful

variable (peaceful : Peaceful w) {index : Nat} (found : w.pool.threads[index]? = some thread)
  (ran : threadStep thread w = .ok (next, w'))
include peaceful found ran

theorem keeps_lookup {place : Nat} {other : Thread} (at_ : (w.pool.threads.set index next)[place]? = some other)
    {path : Str} (inside : path ∈ other.snapshot) :
    w'.watches.inotifyPathToWatch.lookup path = w.watches.inotifyPathToWatch.lookup path := by
  have advances := threadStep_advances ran
  obtain ⟨old, before, sifts⟩ := (Thread.sifts_of_mem_snapshot inside).before found ran at_
  have known : ∃ watch, w.watches.inotifyPathToWatch.lookup path = some watch := by
    obtain ⟨_, rfl⟩ | ⟨_, at_⟩ := threads_set_eq_some found at_
    · exact ((peaceful.held thread (List.mem_of_getElem? found)).advance advances).keys path inside
    · exact (peaceful.held other (List.mem_of_getElem? at_)).keys path inside
  have member := List.mem_of_getElem? found
  have effect := (threadStep_effect ran).watches
  generalize w'.watches = watches at effect
  cases effect with
  | same skipped => rfl
  | file data target rest is files =>
    -- The walker has found nothing at the path it files.
    have walker : thread.walks = some data := by rw [is]; rfl
    have missing := files.orphan (peaceful.cleanup old (List.mem_of_getElem? before) sifts thread member data walker)
    obtain ⟨watch, known⟩ := known
    have differs : path ≠ target := by
      rintro rfl
      rw [missing] at known
      cases known
    simp only [WatchTable.file, GHashTable.lookup_insert_if, if_neg differs]
  | forget target watch how =>
    -- The thread that drops it is the one that holds on to keys.
    obtain rfl := peaceful.single place index old thread before found sifts how.sifts
    obtain ⟨_, rfl⟩ | ⟨apart, _⟩ := threads_set_eq_some found at_
    · have differs : path ≠ target := by
        rintro rfl
        rcases advances.drops path watch how with nothing | holds
        · rw [nothing] at inside
          cases inside
        · have once := peaceful.once thread member
          rw [holds] at once
          exact (List.nodup_cons.mp once).1 inside
      simp only [WatchTable.forget, GHashTable.lookup_erase_if, if_neg differs]
    · exact absurd rfl apart

theorem kept (after : World σ) (threads : after.pool.threads = w.pool.threads.set index next)
    (watches : after.watches = w'.watches) : KeysKept w after := by
  intro other member path inside
  rw [threads] at member
  obtain ⟨place, at_⟩ := List.getElem?_of_mem member
  rw [watches]
  exact peaceful.keeps_lookup found ran at_ inside

theorem step (after : World σ) (threads : after.pool.threads = w.pool.threads.set index next)
    (watches : after.watches = w'.watches) (roots : after.roots = w'.roots) : Peaceful after := by
  have advances := threadStep_advances ran
  have effect := (threadStep_life ran).1
  have member := List.mem_of_getElem? found
  have kept := peaceful.kept found ran after threads watches
  have walker {other : Thread} (inside : other ∈ w.pool.threads.set index next) {data : TData}
      (is : other.walks = some data) : ∃ old ∈ w.pool.threads, old.walks = some data := by
    rcases List.mem_or_eq_of_mem_set inside with old | rfl
    · exact ⟨other, old, is⟩
    · exact ⟨thread, member, threadStep_walks ran is⟩
  constructor
  · rw [threads, roots]
    exact peaceful.life.step found effect
  · intro other inside
    refine kept.holds inside ?_
    rw [threads] at inside
    rcases List.mem_or_eq_of_mem_set inside with old | rfl
    · exact peaceful.held other old
    · exact (peaceful.held thread member).advance advances
  · intro other inside
    rw [threads] at inside
    rcases List.mem_or_eq_of_mem_set inside with old | rfl
    · exact peaceful.once other old
    · rcases advances.snapshot with suffix | all
      · exact suffix.sublist.nodup (peaceful.once thread member)
      · rw [all]
        exact AList.keys_nodup w.watches.inotifyPathToWatch
  · intro i j first second one two sifts sifts'
    rw [threads] at one two
    obtain ⟨old, before, sifts⟩ := sifts.before found ran one
    obtain ⟨old', before', sifts'⟩ := sifts'.before found ran two
    exact peaceful.single i j old old' before before' sifts sifts'
  · intro other inside sifts walking inside' data is
    rw [threads] at inside inside'
    obtain ⟨place, at_⟩ := List.getElem?_of_mem inside
    obtain ⟨old, before, sifts⟩ := sifts.before found ran at_
    obtain ⟨old', before', is⟩ := walker inside' is
    exact peaceful.cleanup old (List.mem_of_getElem? before) sifts old' before' data is
  · intro walking inside data is
    rw [threads] at inside
    obtain ⟨old, before, is⟩ := walker inside is
    obtain ⟨key, undisturbed⟩ := peaceful.rooted old before data is
    rw [threads, roots]
    exact ⟨key, undisturbed.step peaceful.life found effect⟩

end Peaceful

/-- A turn leaves alone what the threads still use, and so will the next. -/
theorem Peaceful.turn (peaceful : Peaceful w) {index : Nat} (ran : runThread index w = .ok ((), w')) :
    Peaceful w' ∧ KeysKept w w' := by
  obtain ⟨_, rfl⟩ | ⟨thread, next, v, found, stepped, is⟩ := runThread_eq_ok ran
  · exact ⟨peaceful, .of_same rfl⟩
  have threads : w'.pool.threads = w.pool.threads.set index next := by rw [is, ← (threadStep_effect stepped).threads]
  exact ⟨peaceful.step found stepped w' threads (by rw [is]) (by rw [is]),
    peaceful.kept found stepped w' threads (by rw [is])⟩

end
end Inotispy
