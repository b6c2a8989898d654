import Inotispy.Model.Trees
import Inotispy.Threads.Effects

/-! Threads that run to their end with nothing in between, and a main thread whose
schedule is empty. -/

set_option autoImplicit false

namespace Inotispy
open Library

variable {σ : Type} [System σ]

inductive RunsAlone : Thread → World σ → World σ → Prop where
  | finished (w : World σ) : RunsAlone .finished w w
  | step {thread next : Thread} {w v w' : World σ} (going : thread ≠ .finished)
      (ran : threadStep thread w = .ok (next, v)) (rest : RunsAlone next v w') : RunsAlone thread w w'

theorem RunsAlone.invariant {inv : Thread → World σ → Prop}
    (keeps : ∀ thread next w v, inv thread w → threadStep thread w = .ok (next, v) → inv next v)
    {thread : Thread} {w w' : World σ} (run : RunsAlone thread w w') (start : inv thread w) :
    inv .finished w' := by
  induction run with
  | finished w => exact start
  | step _ ran _ ih => exact ih (keeps _ _ _ _ start ran)

theorem RunsAlone.step_iff {thread next : Thread} {w v w' : World σ} (going : thread ≠ .finished)
    (ran : threadStep thread w = .ok (next, v)) : RunsAlone thread w w' ↔ RunsAlone next v w' := by
  constructor
  · intro run
    cases run with
    | finished => exact absurd rfl going
    | step _ ran' rest =>
      obtain ⟨rfl, rfl⟩ := Program.ok_unique ran ran'
      exact rest
  · intro rest
    exact .step going ran rest

theorem RunsAlone.finished_iff {w w' : World σ} : RunsAlone .finished w w' ↔ w' = w := by
  constructor
  · intro run
    cases run with
    | finished => rfl
    | step going => exact absurd rfl going
  · rintro rfl
    exact .finished _

theorem runThread_finished {index : Nat} {w : World σ} (finished : w.pool.threads[index]? = some .finished) :
    runThread index w = .ok ((), w) := by
  obtain ⟨inside, is⟩ := List.getElem?_eq_some_iff.mp finished
  have same : w.pool.threads.set index .finished = w.pool.threads := is ▸ List.set_getElem_self inside
  simp only [runThread, Program.read_bind_apply, finished, threadStep, Program.pure_bind_apply, modifyPool,
    Program.update_apply, same]

theorem turns_idle {w : World σ} (idle : ∀ thread ∈ w.pool.threads, thread = .finished) (turn : List Nat) :
    Program.forEach runThread turn w = .ok ((), w) := by
  induction turn with
  | nil => rfl
  | cons index turn ih =>
    refine (Program.bind_ok _ _ _ _ () ?_).trans ih
    cases found : w.pool.threads[index]? with
    | none =>
      simp only [runThread, Program.read_bind_apply, found]
      rfl
    | some thread =>
      obtain rfl := idle thread (List.mem_of_getElem? found)
      exact runThread_finished found

theorem yieldMain_idle {w : World σ} (idle : ∀ thread ∈ w.pool.threads, thread = .finished) :
    ∃ later, yieldMain w = .ok ((), { w with pool.schedule := later }) := by
  simp only [yieldMain, Program.read_bind_apply]
  cases schedule : w.pool.schedule with
  | nil =>
    refine ⟨[], ?_⟩
    conv_rhs => rw [← schedule]
    rfl
  | cons turn later =>
    refine ⟨later, ?_⟩
    have idle' : ∀ thread ∈ ({ w with pool.schedule := later } : World σ).pool.threads, thread = .finished := idle
    exact turns_idle idle' turn

/-! ## A main thread that is never interrupted -/

section
variable {A : Type} {w : World σ} (alone : w.pool.schedule = [])
include alone

theorem yieldMain_alone : yieldMain w = .ok ((), w) := by
  simp only [yieldMain, Program.read_bind_apply, alone]
  rfl

theorem yieldMain_bind (f : Unit → M σ A) : (yieldMain >>= f) w = f () w :=
  Program.bind_ok _ _ _ _ _ (yieldMain_alone alone)

theorem lock_bind_eq_ok {mutex : Mutex} {f : Unit → M σ A} {r : A × World σ} :
    (lock mutex >>= f) w = .ok r ↔
      w.locks.held mutex = false ∧ f () { w with locks := w.locks.set mutex true } = .ok r := by
  rw [← acquire_bind_eq_ok w]
  simp only [lock, bind_assoc]
  rw [yieldMain_bind alone]

theorem lock_bind {mutex : Mutex} (free : w.locks.held mutex = false) (f : Unit → M σ A) :
    (lock mutex >>= f) w = f () { w with locks := w.locks.set mutex true } := by
  simp only [lock, bind_assoc]
  rw [yieldMain_bind alone, acquire_bind free]

theorem unlock_bind (mutex : Mutex) (f : Unit → M σ A) :
    (unlock mutex >>= f) w = f () { w with locks := w.locks.unlock mutex } := by
  simp only [unlock, bind_assoc, release_bind]
  have alone' : ({ w with locks := w.locks.unlock mutex } : World σ).pool.schedule = [] := alone
  exact yieldMain_bind alone' f

end

theorem of_unlock_bind {A : Type} {w : World σ} {mutex : Mutex} {f : Unit → M σ A} {r : A × World σ}
    (ran : (unlock mutex >>= f) w = .ok r) (alone : w.pool.schedule = []) :
    f () { w with locks := w.locks.unlock mutex } = .ok r := by
  rwa [unlock_bind alone] at ran

theorem of_unlock {w w' : World σ} {mutex : Mutex} {a : Unit}
    (ran : unlock mutex w = .ok (a, w')) (alone : w.pool.schedule = []) :
    w' = { w with locks := w.locks.unlock mutex } := by
  have ran' : (unlock mutex >>= pure) w = .ok (a, w') := by rwa [bind_pure]
  exact (Program.pure_eq_ok.mp (of_unlock_bind ran' alone)).2

theorem of_unlock_pure {A : Type} {w w' : World σ} {mutex : Mutex} {a b : A}
    (ran : (unlock mutex >>= fun _ => pure a) w = .ok (b, w')) (alone : w.pool.schedule = []) :
    b = a ∧ w' = { w with locks := w.locks.unlock mutex } :=
  Program.pure_eq_ok.mp (of_unlock_bind (f := fun _ => pure a) ran alone)

theorem spawn_bind {A : Type} (thread : Thread) (f : Bool → M σ A) (w : World σ) :
    (spawn thread >>= f) w =
      if (System.pthreadCreate w.sys).1 then
        f true { w with
          sys := (System.pthreadCreate w.sys).2
          pool.threads := w.pool.threads ++ [thread] }
      else f false { w with sys := (System.pthreadCreate w.sys).2 } := by
  simp only [spawn, bind_assoc, pthreadCreate_bind, Program.ite_bind_apply, modifyPool_bind,
    Program.pure_bind_apply]
  cases (System.pthreadCreate w.sys).1 <;> rfl

end Inotispy
