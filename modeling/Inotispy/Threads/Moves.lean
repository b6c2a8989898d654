import Inotispy.Events.Interleaving

/-! The daemon in single moves.

A step of the main thread pauses wherever it holds no mutex, and other threads run there.
Cut at these places, every step is a sequence of moves, each of one thread.
-/

set_option autoImplicit false

namespace Inotispy
open Library

variable {σ : Type} [System σ]

/-- What one thread does before another may run: a step of a thread of the pool, or a piece of
the main thread. -/
inductive Move (w : World σ) : World σ → Prop where
  | thread {index : Nat} {w' : World σ} (ran : runThread index w = .ok ((), w')) : Move w w'
  /-- The outside is asked, or something changes that the threads do not share. -/
  | rest {w' : World σ} (rests : Rests w w') : Move w w'
  | spawn (thread : Thread) (fresh : thread.Fresh) : Move w { w with pool.threads := w.pool.threads ++ [thread] }
  | destroy (root : RootRef) : Move w { w with pool.threads := w.pool.threads ++ [.destroyRoot root] }
  /-- Entries with one descriptor are taken out, and the kernel's watch is removed. -/
  | remove (wd : Int) (watches : WatchTable) (thins : Thins w.watches watches)
      (others : ∀ other, other ≠ wd → watches.inotifyWdToWatch.lookup other = w.watches.inotifyWdToWatch.lookup other) :
      Move w { w with sys := (System.inotifyRmWatch w.sys wd).2, watches := watches }
  | erase (path : Str) :
      Move w { w with watches := { w.watches with inotifyPathToWatch := w.watches.inotifyPathToWatch.erase path } }
  | settle (roots : RootTable) (settles : Settles w.roots roots) : Move w { w with roots := roots }
  | use (root : RootRef) :
      Move w { w with output.releasedQueueUsed := w.output.releasedQueueUsed || (w.roots.heap root).queue.isNone }
  | register (path : Str) (made : Root) (is : Made path made) : Move w { w with roots := w.roots.register path made }

abbrev Moves : World σ → World σ → Prop := Relation.ReflTransGen Move

theorem durable_moves (w : World σ) : Durable (Moves w) where
  -- Each clause asks for what one kind of move gives.
  quiet rests moved := moved.tail (.rest rests)
  spawned thread fresh moved := moved.tail (.spawn thread fresh)
  run _ := fun _ moved _ _ ran => moved.tail (.thread ran)
  removes _ wd watches thins others moved := moved.tail (.remove wd watches thins others)
  erases _ path moved := moved.tail (.erase path)
  settles _ roots settles moved := moved.tail (.settle roots settles)
  uses root _ moved := moved.tail (.use root)
  joins _ root moved := moved.tail (.destroy root)
  registers _ path made moved is _ := moved.tail (.register path made is)

/-- A step of the daemon is a sequence of moves, whatever runs in the middle of it. -/
theorem DaemonStep.moves {w w' : World σ} (step : DaemonStep w w') : Moves w w' :=
  step.keeps (durable_moves w) .refl

def Thread.Entered (thread : Thread) : Prop := thread.Fresh ∨ ∃ root, thread = .destroyRoot root

theorem Move.threads {w w' : World σ} (move : Move w w') :
    (∃ index thread next v, w.pool.threads[index]? = some thread ∧ threadStep thread w = .ok (next, v) ∧
      w' = { v with pool.threads := w.pool.threads.set index next }) ∨
    ∃ started, (∀ thread ∈ started, thread.Entered) ∧ w'.pool.threads = w.pool.threads ++ started := by
  have still {v : World σ} (same : v.pool.threads = w.pool.threads) :
      ∃ started : List Thread, (∀ thread ∈ started, thread.Entered) ∧ v.pool.threads = w.pool.threads ++ started :=
    ⟨[], nofun, same.trans (List.append_nil _).symm⟩
  cases move with
  | thread ran =>
    obtain ⟨_, rfl⟩ | ⟨thread, next, v, found, stepped, rfl⟩ := runThread_eq_ok ran
    · exact .inr (still rfl)
    · have same := (threadStep_effect stepped).threads
      exact .inl ⟨_, thread, next, v, found, stepped, by rw [same]⟩
  | rest rests => exact .inr (still rests.threads)
  | spawn thread fresh =>
    refine .inr ⟨[thread], fun other member => ?_, rfl⟩
    rw [List.mem_singleton.mp member]
    exact .inl fresh
  | destroy root =>
    refine .inr ⟨[.destroyRoot root], fun other member => ?_, rfl⟩
    rw [List.mem_singleton.mp member]
    exact .inr ⟨root, rfl⟩
  | remove wd watches thins others => exact .inr (still rfl)
  | erase path => exact .inr (still rfl)
  | settle roots settles => exact .inr (still rfl)
  | use root => exact .inr (still rfl)
  | register path made is => exact .inr (still rfl)

theorem threadStep_not_cleans {thread next : Thread} {w w' : World σ} (other : ¬thread.Cleans)
    (ran : threadStep thread w = .ok (next, w')) : ¬next.Cleans := by
  -- A thread stays in the function that it was started in.
  cases threadStep_cases ran with
  | memclean step => exact absurd step.cleans other
  | _ => exact id

end Inotispy
