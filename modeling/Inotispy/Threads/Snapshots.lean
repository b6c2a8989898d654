import Inotispy.Threads.Moves

/-! What threads hold on to between their critical sections.

Memclean and the destroy threads go through a snapshot of the keys, whose strings are those of the
table itself, and a destroy thread uses a watch after it has looked it up. All these are freed when
an entry is dropped or replaced. Here they are values that stay as they are, so what is said about
such a thread holds of the code only as long as the entries it holds on to are left alone.
-/

set_option autoImplicit false

namespace Inotispy
open Library

/-- The keys of the snapshot that a thread will still use. -/
def Thread.snapshot : Thread → List Str
  | .destroyKeys _ _ keys => keys
  | .destroyWatch _ _ path _ keys => path :: keys
  | .destroyEntry _ _ path _ keys => path :: keys
  | .memcleanKeys keys => keys
  | .memcleanPath path keys => path :: keys
  | _ => []

def Thread.entry : Thread → Option (Str × Watch)
  | .destroyWatch _ _ path watch _ => some (path, watch)
  | .destroyEntry _ _ path watch _ => some (path, watch)
  | _ => none

/-- The thread goes through the keys, or is going to. -/
def Thread.Sifts : Thread → Prop
  | .watchTree _ | .watchTreeRec _ _ | .destroyDump | .finished => False
  | _ => True

structure Thread.Holds (thread : Thread) (watches : WatchTable) : Prop where
  keys : ∀ path ∈ thread.snapshot, ∃ watch, watches.inotifyPathToWatch.lookup path = some watch
  watch : ∀ path watch, thread.entry = some (path, watch) → watches.inotifyPathToWatch.lookup path = some watch

theorem Thread.mem_snapshot_of_entry {thread : Thread} {path : Str} {watch : Watch}
    (is : thread.entry = some (path, watch)) : path ∈ thread.snapshot := by
  cases thread with
  | destroyWatch root tmp other found keys =>
    cases is
    exact List.mem_cons_self
  | destroyEntry root tmp other found keys =>
    cases is
    exact List.mem_cons_self
  | _ => cases is

theorem Thread.sifts_of_mem_snapshot {thread : Thread} {path : Str} (member : path ∈ thread.snapshot) : thread.Sifts := by
  cases thread with
  | watchTree data => cases member
  | watchTreeRec data stack => cases member
  | destroyDump => cases member
  | finished => cases member
  | _ => trivial

theorem Thread.Holds.of_nothing {thread : Thread} {watches : WatchTable} (nothing : thread.snapshot = []) :
    thread.Holds watches where
  keys path inside := by
    rw [nothing] at inside
    cases inside
  watch path watch is := by
    have inside := Thread.mem_snapshot_of_entry is
    rw [nothing] at inside
    cases inside

theorem Thread.Entered.snapshot {thread : Thread} (entered : thread.Entered) : thread.snapshot = [] := by
  rcases entered with fresh | ⟨root, rfl⟩
  · cases thread with
    | watchTree data => rfl
    | memclean => rfl
    | _ => exact fresh.elim
  · rfl

variable {σ : Type}

/-- The entries that threads still hold on to are as they were. -/
def KeysKept (w w' : World σ) : Prop :=
  ∀ thread ∈ w'.pool.threads, ∀ path ∈ thread.snapshot,
    w'.watches.inotifyPathToWatch.lookup path = w.watches.inotifyPathToWatch.lookup path

theorem KeysKept.of_same {w w' : World σ} (same : w'.watches = w.watches) : KeysKept w w' :=
  fun _ _ _ _ => by rw [same]

theorem KeysKept.holds {w w' : World σ} (kept : KeysKept w w') {thread : Thread} (member : thread ∈ w'.pool.threads)
    (holds : thread.Holds w.watches) : thread.Holds w'.watches where
  keys path inside := by
    rw [kept thread member path inside]
    exact holds.keys path inside
  watch path watch is := by
    rw [kept thread member path (Thread.mem_snapshot_of_entry is)]
    exact holds.watch path watch is

/-- How a step of a thread changes what it holds on to. -/
structure Advances (w : World σ) (thread next : Thread) : Prop where
  snapshot : next.snapshot <:+ thread.snapshot ∨ next.snapshot = w.watches.inotifyPathToWatch.keys
  entry : ∀ path watch, next.entry = some (path, watch) →
    thread.entry = some (path, watch) ∨ w.watches.inotifyPathToWatch.lookup path = some watch
  sifts : next.Sifts → thread.Sifts
  -- The entry that is dropped is not needed any more.
  drops : ∀ path watch, Forgets thread w path watch → next.snapshot = [] ∨ thread.snapshot = path :: next.snapshot

variable {w w' : World σ} {thread next : Thread}

theorem Forgets.sifts {path : Str} {watch : Watch} (how : Forgets thread w path watch) : thread.Sifts := by
  rcases how with ⟨_, _, _, rfl⟩ | ⟨_, _, rfl, _, _⟩ | ⟨_, rfl, _⟩ <;> exact trivial

/-- The threads that drop an entry in their next step. -/
def Thread.Drops : Thread → Prop
  | .destroyEntry _ _ _ _ _ | .destroyKeys _ _ [] | .memcleanPath _ _ => True
  | _ => False

theorem Forgets.drops {path : Str} {watch : Watch} (how : Forgets thread w path watch) : thread.Drops := by
  rcases how with ⟨_, _, _, rfl⟩ | ⟨_, _, rfl, _, _⟩ | ⟨_, rfl, _⟩ <;> exact trivial

theorem Advances.idle (holds : next.snapshot = []) (looks : next.entry = none) (sifts : next.Sifts → thread.Sifts) :
    Advances w thread next where
  snapshot := .inl (holds ▸ List.nil_suffix)
  entry path watch is := by
    rw [looks] at is
    cases is
  sifts := sifts
  drops _ _ _ := .inl holds

theorem Advances.tail {path : Str} (holds : thread.snapshot = path :: next.snapshot) (looks : next.entry = none)
    (drops : ∀ other watch, Forgets thread w other watch → other = path) : Advances w thread next where
  snapshot := .inl (holds ▸ List.suffix_cons _ _)
  entry path watch is := by
    rw [looks] at is
    cases is
  sifts _ := Thread.sifts_of_mem_snapshot (holds ▸ List.mem_cons_self)
  drops other watch how := .inr (drops other watch how ▸ holds)

theorem Thread.Holds.advance (holds : thread.Holds w.watches) (advances : Advances w thread next) :
    next.Holds w.watches where
  keys path inside := by
    rcases advances.snapshot with suffix | all
    · exact holds.keys path (suffix.mem inside)
    · exact (GHashTable.mem_keys_iff _ _).mp (all ▸ inside)
  watch path watch is := (advances.entry path watch is).elim (holds.watch path watch) id

section
variable [System σ]

theorem MemcleanStep.advances (step : MemcleanStep w thread next w') : Advances w thread next := by
  have removed {path other : Str} {keys : List Str} {watch : Watch} (how : Forgets (.memcleanPath path keys) w other watch) :
      other = path := by
    rcases how with ⟨_, _, _, is⟩ | ⟨_, _, is, _, _⟩ | ⟨_, is, _⟩ <;> cases is
    rfl
  cases step with
  | enter => exact .idle rfl rfl id
  | snapshot => exact ⟨.inr rfl, fun _ _ is => (by cases is), id, fun _ _ how => how.drops.elim⟩
  | garbage => exact .tail rfl rfl fun _ _ how => how.drops.elim
  | directory => exact .tail rfl rfl fun _ _ how => how.drops.elim
  | suspect => exact ⟨.inl List.suffix_rfl, fun _ _ is => (by cases is), fun _ => trivial, fun _ _ how => how.drops.elim⟩
  | absent => exact .tail rfl rfl fun _ _ how => removed how
  | remove => exact .tail rfl rfl fun _ _ how => removed how
  | leave => exact .idle rfl rfl False.elim

theorem threadStep_advances (ran : threadStep thread w = .ok (next, w')) : Advances w thread next := by
  cases threadStep_cases ran with
  | free => exact ⟨.inr rfl, fun _ _ is => (by cases is), id, fun _ _ how => how.drops.elim⟩
  | pass => exact .tail rfl rfl fun _ _ how => how.drops.elim
  | look inside found =>
    refine ⟨.inl List.suffix_rfl, fun other found' is => ?_, id, fun _ _ how => how.drops.elim⟩
    cases is
    exact .inr found
  | giveUp => exact ⟨.inl List.suffix_rfl, fun _ _ => .inl, id, fun _ _ how => how.drops.elim⟩
  | forget =>
    refine .tail rfl rfl fun other found how => ?_
    rcases how with ⟨_, _, _, is⟩ | ⟨_, _, is, _, _⟩ | ⟨_, is, _⟩ <;> cases is
    rfl
  | bare | finish => exact .idle rfl rfl False.elim
  | memclean step => exact step.advances
  | _ => exact .idle rfl rfl id

/-- A move that keeps the entries keeps what all threads hold on to. -/
theorem Move.holds (move : Move w w') (kept : KeysKept w w') (holds : ∀ thread ∈ w.pool.threads, thread.Holds w.watches) :
    ∀ thread ∈ w'.pool.threads, thread.Holds w'.watches := by
  intro thread member
  refine kept.holds member ?_
  obtain ⟨index, mover, next, v, found, stepped, rfl⟩ | ⟨started, entered, threads⟩ := move.threads
  · rcases List.mem_or_eq_of_mem_set member with old | rfl
    · exact holds thread old
    · exact (holds mover (List.mem_of_getElem? found)).advance (threadStep_advances stepped)
  · rw [threads] at member
    rcases List.mem_append.mp member with old | new
    · exact holds thread old
    · exact .of_nothing (entered thread new).snapshot

end
end Inotispy
