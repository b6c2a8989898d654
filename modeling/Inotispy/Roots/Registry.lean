import Inotispy.Roots.Search
import Inotispy.Threads.Interleaving

/-! How the table of roots grows and shrinks.

Only a watch request registers a root. Everything else takes roots out of the table or
changes them in place, without touching their paths.
-/

set_option autoImplicit false

namespace Inotispy
open Library

variable {σ : Type} [System σ]

/-- Every root is registered under its own path, in a cell that has been given out. -/
structure Registered (roots : RootTable) : Prop where
  named : ∀ key root, roots.inotifyRoots.lookup key = some root → (roots.heap root).path = some key
  made : ∀ key root, roots.inotifyRoots.lookup key = some root → root < roots.nextRoot

theorem Registered.empty {roots : RootTable} (none : roots.inotifyRoots = ∅) : Registered roots := by
  constructor <;> simp [none]

/-! ## Shrinking -/

/-- Roots leave the table, and those in memory keep their paths and stay destroyed. -/
structure Settles (before after : RootTable) : Prop where
  kept : ∀ key root, after.inotifyRoots.lookup key = some root →
    before.inotifyRoots.lookup key = some root
  paths : ∀ root, (after.heap root).path = (before.heap root).path
  destroyed : ∀ root, (before.heap root).destroy = true → (after.heap root).destroy = true
  nextRoot : after.nextRoot = before.nextRoot

structure Shrinks (before after : RootTable) : Prop extends Settles before after where
  events : ∀ root, ∀ event ∈ (after.heap root).events, event ∈ (before.heap root).events

theorem Settles.setRoot (roots : RootTable) (root : RootRef) (change : Root → Root)
    (path : ∀ r, (change r).path = r.path) (destroy : ∀ r, r.destroy = true → (change r).destroy = true) :
    Settles roots (roots.setRoot root change) := by
  refine ⟨fun _ _ => id, fun other => ?_, fun other set => ?_, rfl⟩
  · by_cases same : other = root
    · subst same
      rw [RootTable.heap_setRoot_self, path]
    · rw [RootTable.heap_setRoot_of_ne same]
  · by_cases same : other = root
    · subst same
      rw [RootTable.heap_setRoot_self]
      exact destroy _ set
    · rwa [RootTable.heap_setRoot_of_ne same]

namespace Shrinks

theorem refl (roots : RootTable) : Shrinks roots roots :=
  ⟨⟨fun _ _ => id, fun _ => rfl, fun _ => id, rfl⟩, fun _ _ => id⟩

theorem setRoot (roots : RootTable) (root : RootRef) (change : Root → Root)
    (path : ∀ r, (change r).path = r.path) (destroy : ∀ r, r.destroy = true → (change r).destroy = true)
    (events : ∀ event ∈ (change (roots.heap root)).events, event ∈ (roots.heap root).events) :
    Shrinks roots (roots.setRoot root change) := by
  refine ⟨.setRoot roots root change path destroy, fun other event member => ?_⟩
  by_cases same : other = root
  · subst same
    rw [RootTable.heap_setRoot_self] at member
    exact events event member
  · rwa [RootTable.heap_setRoot_of_ne same] at member

theorem remove (roots : RootTable) (path : Str) : Shrinks roots (roots.remove path) := by
  refine ⟨⟨fun key root found => ?_, fun _ => rfl, fun _ => id, rfl⟩, fun _ _ => id⟩
  simp only [RootTable.remove, GHashTable.lookup_erase_if] at found
  split at found
  · cases found
  · exact found

theorem of_effect {thread : Thread} {before after : RootTable}
    (effect : RootsEffect thread before after) : Shrinks before after := by
  cases effect with
  | same => exact refl before
  | free root is => exact setRoot before root _ (fun _ => rfl) (fun _ => id) nofun
  | remove root tmp path is named => exact remove before path

end Shrinks

namespace Settles

variable {before after : RootTable} (settles : Settles before after)
include settles

theorem mem_keys {key : Str} (member : key ∈ after.inotifyRoots.keys) :
    key ∈ before.inotifyRoots.keys := by
  rw [GHashTable.mem_keys_iff] at member ⊢
  obtain ⟨root, found⟩ := member
  exact ⟨root, settles.kept key root found⟩

theorem registered (holds : Registered before) : Registered after := by
  constructor
  · intro key root found
    rw [settles.paths]
    exact holds.named key root (settles.kept key root found)
  · intro key root found
    rw [settles.nextRoot]
    exact holds.made key root (settles.kept key root found)

end Settles

theorem steady_of_shrinks (inv : RootTable → Prop)
    (closed : ∀ before after, Shrinks before after → inv before → inv after) :
    Steady fun w : World σ => inv w.roots :=
  .of_tables (fun roots _ => inv roots) fun effect holds => closed _ _ (.of_effect effect.roots) holds

/-- What changes a root in place: a pause request, an unwatch request, events taken out of a queue. -/
structure InPlace (inv : World σ → Prop) : Prop where
  pauses : ∀ (w : World σ) (root : RootRef) (pause : Bool), inv w →
    inv { w with roots := w.roots.setRoot root fun r => { r with pause := pause } }
  marks : ∀ (w : World σ) (root : RootRef), inv w →
    inv { w with roots := w.roots.setRoot root fun r => { r with destroy := true } }
  drops : ∀ (w : World σ) (root : RootRef) (taken : Nat), inv w →
    inv { w with roots := w.roots.setRoot root fun r =>
      { r with queue := r.queue.map fun _ => (w.roots.heap root).events.drop taken } }

omit [System σ] in
theorem Shrinks.dropQueue (roots : RootTable) (root : RootRef) (taken : Nat) :
    Shrinks roots (roots.setRoot root fun r =>
      { r with queue := r.queue.map fun _ => (roots.heap root).events.drop taken }) := by
  refine .setRoot roots root _ (fun _ => rfl) (fun _ => id) fun event member => ?_
  unfold Root.events at member ⊢
  cases queue : (roots.heap root).queue with
  | none => simp [queue] at member
  | some events =>
    simp only [queue, Option.map_some, Option.getD_some] at member ⊢
    exact List.mem_of_mem_drop member

omit [System σ] in
theorem InPlace.of_shrinks {inv : World σ → Prop}
    (closed : ∀ (w : World σ) (roots : RootTable), Shrinks w.roots roots → inv w →
      inv { w with roots := roots }) : InPlace inv where
  pauses w root _ := closed w _ (.setRoot w.roots root _ (fun _ => rfl) (fun _ => id) fun _ => id)
  marks w root := closed w _ (.setRoot w.roots root _ (fun _ => rfl) (fun _ _ => rfl) fun _ => id)
  drops w root taken := closed w _ (.dropQueue w.roots root taken)

section
variable {inv : World σ → Prop} (steady : Steady inv)
include steady

omit steady in
theorem inotifyUnwatchTree_triple (marked : RootRef → World σ → Prop) (path : Str)
    (steadyMarked : ∀ root, Steady fun w => inv w ∧ marked root w)
    (marks : ∀ (w : World σ) (root : RootRef), inv w →
      w.roots.inotifyRoots.lookup (trimLastSlash path) = some root → (w.roots.heap root).destroy = false →
        inv { w with roots := w.roots.setRoot root fun r => { r with destroy := true } } ∧
          marked root { w with roots := w.roots.setRoot root fun r => { r with destroy := true } })
    (joins : ∀ (w : World σ) (root : RootRef), inv w ∧ marked root w →
      inv { w with pool.threads := w.pool.threads ++ [.destroyRoot root] }) :
    Keeps inv (inotifyUnwatchTree path) := by
  unfold inotifyUnwatchTree
  intro w holds code w' ran
  simp only [inotifyIsRoot, Program.read_bind_apply] at ran
  cases found : w.roots.inotifyRoots.lookup (trimLastSlash path) with
  | none =>
    rw [found] at ran
    obtain ⟨_, rfl⟩ := Program.pure_eq_ok.mp ran
    exact holds
  | some root =>
    simp only [found, getRoot_bind, Program.ite_eq_ok, Program.pure_eq_ok, destroyRoot, modifyRoots_bind] at ran
    obtain ⟨_, _, rfl⟩ | ⟨live, ran⟩ := ran
    · exact holds
    have marked_ := marks w root holds found (eq_false_of_ne_true live)
    obtain ⟨_, v, yielding, ran⟩ := Program.bind_eq_ok ran
    -- Between the flag and the thread the others run.
    have between := (steadyMarked root).yieldMain _ marked_ _ _ yielding
    have starting : Triple (fun w => inv w ∧ marked root w) (spawn (.destroyRoot root) : M σ Bool)
        fun _ => inv := by
      refine Triple.bind ((steadyMarked root).still.call _ fun _ => .pthreadCreate .refl) fun created => ?_
      apply Triple.ite'
      · exact fun _ => Triple.pure' fun _ holds => holds.1
      intro _
      refine Triple.bind (Triple.update' fun w => joins w root : Triple _ _ fun _ => inv) fun _ => ?_
      exact Triple.pure' fun _ => id
    obtain ⟨started, u, spawning, ran⟩ := Program.bind_eq_ok ran
    have after := starting v between started u spawning
    cases started <;> obtain ⟨_, rfl⟩ := Program.pure_eq_ok.mp ran <;> exact after

theorem inotifyUnwatchTree_keeps (inPlace : InPlace inv)
    (joins : ∀ (w : World σ) (root : RootRef), inv w →
      inv { w with pool.threads := w.pool.threads ++ [.destroyRoot root] })
    (path : Str) : Keeps inv (inotifyUnwatchTree path) := by
  exact inotifyUnwatchTree_triple (fun _ _ => True) path (fun _ => steady.and .always)
    (fun w root holds _ _ => ⟨inPlace.marks w root holds, trivial⟩) (fun w root holds => joins w root holds.1)

theorem setPause_keeps (inPlace : InPlace inv) (pause : Bool) (path : Str) : Keeps inv (setPause pause path) := by
  unfold setPause
  apply Keeps.bind (steady.lock .inotify)
  intro _
  apply Keeps.bind Keeps.read'
  intro found
  cases found with
  | none =>
    apply Keeps.bind (steady.unlock .inotify)
    exact fun _ => Keeps.pure'
  | some root =>
    apply Keeps.bind
    · exact Keeps.update' fun w => inPlace.pauses w root pause
    intro _
    apply Keeps.bind (steady.unlock .inotify)
    exact fun _ => Keeps.pure'

end

/-! ## Registering a root -/

def RootTable.register (roots : RootTable) (path : Str) (made : Root) : RootTable :=
  { inotifyRoots := roots.inotifyRoots.insert path roots.nextRoot
    inotifyNumWatchedRoots := roots.inotifyNumWatchedRoots + 1
    heap := Function.update roots.heap roots.nextRoot made
    nextRoot := roots.nextRoot + 1 }

theorem RootTable.mem_keys_register {roots : RootTable} {path key : Str} {made : Root}
    (member : key ∈ (roots.register path made).inotifyRoots.keys) :
    key = path ∨ key ∈ roots.inotifyRoots.keys := by
  rw [← AList.mem_keys, register, AList.mem_insert] at member
  exact member

theorem Registered.register {roots : RootTable} (holds : Registered roots) {path : Str} {made : Root}
    (named : made.path = some path) : Registered (roots.register path made) := by
  constructor
  · intro key root found
    simp only [RootTable.register, GHashTable.lookup_insert_if] at found
    split at found
    · cases found
      simpa [RootTable.register, ‹key = path›] using named
    -- Registered roots are older than the new cell.
    · have old := Nat.ne_of_lt (holds.made key root found)
      simpa [RootTable.register, Function.update_of_ne old] using holds.named key root found
  · intro key root found
    simp only [RootTable.register, GHashTable.lookup_insert_if] at found
    split at found
    · cases found
      exact Nat.lt_succ_self _
    · exact Nat.lt_succ_of_lt (holds.made key root found)

/-- `make_root` fails or takes a new cell, perhaps without a path. -/
theorem makeRoot_eq_ok {path : Str} {mask : UInt32} {maxEvents : Int32} {rewatch : Bool}
    {w w' : World σ} {made : Option RootRef}
    (ran : makeRoot path mask maxEvents rewatch w = .ok (made, w')) :
    ∃ s, Quiet w.sys s ∧ ((made = none ∧ w' = { w with sys := s }) ∨
      ∃ copy, (copy = some path ∨ copy = none) ∧ (AllocationsSucceed σ → copy = some path) ∧
        made = some w.roots.nextRoot ∧
        w' = { w with
          sys := s
          roots :=
            { w.roots.setRoot w.roots.nextRoot fun _ =>
                ⟨copy, mask, maxEvents, some [], false, false, rewatch, false⟩ with
              nextRoot := w.roots.nextRoot + 1 } }) := by
  simp only [makeRoot, malloc_bind, Program.ite_eq_ok, Program.pure_eq_ok, mkString_bind,
    Program.read_bind_apply, modifyRoots_bind] at ran
  obtain ⟨_, rfl, rfl⟩ | ⟨_, rfl, rfl⟩ := ran
  · exact ⟨_, .malloc .refl, .inl ⟨rfl, rfl⟩⟩
  · exact ⟨_, .malloc (.malloc .refl), .inr ⟨_, ite_eq_or_eq _ _ _, fun succeed => if_pos (succeed _), rfl, rfl⟩⟩

theorem watchTreeCheck_keeps {inv : World σ → Prop} (steady : Steady inv) (path : Str) :
    Keeps inv (watchTreeCheck path) := by
  unfold watchTreeCheck
  apply Keeps.bind (steady.lock .inotify)
  intro _
  apply Keeps.bind (steady.still.inotifyPathToRoot path)
  intro found
  cases found with
  | some root =>
    apply Keeps.bind (steady.unlock .inotify)
    intro _
    apply Keeps.bind Keeps.read'
    intro r
    apply Keeps.bind (Still.deref _)
    intro rootPath
    apply Keeps.ite'
    · intro _
      apply Keeps.ite' <;> exact fun _ => Keeps.pure'
    · exact fun _ => Keeps.pure'
  | none =>
    apply Keeps.bind (steady.still.inotifyIsParent path)
    intro subPath
    apply Keeps.bind (steady.unlock .inotify)
    exact fun _ => Keeps.pure'

structure Made (path : Str) (made : Root) : Prop where
  path : made.path = some path ∨ made.path = none
  queue : made.queue = some []
  live : made.destroy = false

section
variable {inv fits : World σ → Prop} (steady : Steady inv) {path : Str}
include steady

theorem watchTreeInsert_triple (steadyFits : Steady fun w => inv w ∧ fits w)
    (register : ∀ w : World σ, inv w → fits w → ∀ made : Root, Made path made →
      (AllocationsSucceed σ → made.path = some path) → inv { w with roots := w.roots.register path made })
    (mask : UInt32) (maxEvents : Int32) (rewatch : Bool) :
    Triple (fun w => inv w ∧ fits w) (watchTreeInsert path mask maxEvents rewatch) fun _ => inv := by
  unfold watchTreeInsert
  refine Triple.bind (steadyFits.lock .inotify) ?_
  intro _ w holds made w' ran
  obtain ⟨found, u, making, ran⟩ := Program.bind_eq_ok ran
  obtain ⟨s, quiet, ⟨rfl, rfl⟩ | ⟨copy, copied, whole, rfl, rfl⟩⟩ := makeRoot_eq_ok making
  · exact (steady.of_unlock_pure ran (steady.still.asked quiet holds.1)).2
  · simp only [modifyRoots_bind] at ran
    obtain ⟨asked, fits'⟩ := steadyFits.still.asked quiet holds
    have registered := register { w with sys := s } asked fits'
      ⟨copy, mask, maxEvents, some [], false, false, rewatch, false⟩ ⟨copied, rfl, rfl⟩ whole
    exact (steady.of_unlock_pure ran registered).2

/-- What holds when a watch request comes in, and what its check makes sure of, hold up to the
point where the root is registered. -/
theorem inotifyWatchTree_triple (steadyFits : Steady fun w => inv w ∧ fits w)
    (check : Triple inv (watchTreeCheck (trimSlash path)) fun code w => inv w ∧ (code = none → fits w))
    (register : ∀ w : World σ, inv w → fits w → ∀ made : Root, Made (trimSlash path) made →
      (AllocationsSucceed σ → made.path = some (trimSlash path)) →
        inv { w with roots := w.roots.register (trimSlash path) made })
    (mask : UInt32) (maxEvents : Int32) (rewatch : Bool) :
    Keeps inv (inotifyWatchTree path mask maxEvents rewatch) := by
  unfold inotifyWatchTree
  refine Triple.bind check fun code => ?_
  cases code with
  | some err => exact Triple.pure' fun _ holds => holds.1
  | none =>
    refine Triple.strengthen ?_ fun _ holds => And.imp_right (fun fits => fits rfl) holds
    refine Triple.bind (steadyFits.still.opendir _) fun opens => ?_
    apply Triple.ite'
    · exact fun _ => Triple.pure' fun _ holds => holds.1
    intro _
    refine Triple.bind (watchTreeInsert_triple steady steadyFits register mask maxEvents rewatch) fun made => ?_
    cases made with
    | none => exact Triple.pure' fun _ => id
    | some newRoot =>
      apply Keeps.bind steady.inotifyDumpRoots
      intro _
      apply Keeps.bind Keeps.read'
      intro r
      exact steady.still.doWatchTree _ _ _

theorem inotifyWatchTree_keeps
    (register : ∀ w : World σ, inv w → ∀ made : Root, Made (trimSlash path) made →
      (AllocationsSucceed σ → made.path = some (trimSlash path)) →
        inv { w with roots := w.roots.register (trimSlash path) made })
    (mask : UInt32) (maxEvents : Int32) (rewatch : Bool) :
    Keeps inv (inotifyWatchTree path mask maxEvents rewatch) := by
  refine inotifyWatchTree_triple steady (steady.and .always) ?_ (fun w holds _ => register w holds)
    mask maxEvents rewatch
  exact (watchTreeCheck_keeps steady _).weaken fun _ _ holds => ⟨holds, fun _ => trivial⟩

end
end Inotispy
