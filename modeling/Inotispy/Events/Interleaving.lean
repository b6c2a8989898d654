import Inotispy.Events.Effects
import Inotispy.Model.Daemon
import Inotispy.Roots.Registry

/-! What handling events keeps while other threads run.

The rules are for properties that threads keep and that also survive what the main thread
itself does here: taking entries out of the tables of watches and events out of a queue.
-/

set_option autoImplicit false

namespace Inotispy
open Library

variable {σ : Type} [System σ]

structure Thins (before after : WatchTable) : Prop where
  byWd : ∀ wd watch, after.inotifyWdToWatch.lookup wd = some watch →
    before.inotifyWdToWatch.lookup wd = some watch
  byPath : ∀ path watch, after.inotifyPathToWatch.lookup path = some watch →
    before.inotifyPathToWatch.lookup path = some watch
  inserted : after.inserted = before.inserted
  nextWatch : after.nextWatch = before.nextWatch

namespace Thins

omit [System σ] in
theorem lookup_of_erase {K V : Type} [DecidableEq K] {table : GHashTable K V} {gone key : K} {value : V}
    (found : (table.erase gone).lookup key = some value) : table.lookup key = some value := by
  rw [GHashTable.lookup_erase_if] at found
  split at found
  · cases found
  · exact found

theorem eraseWd (watches : WatchTable) (wd : Int) :
    Thins watches { watches with inotifyWdToWatch := watches.inotifyWdToWatch.erase wd } :=
  ⟨fun _ _ => lookup_of_erase, fun _ _ => id, rfl, rfl⟩

theorem erasePath (watches : WatchTable) (path : Str) :
    Thins watches { watches with inotifyPathToWatch := watches.inotifyPathToWatch.erase path } :=
  ⟨fun _ _ => id, fun _ _ => lookup_of_erase, rfl, rfl⟩

theorem forget (watches : WatchTable) (path : Str) (wd : Int) :
    Thins watches (watches.forget path wd) :=
  ⟨fun _ _ => lookup_of_erase, fun _ _ => lookup_of_erase, rfl, rfl⟩

theorem refl (watches : WatchTable) : Thins watches watches := ⟨fun _ _ => id, fun _ _ => id, rfl, rfl⟩

theorem trans {first second third : WatchTable} (one : Thins first second) (two : Thins second third) :
    Thins first third :=
  ⟨fun wd watch found => one.byWd wd watch (two.byWd wd watch found),
    fun path watch found => one.byPath path watch (two.byPath path watch found),
    two.inserted.trans one.inserted, two.nextWatch.trans one.nextWatch⟩

end Thins

/-- What survives when watches are taken out of the tables, each with the kernel's. -/
structure Thinning (inv : World σ → Prop) : Prop where
  removes : ∀ (w : World σ) (wd : Int) (watches : WatchTable), Thins w.watches watches →
    (∀ other, other ≠ wd → watches.inotifyWdToWatch.lookup other = w.watches.inotifyWdToWatch.lookup other) →
      inv w → inv { w with sys := (System.inotifyRmWatch w.sys wd).2, watches := watches }
  erases : ∀ (w : World σ) (path : Str), inv w →
    inv { w with watches := { w.watches with
      inotifyPathToWatch := w.watches.inotifyPathToWatch.erase path } }

theorem Thinning.of_thins {inv : World σ → Prop} (blind : ∀ (w : World σ) (s : σ), inv w → inv { w with sys := s })
    (thin : ∀ (w : World σ) (watches : WatchTable), Thins w.watches watches → inv w →
      inv { w with watches := watches }) : Thinning inv where
  removes w _ watches thins _ holds := thin { w with sys := _ } watches thins (blind w _ holds)
  erases w path := thin w _ (.erasePath w.watches path)

section
variable {inv : World σ → Prop} (steady : Steady inv) (thinning : Thinning inv)

include thinning in
theorem rmWatch_keeps {A : Type} (wd : Int) {change : WatchTable → WatchTable} {next : Unit → M σ A}
    (thins : ∀ watches, Thins watches (change watches))
    (others : ∀ watches other, other ≠ wd →
      (change watches).inotifyWdToWatch.lookup other = watches.inotifyWdToWatch.lookup other)
    (rest : Keeps inv (next ())) :
    Keeps inv (inotifyRmWatch wd >>= fun _ => modifyWatches change >>= next) := by
  intro w holds a w' ran
  rw [inotifyRmWatch_bind, modifyWatches_bind] at ran
  exact rest _ (thinning.removes w wd _ (thins w.watches) (others w.watches) holds) a w' ran

include thinning in
theorem unwatchBelow_keeps (tmp : Option Str) (keys : List Str) : Keeps inv (unwatchBelow tmp keys) := by
  induction keys with
  | nil => exact Keeps.pure'
  | cons subPath keys ih =>
    apply Keeps.bind (Still.deref tmp)
    intro below
    apply Keeps.ite'
    · intro _
      apply Keeps.bind Keeps.read'
      intro found
      cases found with
      | none => exact ih
      | some subWatch =>
        exact rmWatch_keeps thinning subWatch.wd (fun watches => .forget watches subPath subWatch.wd)
          (fun _ _ differs => AList.lookup_erase_ne differs) ih
    · exact fun _ => ih

include steady thinning

theorem handleGone_keeps (event : InEvent) (absPath : Option Str) :
    Keeps inv (handleGone event absPath) := by
  apply Keeps.bind (steady.lock .inotify)
  intro _
  apply Keeps.bind (Still.deref absPath)
  intro absPath
  apply Keeps.bind Keeps.read'
  intro found
  cases found with
  | none =>
    apply Keeps.bind (steady.unlock .inotify)
    exact fun _ => Keeps.pure'
  | some delete =>
    apply rmWatch_keeps thinning delete.wd (fun watches => .eraseWd watches delete.wd)
      fun _ _ differs => AList.lookup_erase_ne differs
    -- What is left to do after each of the three removals.
    have finish : Keeps inv (do unlock .inotify; return true : M σ Bool) := by
      apply Keeps.bind (steady.unlock .inotify)
      exact fun _ => Keeps.pure'
    have below : Keeps inv (do
        if hasBit event.mask inMovedFrom then
          let keys ← Program.read (·.watches.inotifyPathToWatch.keys)
          let tmp ← mkString (absPath ++ str "/")
          unwatchBelow tmp keys
        unlock .inotify
        return true : M σ Bool) := by
      apply Keeps.ite'
      · intro _
        apply Keeps.bind Keeps.read'
        intro keys
        apply Keeps.bind (steady.still.mkString _)
        intro tmp
        apply Keeps.bind (unwatchBelow_keeps thinning tmp keys)
        exact fun _ => finish
      · exact fun _ => finish
    apply Keeps.ite'
    · intro _
      apply Keeps.bind
      · exact Keeps.update' fun w => thinning.erases w absPath
      · exact fun _ => below
    · exact fun _ => below

omit thinning in
theorem handleNew_keeps (path : Str) (absPath : Option Str) (root : RootRef) :
    Keeps inv (handleNew path absPath root) := by
  apply Keeps.ite'
  · exact fun _ => Keeps.pure'
  intro _
  apply Keeps.bind steady.yieldMain
  intro _
  apply Keeps.bind (steady.still.doWatchTree _ _ _)
  exact fun _ => Keeps.pure'

theorem handleDirectory_keeps (event : InEvent) (path : Str) (absPath : Option Str) (root : RootRef) :
    Keeps inv (handleDirectory event path absPath root) := by
  apply Keeps.ite'
  · exact fun _ => Keeps.pure'
  intro _
  apply Keeps.ite'
  · exact fun _ => handleNew_keeps steady path absPath root
  intro _
  apply Keeps.ite'
  · exact fun _ => handleGone_keeps steady thinning event absPath
  · exact fun _ => Keeps.pure'

end

/-! ## Queues -/

/-- What survives when the queue of a root is used, though it may have been freed. -/
def Uses (inv : World σ → Prop) (root : RootRef) : Prop :=
  ∀ w : World σ, inv w → inv { w with
    output.releasedQueueUsed := w.output.releasedQueueUsed || (w.roots.heap root).queue.isNone }

section
variable {inv : World σ → Prop} (steady : Steady inv)
include steady

theorem inotifyDequeue_keeps {root : RootRef} (uses : Uses inv root)
    (drops : ∀ (w : World σ) (taken : Nat), inv w →
      inv { w with roots := w.roots.setRoot root fun r =>
        { r with queue := r.queue.map fun _ => (w.roots.heap root).events.drop taken } })
    (count : Int32) : Keeps inv (inotifyDequeue root count) := by
  apply Keeps.bind (steady.lock .inotify)
  intro _ w holds taken w' ran
  have used := uses w holds
  simp only [rootQueue_bind, Program.ite_eq_ok, malloc_bind, setRootQueue_bind] at ran
  obtain ⟨_, ran⟩ | ⟨_, ran⟩ := ran
  · exact (steady.of_unlock_pure ran used).2
  have asked := steady.still.asked (.malloc .refl) used
  obtain ⟨_, ran⟩ | ⟨_, ran⟩ := ran
  · exact (steady.of_unlock_pure ran asked).2
  · exact (steady.of_unlock_pure ran (drops _ _ asked)).2

theorem inotifyGetEvents_keeps (inPlace : InPlace inv) (uses : ∀ root, Uses inv root) (path : Str) (count : Int32) :
    Keeps inv (inotifyGetEvents path count) := by
  apply Keeps.bind Keeps.read'
  intro found
  cases found with
  | none => exact Keeps.pure'
  | some root => exact inotifyDequeue_keeps steady (uses root) (fun w => inPlace.drops w root) count

theorem inotifyEnqueue_adds {root : RootRef} (uses : Uses inv root) {path : Str} (event : InEvent)
    (adds : ∀ (w : World σ) (node : Event), (AllocationsSucceed σ → node.path = some path) → inv w →
      ¬(w.roots.heap root).maxEvents ≤ queueLength (w.roots.heap root).events →
        inv { w with roots := w.roots.setRoot root fun r =>
          { r with queue := r.queue.map fun _ => (w.roots.heap root).events ++ [node] } }) :
    Keeps inv (inotifyEnqueue root event path) := by
  apply Keeps.bind (steady.lock .inotify)
  intro _ w holds code w' ran
  have used := uses w holds
  simp only [rootQueue_bind, getRoot_bind, Program.ite_eq_ok, malloc_bind, Program.pure_eq_ok,
    mkString_bind, setRootQueue_bind] at ran
  obtain ⟨_, ran⟩ | ⟨room, ran⟩ := ran
  · exact (steady.of_unlock_pure ran used).2
  have asked := steady.still.asked (.malloc .refl) used
  obtain ⟨_, _, rfl⟩ | ⟨_, ran⟩ := ran
  · exact asked
  · have copied := steady.still.asked (.malloc (.malloc .refl)) asked
    exact (steady.of_unlock_pure ran (adds _ _ (fun succeed => if_pos (succeed _)) copied room)).2

theorem inotifyEnqueue_keeps {root : RootRef} (uses : Uses inv root) {path : Str}
    (adds : ∀ (w : World σ) (node : Event), (AllocationsSucceed σ → node.path = some path) → inv w →
      inv { w with roots := w.roots.setRoot root fun r =>
        { r with queue := r.queue.map fun _ => (w.roots.heap root).events ++ [node] } })
    (event : InEvent) : Keeps inv (inotifyEnqueue root event path) :=
  inotifyEnqueue_adds steady uses event fun w node copied holds _ => adds w node copied holds

end

/-! ## Whole records and whole steps -/

theorem lookupEvent_triple {inv : World σ → Prop} (steady : Steady inv) {target : Str → RootRef → World σ → Prop}
    (steadyTarget : ∀ path root, Steady fun w => inv w ∧ target path root w)
    (finds : ∀ (w : World σ) (wd : Int) (watch : Watch) (root : RootRef), inv w →
      w.watches.inotifyWdToWatch.lookup wd = some watch → w.roots.pathToRoot watch.path = some root →
        (w.roots.heap root).destroy = false → (w.roots.heap root).pause = false → target watch.path root w)
    (wd : Int) : Triple inv (lookupEvent wd) fun found w =>
      inv w ∧ ∀ path root, found = some (path, root) → target path root w := by
  refine Triple.bind (steady.lock .inotify) ?_
  intro _ w holds found w' ran
  -- The ways out that name no target.
  have leave : ∀ {s : σ}, Quiet w.sys s → ∀ {a : Option (Str × RootRef)},
      (do unlock .inotify; return none : M σ _) { w with sys := s } = .ok (a, w') →
        inv w' ∧ ∀ path root, a = some (path, root) → target path root w' := by
    intro s quiet a ran
    obtain ⟨rfl, after⟩ := steady.of_unlock_pure ran (steady.still.asked quiet holds)
    exact ⟨after, nofun⟩
  simp only [lookupWd_bind] at ran
  cases known : w.watches.inotifyWdToWatch.lookup wd with
  | none =>
    rw [known] at ran
    exact leave .refl ran
  | some watch =>
    simp only [known, malloc_bind, Program.ite_eq_ok] at ran
    obtain ⟨_, ran⟩ | ⟨_, ran⟩ := ran
    · exact leave (.malloc .refl) ran
    obtain ⟨root, v, searching, ran⟩ := Program.bind_eq_ok ran
    have kept := steady.still.inotifyPathToRoot watch.path _ (steady.still.asked (.malloc .refl) holds) _ _ searching
    obtain ⟨rfl, s, rfl⟩ := inotifyPathToRoot_eq_ok searching
    cases served : w.roots.pathToRoot watch.path with
    | none =>
      simp only [served] at ran
      obtain ⟨rfl, after⟩ := steady.of_unlock_pure ran kept
      exact ⟨after, nofun⟩
    | some root =>
      simp only [served, getRoot_bind] at ran
      obtain ⟨_, u, leaving, ran⟩ := Program.bind_eq_ok ran
      simp only [Program.ite_eq_ok, Program.pure_eq_ok] at ran
      obtain ⟨_, rfl, rfl⟩ | ⟨running, rfl, rfl⟩ := ran
      · exact ⟨steady.of_unlock leaving kept, nofun⟩
      · have live : (w.roots.heap root).destroy = false := by simp_all
        have running : (w.roots.heap root).pause = false := by simp_all
        have aimed := finds { w with sys := s } wd watch root kept known served live running
        obtain ⟨after, aimed⟩ := (steadyTarget watch.path root).of_unlock leaving ⟨kept, aimed⟩
        refine ⟨after, fun path other same => ?_⟩
        cases same
        exact aimed

/-- A record, given what its target satisfies from the time it is looked up until the event is offered to it. -/
theorem inotifyHandleRecord_post {inv post : World σ → Prop} (target : Str → RootRef → World σ → Prop)
    (steady : Steady inv) (steadyTarget : ∀ path root, Steady fun w => inv w ∧ target path root w)
    (thinning : ∀ path root, Thinning fun w => inv w ∧ target path root w) (event : InEvent)
    (finds : ∀ (w : World σ) (wd : Int) (watch : Watch) (root : RootRef), inv w →
      w.watches.inotifyWdToWatch.lookup wd = some watch → w.roots.pathToRoot watch.path = some root →
        (w.roots.heap root).destroy = false → (w.roots.heap root).pause = false → target watch.path root w)
    (unqueued : ∀ w, inv w → post w)
    (enqueue : ∀ path root, Triple (fun w => inv w ∧ target path root w)
      (inotifyEnqueue root event path) fun _ => post) : Triple inv (inotifyHandleRecord event) fun _ => post := by
  apply Triple.ite'
  · exact fun _ => Triple.pure' unqueued
  intro _
  apply Triple.ite'
  · intro _
    refine Triple.bind (steady.update fun _ => ⟨.refl, rfl, rfl, rfl, rfl, rfl⟩) fun _ => ?_
    exact Triple.pure' unqueued
  intro _
  apply Triple.ite'
  · exact fun _ => Triple.pure' unqueued
  intro _
  -- From here on the target is carried along with the invariant.
  refine Triple.bind (lookupEvent_triple steady steadyTarget finds event.wd) fun found => ?_
  cases found with
  | none => exact Triple.pure' fun w holds => unqueued w holds.1
  | some found =>
    obtain ⟨path, root⟩ := found
    refine Triple.strengthen ?_ fun w holds => And.imp_right (fun known => known path root rfl) holds
    refine Triple.bind ((steadyTarget path root).still.mkString _) fun absPath => ?_
    refine Triple.bind (handleDirectory_keeps (steadyTarget path root) (thinning path root) event path
      absPath root) fun queued => ?_
    apply Triple.ite'
    · exact fun _ => Triple.pure' fun w holds => unqueued w holds.1
    intro _
    refine Triple.bind Keeps.read' fun r => ?_
    apply Triple.ite'
    · exact fun _ => Triple.pure' fun w holds => unqueued w holds.1
    intro _
    refine Triple.bind (enqueue path root) fun code => ?_
    exact Triple.pure' fun _ => id

theorem inotifyHandleRecord_triple {inv : World σ → Prop} (target : Str → RootRef → World σ → Prop)
    (steady : Steady inv) (steadyTarget : ∀ path root, Steady fun w => inv w ∧ target path root w)
    (thinning : ∀ path root, Thinning fun w => inv w ∧ target path root w) (event : InEvent)
    (finds : ∀ (w : World σ) (wd : Int) (watch : Watch) (root : RootRef), inv w →
      w.watches.inotifyWdToWatch.lookup wd = some watch → w.roots.pathToRoot watch.path = some root →
        (w.roots.heap root).destroy = false → target watch.path root w)
    (enqueue : ∀ path root, Triple (fun w => inv w ∧ target path root w)
      (inotifyEnqueue root event path) fun _ => inv) : Keeps inv (inotifyHandleRecord event) :=
  inotifyHandleRecord_post target steady steadyTarget thinning event
    (fun w wd watch root holds known served live _ => finds w wd watch root holds known served live) (fun _ => id) enqueue

/-- A property survives every step of the daemon if it survives threads, roots and watches
that go, changes of a root in place, and new roots. -/
structure Durable (inv : World σ → Prop) : Prop extends Steady inv, Thinning inv where
  settles : ∀ (w : World σ) (roots : RootTable), Settles w.roots roots → inv w → inv { w with roots := roots }
  uses : ∀ root, Uses inv root
  joins : ∀ (w : World σ) (root : RootRef), inv w →
    inv { w with pool.threads := w.pool.threads ++ [.destroyRoot root] }
  registers : ∀ (w : World σ) (path : Str) (made : Root), inv w → Made path made →
    (AllocationsSucceed σ → made.path = some path) → inv { w with roots := w.roots.register path made }

theorem Durable.inPlace {inv : World σ → Prop} (durable : Durable inv) : InPlace inv :=
  .of_shrinks fun w roots shrinks => durable.settles w roots shrinks.toSettles

theorem inotifyHandleRecord_keeps {inv : World σ → Prop} (durable : Durable inv) (event : InEvent) :
    Keeps inv (inotifyHandleRecord event) := by
  have steady : Steady fun w => inv w ∧ True :=
    durable.toSteady.and .always
  refine inotifyHandleRecord_triple (fun _ _ _ => True) durable.toSteady (fun _ _ => steady) ?_ event ?_ ?_
  · exact fun _ _ => ⟨fun w wd watches thins others holds =>
      ⟨durable.removes w wd watches thins others holds.1, trivial⟩,
      fun w path holds => ⟨durable.erases w path holds.1, trivial⟩⟩
  · exact fun _ _ _ _ _ _ _ _ => trivial
  · intro path root
    refine (inotifyEnqueue_keeps durable.toSteady (durable.uses root) ?_ event).strengthen fun _ => And.left
    exact fun w node _ => durable.settles w _ (.setRoot w.roots root _ (fun _ => rfl) fun _ => id)

theorem DaemonStep.keeps {inv : World σ → Prop} (durable : Durable inv) {w w' : World σ}
    (step : DaemonStep w w') (holds : inv w) : inv w' := by
  have steady := durable.toSteady
  cases step with
  | watch ran =>
    exact inotifyWatchTree_keeps steady (fun w holds made => durable.registers w _ made holds) _ _ _ w holds _ _ ran
  | unwatch ran => exact inotifyUnwatchTree_keeps steady durable.inPlace durable.joins _ w holds _ _ ran
  | pause ran => exact setPause_keeps steady durable.inPlace _ _ w holds _ _ ran
  | getEvents ran => exact inotifyGetEvents_keeps steady durable.inPlace durable.uses _ _ w holds _ _ ran
  | record ran => exact inotifyHandleRecord_keeps durable _ w holds _ _ ran
  | memclean ran => exact steady.still.inotifyMemclean w holds _ _ ran
  | rewatchRoots ran => exact steady.inotifyRewatchRoots w holds _ _ ran
  | dumpRoots ran => exact steady.inotifyDumpRoots w holds _ _ ran
  | thread ran => exact steady.run _ w holds _ _ ran
  | schedule turns => exact steady.quiet (w := w) ⟨.refl, rfl, rfl, rfl, rfl, rfl⟩ holds

end Inotispy
