import Inotispy.Requests.Interleaving

/-! The life of a root: registered, marked, freed and taken out of the table.

Only an unwatch request marks a root, and only one that is not marked. Hence a root has at
most one destroy thread, and until that thread is done the root stays in the table.
-/

set_option autoImplicit false

namespace Inotispy
open Library

variable {σ : Type}

/-- Where the roots are in their lives, together with the threads that are to end them. -/
structure Lifecycle (roots : RootTable) (threads : List Thread) : Prop where
  made : ∀ key root, roots.inotifyRoots.lookup key = some root → root < roots.nextRoot
  named : ∀ key root, roots.inotifyRoots.lookup key = some root →
    ∀ path, (roots.heap root).path = some path → path = key
  single : ∀ key other root, roots.inotifyRoots.lookup key = some root →
    roots.inotifyRoots.lookup other = some root → key = other
  count : roots.inotifyNumWatchedRoots = roots.inotifyRoots.keys.length
  absolute : ∀ key ∈ roots.inotifyRoots.keys, key.head? = some '/'
  freed : ∀ key root, roots.inotifyRoots.lookup key = some root → (roots.heap root).queue = none →
    ∃ thread ∈ threads, thread.destroys = some root
  flagged : ∀ thread ∈ threads, ∀ root, thread.destroys = some root → (roots.heap root).destroy = true
  registered : ∀ thread ∈ threads, ∀ root, thread.destroys = some root →
    ∃ key, roots.inotifyRoots.lookup key = some root
  once : ∀ (i j : Nat) (first second : Thread) (root : RootRef), threads[i]? = some first →
    threads[j]? = some second → first.destroys = some root → second.destroys = some root → i = j

/-- A root that an unwatch request has marked and not yet given a destroy thread. -/
structure Marked (root : RootRef) (roots : RootTable) (threads : List Thread) : Prop where
  flag : (roots.heap root).destroy = true
  registered : ∃ key, roots.inotifyRoots.lookup key = some root
  unserved : ∀ thread ∈ threads, thread.destroys ≠ some root

structure Live (key : Str) (root : RootRef) (roots : RootTable) : Prop where
  registered : roots.inotifyRoots.lookup key = some root
  running : (roots.heap root).destroy = false

/-- Only a destroy thread frees a queue, so that the queue of a live root is there. -/
theorem Lifecycle.queue_of_live {roots : RootTable} {threads : List Thread} (life : Lifecycle roots threads)
    {key : Str} {root : RootRef} (live : Live key root roots) : (roots.heap root).queue ≠ none := by
  intro freed
  obtain ⟨thread, member, mine⟩ := life.freed key root live.registered freed
  have flag := life.flagged thread member root mine
  rw [live.running] at flag
  cases flag

/-! ## Steps of a thread -/

inductive LifeEffect (thread next : Thread) (before : RootTable) : RootTable → Prop where
  | stays (same : next.destroys = thread.destroys) : LifeEffect thread next before before
  | frees (root : RootRef) (mine : thread.destroys = some root) (same : next.destroys = some root) :
      LifeEffect thread next before (before.setRoot root fun r => { r with queue := none })
  | removes (root : RootRef) (path : Str) (mine : thread.destroys = some root) (done : next.destroys = none)
      (named : (before.heap root).path = some path) : LifeEffect thread next before (before.remove path)

section
variable [System σ]

theorem threadStep_life {thread next : Thread} {w w' : World σ} (ran : threadStep thread w = .ok (next, w')) :
    LifeEffect thread next w.roots w'.roots ∧ w'.output.releasedQueueUsed = w.output.releasedQueueUsed := by
  cases threadStep_cases ran with
  | walk step =>
    obtain ⟨roots, output⟩ := doWatchTreeRec_spares step
    rw [roots, output]
    exact ⟨.stays rfl, rfl⟩
  | free => exact ⟨.frees _ rfl rfl, rfl⟩
  | bare named | finish named => exact ⟨.removes _ _ rfl rfl named, rfl⟩
  | memclean step => cases step <;> exact ⟨.stays rfl, rfl⟩
  | _ => exact ⟨.stays rfl, rfl⟩

end

section
variable {roots after : RootTable} {threads : List Thread} {index : Nat} {thread next : Thread}
  (found : threads[index]? = some thread)
include found

theorem LifeEffect.destroyer (effect : LifeEffect thread next roots after) {place : Nat} {other : Thread}
    {root : RootRef} (at_ : (threads.set index next)[place]? = some other) (mine : other.destroys = some root) :
    ∃ old, threads[place]? = some old ∧ old.destroys = some root := by
  obtain ⟨rfl, rfl⟩ | ⟨_, at_⟩ := threads_set_eq_some found at_
  · refine ⟨thread, found, ?_⟩
    cases effect with
    | stays same => rw [← same, mine]
    | frees root' mine' same => rw [mine', ← same, mine]
    | removes root' path mine' done named => rw [done] at mine; cases mine
  · exact ⟨other, at_, mine⟩

theorem LifeEffect.mem_destroyer (effect : LifeEffect thread next roots after) {other : Thread}
    {root : RootRef} (member : other ∈ threads.set index next) (mine : other.destroys = some root) :
    ∃ old ∈ threads, old.destroys = some root := by
  obtain ⟨place, at_⟩ := List.mem_iff_getElem?.mp member
  obtain ⟨old, before, same⟩ := effect.destroyer found at_ mine
  exact ⟨old, List.mem_of_getElem? before, same⟩

omit found in
theorem LifeEffect.heap (effect : LifeEffect thread next roots after) (root : RootRef) :
    (after.heap root).destroy = (roots.heap root).destroy ∧ (after.heap root).path = (roots.heap root).path := by
  cases effect with
  | stays => exact ⟨rfl, rfl⟩
  | frees freed mine same =>
    constructor
    · apply RootTable.field_setRoot Root.destroy
      exact fun _ => rfl
    · apply RootTable.field_setRoot Root.path
      exact fun _ => rfl
  | removes => exact ⟨rfl, rfl⟩

variable (life : Lifecycle roots threads)
include life

theorem LifeEffect.keeps_registered (effect : LifeEffect thread next roots after) {key : Str} {root : RootRef}
    (registered : roots.inotifyRoots.lookup key = some root) :
    after.inotifyRoots.lookup key = some root ∨ (thread.destroys = some root ∧ next.destroys = none) := by
  cases effect with
  | stays => exact .inl registered
  | frees => exact .inl registered
  | removes gone path mine done named =>
    by_cases same : gone = root
    · subst same
      exact .inr ⟨mine, done⟩
    left
    -- What goes is the entry under the path of that root, hence its own.
    obtain ⟨other, at_⟩ := life.registered thread (List.mem_of_getElem? found) gone mine
    have differs : key ≠ path := by
      intro is
      rw [is, life.named other gone at_ path named] at registered
      rw [at_] at registered
      exact same (Option.some.inj registered)
    rw [RootTable.remove, AList.lookup_erase_ne differs]
    exact registered

theorem LifeEffect.keeps_destroyer (effect : LifeEffect thread next roots after) {key : Str} {root : RootRef}
    (registered : after.inotifyRoots.lookup key = some root)
    (destroyer : ∃ old ∈ threads, old.destroys = some root) :
    ∃ other ∈ threads.set index next, other.destroys = some root := by
  obtain ⟨old, inside, mine⟩ := destroyer
  obtain ⟨place, at_⟩ := List.mem_iff_getElem?.mp inside
  by_cases same : index = place
  · subst same
    rw [found] at at_
    cases at_
    refine ⟨next, List.mem_set (List.getElem?_eq_some_iff.mp found).1 next, ?_⟩
    cases effect with
    | stays same => rw [same, mine]
    | frees gone mine' same => rw [same, ← mine', mine]
    -- A root that was taken out is not registered any more.
    | removes gone path mine' done named =>
      rw [mine] at mine'
      cases mine'
      obtain rfl := life.named key root ((Shrinks.remove roots path).kept key root registered) path named
      rw [RootTable.remove, AList.lookup_erase] at registered
      cases registered
  · refine ⟨old, List.mem_iff_getElem?.mpr ⟨place, ?_⟩, mine⟩
    rw [List.getElem?_set_ne same, at_]

theorem Lifecycle.step (effect : LifeEffect thread next roots after) :
    Lifecycle after (threads.set index next) := by
  have member := List.mem_of_getElem? found
  have kept : ∀ key root, after.inotifyRoots.lookup key = some root → roots.inotifyRoots.lookup key = some root := by
    cases effect with
    | stays => exact fun _ _ => id
    | frees => exact fun _ _ => id
    | removes root path mine done named => exact (Shrinks.remove roots path).kept
  have nextRoot : after.nextRoot = roots.nextRoot := by cases effect <;> rfl
  constructor
  · intro key root at_
    rw [nextRoot]
    exact life.made key root (kept key root at_)
  · intro key root at_ path named
    rw [(effect.heap root).2] at named
    exact life.named key root (kept key root at_) path named
  · exact fun key other root one two => life.single key other root (kept key root one) (kept other root two)
  · cases effect with
    | stays => exact life.count
    | frees => exact life.count
    | removes root path mine done named =>
      obtain ⟨key, at_⟩ := life.registered thread member root mine
      have is := life.named key root at_ path named
      subst is
      have inside : path ∈ roots.inotifyRoots.keys := (GHashTable.mem_keys_iff _ _).mpr ⟨root, at_⟩
      -- The counter goes down with the one entry that goes.
      have shorter := GHashTable.length_keys_erase inside
      have counted := life.count
      simp only [RootTable.remove]
      omega
  · intro key inside
    obtain ⟨root, at_⟩ := (GHashTable.mem_keys_iff _ _).mp inside
    exact life.absolute key ((GHashTable.mem_keys_iff _ _).mpr ⟨root, kept key root at_⟩)
  · intro key root at_ freed
    apply effect.keeps_destroyer found life at_
    cases effect with
    | stays => exact life.freed key root (kept key root at_) freed
    | frees gone mine same =>
      by_cases is : root = gone
      · exact ⟨thread, member, is ▸ mine⟩
      · rw [RootTable.heap_setRoot_of_ne is] at freed
        exact life.freed key root (kept key root at_) freed
    | removes => exact life.freed key root (kept key root at_) freed
  · intro other inside root mine
    obtain ⟨old, before, same⟩ := effect.mem_destroyer found inside mine
    rw [(effect.heap root).1]
    exact life.flagged old before root same
  · intro other inside root mine
    obtain ⟨place, at_⟩ := List.mem_iff_getElem?.mp inside
    obtain ⟨old, before, same⟩ := effect.destroyer found at_ mine
    obtain ⟨key, registered⟩ := life.registered old (List.mem_of_getElem? before) root same
    rcases effect.keeps_registered found life registered with stays | ⟨own, done⟩
    · exact ⟨key, stays⟩
    -- The thread that took it out was its only one.
    · obtain rfl := life.once place index old thread root before found same own
      obtain ⟨_, rfl⟩ | ⟨apart, _⟩ := threads_set_eq_some found at_
      · rw [done] at mine
        cases mine
      · exact absurd rfl apart
  · intro i j first second root one two mine other
    obtain ⟨old, before, same⟩ := effect.destroyer found one mine
    obtain ⟨old', before', same'⟩ := effect.destroyer found two other
    exact life.once i j old old' root before before' same same'

theorem Live.step {key : Str} {root : RootRef} (live : Live key root roots)
    (effect : LifeEffect thread next roots after) : Live key root after := by
  rcases effect.keeps_registered found life live.registered with stays | ⟨own, _⟩
  · exact ⟨stays, (effect.heap root).1.trans live.running⟩
  · have flag := life.flagged thread (List.mem_of_getElem? found) root own
    rw [live.running] at flag
    cases flag

theorem Marked.step {root : RootRef} (marked : Marked root roots threads)
    (effect : LifeEffect thread next roots after) : Marked root after (threads.set index next) := by
  constructor
  · rw [(effect.heap root).1]
    exact marked.flag
  · obtain ⟨key, registered⟩ := marked.registered
    rcases effect.keeps_registered found life registered with stays | ⟨own, _⟩
    · exact ⟨key, stays⟩
    · exact absurd own (marked.unserved thread (List.mem_of_getElem? found))
  · intro other inside mine
    obtain ⟨old, before, same⟩ := effect.mem_destroyer found inside mine
    exact marked.unserved old before same

end

/-! ## What the main thread does to a root -/

namespace Lifecycle

variable {roots : RootTable} {threads : List Thread} (life : Lifecycle roots threads)
include life

theorem spawn (thread : Thread) (marked : ∀ root, thread.destroys = some root → Marked root roots threads) :
    Lifecycle roots (threads ++ [thread]) := by
  refine { life with freed := ?_, flagged := ?_, registered := ?_, once := ?_ }
  · intro key root at_ freed
    obtain ⟨other, member, mine⟩ := life.freed key root at_ freed
    exact ⟨other, List.mem_append_left _ member, mine⟩
  · intro other member root mine
    rcases List.mem_append.mp member with old | new
    · exact life.flagged other old root mine
    · exact (marked root (List.mem_singleton.mp new ▸ mine)).flag
  · intro other member root mine
    rcases List.mem_append.mp member with old | new
    · exact life.registered other old root mine
    · exact (marked root (List.mem_singleton.mp new ▸ mine)).registered
  · intro i j first second root one two mine mine'
    have place : ∀ k other, (threads ++ [thread])[k]? = some other →
        threads[k]? = some other ∨ k = threads.length ∧ other = thread := by
      intro k other at_
      rcases Nat.lt_trichotomy k threads.length with inside | last | outside
      · exact .inl (by rwa [List.getElem?_append_left inside] at at_)
      · subst last
        exact .inr ⟨rfl, by simpa [eq_comm] using at_⟩
      · rw [List.getElem?_eq_none (by simp; omega)] at at_
        cases at_
    -- The marked root has no destroy thread among the old ones.
    rcases place i first one with old | ⟨rfl, rfl⟩ <;> rcases place j second two with old' | ⟨rfl, rfl⟩
    · exact life.once i j first second root old old' mine mine'
    · exact absurd mine ((marked root mine').unserved first (List.mem_of_getElem? old))
    · exact absurd mine' ((marked root mine).unserved second (List.mem_of_getElem? old'))
    · rfl

theorem setRoot (root : RootRef) (change : Root → Root) (path : ∀ r, (change r).path = r.path)
    (destroy : ∀ r, r.destroy = true → (change r).destroy = true)
    (queue : ∀ r, (change r).queue = none → r.queue = none) :
    Lifecycle (roots.setRoot root change) threads := by
  have settles := Settles.setRoot roots root change path destroy
  refine { life with named := ?_, freed := ?_, flagged := ?_ }
  · intro key other at_ text named
    rw [settles.paths] at named
    exact life.named key other at_ text named
  · intro key other at_ freed
    apply life.freed key other at_
    by_cases same : other = root
    · subst same
      rw [RootTable.heap_setRoot_self] at freed
      exact queue _ freed
    · rwa [RootTable.heap_setRoot_of_ne same] at freed
  · exact fun thread member other mine => settles.destroyed other (life.flagged thread member other mine)

theorem mark (root : RootRef) : Lifecycle (roots.setRoot root fun r => { r with destroy := true }) threads := by
  apply life.setRoot root (fun r => { r with destroy := true }) (fun _ => rfl)
  · exact fun _ _ => rfl
  · exact fun _ => id

theorem join {root : RootRef} (marked : Marked root roots threads) :
    Lifecycle roots (threads ++ [.destroyRoot root]) := by
  apply life.spawn
  intro other is
  cases is
  exact marked

theorem register {path : Str} (new : roots.inotifyRoots.lookup path = none) (absolute : path.head? = some '/')
    {made : Root} (is : Made path made) : Lifecycle (roots.register path made) threads := by
  have old : ∀ root, root < roots.nextRoot → (roots.register path made).heap root = roots.heap root := by
    intro root below
    exact Function.update_of_ne (Nat.ne_of_lt below) _ _
  have lookups : ∀ key root, (roots.register path made).inotifyRoots.lookup key = some root →
      (key = path ∧ root = roots.nextRoot) ∨ (key ≠ path ∧ roots.inotifyRoots.lookup key = some root) := by
    intro key root at_
    simp only [RootTable.register, GHashTable.lookup_insert_if] at at_
    split at at_
    · exact .inl ⟨‹_›, (Option.some.inj at_).symm⟩
    · exact .inr ⟨‹_›, at_⟩
  have mine : ∀ thread ∈ threads, ∀ root, thread.destroys = some root → root < roots.nextRoot := by
    intro thread member root destroys
    obtain ⟨key, at_⟩ := life.registered thread member root destroys
    exact life.made key root at_
  constructor
  · intro key root at_
    rcases lookups key root at_ with ⟨_, rfl⟩ | ⟨_, before⟩
    · exact Nat.lt_succ_self _
    · exact Nat.lt_succ_of_lt (life.made key root before)
  · intro key root at_ text named
    rcases lookups key root at_ with ⟨rfl, rfl⟩ | ⟨_, before⟩
    · have cell : (roots.register key made).heap roots.nextRoot = made := Function.update_self _ _ _
      rw [cell] at named
      rcases is.path with whole | missing
      · rw [whole] at named
        exact (Option.some.inj named).symm
      · rw [missing] at named
        cases named
    · rw [old root (life.made key root before)] at named
      exact life.named key root before text named
  · intro key other root one two
    rcases lookups key root one with ⟨rfl, rfl⟩ | ⟨_, before⟩ <;> rcases lookups other _ two with ⟨rfl, last⟩ | ⟨_, before'⟩
    · rfl
    · exact absurd (life.made other _ before') (Nat.lt_irrefl _)
    · exact absurd (last ▸ life.made key root before) (Nat.lt_irrefl _)
    · exact life.single key other root before before'
  · have longer := GHashTable.length_keys_insert new roots.nextRoot
    have counted := life.count
    simp only [RootTable.register, longer]
    omega
  · intro key member
    rcases RootTable.mem_keys_register member with rfl | before
    · exact absolute
    · exact life.absolute key before
  · intro key root at_ freed
    rcases lookups key root at_ with ⟨rfl, rfl⟩ | ⟨_, before⟩
    · have cell : (roots.register key made).heap roots.nextRoot = made := Function.update_self _ _ _
      rw [cell, is.queue] at freed
      cases freed
    · rw [old root (life.made key root before)] at freed
      exact life.freed key root before freed
  · intro thread member root destroys
    rw [old root (mine thread member root destroys)]
    exact life.flagged thread member root destroys
  · intro thread member root destroys
    obtain ⟨key, at_⟩ := life.registered thread member root destroys
    refine ⟨key, ?_⟩
    have differs : key ≠ path := by
      rintro rfl
      rw [new] at at_
      cases at_
    rw [RootTable.register, AList.lookup_insert_ne differs]
    exact at_
  · exact life.once

end Lifecycle

/-! ## Properties that build on the life of roots -/

section
variable [System σ]

theorem Steady.of_life (inv : RootTable → List Thread → Prop)
    (spawned : ∀ (roots : RootTable) (threads : List Thread) (thread : Thread), thread.destroys = none →
      inv roots threads → inv roots (threads ++ [thread]))
    (step : ∀ {roots after : RootTable} {threads : List Thread} {index : Nat} {thread next : Thread},
      threads[index]? = some thread → LifeEffect thread next roots after → inv roots threads →
        inv after (threads.set index next)) : Steady fun w : World σ => inv w.roots w.pool.threads where
  quiet rests holds := by rwa [rests.roots, rests.threads]
  spawned thread fresh holds := spawned _ _ thread fresh.destroys holds
  run index := by
    intro w holds _ w' ran
    obtain ⟨_, rfl⟩ | ⟨thread, next, v, found, stepped, rfl⟩ := runThread_eq_ok ran
    · exact holds
    · have same := (threadStep_effect stepped).threads
      have after := step found (threadStep_life stepped).1 holds
      rwa [← same] at after

theorem steady_life : Steady fun w : World σ => Lifecycle w.roots w.pool.threads := by
  apply Steady.of_life
  · intro roots threads thread plain life
    exact life.spawn thread fun root mine => by rw [plain] at mine; cases mine
  · exact fun found effect life => life.step found effect

theorem steady_unused : Steady fun w : World σ => w.output.releasedQueueUsed = false where
  quiet rests holds := by rwa [rests.released]
  spawned _ _ holds := holds
  run index := by
    intro w holds _ w' ran
    obtain ⟨_, rfl⟩ | ⟨thread, next, v, _, stepped, rfl⟩ := runThread_eq_ok ran
    · exact holds
    · have same := (threadStep_life stepped).2
      exact same.trans holds

/-- What a property must survive itself, once it implies that the roots lead their lives. -/
structure Living (inv : World σ → Prop) : Prop extends SteadyMute inv, Thinning inv where
  life : ∀ w, inv w → Lifecycle w.roots w.pool.threads
  registers : ∀ (w : World σ) (path : Str) (made : Root), inv w → w.roots.inotifyRoots.lookup path = none →
    path.head? = some '/' → Made path made → inv { w with roots := w.roots.register path made }
  pauses : ∀ (w : World σ) (root : RootRef) (pause : Bool), inv w →
    inv { w with roots := w.roots.setRoot root fun r => { r with pause := pause } }
  queues : ∀ (w : World σ) (root : RootRef) (queue : List Event), inv w →
    inv { w with roots := w.roots.setRoot root fun r => { r with queue := r.queue.map fun _ => queue } }
  uses : ∀ (w : World σ) (key : Str) (root : RootRef), inv w → Live key root w.roots →
    inv { w with output.releasedQueueUsed := w.output.releasedQueueUsed || (w.roots.heap root).queue.isNone }

theorem steady_unregistered (path : Str) :
    Steady fun w : World σ => w.roots.inotifyRoots.lookup path = none := by
  apply steady_of_shrinks fun roots => roots.inotifyRoots.lookup path = none
  intro before after shrinks new
  by_contra found
  obtain ⟨root, at_⟩ := Option.ne_none_iff_exists'.mp found
  rw [shrinks.kept path root at_] at new
  cases new

theorem watchTreeCheck_new (path : Str) : Triple (fun _ : World σ => True) (watchTreeCheck path)
    fun code w => code = none → w.roots.inotifyRoots.lookup path = none := by
  have steady := steady_unregistered (σ := σ) path
  unfold watchTreeCheck
  refine Triple.bind (Steady.always.lock .inotify) ?_
  intro _ w _ code w' ran
  obtain ⟨found, v, searching, ran⟩ := Program.bind_eq_ok ran
  obtain ⟨is, s, rfl⟩ := inotifyPathToRoot_eq_ok searching
  cases found with
  | some root =>
    obtain ⟨_, u, _, ran⟩ := Program.bind_eq_ok ran
    simp only [getRoot_bind, deref_bind_eq_ok, Program.ite_eq_ok, Program.pure_eq_ok] at ran
    obtain ⟨rootPath, _, ⟨_, ⟨_, rfl, _⟩ | ⟨_, rfl, _⟩⟩ | ⟨_, rfl, _⟩⟩ := ran <;> exact nofun
  | none =>
    have new : w.roots.inotifyRoots.lookup path = none := by
      rw [GHashTable.lookup_eq_none_iff]
      exact fun member => (pathToRoot_eq_none is.symm).2 path member (.inl rfl)
    intro _
    have later : Keeps (fun w : World σ => w.roots.inotifyRoots.lookup path = none)
        (do
          let subPath ← inotifyIsParent path
          unlock .inotify
          return if subPath.isSome then some .inotifyParentOfRoot else none : M σ (Option InotispyError)) := by
      apply Keeps.bind (steady.still.inotifyIsParent path)
      intro subPath
      apply Keeps.bind (steady.unlock .inotify)
      exact fun _ => Keeps.pure'
    exact later { w with sys := s } new code w' ran

omit [System σ] in
theorem trimSlash_absolute {path : Str} (absolute : path.head? = some '/') :
    (trimSlash path).head? = some '/' := by
  unfold trimSlash
  split
  · rename_i trimmed
    match path, absolute, trimmed with
    | [first], absolute, trimmed =>
      obtain rfl : first = '/' := by simpa using absolute
      exact absurd rfl trimmed.2
    | first :: second :: rest, absolute, _ => exact absolute
  · exact absolute

namespace Living

variable {inv : World σ → Prop} (living : Living inv)
include living

theorem checks (path : Str) : Triple inv (watchTreeCheck path) fun code w =>
    inv w ∧ (code = none → w.roots.inotifyRoots.lookup path = none) :=
  Triple.and (watchTreeCheck_keeps living.toSteady _) ((watchTreeCheck_new _).strengthen fun _ _ => trivial)

theorem watches (path : Str) (mask : UInt32) (maxEvents : Int32) (rewatch : Bool)
    (absolute : path.head? = some '/') : Keeps inv (inotifyWatchTree path mask maxEvents rewatch) := by
  have steady := living.toSteady
  apply inotifyWatchTree_triple steady (steady.and (steady_unregistered (trimSlash path)))
  · exact living.checks (trimSlash path)
  · exact fun w holds new made is _ => living.registers w _ made holds new (trimSlash_absolute absolute) is

theorem setPause (pause : Bool) (path : Str) : Keeps inv (setPause pause path) := by
  have steady := living.toSteady
  apply Keeps.bind (steady.lock .inotify)
  intro _
  apply Keeps.bind Keeps.read'
  intro found
  cases found with
  | none =>
    apply Keeps.bind (steady.unlock .inotify)
    exact fun _ => Keeps.pure'
  | some root =>
    apply Keeps.bind
    · exact Keeps.update' fun w => living.pauses w root pause
    intro _
    apply Keeps.bind (steady.unlock .inotify)
    exact fun _ => Keeps.pure'

theorem marked (root : RootRef) : Steady fun w : World σ => inv w ∧ Marked root w.roots w.pool.threads where
  quiet rests holds := ⟨living.quiet rests holds.1, by rw [rests.roots, rests.threads]; exact holds.2⟩
  spawned thread fresh holds := by
    refine ⟨living.spawned thread fresh holds.1, holds.2.flag, holds.2.registered, ?_⟩
    intro other member
    rcases List.mem_append.mp member with old | new
    · exact holds.2.unserved other old
    · rw [List.mem_singleton.mp new, fresh.destroys]
      exact nofun
  run index := by
    intro w holds a w' ran
    refine ⟨living.run index w holds.1 a w' ran, ?_⟩
    obtain ⟨_, rfl⟩ | ⟨thread, next, v, found, stepped, rfl⟩ := runThread_eq_ok ran
    · exact holds.2
    · have same := (threadStep_effect stepped).threads
      have after := Marked.step found (living.life w holds.1) holds.2 (threadStep_life stepped).1
      rwa [← same] at after

theorem live (key : Str) (root : RootRef) : Steady fun w : World σ => inv w ∧ Live key root w.roots where
  quiet rests holds := ⟨living.quiet rests holds.1, by rw [rests.roots]; exact holds.2⟩
  spawned thread fresh holds := ⟨living.spawned thread fresh holds.1, holds.2⟩
  run index := by
    rintro w ⟨holds, live⟩ a w' ran
    refine ⟨living.run index w holds a w' ran, ?_⟩
    obtain ⟨_, rfl⟩ | ⟨thread, next, v, found, stepped, rfl⟩ := runThread_eq_ok ran
    · exact live
    · exact live.step found (living.life w holds) (threadStep_life stepped).1

theorem unwatches (path : Str)
    (marks : ∀ (w : World σ) (root : RootRef), inv w →
      w.roots.inotifyRoots.lookup (trimLastSlash path) = some root → (w.roots.heap root).destroy = false →
        inv { w with roots := w.roots.setRoot root fun r => { r with destroy := true } })
    (joins : ∀ (w : World σ) (root : RootRef), inv w → Marked root w.roots w.pool.threads →
      inv { w with pool.threads := w.pool.threads ++ [.destroyRoot root] }) :
    Keeps inv (inotifyUnwatchTree path) := by
  apply inotifyUnwatchTree_triple (fun root w => Marked root w.roots w.pool.threads) path living.marked
  · intro w root holds registered running
    refine ⟨marks w root holds registered running, ?_, ⟨_, registered⟩, ?_⟩
    · simp only [RootTable.heap_setRoot_self]
    -- A destroy thread would have found the flag set.
    · intro thread member mine
      have flag := (living.life w holds).flagged thread member root mine
      rw [running] at flag
      cases flag
  · exact fun w root holds => joins w root holds.1 holds.2

/-- Events are only offered to the queue of a root that is not being destroyed. -/
theorem records (event : InEvent) : Keeps inv (inotifyHandleRecord event) := by
  apply inotifyHandleRecord_triple (fun _ root w => ∃ key, Live key root w.roots) living.toSteady
    (fun _ root => .of_each fun key => living.live key root)
  · intro path root
    constructor
    · exact fun w wd watches thins others holds => ⟨living.removes w wd watches thins others holds.1, holds.2⟩
    · exact fun w path holds => ⟨living.erases w path holds.1, holds.2⟩
  · intro w wd watch root _ _ served running
    obtain ⟨key, registered, _⟩ := pathToRoot_eq_some served
    exact ⟨key, registered, running⟩
  · intro path root
    refine Triple.weaken (inotifyEnqueue_keeps (Steady.of_each fun key => living.live key root) ?_ ?_ event)
      fun _ _ => And.left
    · rintro w ⟨holds, key, live⟩
      exact ⟨living.uses w key root holds live, key, live⟩
    · rintro w node _ ⟨holds, key, live⟩
      refine ⟨living.queues w root _ holds, key, live.registered, ?_⟩
      simp only [RootTable.heap_setRoot_self]
      exact live.running

theorem gets (uses : ∀ root, Uses inv root) (path : Str) (count : Int32) : Keeps inv (inotifyGetEvents path count) := by
  apply Keeps.bind Keeps.read'
  intro found
  cases found with
  | none => exact Keeps.pure'
  | some root =>
    apply inotifyDequeue_keeps living.toSteady (uses root)
    exact fun w taken holds => living.queues w root _ holds

theorem serves {req : Request}
    (unwatches : req.call = some (str "unwatch") → ∀ path, requestGetPath req = some path →
      Keeps inv (inotifyUnwatchTree path))
    (gets : req.call = some (str "get_events") ∨ req.call = some (str "pause") →
      ∀ path count, requestGetPath req = some path → Keeps inv (inotifyGetEvents path count)) :
    ServesRequests inv req where
  toSteadyMute := living.toSteadyMute
  watches := living.watches
  unwatches := unwatches
  pauses := living.setPause
  gets := gets
  sizes key root := by
    rintro w ⟨holds, registered, running⟩ queue w' ran
    have ran' : (rootQueue root >>= pure) w = .ok (queue, w') := by rwa [bind_pure]
    rw [rootQueue_bind, Program.pure_eq_ok] at ran'
    rw [ran'.2]
    exact living.uses w key root holds ⟨registered, running⟩

end Living

theorem Living.of_roots (also : RootTable → List Thread → Prop)
    (spawned : ∀ (roots : RootTable) (threads : List Thread) (thread : Thread), thread.destroys = none →
      also roots threads → also roots (threads ++ [thread]))
    (step : ∀ {roots after : RootTable} {threads : List Thread} {index : Nat} {thread next : Thread},
      threads[index]? = some thread → LifeEffect thread next roots after → Lifecycle roots threads →
        also roots threads → also after (threads.set index next))
    (registers : ∀ (roots : RootTable) (threads : List Thread) (path : Str) (made : Root), Lifecycle roots threads →
      roots.inotifyRoots.lookup path = none → also roots threads → also (roots.register path made) threads)
    (changes : ∀ (roots : RootTable) (threads : List Thread) (root : RootRef) (change : Root → Root),
      (∀ r, (change r).destroy = r.destroy) → also roots threads → also (roots.setRoot root change) threads) :
    Living fun w : World σ => Lifecycle w.roots w.pool.threads ∧ also w.roots w.pool.threads where
  toSteady := by
    apply Steady.of_life fun roots threads => Lifecycle roots threads ∧ also roots threads
    · intro roots threads thread plain holds
      refine ⟨holds.1.spawn thread ?_, spawned roots threads thread plain holds.2⟩
      intro root mine
      rw [plain] at mine
      cases mine
    · exact fun found effect holds => ⟨holds.1.step found effect, step found effect holds.1 holds.2⟩
  mute _ _ := id
  removes _ _ _ _ _ := id
  erases _ _ := id
  life _ := And.left
  registers w path made holds new absolute is :=
    ⟨holds.1.register new absolute is, registers _ _ path made holds.1 new holds.2⟩
  pauses w root pause holds := by
    constructor
    · apply holds.1.setRoot root (fun r => { r with pause := pause }) (fun _ => rfl)
      · exact fun _ => id
      · exact fun _ => id
    · exact changes _ _ root (fun r => { r with pause := pause }) (fun _ => rfl) holds.2
  queues w root queue holds := by
    constructor
    · apply holds.1.setRoot root (fun r => { r with queue := r.queue.map fun _ => queue }) (fun _ => rfl)
      · exact fun _ => id
      · exact fun _ => Option.map_eq_none_iff.mp
    · exact changes _ _ root (fun r => { r with queue := r.queue.map fun _ => queue }) (fun _ => rfl) holds.2
  uses _ _ _ holds _ := holds

theorem living_life : Living fun w : World σ => Lifecycle w.roots w.pool.threads ∧ True :=
  .of_roots (fun _ _ => True) (fun _ _ _ _ => id) (fun _ _ _ => id) (fun _ _ _ _ _ _ => id) fun _ _ _ _ _ => id

/-- As long as a property is kept, events are only handed to queues that are there. -/
theorem Living.unused {inv : World σ → Prop} (living : Living inv) :
    Living fun w => inv w ∧ w.output.releasedQueueUsed = false where
  toSteady := living.toSteady.and steady_unused
  mute w socket holds := ⟨living.mute w socket holds.1, holds.2⟩
  removes w wd watches thins others holds := ⟨living.removes w wd watches thins others holds.1, holds.2⟩
  erases w path holds := ⟨living.erases w path holds.1, holds.2⟩
  life w holds := living.life w holds.1
  registers w path made holds new absolute is := ⟨living.registers w path made holds.1 new absolute is, holds.2⟩
  pauses w root pause holds := ⟨living.pauses w root pause holds.1, holds.2⟩
  queues w root queue holds := ⟨living.queues w root queue holds.1, holds.2⟩
  uses w key root holds live := by
    refine ⟨living.uses w key root holds.1 live, ?_⟩
    have there := (living.life w holds.1).queue_of_live live
    simp only [holds.2, Bool.false_or, Option.isNone_eq_false_iff]
    exact Option.isSome_iff_ne_none.mpr there

end

theorem Lifecycle.initial (sys : σ) :
    Lifecycle (World.initial sys).roots (World.initial sys).pool.threads := by
  constructor <;> simp [World.initial]

section
variable [System σ]

theorem ServerStep.life {action : Action} {w w' : World σ} (step : ServerStep action w w')
    (life : Lifecycle w.roots w.pool.threads) : Lifecycle w'.roots w'.pool.threads := by
  have living := living_life (σ := σ)
  refine (step.keeps ⟨life, trivial⟩ living.toSteadyMute (fun req _ => ?_) living.watches living.records).1
  apply living.serves
  · intro _ path _
    apply living.unwatches
    · exact fun w root holds _ _ => ⟨holds.1.mark root, trivial⟩
    · exact fun w root holds marked => ⟨holds.1.join marked, trivial⟩
  · exact fun _ path count _ => living.gets (fun _ _ => id) path count

/-- In all states of the daemon the roots lead their lives. -/
theorem Served.life {w : World σ} (served : Served w) : Lifecycle w.roots w.pool.threads := by
  obtain ⟨sys, run⟩ := served
  induction run with
  | refl => exact .initial sys
  | tail _ step ih =>
    obtain ⟨action, step⟩ := step
    exact step.life ih

end

end Inotispy
