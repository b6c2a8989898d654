import Inotispy.Events.Interleaving
import Inotispy.Library.Path
import Inotispy.Model.Daemon
import Inotispy.Model.Script

/-! The root that an event goes to.

The search takes the first key that, followed by a slash, occurs in the path, wherever it
occurs. It finds an owner of the path in every order of the table exactly when no key
occurs in the middle of the path only.
-/

set_option autoImplicit false

namespace Inotispy
open Library
open Library.Path (Ancestor)

variable {σ : Type} [System σ]

/-- The directory at `path` is the root's own or lies below it. -/
def Covers (key path : Str) : Prop := key = path ∨ Ancestor key path

instance (key path : Str) : Decidable (Covers key path) := inferInstanceAs (Decidable (_ ∨ _))

/-- If the key occurs in the path as a directory, it does so at the start. -/
def Readable (key path : Str) : Prop := key ++ str "/" <:+: path → key ++ str "/" <+: path

instance (key path : Str) : Decidable (Readable key path) := inferInstanceAs (Decidable (_ → _))

/-- What the search should find: a root that covers the path, if there is one. -/
def RightRoot (roots : RootTable) (path : Str) : Option RootRef → Prop
  | some root => ∃ key, roots.inotifyRoots.lookup key = some root ∧
      (roots.heap root).path = some key ∧ Covers key path
  | none => ∀ key ∈ roots.inotifyRoots.keys, ¬Covers key path

theorem covers_top (path : Str) : Covers (str "/") path := by
  by_cases same : str "/" = path
  · exact .inl same
  · exact .inr (.inl ⟨rfl, Ne.symm same⟩)

theorem not_slash_infix_self (key : Str) : ¬key ++ str "/" <:+: key := by
  intro inside
  have long := inside.length_le
  have one : (str "/").length = 1 := rfl
  rw [List.length_append] at long
  omega

theorem covers_iff_of_readable {key path : Str} (differs : key ≠ str "/") (readable : Readable key path) :
    Covers key path ↔ Matches path key := by
  constructor
  · rintro (same | ⟨top, _⟩ | below)
    · exact .inl same.symm
    · exact absurd top differs
    · exact .inr below.isInfix
  · rintro (same | inside)
    · exact .inl same.symm
    · exact .inr (.inr (readable inside))

theorem readable_of_covers {key path : Str} (differs : key ≠ str "/") (covers : Covers key path) :
    Readable key path := by
  intro inside
  rcases covers with rfl | ⟨top, _⟩ | below
  · exact absurd inside (not_slash_infix_self key)
  · exact absurd top differs
  · exact below

def AllReadable (roots : RootTable) (path : Str) : Prop :=
  str "/" ∈ roots.inotifyRoots.keys ∨ ∀ key ∈ roots.inotifyRoots.keys, Readable key path

instance (roots : RootTable) (path : Str) : Decidable (AllReadable roots path) :=
  inferInstanceAs (Decidable (_ ∨ _))

theorem pathToRoot_right {roots : RootTable} (registered : Registered roots) {path : Str}
    (readable : AllReadable roots path) : RightRoot roots path (roots.pathToRoot path) := by
  cases found : roots.pathToRoot path with
  | some root =>
    obtain ⟨key, lookup, how⟩ := pathToRoot_eq_some found
    refine ⟨key, lookup, registered.named key root lookup, ?_⟩
    rcases how with rfl | ⟨noTop, hit⟩
    · exact covers_top path
    · have member := (GHashTable.mem_keys_iff _ _).mpr ⟨root, lookup⟩
      have differs : key ≠ str "/" := fun same => noTop (same ▸ member)
      exact (covers_iff_of_readable differs ((readable.resolve_left noTop) key member)).mpr hit
  | none =>
    obtain ⟨noTop, unmatched⟩ := pathToRoot_eq_none found
    intro key member covers
    have differs : key ≠ str "/" := fun same => noTop (same ▸ member)
    have readable := (readable.resolve_left noTop) key member
    exact unmatched key member ((covers_iff_of_readable differs readable).mp covers)

/-- A table with the same entries, listed in another order. -/
def RootTable.reordered (roots : RootTable) (order : GHashTable Str RootRef) : RootTable :=
  { roots with inotifyRoots := order }

/-- A key that does not read right is found first in some order. -/
theorem exists_wrong_order {roots : RootTable} (registered : Registered roots) {path key : Str}
    (noTop : str "/" ∉ roots.inotifyRoots.keys) (member : key ∈ roots.inotifyRoots.keys)
    (misread : ¬Readable key path) :
    ∃ order, order.entries.Perm roots.inotifyRoots.entries ∧
      ¬RightRoot (roots.reordered order) path ((roots.reordered order).pathToRoot path) := by
  obtain ⟨root, lookup⟩ := (GHashTable.mem_keys_iff _ _).mp member
  have differs : key ≠ str "/" := fun same => noTop (same ▸ member)
  obtain ⟨inside, notStart⟩ := Classical.not_imp.mp misread
  -- Inserting the key again moves its entry to the front.
  let order := roots.inotifyRoots.insert key root
  have same : ∀ other, order.lookup other = roots.inotifyRoots.lookup other := by
    intro other
    rw [GHashTable.lookup_insert_if]
    split
    · rw [‹other = key›, lookup]
    · rfl
  refine ⟨order, ?_, ?_⟩
  · apply List.lookup_ext order.nodupKeys roots.inotifyRoots.nodupKeys
    intro other value
    change value ∈ order.lookup other ↔ value ∈ roots.inotifyRoots.lookup other
    rw [same]
  · have top : order.lookup (str "/") = none := by
      rw [same, GHashTable.lookup_eq_none_iff]
      exact noTop
    have found : (roots.reordered order).pathToRoot path = some root := by
      have hit : Matches path key := .inr inside
      have first : order.keys.find? (Matches path ·) = some key := by
        rw [AList.keys_insert, List.find?_cons_of_pos (by simpa using hit)]
      simp only [RootTable.pathToRoot, RootTable.reordered, top, first, Option.bind_some, same, lookup]
    rw [found]
    rintro ⟨other, _, named, covers⟩
    have named' := registered.named key root lookup
    obtain rfl : other = key := Option.some.inj (named.symm.trans named')
    exact notStart (readable_of_covers differs covers inside)

/-! ## Where queued events come from -/

/-- A search from a directory that was watched at some time led to the root. -/
structure Leads (roots : RootTable) (watches : WatchTable) (path : Str) (root : RootRef) : Prop where
  made : root < roots.nextRoot
  key : ∃ key, (roots.heap root).path = some key ∧ (key = str "/" ∨ Matches path key)
  watched : ∃ walker watch, (walker, watch) ∈ watches.inserted ∧ watch.path = path

/-- Watches in the tables were entered by a walker, and queued events were searched for. -/
structure Traced (roots : RootTable) (watches : WatchTable) : Prop where
  registered : Registered roots
  filed : ∀ wd watch, watches.inotifyWdToWatch.lookup wd = some watch →
    ∃ walker, (walker, watch) ∈ watches.inserted
  queued : ∀ root, ∀ event ∈ (roots.heap root).events,
    ∃ path, event.path = some path ∧ Leads roots watches path root

section
variable {roots after : RootTable} {watches left : WatchTable}

theorem Leads.mono {path : Str} {root : RootRef} (leads : Leads roots watches path root)
    (paths : (after.heap root).path = (roots.heap root).path) (next : roots.nextRoot ≤ after.nextRoot)
    (inserted : watches.inserted ⊆ left.inserted) : Leads after left path root := by
  refine ⟨Nat.lt_of_lt_of_le leads.made next, paths ▸ leads.key, ?_⟩
  obtain ⟨walker, watch, member, same⟩ := leads.watched
  exact ⟨walker, watch, inserted member, same⟩

theorem Leads.shrink {path : Str} {root : RootRef} (leads : Leads roots watches path root)
    (shrinks : Shrinks roots after) : Leads after watches path root :=
  leads.mono (shrinks.paths root) (Nat.le_of_eq shrinks.nextRoot.symm) fun _ => id

theorem Traced.shrink (holds : Traced roots watches) (shrinks : Shrinks roots after) :
    Traced after watches := by
  refine ⟨shrinks.registered holds.registered, holds.filed, fun root event member => ?_⟩
  obtain ⟨path, copied, leads⟩ := holds.queued root event (shrinks.events root event member)
  exact ⟨path, copied, leads.shrink shrinks⟩

theorem Traced.thin (holds : Traced roots watches) (thins : Thins watches left) : Traced roots left := by
  have inserted := thins.inserted
  refine ⟨holds.registered, fun wd watch found => ?_, fun root event member => ?_⟩
  · rw [inserted]
    exact holds.filed wd watch (thins.byWd wd watch found)
  · obtain ⟨path, copied, leads⟩ := holds.queued root event member
    exact ⟨path, copied, leads.mono rfl (Nat.le_refl _) (by simp [inserted])⟩

end

theorem inserted_subset {thread : Thread} {w : World σ} {watches : WatchTable}
    (effect : WatchesEffect thread w watches) : w.watches.inserted ⊆ watches.inserted := by
  cases effect with
  | same next => exact fun _ => id
  | file data path rest is files => exact fun _ => List.mem_append_left _
  | forget path watch how => exact fun _ => id

theorem Traced.watchesEffect {w : World σ} (holds : Traced w.roots w.watches) {thread : Thread}
    {watches : WatchTable} (effect : WatchesEffect thread w watches) : Traced w.roots watches := by
  have grows := inserted_subset effect
  refine ⟨holds.registered, fun wd watch found => ?_, fun root event member => ?_⟩
  -- Events stay where they are, and what led them there is not forgotten.
  case refine_2 =>
    obtain ⟨path, copied, leads⟩ := holds.queued root event member
    exact ⟨path, copied, leads.mono rfl (Nat.le_refl _) grows⟩
  cases effect with
  | same next => exact holds.filed wd watch found
  | forget path gone how => exact holds.filed wd watch (Thins.lookup_of_erase found)
  | file data path rest is files =>
    simp only [WatchTable.file, GHashTable.lookup_insert_if] at found ⊢
    split at found
    · cases found
      exact ⟨data.root, List.mem_append_right _ (List.mem_singleton.mpr rfl)⟩
    · obtain ⟨walker, member⟩ := holds.filed wd watch found
      exact ⟨walker, List.mem_append_left _ member⟩

theorem steady_traced : Steady fun w : World σ => Traced w.roots w.watches :=
  .of_tables Traced fun effect holds =>
    (holds.watchesEffect effect.watches).shrink (.of_effect effect.roots)

theorem steady_leads (path : Str) (root : RootRef) :
    Steady fun w : World σ => Leads w.roots w.watches path root :=
  .of_tables (fun roots watches => Leads roots watches path root) fun effect holds =>
    (holds.shrink (.of_effect effect.roots)).mono rfl (Nat.le_refl _) (inserted_subset effect.watches)

/-! ## One step -/

theorem Traced.leads {roots : RootTable} {watches : WatchTable} (holds : Traced roots watches) {wd : Int}
    {watch : Watch} {root : RootRef} (known : watches.inotifyWdToWatch.lookup wd = some watch)
    (served : roots.pathToRoot watch.path = some root) : Leads roots watches watch.path root := by
  obtain ⟨key, registered, how⟩ := pathToRoot_eq_some served
  obtain ⟨walker, member⟩ := holds.filed wd watch known
  exact ⟨holds.registered.made key root registered,
    ⟨key, holds.registered.named key root registered, how.imp_right And.right⟩, walker, watch, member, rfl⟩

theorem Traced.enqueue {roots : RootTable} {watches : WatchTable} (holds : Traced roots watches)
    {path : Str} {root : RootRef} (leads : Leads roots watches path root) {node : Event}
    (copied : node.path = some path) :
    Traced (roots.setRoot root fun r =>
      { r with queue := r.queue.map fun _ => (roots.heap root).events ++ [node] }) watches := by
  have paths : ∀ other, ((roots.setRoot root fun r =>
      { r with queue := r.queue.map fun _ => (roots.heap root).events ++ [node] }).heap other).path =
        (roots.heap other).path :=
    fun other => RootTable.field_setRoot Root.path (fun _ => by rfl) roots root other
  refine ⟨⟨fun key other found => ?_, holds.registered.made⟩, holds.filed,
    fun other queued member => ?_⟩
  · rw [paths]
    exact holds.registered.named key other found
  have known : ∃ path, queued.path = some path ∧ Leads roots watches path other := by
    by_cases same : other = root
    · subst same
      rw [RootTable.heap_setRoot_self, Root.events] at member
      cases queue : (roots.heap other).queue with
      | none => simp [queue] at member
      | some events =>
        rw [queue, Option.map_some, Option.getD_some] at member
        rcases List.mem_append.mp member with old | new
        · exact holds.queued other queued old
        · cases List.mem_singleton.mp new
          exact ⟨path, copied, leads⟩
    · rw [RootTable.heap_setRoot_of_ne same] at member
      exact holds.queued other queued member
  obtain ⟨path', copied, leads'⟩ := known
  exact ⟨path', copied, leads'.mono (paths other) (Nat.le_refl _) fun _ => id⟩

section
variable (succeed : AllocationsSucceed σ)
include succeed

theorem inotifyEnqueue_traced (root : RootRef) (event : InEvent) (path : Str) :
    Triple (fun w : World σ => Traced w.roots w.watches ∧ Leads w.roots w.watches path root)
      (inotifyEnqueue root event path) fun _ w => Traced w.roots w.watches := by
  have steady := (steady_traced (σ := σ)).and (steady_leads path root)
  refine (inotifyEnqueue_keeps steady (fun _ => id) ?_ event).weaken fun _ _ => And.left
  intro w node copied holds
  exact ⟨holds.1.enqueue holds.2 (copied succeed),
    holds.2.mono (by simp) (Nat.le_refl _) fun _ => id⟩

theorem inotifyHandleRecord_traced (event : InEvent) :
    Keeps (fun w : World σ => Traced w.roots w.watches) (inotifyHandleRecord event) := by
  refine inotifyHandleRecord_triple (fun path root w => Leads w.roots w.watches path root)
    steady_traced (fun path root => steady_traced.and (steady_leads path root)) ?_ event
    (fun _ _ _ _ holds known served _ => holds.leads known served) fun path root => inotifyEnqueue_traced succeed root event path
  intro path root
  refine .of_thins (fun _ _ => id) fun w watches thins holds => ?_
  exact ⟨holds.1.thin thins, holds.2.mono rfl (Nat.le_refl _) (by simp [thins.inserted])⟩

end

/-! ## Runs -/

theorem Traced.register {roots : RootTable} {watches : WatchTable} (holds : Traced roots watches)
    {path : Str} {made : Root} (named : made.path = some path) (unused : made.queue = some []) :
    Traced (roots.register path made) watches := by
  refine ⟨holds.registered.register named, holds.filed, fun root event member => ?_⟩
  by_cases same : root = roots.nextRoot
  · subst same
    simp [RootTable.register, Root.events, unused] at member
  · simp only [RootTable.register, Function.update_of_ne same] at member
    obtain ⟨path', copied, leads⟩ := holds.queued root event member
    refine ⟨path', copied, leads.mono ?_ (Nat.le_succ _) fun _ => id⟩
    simp [RootTable.register, Function.update_of_ne same]

omit [System σ] in
theorem traced_initial (sys : σ) : Traced (World.initial sys).roots (World.initial sys).watches :=
  ⟨.empty rfl, by simp [World.initial], fun _ _ => nofun⟩

theorem DaemonStep.traced (succeed : AllocationsSucceed σ) {w w' : World σ} (step : DaemonStep w w')
    (holds : Traced w.roots w.watches) : Traced w'.roots w'.watches := by
  have steady := steady_traced (σ := σ)
  have inPlace : InPlace fun w : World σ => Traced w.roots w.watches :=
    .of_shrinks fun _ _ shrinks holds => holds.shrink shrinks
  cases step with
  | watch ran =>
    refine inotifyWatchTree_keeps steady ?_ _ _ _ w holds _ _ ran
    intro v holds made is named
    exact holds.register (named succeed) is.queue
  | unwatch ran => exact inotifyUnwatchTree_keeps steady inPlace (fun _ _ => id) _ w holds _ _ ran
  | pause ran => exact setPause_keeps steady inPlace _ _ w holds _ _ ran
  | getEvents ran => exact inotifyGetEvents_keeps steady inPlace (fun _ _ => id) _ _ w holds _ _ ran
  | record ran => exact inotifyHandleRecord_traced succeed _ w holds _ _ ran
  | memclean ran => exact steady.still.inotifyMemclean w holds _ _ ran
  | rewatchRoots ran => exact steady.inotifyRewatchRoots w holds _ _ ran
  | dumpRoots ran => exact steady.inotifyDumpRoots w holds _ _ ran
  | thread ran => exact steady.run _ w holds _ _ ran
  | schedule turns => exact holds

/-- No root watched in the run occurs, as a directory, in the middle only of the path of a
directory that was watched. -/
def RunReadable (w : World σ) : Prop :=
  ∀ root < w.roots.nextRoot, ∀ key, (w.roots.heap root).path = some key → key ≠ str "/" →
    ∀ entry ∈ w.watches.inserted, Readable key entry.2.path

theorem Reachable.traced (succeed : AllocationsSucceed σ) {w : World σ} (reachable : Reachable w) :
    Traced w.roots w.watches := by
  obtain ⟨sys, run⟩ := reachable
  induction run with
  | refl => exact traced_initial sys
  | tail _ next ih =>
    cases next with
    | step next => exact next.traced succeed ih
    | restart sys => exact traced_initial sys

theorem event_covered (succeed : AllocationsSucceed σ) {w : World σ} (reachable : Reachable w)
    (readable : RunReadable w)
    {root : RootRef} {event : Event} (member : event ∈ (w.roots.heap root).events) :
    ∃ key path, (w.roots.heap root).path = some key ∧ event.path = some path ∧ Covers key path := by
  obtain ⟨path, copied, made, ⟨key, named, how⟩, walker, watch, entered, rfl⟩ :=
    (reachable.traced succeed).queued root event member
  refine ⟨key, watch.path, named, copied, ?_⟩
  by_cases top : key = str "/"
  · rw [top]
    exact covers_top _
  · have reads := readable root made key named top (walker, watch) entered
    exact (covers_iff_of_readable top reads).mpr (how.resolve_left top)

/-- The search finds an owner in every order of the table exactly when the keys read right;
and in a run in which they do, each queued event lies at or below its root. -/
theorem events_go_to_owner_iff (succeed : AllocationsSucceed σ) :
    (∀ (w : World σ) (path : Str), Registered w.roots →
      ((∀ order, order.entries.Perm w.roots.inotifyRoots.entries →
          ∃ found s, inotifyPathToRoot path { w with roots := w.roots.reordered order } =
              .ok (found, { w with roots := w.roots.reordered order, sys := s }) ∧
            RightRoot (w.roots.reordered order) path found) ↔
        AllReadable w.roots path)) ∧
    ∀ w : World σ, Reachable w → RunReadable w → ∀ root, ∀ event ∈ (w.roots.heap root).events,
        ∃ key path, (w.roots.heap root).path = some key ∧ event.path = some path ∧ Covers key path := by
  refine ⟨fun w path registered => ⟨fun right => ?_, fun readable order same => ?_⟩,
    fun w reachable readable root event member => event_covered succeed reachable readable member⟩
  · by_contra unreadable
    obtain ⟨noTop, key, member, misread⟩ : str "/" ∉ w.roots.inotifyRoots.keys ∧
        ∃ key ∈ w.roots.inotifyRoots.keys, ¬Readable key path := by
      simpa [AllReadable] using unreadable
    obtain ⟨order, same, wrong⟩ := exists_wrong_order registered noTop member misread
    obtain ⟨found, s, ran, right⟩ := right order same
    obtain ⟨t, run⟩ := inotifyPathToRoot_run succeed path { w with roots := w.roots.reordered order }
    obtain ⟨rfl, _⟩ := Program.ok_unique ran run
    exact wrong right
  · obtain ⟨s, run⟩ := inotifyPathToRoot_run succeed path { w with roots := w.roots.reordered order }
    have lookups : ∀ key, order.lookup key = w.roots.inotifyRoots.lookup key :=
      fun key => AList.perm_lookup same
    have members : ∀ key, key ∈ order.keys ↔ key ∈ w.roots.inotifyRoots.keys := by
      intro key
      rw [GHashTable.mem_keys_iff, GHashTable.mem_keys_iff, lookups]
    refine ⟨_, s, run, pathToRoot_right ⟨?_, ?_⟩ ?_⟩
    · intro key root found
      exact registered.named key root (lookups key ▸ found)
    · intro key root found
      exact registered.made key root (lookups key ▸ found)
    · exact readable.imp (members _).mpr fun all key member => all key ((members key).mp member)

def World.twoRoots : World (Script true) :=
  { World.oneRoot (str "/b") with
    roots := (World.oneRoot (str "/b")).roots.register (str "/a")
      ⟨some (str "/a"), inotifyDefaultMask, 65536, some [], false, false, false, false⟩ }

theorem registered_twoRoots : Registered World.twoRoots.roots := by
  have start : Registered (World.initial (⟨[]⟩ : Script true)).roots := .empty rfl
  exact .register (.register start rfl) rfl

/-- Every key of the table is read rightly for "/b/c", and the search for it finds the root
that covers it, whatever the order. -/
theorem subdirectory_goes_to_owner :
    AllReadable World.twoRoots.roots (str "/b/c") ∧
      ∀ order, order.entries.Perm World.twoRoots.roots.inotifyRoots.entries →
        ∃ found s, inotifyPathToRoot (str "/b/c")
            { World.twoRoots with roots := World.twoRoots.roots.reordered order } =
              .ok (found, { World.twoRoots with roots := World.twoRoots.roots.reordered order, sys := s }) ∧
          RightRoot (World.twoRoots.roots.reordered order) (str "/b/c") found := by
  have readable : AllReadable World.twoRoots.roots (str "/b/c") := by decide
  exact ⟨readable,
    ((events_go_to_owner_iff fun _ => rfl).1 World.twoRoots (str "/b/c") registered_twoRoots).mpr readable⟩

/-- The directory "/b/a/c" lies below "/b", and the search finds "/a". -/
theorem middle_of_path_misread :
    ∃ s, inotifyPathToRoot (str "/b/a/c") World.twoRoots = .ok (some 1, { World.twoRoots with sys := s }) ∧
      (World.twoRoots.roots.heap 1).path = some (str "/a") ∧ ¬Covers (str "/a") (str "/b/a/c") ∧
      (World.twoRoots.roots.heap 0).path = some (str "/b") ∧ Covers (str "/b") (str "/b/a/c") ∧
      ¬RightRoot World.twoRoots.roots (str "/b/a/c") (some 1) := by
  refine ⟨_, rfl, rfl, by decide, rfl, by decide, ?_⟩
  rintro ⟨key, _, named, covers⟩
  obtain rfl : str "/a" = key := Option.some.inj named
  revert covers
  decide

end Inotispy
