import Inotispy.Requests.Addressing
import Inotispy.Roots.Ownership
import Inotispy.Roots.Rewatching

/-! Roots over restarts.

A root that is to be watched again stays registered until it is unwatched, through any number
of restarts at which the dump file is up to date, can be read back and fits one block, and the
root's directory opens.
-/

set_option autoImplicit false

namespace Inotispy
open Library

variable {σ : Type}

/-! ## What server steps do to the table of roots -/

structure Enduring (inv : RootTable → Prop) : Prop where
  change : ∀ (roots : RootTable) (root : RootRef) (change : Root → Root),
    (∀ r, (change r).path = r.path ∧ (change r).options = r.options) → inv roots → inv (roots.setRoot root change)
  remove : ∀ (roots : RootTable) (path : Str), inv roots → inv (roots.remove path)

section
variable [System σ] {inv : RootTable → Prop} (enduring : Enduring inv)
include enduring

omit [System σ] in
theorem Enduring.effect {thread : Thread} {before after : RootTable} (effect : RootsEffect thread before after)
    (holds : inv before) : inv after := by
  cases effect with
  | same => exact holds
  | free root is => exact enduring.change _ root _ (fun _ => ⟨rfl, rfl⟩) holds
  | remove root tmp path is named => exact enduring.remove _ path holds

theorem Enduring.steady : SteadyMute fun w : World σ => inv w.roots where
  toSteady := .of_tables (fun roots _ => inv roots) fun effect holds => enduring.effect effect.roots holds
  mute _ _ := id

theorem ServerStep.keeps_roots {action : Action} {w w' : World σ} (step : ServerStep action w w')
    (watches : ∀ path mask maxEvents rewatch, path.head? = some '/' →
      Keeps (fun w : World σ => inv w.roots) (inotifyWatchTree path mask maxEvents rewatch)) (holds : inv w.roots) :
    inv w'.roots := by
  have steady := enduring.steady (σ := σ)
  have inPlace : InPlace fun w : World σ => inv w.roots := by
    refine ⟨fun w root pause holds => ?_, fun w root holds => ?_, fun w root taken holds => ?_⟩ <;> dsimp only <;>
      exact enduring.change w.roots root _ (by exact fun _ => ⟨rfl, rfl⟩) holds
  have records (event : InEvent) : Keeps (fun w : World σ => inv w.roots) (inotifyHandleRecord event) := by
    have both : Steady fun w : World σ => inv w.roots ∧ True := steady.toSteady.and .always
    apply inotifyHandleRecord_triple (fun _ _ _ => True) steady.toSteady fun _ _ => both
    · exact fun _ _ => ⟨fun _ _ _ _ _ => id, fun _ _ => id⟩
    · exact fun _ _ _ _ _ _ _ _ => trivial
    · intro path root
      refine (inotifyEnqueue_keeps steady.toSteady (fun _ => id) ?_ event).strengthen fun _ => And.left
      intro w node _ holds
      dsimp only
      exact enduring.change w.roots root _ (by exact fun _ => ⟨rfl, rfl⟩) holds
  refine step.keeps holds steady ?_ watches records
  intro req _
  constructor
  · exact steady
  · exact watches
  · exact fun _ path _ => inotifyUnwatchTree_keeps steady.toSteady inPlace (fun _ _ => id) path
  · exact setPause_keeps steady.toSteady inPlace
  · exact fun _ path count _ => inotifyGetEvents_keeps steady.toSteady inPlace (fun _ _ => id) path count
  · rintro key root w ⟨holds, _⟩ queue w' ran
    have ran' : (rootQueue root >>= pure) w = .ok (queue, w') := by rwa [bind_pure]
    rw [rootQueue_bind, Program.pure_eq_ok] at ran'
    rw [ran'.2]
    exact holds

end

/-! ## Options -/

structure Cell (root : RootRef) (options : UInt32 × Int32 × Bool) (roots : RootTable) : Prop where
  made : root < roots.nextRoot
  options : (roots.heap root).options = options

theorem enduring_cell (root : RootRef) (options : UInt32 × Int32 × Bool) : Enduring (Cell root options) where
  change roots other change same holds := by
    refine ⟨holds.made, ?_⟩
    rw [← holds.options]
    exact RootTable.field_setRoot Root.options (fun r => (same r).2) roots other root
  remove _ _ holds := ⟨holds.made, holds.options⟩

theorem Cell.register {root : RootRef} {options : UInt32 × Int32 × Bool} {roots : RootTable}
    (holds : Cell root options roots) (path : Str) (made : Root) : Cell root options (roots.register path made) := by
  refine ⟨Nat.lt_succ_of_lt holds.made, ?_⟩
  rw [RootTable.register]
  simp only [Function.update_of_ne (Nat.ne_of_lt holds.made), holds.options]

/-! ## Roots that the tests keep apart -/

/-- The test of a watch request finds none of the roots for another of them, "/" aside. -/
def Unmatched (roots : RootTable) : Prop :=
  ∀ a ∈ roots.inotifyRoots.keys, ∀ b ∈ roots.inotifyRoots.keys, a ≠ str "/" → b ≠ str "/" → ¬a ++ str "/" <:+: b

def Spaced (path : Str) (roots : RootTable) : Prop :=
  ∀ key ∈ roots.inotifyRoots.keys, ¬key ++ str "/" <:+: path ∧ ¬path ++ str "/" <:+: key

theorem enduring_unmatched : Enduring Unmatched where
  change _ _ _ _ holds := holds
  remove roots path holds := by
    have shrinks := Shrinks.remove roots path
    exact fun a first b second => holds a (shrinks.mem_keys first) b (shrinks.mem_keys second)

theorem Unmatched.register {roots : RootTable} (holds : Unmatched roots) {path : Str} (spaced : Spaced path roots)
    (made : Root) : Unmatched (roots.register path made) := by
  intro a first b second notTop notTop'
  rcases RootTable.mem_keys_register first with rfl | oldA <;>
    rcases RootTable.mem_keys_register second with rfl | oldB
  · exact not_slash_infix_self _
  · exact (spaced b oldB).2
  · exact (spaced a oldA).1
  · exact holds a oldA b oldB notTop notTop'

section
variable [System σ] (succeed : AllocationsSucceed σ)

theorem steady_spaced (path : Str) : Steady fun w : World σ => Spaced path w.roots :=
  steady_of_shrinks (Spaced path) fun _ _ shrinks holds key member => holds key (shrinks.mem_keys member)

include succeed

theorem watchTreeCheck_spaced (path : Str) :
    Triple (fun _ : World σ => True) (watchTreeCheck path) fun code w => code = none → Spaced path w.roots := by
  unfold watchTreeCheck
  refine Triple.bind (Steady.always.lock .inotify) ?_
  intro _ w _ code w' ran
  obtain ⟨s, searching⟩ := inotifyPathToRoot_run succeed path w
  rw [Program.bind_ok _ _ _ _ _ searching] at ran
  cases above : w.roots.pathToRoot path with
  | some root =>
    simp only [above] at ran
    obtain ⟨_, v, _, ran⟩ := Program.bind_eq_ok ran
    simp only [getRoot_bind, deref_bind_eq_ok, Program.ite_eq_ok, Program.pure_eq_ok] at ran
    obtain ⟨rootPath, _, ⟨_, ⟨_, rfl, _⟩ | ⟨_, rfl, _⟩⟩ | ⟨_, rfl, _⟩⟩ := ran <;> exact nofun
  | none =>
    simp only [above] at ran
    obtain ⟨t, parenting⟩ := inotifyIsParent_run succeed path { w with sys := s }
    rw [Program.bind_ok _ _ _ _ _ parenting] at ran
    obtain ⟨_, v, leaving, ran⟩ := Program.bind_eq_ok ran
    obtain ⟨rfl, rfl⟩ := Program.pure_eq_ok.mp ran
    cases below : w.roots.isParent path with
    | some key => simp
    | none =>
      obtain ⟨_, unmatched⟩ := pathToRoot_eq_none above
      have unparented : ∀ key ∈ w.roots.inotifyRoots.keys, ¬path ++ str "/" <:+: key := by
        simpa [RootTable.isParent] using below
      have spaced : Spaced path w.roots := fun key member =>
        ⟨fun inside => unmatched key member (.inr inside), unparented key member⟩
      exact fun _ => (steady_spaced path).of_unlock leaving spaced

theorem inotifyWatchTree_unmatched (path : Str) (mask : UInt32) (maxEvents : Int32) (rewatch : Bool) :
    Keeps (fun w : World σ => Unmatched w.roots) (inotifyWatchTree path mask maxEvents rewatch) := by
  have steady : Steady fun w : World σ => Unmatched w.roots := enduring_unmatched.steady.toSteady
  apply inotifyWatchTree_triple steady (steady.and (steady_spaced (trimSlash path)))
  · exact Triple.and (watchTreeCheck_keeps steady _) ((watchTreeCheck_spaced succeed _).strengthen fun _ _ => trivial)
  · exact fun w holds spaced made _ _ => holds.register spaced made

end

/-! ## Restarts -/

/-- The dump of a table lists no two roots that would be in each other's way, if "/" is not among others. -/
theorem dumped_apart {w : World σ} (life : Lifecycle w.roots w.pool.threads) (unmatched : Unmatched w.roots)
    (readable : ∀ root ∈ w.dumped, root.Rereadable)
    (top : ∀ a ∈ w.dumped, percentS a.path = str "/" → ∀ b ∈ w.dumped, percentS b.path = str "/") :
    w.dumped.Pairwise fun a b => ¬Clash (percentS a.path) (percentS b.path) := by
  have dumped : w.dumped = (w.roots.inotifyRoots.entries.map fun entry => w.roots.heap entry.2).filter (·.rewatch) := by
    rw [World.dumped, GHashTable.values, List.map_map]
    rfl
  -- A root in the dump is filed under its path.
  have filed {entry : Sigma fun _ : Str => RootRef} (member : entry ∈ w.roots.inotifyRoots.entries)
      (rewatch : (w.roots.heap entry.2).rewatch = true) :
      w.roots.heap entry.2 ∈ w.dumped ∧ percentS (w.roots.heap entry.2).path = entry.1 ∧
        entry.1 ∈ w.roots.inotifyRoots.keys := by
    have listed : w.roots.heap entry.2 ∈ w.dumped := by
      rw [dumped, List.mem_filter]
      exact ⟨List.mem_map_of_mem member, rewatch⟩
    obtain ⟨path, named, _⟩ := (readable _ listed).watched.absolute
    have found := AList.mem_lookup_iff.mpr member
    have same := life.named entry.1 entry.2 found path named
    exact ⟨listed, by rw [named, percentS, same], (GHashTable.mem_keys_iff _ _).mpr ⟨_, found⟩⟩
  have distinct := List.nodupKeys_iff_pairwise.mp w.roots.inotifyRoots.nodupKeys
  rw [dumped, List.pairwise_filter, List.pairwise_map]
  refine distinct.imp_of_mem fun {first second} memberA memberB differs rewatchA rewatchB clash => ?_
  obtain ⟨listedA, pathA, keyA⟩ := filed memberA rewatchA
  obtain ⟨listedB, pathB, keyB⟩ := filed memberB rewatchB
  rw [pathA, pathB] at clash
  by_cases topA : first.1 = str "/"
  · have alone := top _ listedA (pathA.trans topA) _ listedB
    exact differs (topA.trans (alone.symm.trans pathB))
  by_cases topB : second.1 = str "/"
  · have alone := top _ listedB (pathB.trans topB) _ listedA
    exact differs (pathA.symm.trans (alone.trans topB.symm))
  rcases clash with same | inside | inside | is | is
  · exact differs same
  · exact unmatched _ keyA _ keyB topA topB inside
  · exact unmatched _ keyB _ keyA topB topA inside
  · exact topA is
  · exact topB is

theorem length_le_dump (roots : List Root) : roots.length ≤ (roots.flatMap dumpLine).length := by
  induction roots with
  | nil => exact Nat.le_refl 0
  | cons root roots ih =>
    rw [List.flatMap_cons, List.length_append, List.length_cons, dumpLine_eq, List.length_append, List.length_singleton]
    omega

section
variable [System σ]

/-- The daemon goes on without unwatching the root at `key`, or is started anew: the dump file is as the table is, its
roots can be read back, they fit one block, "/" is not among others, and the directory at `key` opens. -/
inductive Onward (openings : Openings σ) (block : Nat) (key : Str) (w : World σ) : World σ → Prop where
  | served {action : Action} {w' : World σ} (watched : ¬Unwatches key action) (step : ServerStep action w w') :
      Onward openings block key w w'
  | restarted {sys : σ} {turns : List (List Nat)} {maxInotifyEvents : Int32} {w' : World σ}
      (saved : w.output.dumpFile = w.roots.dump) (readable : ∀ root ∈ w.dumped, root.Rereadable)
      (fits : w.output.dumpFile.length ≤ block)
      (top : ∀ a ∈ w.dumped, percentS a.path = str "/" → ∀ b ∈ w.dumped, percentS b.path = str "/")
      (opens : openings.opens sys key = true)
      (ran : inotifySetup ⟨true, true, true⟩ block (w.output.dumpFile.length + 1)
        (w.restarted sys turns maxInotifyEvents) = .ok (some (.ok true), w')) : Onward openings block key w w'

structure Standing (key : Str) (options : UInt32 × Int32 × Bool) (w : World σ) : Prop where
  life : Lifecycle w.roots w.pool.threads
  unmatched : Unmatched w.roots
  stands : ∃ root, Live key root w.roots ∧ Cell root options w.roots

variable (succeed : AllocationsSucceed σ) {openings : Openings σ} {block : Nat} {key : Str}
  {options : UInt32 × Int32 × Bool} {w w' : World σ}
include succeed

theorem Served.unmatched {w : World σ} (served : Served w) : Unmatched w.roots := by
  obtain ⟨sys, run⟩ := served
  induction run with
  | refl => exact fun _ => nofun
  | tail _ step ih =>
    obtain ⟨action, step⟩ := step
    exact step.keeps_roots enduring_unmatched (fun path mask maxEvents rewatch _ =>
      inotifyWatchTree_unmatched succeed path mask maxEvents rewatch) ih

theorem Standing.served (standing : Standing key options w) {action : Action} (watched : ¬Unwatches key action)
    (step : ServerStep action w w') : Standing key options w' := by
  obtain ⟨root, live, cell⟩ := standing.stands
  obtain ⟨life, live⟩ := step.live watched standing.life live
  have unmatched := step.keeps_roots enduring_unmatched (fun path mask maxEvents rewatch _ =>
    inotifyWatchTree_unmatched succeed path mask maxEvents rewatch) standing.unmatched
  have enduring := enduring_cell root options
  have kept := step.keeps_roots enduring (fun path mask maxEvents rewatch _ =>
    inotifyWatchTree_keeps enduring.steady.toSteady (fun _ holds made _ _ => holds.register _ made) mask maxEvents rewatch) cell
  exact ⟨life, unmatched, root, live, kept⟩

theorem Standing.restarted (positive : 0 < block) (rewatch : options.2.2 = true) (standing : Standing key options w)
    (saved : w.output.dumpFile = w.roots.dump) (readable : ∀ root ∈ w.dumped, root.Rereadable)
    (fits : w.output.dumpFile.length ≤ block)
    (top : ∀ a ∈ w.dumped, percentS a.path = str "/" → ∀ b ∈ w.dumped, percentS b.path = str "/") {sys : σ}
    (opens : openings.opens sys key = true) {turns : List (List Nat)} {maxInotifyEvents : Int32}
    (ran : inotifySetup ⟨true, true, true⟩ block (w.output.dumpFile.length + 1)
      (w.restarted sys turns maxInotifyEvents) = .ok (some (.ok true), w')) : Standing key options w' := by
  have file : w.output.dumpFile = w.dumped.flatMap dumpLine := saved
  have apart := dumped_apart standing.life standing.unmatched readable top
  have enough : w.dumped.length < w.output.dumpFile.length + 1 := by
    rw [file]
    exact Nat.lt_succ_of_le (length_le_dump _)
  have watches (path : Str) (mask : UInt32) (maxEvents : Int32) (absolute : path.head? = some '/') :
      Keeps (fun w : World σ => (Lifecycle w.roots w.pool.threads ∧ True) ∧ Unmatched w.roots)
        (inotifyWatchTree path mask maxEvents true) :=
    Triple.and ((living_life.watches path mask maxEvents true absolute).strengthen fun _ => And.left)
      ((inotifyWatchTree_unmatched succeed path mask maxEvents true).strengthen fun _ => And.right)
  obtain ⟨v, ran', _, ⟨⟨life, _⟩, unmatched⟩, is⟩ := inotifySetup_run succeed openings _ watches positive
    file fits readable apart sys turns maxInotifyEvents ⟨⟨.initial sys, trivial⟩, by exact fun _ => nofun⟩ enough
  obtain rfl : v = w' := (Program.ok_unique ran' ran).2
  obtain ⟨root, live, cell⟩ := standing.stands
  -- The root was in the dump, and its directory opens.
  have rewatched : (w.roots.heap root).rewatch = true := by
    rw [← rewatch, ← cell.options, Root.options]
  have dumped : w.roots.heap root ∈ w.dumped := by
    rw [World.dumped, List.mem_filter]
    exact ⟨List.mem_map_of_mem ((GHashTable.mem_values_iff _ _).mpr ⟨key, live.registered⟩), rewatched⟩
  obtain ⟨path, named, _⟩ := (readable _ dumped).watched.absolute
  obtain rfl : path = key := standing.life.named _ root live.registered path named
  have again : (w.roots.heap root).again ∈ v.roots.listed := by
    refine is.listed.symm.subset (List.mem_append_left _ (List.mem_map_of_mem ?_))
    rw [opening, List.mem_filter]
    exact ⟨dumped, by rw [named, percentS]; exact opens⟩
  obtain ⟨other, member, same⟩ := List.mem_map.mp again
  obtain ⟨filed, found⟩ := (GHashTable.mem_values_iff _ _).mp member
  have path_ := is.registered.named filed other found
  rw [same, Root.again, named] at path_
  cases path_
  refine ⟨life, unmatched, other, ⟨found, by rw [same, Root.again]⟩, is.registered.made _ _ found, ?_⟩
  rw [same, ← cell.options, Root.options, Root.options, Root.again, rewatched]

/-- A root that is to be watched again stands, with the options it was watched with, until it is unwatched: through
requests, records, timers and turns of the threads in any order, and through any number of restarts over an up-to-date
dump that can be read back and fits one block, at each of which its directory opens. -/
theorem rewatched_root_outlives_restarts (openings : Openings σ) (positive : 0 < block) {u : World σ} (served : Served u)
    {root : RootRef} (live : Live key root u.roots) (rewatch : (u.roots.heap root).rewatch = true)
    (run : Relation.ReflTransGen (Onward openings block key) u w) :
    ∃ other, Live key other w.roots ∧ (w.roots.heap other).options = (u.roots.heap root).options := by
  have standing : Standing key (u.roots.heap root).options w := by
    induction run with
    | refl => exact ⟨served.life, served.unmatched succeed, root, live, served.life.made _ _ live.registered, rfl⟩
    | tail _ onward ih =>
      cases onward with
      | served watched step => exact ih.served succeed watched step
      | restarted saved readable fits top opens ran =>
        exact ih.restarted succeed positive rewatch saved readable fits top opens ran
  obtain ⟨other, live', cell⟩ := standing.stands
  exact ⟨other, live', cell.options⟩

end

def World.srvWatched : World (Script true) :=
  let start : World (Script true) := World.initial ⟨[]⟩
  { start with
    roots := start.roots.register (str "/srv") ⟨some (str "/srv"), inotifyDefaultMask, 65536, some [], false, false, true, false⟩
    pool.threads := [.watchTree ⟨some (str "/srv"), 0, false⟩]
    output.dumpFile := str "/srv,33563596,65536\n" }

theorem srv_outlives_restart : ∃ w other,
    Relation.ReflTransGen (Onward Script.openings 4096 (str "/srv")) World.srvWatched w ∧
      Live (str "/srv") other w.roots ∧ (w.roots.heap other).options = (inotifyDefaultMask, 65536, true) := by
  have served : Served World.srvWatched :=
    ⟨⟨[]⟩, .single ⟨.setup (str "/srv") inotifyDefaultMask 65536, rfl, rfl⟩⟩
  have live : Live (str "/srv") 0 World.srvWatched.roots := ⟨rfl, rfl⟩
  have readable : ∀ root ∈ World.srvWatched.dumped, root.Rereadable := by
    have dumped : World.srvWatched.dumped =
      [⟨some (str "/srv"), inotifyDefaultMask, 65536, some [], false, false, true, false⟩] := rfl
    rw [dumped]
    refine List.forall_mem_singleton.mpr ⟨⟨⟨_, rfl, by decide, by decide⟩, by decide⟩, ?_, by decide⟩
    exact ⟨by decide, by decide, by decide, by decide⟩
  have saved : World.srvWatched.output.dumpFile = World.srvWatched.dumped.flatMap dumpLine := by decide
  have alone : World.srvWatched.dumped.Pairwise fun a b => ¬Clash (percentS a.path) (percentS b.path) :=
    List.pairwise_singleton _ _
  obtain ⟨w, ran, _⟩ := inotifySetup_run (fun _ => rfl) Script.openings (fun _ => True)
    (fun _ _ _ _ _ _ _ _ _ => trivial) (by decide : 0 < 4096) saved (by decide) readable alone ⟨[]⟩ [] 65536 trivial
    (by decide : _ < World.srvWatched.output.dumpFile.length + 1)
  have run : Relation.ReflTransGen (Onward Script.openings 4096 (str "/srv")) World.srvWatched w :=
    .single (.restarted saved readable (by decide) (by decide) rfl ran)
  obtain ⟨other, live', options⟩ :=
    rewatched_root_outlives_restarts (fun _ => rfl) Script.openings (by decide) served live rfl run
  exact ⟨w, other, run, live', options⟩

end Inotispy
