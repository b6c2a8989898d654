import Inotispy.Library.Path
import Inotispy.Model.Script
import Inotispy.Roots.Registry

/-! Watched trees that overlap.

`inotify_watch_tree` refuses a path above or below a registered root, but looks for
roots below "/" with the pattern "//". Apart from that, no two registered roots are ever
one above the other: threads only remove roots, so what the check has seen still holds
when the root is registered.
-/

set_option autoImplicit false

namespace Inotispy
open Library
open Library.Path (Ancestor)

variable {σ : Type} [System σ]

/-! ## Tables in which no trees overlap -/

structure Apart (roots : RootTable) : Prop extends Registered roots where
  apart : ∀ a ∈ roots.inotifyRoots.keys, ∀ b ∈ roots.inotifyRoots.keys, ¬Ancestor a b

/-- A root at `path` would lie neither above nor below another. -/
def Fits (path : Str) (roots : RootTable) : Prop :=
  ∀ key ∈ roots.inotifyRoots.keys, ¬Ancestor key path ∧ ¬Ancestor path key

/-- The path is not "/", or no other root is registered. -/
def TopAlone (path : Str) (roots : RootTable) : Prop :=
  path = str "/" → ∀ key ∈ roots.inotifyRoots.keys, key = str "/"

section
variable {before after : RootTable} (shrinks : Shrinks before after)
include shrinks

theorem Shrinks.apart (holds : Apart before) : Apart after :=
  ⟨shrinks.registered holds.toRegistered,
    fun a first b second => holds.apart a (shrinks.mem_keys first) b (shrinks.mem_keys second)⟩

theorem Shrinks.fits {path : Str} (holds : Fits path before) : Fits path after :=
  fun key member => holds key (shrinks.mem_keys member)

theorem Shrinks.topAlone {path : Str} (holds : TopAlone path before) : TopAlone path after :=
  fun top key member => holds top key (shrinks.mem_keys member)

end

theorem steady_topAlone (path : Str) : Steady fun w : World σ => TopAlone path w.roots :=
  steady_of_shrinks (TopAlone path) fun _ _ shrinks => shrinks.topAlone

theorem steady_fits (path : Str) : Steady fun w : World σ => Fits path w.roots :=
  steady_of_shrinks (Fits path) fun _ _ shrinks => shrinks.fits

theorem steady_apart : Steady fun w : World σ => Apart w.roots :=
  steady_of_shrinks Apart fun _ _ shrinks => shrinks.apart

theorem Apart.register {roots : RootTable} (holds : Apart roots) {path : Str} (fits : Fits path roots)
    {made : Root} (named : made.path = some path) : Apart (roots.register path made) := by
  refine ⟨holds.toRegistered.register named, fun a first b second => ?_⟩
  rcases RootTable.mem_keys_register first with rfl | oldA <;>
    rcases RootTable.mem_keys_register second with rfl | oldB
  · exact Path.not_ancestor_self _
  · exact (fits b oldB).2
  · exact (fits a oldA).1
  · exact holds.apart a oldA b oldB

/-! ## Watch requests -/

theorem fits_of_searches {roots : RootTable} {path : Str} (alone : TopAlone path roots)
    (none_above : roots.pathToRoot path = none) (none_below : roots.isParent path = none) :
    Fits path roots := by
  obtain ⟨top, unmatched⟩ := pathToRoot_eq_none none_above
  have unparented : ∀ key ∈ roots.inotifyRoots.keys, ¬path ++ str "/" <:+: key := by
    simpa [RootTable.isParent] using none_below
  intro key member
  constructor
  · rintro (⟨rfl, _⟩ | below)
    · exact top member
    · exact unmatched key member (.inr below.isInfix)
  · rintro (⟨isTop, differs⟩ | below)
    · exact differs (alone isTop key member)
    · exact unparented key member below.isInfix

section
variable (succeed : AllocationsSucceed σ)
include succeed

theorem watchTreeCheck_fits (path : Str) :
    Triple (fun w : World σ => TopAlone path w.roots) (watchTreeCheck path)
      fun code w => code = none → Fits path w.roots := by
  unfold watchTreeCheck
  refine Triple.bind ((steady_topAlone path).lock .inotify) ?_
  intro _ w alone code w' ran
  obtain ⟨s, searching⟩ := inotifyPathToRoot_run succeed path w
  rw [Program.bind_ok _ _ _ _ _ searching] at ran
  cases above : w.roots.pathToRoot path with
  | some root =>
    simp only [above] at ran
    obtain ⟨_, v, _, ran⟩ := Program.bind_eq_ok ran
    simp only [getRoot_bind, deref_bind_eq_ok, Program.ite_eq_ok, Program.pure_eq_ok] at ran
    obtain ⟨rootPath, _, ⟨_, ⟨_, rfl, _⟩ | ⟨_, rfl, _⟩⟩ | ⟨_, rfl, _⟩⟩ := ran <;> exact nofun
  | none =>
    simp only [above] at ran
    obtain ⟨t, parenting⟩ := inotifyIsParent_run succeed path { w with sys := s }
    rw [Program.bind_ok _ _ _ _ _ parenting] at ran
    obtain ⟨_, v, leaving, ran⟩ := Program.bind_eq_ok ran
    obtain ⟨rfl, rfl⟩ := Program.pure_eq_ok.mp ran
    cases below : w.roots.isParent path with
    | some key => simp
    | none =>
      have fits := fits_of_searches alone above below
      exact fun _ => (steady_fits path).of_unlock leaving fits

theorem inotifyWatchTree_apart {path : Str} {mask : UInt32} {maxEvents : Int32} {rewatch : Bool}
    {w w' : World σ} {code : Option InotispyError} (holds : Apart w.roots)
    (alone : TopAlone (trimSlash path) w.roots)
    (ran : inotifyWatchTree path mask maxEvents rewatch w = .ok (code, w')) : Apart w'.roots := by
  have steady : Steady fun w : World σ => Apart w.roots ∧ TopAlone (trimSlash path) w.roots :=
    steady_apart.and (steady_topAlone _)
  have check := Triple.and (watchTreeCheck_keeps steady (trimSlash path))
    ((watchTreeCheck_fits succeed (trimSlash path)).strengthen fun _ holds => holds.2)
  refine (inotifyWatchTree_triple steady (steady.and (steady_fits _)) check ?_ mask maxEvents rewatch
    w ⟨holds, alone⟩ code w' ran).1
  rintro w ⟨holds, alone⟩ fits made _ named
  refine ⟨holds.register fits (named succeed), fun top key member => ?_⟩
  rcases RootTable.mem_keys_register member with rfl | old
  · exact top
  · exact alone top key old

end

/-! ## Runs -/

/-- A step of the daemon, as far as its roots go, in which "/" is not asked for while another
root is registered. A restart forgets all roots; what it reads from the dump file comes as
watch requests. -/
inductive RootsStep (w : World σ) : World σ → Prop where
  | watch {path : Str} {mask : UInt32} {maxEvents : Int32} {rewatch : Bool}
      {code : Option InotispyError} {w' : World σ} (alone : TopAlone (trimSlash path) w.roots)
      (ran : inotifyWatchTree path mask maxEvents rewatch w = .ok (code, w')) : RootsStep w w'
  | unwatch {path : Str} {code : Option InotispyError} {w' : World σ}
      (ran : inotifyUnwatchTree path w = .ok (code, w')) : RootsStep w w'
  | thread {index : Nat} {w' : World σ} (ran : runThread index w = .ok ((), w')) : RootsStep w w'
  -- Which threads run in the middle of the next request, and when.
  | schedule (turns : List (List Nat)) : RootsStep w { w with pool.schedule := turns }
  | restart {w' : World σ} (empty : w'.roots.inotifyRoots = ∅) : RootsStep w w'

theorem Apart.empty {roots : RootTable} (none : roots.inotifyRoots = ∅) : Apart roots := by
  exact ⟨.empty none, by simp [none]⟩

theorem RootsStep.apart (succeed : AllocationsSucceed σ) {w w' : World σ} (step : RootsStep w w')
    (holds : Apart w.roots) : Apart w'.roots := by
  cases step with
  | watch alone ran => exact inotifyWatchTree_apart succeed holds alone ran
  | unwatch ran =>
    exact inotifyUnwatchTree_keeps steady_apart (.of_shrinks fun _ _ shrinks => shrinks.apart)
      (fun _ _ => id) _ w holds _ _ ran
  | thread ran => exact steady_apart.run _ w holds _ _ ran
  | schedule turns => exact holds
  | restart empty => exact .empty empty

theorem run_apart (succeed : AllocationsSucceed σ) {start w : World σ}
    (empty : start.roots.inotifyRoots = ∅) (run : Relation.ReflTransGen RootsStep start w) :
    Apart w.roots := by
  induction run with
  | refl => exact .empty empty
  | tail _ step ih => exact step.apart succeed ih

/-- In every state of such a run no registered root lies above another. -/
theorem registered_roots_apart (succeed : AllocationsSucceed σ) {start w : World σ}
    (empty : start.roots.inotifyRoots = ∅) (run : Relation.ReflTransGen RootsStep start w)
    {a b : Str} {r₁ r₂ : RootRef} (first : w.roots.inotifyRoots.lookup a = some r₁)
    (second : w.roots.inotifyRoots.lookup b = some r₂) :
    (w.roots.heap r₁).path = some a ∧ (w.roots.heap r₂).path = some b ∧ ¬Ancestor a b := by
  have apart := run_apart succeed empty run
  have members : a ∈ w.roots.inotifyRoots.keys ∧ b ∈ w.roots.inotifyRoots.keys :=
    ⟨(GHashTable.mem_keys_iff _ _).mpr ⟨r₁, first⟩, (GHashTable.mem_keys_iff _ _).mpr ⟨r₂, second⟩⟩
  exact ⟨apart.named a r₁ first, apart.named b r₂ second, apart.apart a members.1 b members.2⟩

theorem watched_siblings_apart :
    ∃ w : World (Script true), Relation.ReflTransGen RootsStep (World.initial ⟨[]⟩) w ∧
      w.roots.inotifyRoots = (World.oneRoot (str "/a")).roots.inotifyRoots.insert (str "/b") 1 ∧
      ¬Ancestor (str "/a") (str "/b") := by
  have first : RootsStep (World.initial ⟨[]⟩) (World.oneRoot (str "/a")) :=
    .watch (absurd · (by decide)) (show inotifyWatchTree (str "/a") inotifyDefaultMask 65536 false _ = _ from rfl)
  obtain ⟨w, ran, roots⟩ : ∃ w,
      inotifyWatchTree (str "/b") inotifyDefaultMask 65536 false (World.oneRoot (str "/a")) = .ok (none, w) ∧
        w.roots.inotifyRoots = (World.oneRoot (str "/a")).roots.inotifyRoots.insert (str "/b") 1 :=
    ⟨_, rfl, rfl⟩
  have run := (Relation.ReflTransGen.single first).tail (.watch (absurd · (by decide)) ran)
  have apart := registered_roots_apart (fun _ => rfl) rfl run (a := str "/a") (b := str "/b")
    (by rw [roots]; rfl) (by rw [roots]; rfl)
  exact ⟨w, run, roots, apart.2.2⟩

/-- "/foo" is watched and then "/": both requests succeed. -/
theorem top_watched_over_root :
    ∃ w : World (Script true),
      inotifyWatchTree (str "/foo") inotifyDefaultMask 65536 false (World.initial ⟨[]⟩) =
        .ok (none, World.oneRoot (str "/foo")) ∧
      inotifyWatchTree (str "/") inotifyDefaultMask 65536 false (World.oneRoot (str "/foo")) =
        .ok (none, w) ∧
      w.roots.inotifyRoots.lookup (str "/") = some 1 ∧
      w.roots.inotifyRoots.lookup (str "/foo") = some 0 ∧ Ancestor (str "/") (str "/foo") :=
  ⟨_, rfl, rfl, rfl, rfl, .inl ⟨rfl, by decide⟩⟩

end Inotispy
