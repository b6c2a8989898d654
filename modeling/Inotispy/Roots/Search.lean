import Inotispy.Model.Trees

/-! What the two searches over the table of roots find.

The code's searches run in the daemon's monad because they allocate; here they are
compared with functions of the table alone. -/

set_option autoImplicit false

namespace Inotispy
open Library

variable {σ : Type} [System σ]

/-- The test `inotify_path_to_root` makes on each key. -/
def Matches (path key : Str) : Prop := path = key ∨ key ++ str "/" <:+: path

instance (path key : Str) : Decidable (Matches path key) :=
  inferInstanceAs (Decidable (_ ∨ _))

def RootTable.pathToRoot (roots : RootTable) (path : Str) : Option RootRef :=
  match roots.inotifyRoots.lookup (str "/") with
  | some root => some root
  | none => (roots.inotifyRoots.keys.find? (Matches path ·)).bind fun key => roots.inotifyRoots.lookup key

def RootTable.isParent (roots : RootTable) (path : Str) : Option Str :=
  roots.inotifyRoots.keys.find? (path ++ str "/" <:+: ·)

theorem pathToRoot_eq_some {roots : RootTable} {path : Str} {root : RootRef}
    (found : roots.pathToRoot path = some root) :
    ∃ key, roots.inotifyRoots.lookup key = some root ∧
      (key = str "/" ∨ str "/" ∉ roots.inotifyRoots.keys ∧ Matches path key) := by
  unfold RootTable.pathToRoot at found
  split at found
  · cases found
    exact ⟨str "/", ‹_›, .inl rfl⟩
  · rename_i noTop
    obtain ⟨key, first, registered⟩ := Option.bind_eq_some_iff.mp found
    exact ⟨key, registered, .inr ⟨(GHashTable.lookup_eq_none_iff _ _).mp noTop,
      by simpa using List.find?_some first⟩⟩

theorem pathToRoot_eq_none {roots : RootTable} {path : Str} (found : roots.pathToRoot path = none) :
    str "/" ∉ roots.inotifyRoots.keys ∧ ∀ key ∈ roots.inotifyRoots.keys, ¬Matches path key := by
  unfold RootTable.pathToRoot at found
  split at found
  · cases found
  rename_i noTop
  refine ⟨(GHashTable.lookup_eq_none_iff _ _).mp noTop, fun key member hit => ?_⟩
  -- A key that matches makes the search stop, at that key or before.
  have some_key : (roots.inotifyRoots.keys.find? (Matches path ·)).isSome := by
    rw [List.find?_isSome]
    exact ⟨key, member, by simpa using hit⟩
  obtain ⟨first, isFirst⟩ := Option.isSome_iff_exists.mp some_key
  obtain ⟨root, registered⟩ := (GHashTable.mem_keys_iff _ _).mp (List.mem_of_find?_eq_some isFirst)
  rw [isFirst, Option.bind_some, registered] at found
  cases found

theorem pathToRootLoop_eq_ok {path : Str} {keys : List Str} {w w' : World σ}
    {found : Option RootRef} (ran : pathToRootLoop path keys w = .ok (found, w')) :
    found = ((keys.find? (Matches path ·)).bind fun key => w.roots.inotifyRoots.lookup key) ∧
      ∃ s, w' = { w with sys := s } := by
  induction keys generalizing w with
  | nil =>
    obtain ⟨rfl, rfl⟩ := Program.pure_eq_ok.mp ran
    exact ⟨rfl, _, rfl⟩
  | cons key keys ih =>
    simp only [pathToRootLoop, mkString_bind, Program.ite_eq_ok, deref_bind_eq_ok,
      CString.strstr_isSome] at ran
    obtain ⟨same, ran⟩ | ⟨differs, tmp, named, ⟨below, ran⟩ | ⟨outside, ran⟩⟩ := ran
    · cases ran
      have hit : Matches path key := .inl same
      exact ⟨by simp [hit], _, rfl⟩
    · cases ran
      -- Without memory for the key and its slash the search would have stopped here.
      obtain ⟨_, rfl⟩ : _ ∧ tmp = key ++ str "/" := by
        split at named
        · exact ⟨‹_›, (Option.some.inj named).symm⟩
        · cases named
      have hit : Matches path key := .inr below
      exact ⟨by simp [hit], _, rfl⟩
    · obtain ⟨_, rfl⟩ : _ ∧ tmp = key ++ str "/" := by
        split at named
        · exact ⟨‹_›, (Option.some.inj named).symm⟩
        · cases named
      have miss : ¬Matches path key := not_or.mpr ⟨differs, outside⟩
      obtain ⟨value, s, rfl⟩ := ih ran
      exact ⟨by simpa [miss] using value, s, rfl⟩

theorem inotifyPathToRoot_eq_ok {path : Str} {w w' : World σ} {found : Option RootRef}
    (ran : inotifyPathToRoot path w = .ok (found, w')) :
    found = w.roots.pathToRoot path ∧ ∃ s, w' = { w with sys := s } := by
  simp only [inotifyPathToRoot, inotifyIsRoot, Program.read_bind_apply] at ran
  unfold RootTable.pathToRoot
  cases top : w.roots.inotifyRoots.lookup (str "/") with
  | some root =>
    rw [top] at ran
    obtain ⟨rfl, rfl⟩ := Program.pure_eq_ok.mp ran
    exact ⟨rfl, _, rfl⟩
  | none =>
    rw [top] at ran
    exact pathToRootLoop_eq_ok ran

theorem isParentLoop_eq_ok {tmp : Option Str} {keys : List Str} {w w' : World σ} {found : Option Str}
    (ran : isParentLoop tmp keys w = .ok (found, w')) : ∃ s, w' = { w with sys := s } := by
  induction keys with
  | nil =>
    obtain ⟨_, rfl⟩ := Program.pure_eq_ok.mp ran
    exact ⟨_, rfl⟩
  | cons key keys ih =>
    simp only [isParentLoop, deref_bind_eq_ok, Program.ite_eq_ok] at ran
    obtain ⟨below, rfl, ⟨_, ran⟩ | ⟨_, ran⟩⟩ := ran
    · have ran' : (mkString key >>= pure) w = .ok (found, w') := by rwa [bind_pure]
      rw [mkString_bind, Program.pure_eq_ok] at ran'
      exact ⟨_, ran'.2⟩
    · exact ih ran

theorem inotifyIsParent_eq_ok {path : Str} {w w' : World σ} {found : Option Str}
    (ran : inotifyIsParent path w = .ok (found, w')) : ∃ s, w' = { w with sys := s } := by
  rw [inotifyIsParent, mkString_bind, Program.read_bind_apply] at ran
  obtain ⟨s, rfl⟩ := isParentLoop_eq_ok ran
  exact ⟨s, rfl⟩

/-! ## Runs in which allocations succeed -/

section
variable (allocated : AllocationsSucceed σ)
include allocated

theorem mkString_bind_allocated {A : Type} (text : Str) (f : Option Str → M σ A) (w : World σ) :
    (mkString text >>= f) w = f (some text) { w with sys := (System.malloc w.sys).2 } := by
  rw [mkString_bind, allocated w.sys]
  rfl

theorem mkString_allocated (text : Str) (w : World σ) :
    mkString text w = .ok (some text, { w with sys := (System.malloc w.sys).2 }) := by
  have run := mkString_bind_allocated allocated text pure w
  rwa [bind_pure] at run

theorem pathToRootLoop_run (path : Str) (keys : List Str) (w : World σ) :
    ∃ s, pathToRootLoop path keys w =
      .ok ((keys.find? (Matches path ·)).bind fun key => w.roots.inotifyRoots.lookup key,
        { w with sys := s }) := by
  induction keys generalizing w with
  | nil => exact ⟨w.sys, rfl⟩
  | cons key keys ih =>
    simp only [pathToRootLoop, mkString_bind_allocated allocated, Program.ite_apply]
    by_cases same : path = key
    · have hit : Matches path key := .inl same
      exact ⟨_, by rw [if_pos same, List.find?_cons_of_pos (by simpa using hit)]; rfl⟩
    · rw [if_neg same]
      simp only [deref, Program.pure_bind_apply, Program.ite_apply, CString.strstr_isSome]
      by_cases below : key ++ str "/" <:+: path
      · have hit : Matches path key := .inr below
        exact ⟨_, by rw [if_pos below, List.find?_cons_of_pos (by simpa using hit)]; rfl⟩
      · have miss : ¬Matches path key := not_or.mpr ⟨same, below⟩
        rw [if_neg below, List.find?_cons_of_neg (by simpa using miss)]
        exact ih _

theorem inotifyPathToRoot_run (path : Str) (w : World σ) :
    ∃ s, inotifyPathToRoot path w = .ok (w.roots.pathToRoot path, { w with sys := s }) := by
  unfold RootTable.pathToRoot
  simp only [inotifyPathToRoot, inotifyIsRoot, Program.read_bind_apply]
  cases top : w.roots.inotifyRoots.lookup (str "/") with
  | some root => exact ⟨w.sys, rfl⟩
  | none => exact pathToRootLoop_run allocated path _ w

theorem isParentLoop_run (below : Str) (keys : List Str) (w : World σ) :
    ∃ s, isParentLoop (some below) keys w =
      .ok (keys.find? (below <:+: ·), { w with sys := s }) := by
  induction keys generalizing w with
  | nil => exact ⟨w.sys, rfl⟩
  | cons key keys ih =>
    simp only [isParentLoop, deref, Program.pure_bind_apply, Program.ite_apply,
      CString.strstr_isSome, mkString_allocated allocated]
    by_cases inside : below <:+: key
    · exact ⟨_, by rw [if_pos inside, List.find?_cons_of_pos (by simpa using inside)]⟩
    · rw [if_neg inside, List.find?_cons_of_neg (by simpa using inside)]
      exact ih w

theorem inotifyIsParent_run (path : Str) (w : World σ) :
    ∃ s, inotifyIsParent path w = .ok (w.roots.isParent path, { w with sys := s }) := by
  simp only [inotifyIsParent, mkString_bind_allocated allocated, Program.read_bind_apply]
  exact isParentLoop_run allocated _ _ _

end
end Inotispy
