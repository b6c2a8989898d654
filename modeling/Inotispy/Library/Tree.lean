import Mathlib.Data.List.Infix

/-! Trees whose nodes are found by the names that lead to them.

A tree can be built only with all that lies above each node, and with different nodes at
different places. Cutting a subtree off and putting one in keep this.
-/

set_option autoImplicit false

namespace Inotispy.Library

variable {K V : Type}

structure Tree (K V : Type) where
  node : List K → Option V
  top : (node []).isSome
  above : ∀ names name, (node (names ++ [name])).isSome → (node names).isSome
  distinct : ∀ first second, (node first).isSome → node first = node second → first = second

def pruned [DecidableEq K] (place : List K) (node : List K → Option V) : List K → Option V :=
  fun names => if place <+: names then none else node names

section
variable [DecidableEq K] {place names : List K} {node : List K → Option V}

theorem pruned_below (below : place <+: names) : pruned place node names = none := if_pos below

theorem pruned_apart (apart : ¬place <+: names) : pruned place node names = node names := if_neg apart

theorem pruned_isSome_iff : (pruned place node names).isSome ↔ ¬place <+: names ∧ (node names).isSome := by
  by_cases below : place <+: names
  · simp [pruned_below below, below]
  · simp [pruned_apart below, below]

theorem pruned_eq_some {v : V} (is : pruned place node names = some v) : ¬place <+: names ∧ node names = some v := by
  by_cases below : place <+: names
  · rw [pruned_below below] at is
    cases is
  · rw [pruned_apart below] at is
    exact ⟨below, is⟩

end

theorem child_not_above (names : List K) (name : K) : ¬names ++ [name] <+: names := by
  intro below
  have long := below.length_le
  rw [List.length_append, List.length_singleton] at long
  omega

namespace Tree

def single (v : V) : Tree K V where
  node names := if names.isEmpty then some v else none
  top := rfl
  above names name there := by simp at there
  distinct first second there same := by
    cases first with
    | nil => cases second with
      | nil => rfl
      | cons => simp at same
    | cons => simp at there

variable (tree : Tree K V)

theorem above_prefix {upper lower : List K} (there : (tree.node lower).isSome) (above : upper <+: lower) :
    (tree.node upper).isSome := by
  obtain ⟨more, rfl⟩ := above
  induction more using List.reverseRecOn with
  | nil => rwa [List.append_nil] at there
  | append_singleton more name ih =>
    rw [← List.append_assoc] at there
    exact ih (tree.above _ _ there)

theorem eq_of_some {first second : List K} {v : V} (one : tree.node first = some v) (two : tree.node second = some v) :
    first = second :=
  tree.distinct first second (by simp [one]) (one.trans two.symm)

theorem none_below {place names : List K} (free : tree.node place = none) (below : place <+: names) :
    tree.node names = none := by
  cases found : tree.node names with
  | none => rfl
  | some v =>
    have there := tree.above_prefix (by simp [found]) below
    rw [free] at there
    cases there

structure Leaf (place : List K) : Prop where
  there : (tree.node place).isSome
  bare : ∀ name, tree.node (place ++ [name]) = none

variable {tree} in
theorem Leaf.eq {place names : List K} (leaf : tree.Leaf place) (there : (tree.node names).isSome)
    (below : place <+: names) : names = place := by
  obtain ⟨more, rfl⟩ := below
  cases more with
  | nil => exact List.append_nil place
  | cons name more =>
    have child : place ++ [name] <+: place ++ name :: more := by simp
    have first := tree.above_prefix there child
    rw [leaf.bare] at first
    cases first

def branch (place : List K) (there : (tree.node place).isSome) : Tree K V where
  node names := tree.node (place ++ names)
  top := by rwa [List.append_nil]
  above names name := by
    rw [← List.append_assoc]
    exact tree.above _ _
  distinct first second found same := List.append_cancel_left (tree.distinct _ _ found same)

/-- The two trees have no node in common. -/
def Apart (sub : Tree K V) : Prop := ∀ names inner v, tree.node names = some v → sub.node inner ≠ some v

theorem apart_single {v : V} (new : ∀ names, tree.node names ≠ some v) : tree.Apart (.single v) := by
  intro names inner w found same
  cases inner with
  | nil =>
    cases same
    exact new names found
  | cons => cases same

variable [DecidableEq K]

def prune (dir : List K) (name : K) : Tree K V where
  node := pruned (dir ++ [name]) tree.node
  top := by
    rw [pruned_isSome_iff]
    exact ⟨by simp, tree.top⟩
  above names other there := by
    rw [pruned_isSome_iff] at there ⊢
    exact ⟨fun inside => there.1 (inside.trans (List.prefix_append _ _)), tree.above _ _ there.2⟩
  distinct first second there same := by
    obtain ⟨v, is⟩ := Option.isSome_iff_exists.mp there
    rw [is, eq_comm] at same
    exact tree.eq_of_some (pruned_eq_some is).2 (pruned_eq_some same).2

variable {tree} in
theorem Apart.prune {sub : Tree K V} (apart : tree.Apart sub) (dir : List K) (name : K) : (tree.prune dir name).Apart sub :=
  fun names inner v found => apart names inner v (pruned_eq_some found).2

/-- The tree with another one at a place in a directory of it, instead of what was there. -/
def graft (dir : List K) (name : K) (sub : Tree K V) (there : (tree.node dir).isSome)
    (apart : (tree.prune dir name).Apart sub) : Tree K V where
  node names := if dir ++ [name] <+: names then sub.node (names.drop (dir ++ [name]).length) else tree.node names
  top := by
    rw [if_neg (by simp)]
    exact tree.top
  above names other found := by
    by_cases below : dir ++ [name] <+: names ++ [other]
    · rw [if_pos below] at found
      rcases List.prefix_concat_iff.mp below with same | inside
      · -- The parent of the place is in the tree around it.
        obtain ⟨rfl, _⟩ := List.append_inj' same rfl
        rwa [if_neg (child_not_above dir name)]
      · rw [if_pos inside]
        rw [List.drop_append_of_le_length inside.length_le] at found
        exact sub.above _ _ found
    · rw [if_neg below] at found
      rw [if_neg fun inside => below (inside.trans (List.prefix_append _ _))]
      exact tree.above _ _ found
  distinct first second found same := by
    obtain ⟨v, is⟩ := Option.isSome_iff_exists.mp found
    rw [is, eq_comm] at same
    by_cases one : dir ++ [name] <+: first <;> by_cases two : dir ++ [name] <+: second
    · rw [if_pos one] at is
      rw [if_pos two] at same
      obtain ⟨left, rfl⟩ := one
      obtain ⟨right, rfl⟩ := two
      rw [List.drop_left] at is same
      rw [sub.eq_of_some is same]
    · rw [if_pos one] at is
      rw [if_neg two] at same
      exact absurd is (apart _ _ v ((pruned_apart two).trans same))
    · rw [if_neg one] at is
      rw [if_pos two] at same
      exact absurd same (apart _ _ v ((pruned_apart one).trans is))
    · rw [if_neg one] at is
      rw [if_neg two] at same
      exact tree.eq_of_some is same

section
variable {tree} {dir : List K} {name : K} {sub : Tree K V} {there : (tree.node dir).isSome}
  {apart : (tree.prune dir name).Apart sub} {names : List K}

theorem graft_apart (other : ¬dir ++ [name] <+: names) :
    (tree.graft dir name sub there apart).node names = tree.node names := if_neg other

theorem graft_below (inner : List K) :
    (tree.graft dir name sub there apart).node (dir ++ [name] ++ inner) = sub.node inner := by
  change (if dir ++ [name] <+: dir ++ [name] ++ inner then _ else _ : Option V) = _
  rw [if_pos (List.prefix_append _ _), List.drop_left]

theorem graft_place : ((tree.graft dir name sub there apart).node (dir ++ [name])).isSome := by
  have same : (tree.graft dir name sub there apart).node (dir ++ [name] ++ []) = sub.node [] := graft_below []
  rw [List.append_nil] at same
  rw [same]
  exact sub.top

end

theorem apart_branch {dir : List K} {name : K} (there : (tree.node (dir ++ [name])).isSome) :
    (tree.prune dir name).Apart (tree.branch (dir ++ [name]) there) := by
  intro names inner v found same
  obtain ⟨other, is⟩ := pruned_eq_some found
  exact other (tree.eq_of_some same is ▸ List.prefix_append _ _)

/-- A subtree is taken to another place, which does not lie in it, instead of what was there. -/
def move (dir : List K) (name : K) (is : (tree.node (dir ++ [name])).isSome) (toDir : List K) (toName : K)
    (there : ((tree.prune dir name).node toDir).isSome) : Tree K V :=
  (tree.prune dir name).graft toDir toName (tree.branch (dir ++ [name]) is) there
    ((tree.apart_branch is).prune toDir toName)

end Tree
end Inotispy.Library
