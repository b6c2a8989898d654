import Inotispy.Disk.Coverage
import Inotispy.Events.Temporaries
import Inotispy.Library.Tree

/-! A disk whose directories below a path form a tree, and how they come and go.

A directory is told by the names that lead to it from the top of the tree. What someone does
to the directories is an operation on the tree; the kernel says of each operation in which
directory an entry has come or gone.
-/

set_option autoImplicit false

namespace Inotispy
open Library

variable {Inode : Type}

/-! ## Paths in the tree -/

/-- The path of a root other than "/", whose name is not that of a temporary. -/
structure TopPath (base : Str) : Prop where
  absolute : base.head? = some '/'
  notTop : base ≠ str "/"
  plain : ¬tmpStr <:+ base

namespace TopPath

variable {base : Str} (top : TopPath base)
include top

theorem join_absolute (names : List Name) : (Path.join base names).head? = some '/' := by
  obtain ⟨tail, rfl⟩ := List.head?_eq_some_iff.mp top.absolute
  rfl

theorem join_ne_top (names : List Name) : Path.join base names ≠ str "/" := by
  intro same
  by_cases bottom : names = []
  · subst bottom
    exact top.notTop (by rwa [Path.join_nil] at same)
  · have long := Path.two_le_length_join bottom
    rw [Path.join_base] at same
    have lengths := congrArg List.length same
    simp only [List.length_append, str, String.length_toList] at lengths
    change base.length + (Path.join [] names).length = 1 at lengths
    omega

theorem childPath_join (names : List Name) (name : Name) :
    childPath (Path.join base names) name.text = Path.join base (names ++ [name]) := by
  rw [childPath, if_neg (top.join_ne_top names), Path.join_append, Path.join_cons, Path.join_nil, List.append_nil,
    List.append_assoc]
  rfl

theorem eventPath_join (names : List Name) (name : Name) :
    eventPath (Path.join base names) name.text = Path.join base (names ++ [name]) := by
  rw [← top.childPath_join, eventPath, childPath, if_neg (top.join_ne_top names), if_neg (top.join_ne_top names)]

theorem join_plain {names : List Name} (plain : ∀ name ∈ names, ¬tmpStr <:+ name.text) :
    endsInTmp (Path.join base names) = false := by
  rw [← Bool.not_eq_true, endsInTmp_iff]
  rintro ⟨ends, _⟩
  induction names using List.reverseRecOn with
  | nil => exact top.plain (by rwa [Path.join_nil] at ends)
  | append_singleton names name _ =>
    rw [← suffix_iff, Path.join_append, Path.join_cons, Path.join_nil, List.append_nil,
      Path.lastComponent_slash name.noSlash] at ends
    exact plain name (by simp) ends

end TopPath

/-! ## Disks -/

/-- The directories at and below a path are those of a tree: all of them open, a walker goes on
from each to those in it, and none has the name of a temporary. -/
structure Shows (outside : Outside Inode) (base : Str) (tree : Tree Name Inode) : Prop where
  directory : ∀ names inode, tree.node names = some inode → outside.directory (Path.join base names) = some inode
  listed : ∀ names child, (tree.node names).isSome → (outside.Kid (Path.join base names) child ↔
    ∃ name, (tree.node (names ++ [name])).isSome ∧ child = Path.join base (names ++ [name]))
  plain : ∀ names name, (tree.node (names ++ [name])).isSome → ¬tmpStr <:+ name.text

namespace Shows

variable {outside : Outside Inode} {base : Str} {tree : Tree Name Inode} (shows_ : Shows outside base tree)
include shows_

theorem plain_names {names : List Name} (there : (tree.node names).isSome) : ∀ name ∈ names, ¬tmpStr <:+ name.text := by
  intro name member
  obtain ⟨before, after, rfl⟩ := List.append_of_mem member
  exact shows_.plain before name (tree.above_prefix there (by simp))

theorem same {after : Outside Inode} (same : Outside.SameDisk outside after) : Shows after base tree where
  directory := by
    rw [same.directory]
    exact shows_.directory
  listed := by
    have kid : after.Kid = outside.Kid := by
      unfold Outside.Kid Outside.KidIn
      rw [same.isDir, same.entries]
    rw [kid]
    exact shows_.listed
  plain := shows_.plain

variable (top : TopPath base)
include top

theorem eligible {names : List Name} (there : (tree.node names).isSome) : outside.Eligible (Path.join base names) := by
  obtain ⟨inode, is⟩ := Option.isSome_iff_exists.mp there
  exact ⟨top.join_plain (shows_.plain_names there), by rw [shows_.directory names inode is]; rfl⟩

theorem walks_iff {place : List Name} (there : (tree.node place).isSome) (path : Str) :
    outside.Walks (Path.join base place) path ↔
      ∃ names, place <+: names ∧ (tree.node names).isSome ∧ path = Path.join base names := by
  constructor
  · intro reached
    induction reached with
    | top => exact ⟨place, List.prefix_refl _, there, rfl⟩
    | kid _ next _ ih =>
      obtain ⟨names, below, some_, rfl⟩ := ih
      obtain ⟨name, kid, rfl⟩ := (shows_.listed names _ some_).mp next
      exact ⟨names ++ [name], below.trans (List.prefix_append _ _), kid, rfl⟩
  · rintro ⟨names, ⟨more, rfl⟩, some_, rfl⟩
    induction more using List.reverseRecOn with
    | nil =>
      rw [List.append_nil]
      exact .top (shows_.eligible top there)
    | append_singleton more name ih =>
      rw [← List.append_assoc] at some_ ⊢
      have above := tree.above _ _ some_
      exact .kid (ih above) ((shows_.listed _ _ above).mpr ⟨name, some_, rfl⟩) (shows_.eligible top some_)

theorem distinct {place : List Name} (there : (tree.node place).isSome) :
    outside.Distinct (Path.join base place) := by
  intro first second one two same
  obtain ⟨names, _, some_, rfl⟩ := (shows_.walks_iff top there _).mp one
  obtain ⟨others, _, some_', rfl⟩ := (shows_.walks_iff top there _).mp two
  obtain ⟨inode, is⟩ := Option.isSome_iff_exists.mp some_
  obtain ⟨inode', is'⟩ := Option.isSome_iff_exists.mp some_'
  rw [shows_.directory _ _ is, shows_.directory _ _ is'] at same
  cases same
  rw [tree.eq_of_some is is']

end Shows

/-! ## Operations -/

/-- An entry of a directory has come or gone, in the way the bit of the mask says. -/
structure Notice where
  dir : List Name
  name : Name
  bit : UInt32

def Notice.place (notice : Notice) : List Name := notice.dir ++ [notice.name]

/-- What someone does to the directories below the top: the tree afterwards, the directories that
are deleted, and what there is to say about it. -/
inductive TreeChange (tree : Tree Name Inode) : Tree Name Inode → (Inode → Prop) → List Notice → Prop where
  | mkdir (dir : List Name) (name : Name) (inode : Inode) (there : (tree.node dir).isSome)
      (free : tree.node (dir ++ [name]) = none) (new : ∀ names, tree.node names ≠ some inode) :
      TreeChange tree (tree.graft dir name (.single inode) there ((tree.apart_single new).prune dir name))
        (fun _ => False) [⟨dir, name, inCreate⟩]
  | rmdir (dir : List Name) (name : Name) (leaf : tree.Leaf (dir ++ [name])) :
      TreeChange tree (tree.prune dir name) (fun inode => tree.node (dir ++ [name]) = some inode)
        [⟨dir, name, inDelete⟩]
  | rename (dir : List Name) (name : Name) (is : (tree.node (dir ++ [name])).isSome) (toDir : List Name) (toName : Name)
      (there : ((tree.prune dir name).node toDir).isSome) (free : tree.node (toDir ++ [toName]) = none) :
      TreeChange tree (tree.move dir name is toDir toName there) (fun _ => False)
        [⟨dir, name, inMovedFrom⟩, ⟨toDir, toName, inMovedTo⟩]
  /-- The directory that is renamed takes the place of an empty one. -/
  | renameOver (dir : List Name) (name : Name) (is : (tree.node (dir ++ [name])).isSome) (toDir : List Name) (toName : Name)
      (there : ((tree.prune dir name).node toDir).isSome) (leaf : tree.Leaf (toDir ++ [toName]))
      (other : toDir ++ [toName] ≠ dir ++ [name]) :
      TreeChange tree (tree.move dir name is toDir toName there)
        (fun inode => tree.node (toDir ++ [toName]) = some inode)
        [⟨dir, name, inMovedFrom⟩, ⟨toDir, toName, inMovedTo⟩]
  | moveIn (dir : List Name) (name : Name) (sub : Tree Name Inode) (there : (tree.node dir).isSome)
      (free : tree.node (dir ++ [name]) = none) (apart : tree.Apart sub) :
      TreeChange tree (tree.graft dir name sub there (apart.prune dir name)) (fun _ => False) [⟨dir, name, inMovedTo⟩]
  | moveOut (dir : List Name) (name : Name) (is : (tree.node (dir ++ [name])).isSome) :
      TreeChange tree (tree.prune dir name) (fun _ => False) [⟨dir, name, inMovedFrom⟩]

/-- What the watches have to go through, notice by notice, from the directories `node` to those of
the tree: subtrees are given up, and at last one is walked. -/
inductive Due (tree : Tree Name Inode) (deleted : Inode → Prop) : (List Name → Option Inode) → List Notice → Prop where
  | done : Due tree deleted tree.node []
  | gone {node : List Name → Option Inode} {notice : Notice} {rest : List Notice} (inode : Inode)
      (dir : node notice.dir = some inode) (stays : tree.node notice.dir = some inode) (is : (node notice.place).isSome)
      (bit : notice.bit = inMovedFrom ∨ notice.bit = inDelete ∧
        ∀ names, notice.place <+: names → (node names).isSome → names = notice.place)
      (next : Due tree deleted (pruned notice.place node) rest) : Due tree deleted node (notice :: rest)
  | new {node : List Name → Option Inode} {notice : Notice} (inode : Inode)
      (dir : node notice.dir = some inode) (stays : tree.node notice.dir = some inode)
      (bit : notice.bit = inCreate ∨ notice.bit = inMovedTo) (is : (tree.node notice.place).isSome)
      (outside : ∀ names, ¬notice.place <+: names → node names = tree.node names)
      (inside : ∀ names inode, notice.place <+: names → node names = some inode →
        (tree.node names).isSome ∧ deleted inode) : Due tree deleted node [notice]

section
variable {tree after : Tree Name Inode} {deleted : Inode → Prop}

theorem Due.graft {dir : List Name} {name : Name} {sub : Tree Name Inode} (there : (tree.node dir).isSome)
    (apart : (tree.prune dir name).Apart sub) {bit : UInt32} (is : bit = inCreate ∨ bit = inMovedTo)
    (hidden : ∀ names inode, dir ++ [name] <+: names → tree.node names = some inode →
      names = dir ++ [name] ∧ deleted inode) :
    Due (tree.graft dir name sub there apart) deleted tree.node [⟨dir, name, bit⟩] := by
  obtain ⟨inode, at_⟩ := Option.isSome_iff_exists.mp there
  refine .new inode at_ ?_ is Tree.graft_place (fun names other => (Tree.graft_apart other).symm) ?_
  · exact (Tree.graft_apart (child_not_above dir name)).trans at_
  · intro names inode below found
    obtain ⟨rfl, lost⟩ := hidden names inode below found
    exact ⟨Tree.graft_place, lost⟩

theorem Due.move {dir : List Name} {name : Name} (is : (tree.node (dir ++ [name])).isSome) {toDir : List Name}
    {toName : Name} (there : ((tree.prune dir name).node toDir).isSome)
    (target : ∀ names inode, toDir ++ [toName] <+: names → tree.node names = some inode →
      names = toDir ++ [toName] ∧ deleted inode) (other : ¬toDir ++ [toName] <+: dir) :
    Due (tree.move dir name is toDir toName there) deleted tree.node
      [⟨dir, name, inMovedFrom⟩, ⟨toDir, toName, inMovedTo⟩] := by
  obtain ⟨inode, at_⟩ := Option.isSome_iff_exists.mp (tree.above _ _ is)
  refine .gone inode at_ ?_ is (.inl rfl) (.graft there _ (.inr rfl) ?_)
  · exact (Tree.graft_apart other).trans ((pruned_apart (child_not_above dir name)).trans at_)
  · exact fun names inode below found => target names inode below (pruned_eq_some found).2

theorem TreeChange.due {notices : List Notice} (change : TreeChange tree after deleted notices) :
    Due after deleted tree.node notices := by
  have nothing {dir : List Name} {name : Name} (free : tree.node (dir ++ [name]) = none) (names : List Name)
      (inode : Inode) (below : dir ++ [name] <+: names) (found : tree.node names = some inode) :
      names = dir ++ [name] ∧ deleted inode := by
    rw [tree.none_below free below] at found
    cases found
  cases change with
  | mkdir dir name inode there free new => exact .graft there _ (.inl rfl) (nothing free)
  | rmdir dir name leaf =>
    obtain ⟨inode, at_⟩ := Option.isSome_iff_exists.mp (tree.above _ _ leaf.there)
    refine .gone inode at_ ((pruned_apart (child_not_above dir name)).trans at_) leaf.there (.inr ⟨rfl, ?_⟩) .done
    exact fun names below there => leaf.eq there below
  | rename dir name is toDir toName there free =>
    refine .move is there (nothing free) fun below => ?_
    have above := tree.none_below free (below.trans (List.prefix_append dir [name]))
    rw [above] at is
    cases is
  | renameOver dir name is toDir toName there leaf other =>
    refine .move is there (fun names inode below found => ?_) fun below => ?_
    · obtain rfl := leaf.eq (by simp [found]) below
      exact ⟨rfl, found⟩
    · -- Nothing lies in the directory that is replaced, and so not what is renamed.
      obtain rfl := leaf.eq (tree.above _ _ is) below
      rw [leaf.bare] at is
      cases is
  | moveIn dir name sub there free apart => exact .graft there _ (.inr rfl) (nothing free)
  | moveOut dir name is =>
    obtain ⟨inode, at_⟩ := Option.isSome_iff_exists.mp (tree.above _ _ is)
    exact .gone inode at_ ((pruned_apart (child_not_above dir name)).trans at_) is (.inl rfl) .done

theorem TreeChange.deleted_gone {notices : List Notice} (change : TreeChange tree after deleted notices) {inode : Inode}
    (lost : deleted inode) (names : List Name) : after.node names ≠ some inode := by
  intro found
  cases change with
  | rmdir dir name leaf =>
    obtain ⟨other, is⟩ := pruned_eq_some found
    exact other (tree.eq_of_some lost is ▸ List.prefix_refl _)
  | renameOver dir name is toDir toName there leaf other =>
    by_cases below : toDir ++ [toName] <+: names
    · obtain ⟨inner, rfl⟩ := below
      rw [Tree.move, Tree.graft_below] at found
      have same := tree.eq_of_some lost found
      have inside : dir ++ [name] <+: toDir ++ [toName] := same ▸ List.prefix_append _ _
      rcases List.prefix_concat_iff.mp inside with is | inside
      · exact other is.symm
      · exact (pruned_isSome_iff.mp there).1 inside
    · rw [Tree.move, Tree.graft_apart below] at found
      exact below (tree.eq_of_some lost (pruned_eq_some found).2 ▸ List.prefix_refl _)
  | _ => exact lost

end
end Inotispy
