/-! Marking a graph from a node, with work left to do.

A traversal marks nodes one at a time, in any order and by any number of workers. What
it needs to find everything is that each neighbour of a marked node is marked or pending;
how the pending nodes are kept is left open.
-/

set_option autoImplicit false

namespace Inotispy.Library

variable {N : Type}

/-- The nodes that lie on a path of eligible nodes from the top. -/
inductive Reaches (kid : N → N → Prop) (eligible : N → Prop) (top : N) : N → Prop where
  | top (fits : eligible top) : Reaches kid eligible top top
  | kid {parent child : N} (reached : Reaches kid eligible top parent) (next : kid parent child)
      (fits : eligible child) : Reaches kid eligible top child

theorem Reaches.eligible {kid : N → N → Prop} {eligible : N → Prop} {top node : N}
    (reached : Reaches kid eligible top node) : eligible node := by
  cases reached with
  | top fits => exact fits
  | kid _ _ fits => exact fits

theorem Reaches.top_eligible {kid : N → N → Prop} {eligible : N → Prop} {top node : N}
    (reached : Reaches kid eligible top node) : eligible top := by
  induction reached with
  | top fits => exact fits
  | kid _ _ _ ih => exact ih

theorem Reaches.trans {kid : N → N → Prop} {eligible : N → Prop} {top middle node : N}
    (first : Reaches kid eligible top middle) (second : Reaches kid eligible middle node) :
    Reaches kid eligible top node := by
  induction second with
  | top => exact first
  | kid _ next fits ih => exact .kid ih next fits

/-- The neighbours of marked nodes are marked or pending. -/
structure Frontier (kid : N → N → Prop) (eligible : N → Prop) (top : N) (marked pending : N → Prop) :
    Prop where
  start : eligible top → marked top ∨ pending top
  kids : ∀ parent child, Reaches kid eligible top parent → marked parent → kid parent child →
    eligible child → marked child ∨ pending child

namespace Frontier

variable {kid : N → N → Prop} {eligible : N → Prop} {top : N} {marked pending : N → Prop}
  (frontier : Frontier kid eligible top marked pending)
include frontier

theorem complete (done : ∀ node, ¬pending node) {node : N}
    (reached : Reaches kid eligible top node) : marked node := by
  induction reached with
  | top fits => exact (frontier.start fits).resolve_right (done top)
  | kid reached next fits ih => exact (frontier.kids _ _ reached ih next fits).resolve_right (done _)

/-- A step of a worker: what was marked stays so, what was pending is marked or still
pending, and the neighbours of what is newly marked are taken up. -/
theorem step {marked' pending' : N → Prop} (kept : ∀ node, marked node → marked' node)
    (moved : ∀ node, eligible node → pending node → marked' node ∨ pending' node)
    (newly : ∀ parent child, Reaches kid eligible top parent → marked' parent → ¬marked parent →
      kid parent child → eligible child → marked' child ∨ pending' child) :
    Frontier kid eligible top marked' pending' := by
  constructor
  · intro fits
    rcases frontier.start fits with old | waiting
    · exact .inl (kept top old)
    · exact moved top fits waiting
  · intro parent child reached now next fits
    by_cases before : marked parent
    · rcases frontier.kids parent child reached before next fits with old | waiting
      · exact .inl (kept child old)
      · exact moved child fits waiting
    · exact newly parent child reached now before next fits

end Frontier
end Inotispy.Library
