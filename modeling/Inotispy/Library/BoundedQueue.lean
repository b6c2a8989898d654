import Mathlib.Data.List.Basic

/-! A bounded first-in first-out queue that can be paused.

A value carries the history of what it accepted and of what was taken from it, together
with the facts that tie them to its contents; each operation builds the next value with
these facts, so every queue that can be reached loses, repeats and reorders nothing.
-/

set_option autoImplicit false

namespace Inotispy.Library

structure BoundedQueue (E : Type) where
  capacity : Nat
  items : List E
  paused : Bool
  accepted : List E
  taken : List E
  bounded : items.length ≤ capacity
  quiet : paused = true → items = []
  whole : taken ++ items = accepted

namespace BoundedQueue

variable {E : Type}

def fresh (capacity : Nat) : BoundedQueue E :=
  ⟨capacity, [], false, [], [], Nat.zero_le _, fun _ => rfl, rfl⟩

def push (q : BoundedQueue E) (e : E) (running : q.paused = false)
    (room : q.items.length < q.capacity) : BoundedQueue E where
  capacity := q.capacity
  items := q.items ++ [e]
  paused := q.paused
  accepted := q.accepted ++ [e]
  taken := q.taken
  bounded := by
    rw [List.length_append]
    exact room
  quiet paused := by
    rw [running] at paused
    cases paused
  whole := by rw [← List.append_assoc, q.whole]

def take (q : BoundedQueue E) (n : Nat) : BoundedQueue E where
  capacity := q.capacity
  items := q.items.drop n
  paused := q.paused
  accepted := q.accepted
  taken := q.taken ++ q.items.take n
  bounded := by
    have bounded := q.bounded
    rw [List.length_drop]
    omega
  quiet paused := by rw [q.quiet paused, List.drop_nil]
  whole := by rw [List.append_assoc, List.take_append_drop, q.whole]

/-- Stop accepting, and hand out everything. -/
def pause (q : BoundedQueue E) : BoundedQueue E where
  capacity := q.capacity
  items := []
  paused := true
  accepted := q.accepted
  taken := q.taken ++ q.items
  bounded := Nat.zero_le _
  quiet _ := rfl
  whole := by rw [List.append_nil, q.whole]

def unpause (q : BoundedQueue E) : BoundedQueue E :=
  { q with paused := false, quiet := nofun }

end BoundedQueue
end Inotispy.Library
