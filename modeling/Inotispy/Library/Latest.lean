import Mathlib.Data.List.Basic

/-! Settings that are kept until another value is given.

A history says at each point which value is given, if one is. What is in force is the latest value
that was given, or the default if there was none.
-/

set_option autoImplicit false

namespace Inotispy.Library

variable {A : Type}

def latest : List (Option A) → Option A := List.foldl (fun kept given => given.or kept) none

/-- The value in force. -/
def settled (default : A) (history : List (Option A)) : A := (latest history).getD default

theorem latest_concat (history : List (Option A)) (given : Option A) :
    latest (history ++ [given]) = given.or (latest history) := by
  rw [latest, List.foldl_append]
  rfl

theorem settled_concat (default : A) (history : List (Option A)) (given : Option A) :
    settled default (history ++ [given]) = given.getD (settled default history) := by
  rw [settled, latest_concat, settled]
  cases given <;> rfl

theorem settled_eq_default {default : A} {history : List (Option A)} :
    settled default history = default ↔ ∀ value ∈ latest history, value = default := by
  rw [settled]
  cases latest history <;> simp

/-- The history before the last point makes no difference exactly when a value is given there or the
one in force was the default. -/
theorem settled_forgets {default : A} {history : List (Option A)} {given : Option A} :
    settled default (history ++ [given]) = settled default [given] ↔
      given.isSome ∨ ∀ value ∈ latest history, value = default := by
  rw [settled_concat, ← settled_eq_default]
  cases given with
  | none =>
    have fresh : settled default [none] = default := rfl
    simp [fresh]
  | some value =>
    have fresh : settled default [some value] = value := rfl
    simp [fresh]

end Inotispy.Library
