import Mathlib.Algebra.Order.BigOperators.Group.List
import Mathlib.Algebra.Order.Ring.Nat
import Mathlib.Data.Nat.Find

/-! Workers that take turns, and what their work costs.

Each turn of a busy worker uses up some of a measure, and idle workers do nothing. When every
busy worker gets a turn sooner or later, the workers come to rest. For a worker that descends
into a graph the measure is the cost of its walk.
-/

set_option autoImplicit false

namespace Inotispy.Library

/-! ## Rest -/

/-- Workers, told apart by numbers, with a measure that each turn of a busy one lessens. -/
structure Exhausts {S : Type} (turn : Nat → S → S → Prop) (busy : Nat → S → Prop) (inv : S → Prop)
    (measure : S → Nat) : Prop where
  keeps : ∀ {i s t}, inv s → turn i s t → inv t
  works : ∀ {i s t}, inv s → busy i s → turn i s t → measure t < measure s
  idles : ∀ {i s t}, inv s → ¬busy i s → turn i s t → t = s
  others : ∀ {i j s t}, inv s → turn i s t → j ≠ i → (busy j t ↔ busy j s)

namespace Exhausts

variable {S : Type} {turn : Nat → S → S → Prop} {busy : Nat → S → Prop} {inv : S → Prop} {measure : S → Nat}
  (exhausts : Exhausts turn busy inv measure)
include exhausts

theorem measure_le {i : Nat} {s t : S} (holds : inv s) (turned : turn i s t) : measure t ≤ measure s := by
  by_cases working : busy i s
  · exact Nat.le_of_lt (exhausts.works holds working turned)
  · rw [exhausts.idles holds working turned]

variable {run : Nat → S} {who : Nat → Nat}

theorem run_inv (start : inv (run 0)) (turned : ∀ n, turn (who n) (run n) (run (n + 1))) (n : Nat) : inv (run n) := by
  induction n with
  | zero => exact start
  | succ n ih => exact exhausts.keeps ih (turned n)

theorem run_measure (start : inv (run 0)) (turned : ∀ n, turn (who n) (run n) (run (n + 1))) (n k : Nat) :
    measure (run (n + k)) ≤ measure (run n) := by
  induction k with
  | zero => exact Nat.le_refl _
  | succ k ih => exact (exhausts.measure_le (exhausts.run_inv start turned (n + k)) (turned (n + k))).trans ih

theorem run_busy (start : inv (run 0)) (turned : ∀ n, turn (who n) (run n) (run (n + 1))) {i n k : Nat}
    (working : busy i (run n)) (waits : ∀ m, n ≤ m → m < n + k → who m ≠ i) : busy i (run (n + k)) := by
  induction k with
  | zero => exact working
  | succ k ih =>
    have before := ih fun m least most => waits m least (by omega)
    have other : i ≠ who (n + k) := fun same => waits (n + k) (by omega) (by omega) same.symm
    exact (exhausts.others (exhausts.run_inv start turned (n + k)) (turned (n + k)) other).mpr before

theorem run_uses (start : inv (run 0)) (turned : ∀ n, turn (who n) (run n) (run (n + 1))) {i n : Nat}
    (working : busy i (run n)) (due : ∃ m, n ≤ m ∧ who m = i) : ∃ m, measure (run m) < measure (run n) := by
  classical
  obtain ⟨k, first⟩ := Nat.exists_eq_add_of_le (Nat.find_spec due).1
  have still : busy i (run (n + k)) :=
    exhausts.run_busy start turned working fun m least less same => Nat.find_min due (first ▸ less) ⟨least, same⟩
  have less := exhausts.works (exhausts.run_inv start turned (n + k)) still
    ((first ▸ (Nat.find_spec due).2 : who (n + k) = i) ▸ turned (n + k))
  exact ⟨n + k + 1, Nat.lt_of_lt_of_le less (exhausts.run_measure start turned n k)⟩

/-- In a run in which every busy worker gets a turn sooner or later there is a time from which all are idle. -/
theorem comes_to_rest (start : inv (run 0)) (turned : ∀ n, turn (who n) (run n) (run (n + 1)))
    (fair : ∀ i n, busy i (run n) → ∃ m, n ≤ m ∧ who m = i) : ∃ n, ∀ m, n ≤ m → ∀ i, ¬busy i (run m) := by
  classical
  -- The time at which the least is left of the measure.
  have some_ : ∃ least n, measure (run n) = least := ⟨_, 0, rfl⟩
  obtain ⟨n, is⟩ := Nat.find_spec some_
  refine ⟨n, fun m later i working => ?_⟩
  obtain ⟨k, rfl⟩ := Nat.exists_eq_add_of_le later
  obtain ⟨t, less⟩ := exhausts.run_uses start turned working (fair i _ working)
  have most := exhausts.run_measure start turned n k
  exact Nat.find_min some_ (is ▸ Nat.lt_of_lt_of_le less most) ⟨t, rfl⟩

end Exhausts

theorem sum_map_set {A : Type} (f : A → Nat) {l : List A} {i : Nat} {a b : A} (found : l[i]? = some a) :
    ((l.set i b).map f).sum + f a = (l.map f).sum + f b := by
  induction l generalizing i with
  | nil => cases found
  | cons c l ih =>
    cases i with
    | zero =>
      cases found
      simp only [List.set_cons_zero, List.map_cons, List.sum_cons]
      omega
    | succ i =>
      have rest := ih (i := i) found
      simp only [List.set_cons_succ, List.map_cons, List.sum_cons]
      omega

/-! ## What a walk costs -/

/-- Where no descent goes on for ever and each node has finitely many below it, every node has a cost: its
own, and that of the nodes below it. -/
theorem exists_cost {N : Type} (own : N → Nat) (kids : N → List N)
    (ends : WellFounded fun kid node => kid ∈ kids node) :
    ∃ cost : N → Nat, ∀ node, cost node = own node + ((kids node).map cost).sum := by
  let step (node : N) (cost : ∀ kid, kid ∈ kids node → Nat) : Nat :=
    own node + ((kids node).attach.map fun kid => cost kid.1 kid.2).sum
  refine ⟨ends.fix step, fun node => ?_⟩
  rw [ends.fix_eq]
  exact congrArg (fun costs : List Nat => own node + costs.sum) List.attach_map_val

end Inotispy.Library
