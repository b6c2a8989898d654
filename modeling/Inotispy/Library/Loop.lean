import Inotispy.Library.Program

/-! Loops that go on until their body says that they are over.

A loop is run for a number of rounds that is given to it. It ends if some number is enough, and
then every larger one gives the same.
-/

set_option autoImplicit false

namespace Inotispy.Library

variable {F S A B : Type}

/-- Each round answers with what the next one starts from, or with the value of the loop. There is
no value when the rounds do not suffice. -/
def Program.loop (round : A → Program F S (A ⊕ B)) : Nat → A → Program F S (Option B)
  | 0, _ => pure none
  | rounds + 1, a => do
    match ← round a with
    | .inl next => Program.loop round rounds next
    | .inr value => return some value

variable {round : A → Program F S (A ⊕ B)}

theorem Program.loop_step {a next : A} {s t : S} (ran : round a s = .ok (.inl next, t)) (rounds : Nat) :
    Program.loop round (rounds + 1) a s = Program.loop round rounds next t := by
  rw [Program.loop, Program.bind_ok _ _ _ _ _ ran]

theorem Program.loop_last {a : A} {value : B} {s t : S} (ran : round a s = .ok (.inr value, t)) (rounds : Nat) :
    Program.loop round (rounds + 1) a s = .ok (some value, t) := by
  rw [Program.loop, Program.bind_ok _ _ _ _ _ ran]
  rfl

theorem Program.loop_mono {rounds more : Nat} {a : A} {value : B} {s t : S}
    (ended : Program.loop round rounds a s = .ok (some value, t)) (enough : rounds ≤ more) :
    Program.loop round more a s = .ok (some value, t) := by
  induction rounds generalizing more a s with
  | zero => cases ended
  | succ rounds ih =>
    obtain ⟨more, rfl⟩ : ∃ n, more = n + 1 := ⟨more - 1, by omega⟩
    obtain ⟨answer, u, ran, rest⟩ := Program.bind_eq_ok ended
    cases answer with
    | inl next =>
      rw [Program.loop_step ran]
      exact ih rest (Nat.le_of_succ_le_succ enough)
    | inr last =>
      rw [Program.loop_last ran]
      exact rest

/-- Started at `a` in a state, the loop ends with a value in another. -/
def Ends (round : A → Program F S (A ⊕ B)) (a : A) (s : S) (value : B) (t : S) : Prop :=
  ∃ rounds, Program.loop round rounds a s = .ok (some value, t)

namespace Ends

variable {a next : A} {value other : B} {s t u : S}

theorem last (ran : round a s = .ok (.inr value, t)) : Ends round a s value t :=
  ⟨1, Program.loop_last ran 0⟩

theorem step (ran : round a s = .ok (.inl next, t)) (rest : Ends round next t value u) : Ends round a s value u := by
  obtain ⟨rounds, ended⟩ := rest
  exact ⟨rounds + 1, (Program.loop_step ran rounds).trans ended⟩

theorem first (ends : Ends round a s value u) : ∃ answer, round a s = .ok answer := by
  obtain ⟨rounds, ended⟩ := ends
  cases rounds with
  | zero => cases ended
  | succ rounds =>
    obtain ⟨answer, t, ran, _⟩ := Program.bind_eq_ok ended
    exact ⟨_, ran⟩

theorem rest (ends : Ends round a s value u) (ran : round a s = .ok (.inl next, t)) : Ends round next t value u := by
  obtain ⟨rounds, ended⟩ := ends
  cases rounds with
  | zero => cases ended
  | succ rounds => exact ⟨rounds, (Program.loop_step ran rounds).symm.trans ended⟩

theorem unique (one : Ends round a s value t) (two : Ends round a s other u) : value = other ∧ t = u := by
  obtain ⟨rounds, ended⟩ := one
  obtain ⟨rounds', ended'⟩ := two
  have same : (some value, t) = (some other, u) := by
    rcases Nat.le_total rounds rounds' with fewer | more
    · exact Except.ok.inj ((Program.loop_mono ended fewer).symm.trans ended')
    · exact Except.ok.inj (ended.symm.trans (Program.loop_mono ended' more))
  cases same
  exact ⟨rfl, rfl⟩

end Ends
end Inotispy.Library
