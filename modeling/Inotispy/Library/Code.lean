import Inotispy.Library.Program

/-! Code that does one operation after another and can be interrupted between any two.

A program is a function of the state it starts in, so it cannot be stopped halfway. Here the
operations stay apart. A handler that interrupts the code runs on top of it, and the code goes
on when the handler has returned. What matters of the state is followed through the code as a
view of it: `Safe` says that the code can go through all its operations in a given view, and
`Follows` that the view is kept up with the state.
-/

set_option autoImplicit false

namespace Inotispy.Library

/-- Code that ends with a value, or does an operation and goes on with what that returns. -/
inductive Code (Op : Type → Type 1) (A : Type) : Type 1 where
  | done (value : A)
  | step {B : Type} (op : Op B) (rest : B → Code Op A)

variable {Op : Type → Type 1} {F S A B : Type}

namespace Code

def bind : Code Op A → (A → Code Op B) → Code Op B
  | .done value, f => f value
  | .step op rest, f => .step op fun b => (rest b).bind f

instance : Monad (Code Op) where
  pure := .done
  bind := .bind

def perform (op : Op A) : Code Op A := .step op .done

def forEach (body : A → Code Op Unit) : List A → Code Op Unit
  | [] => pure ()
  | first :: rest => do
    body first
    forEach body rest

/-! ## Runs without interruption -/

section
variable (does : ∀ {B : Type}, Op B → Program F S B)

/-- The program that the code is when nothing interrupts it. -/
def run : Code Op A → Program F S A
  | .done value => pure value
  | .step op rest => do
    let b ← does op
    run (rest b)

theorem run_bind (x : Code Op A) (f : A → Code Op B) :
    run does (x >>= f) = (do
      let a ← run does x
      run does (f a)) := by
  induction x with
  | done value =>
    change run does (f value) = _
    rw [run, pure_bind]
  | step op rest ih =>
    change (do
      let b ← does op
      run does (rest b >>= f)) = _
    simp only [ih, run, bind_assoc]

theorem run_perform (op : Op A) : run does (perform op) = does op := bind_pure _

theorem run_forEach {body : A → Code Op Unit} {program : A → Program F S Unit}
    (same : ∀ a, run does (body a) = program a) (items : List A) :
    run does (forEach body items) = Program.forEach program items := by
  induction items with
  | nil => rfl
  | cons first rest ih =>
    rw [forEach, run_bind, same]
    simp only [ih, Program.forEach]

end

/-! ## The view -/

variable {H : Type}

section
variable (next : ∀ {B : Type}, Op B → H → (B → H → Prop) → Prop)

/-- The code goes through all its operations, as `next` says what each asks of the view and
what it makes of it. -/
def Safe : Code Op A → H → (A → H → Prop) → Prop
  | .done value, h, after => after value h
  | .step op rest, h, after => next op h fun b h' => (rest b).Safe h' after

theorem safe_bind {x : Code Op A} {f : A → Code Op B} {h : H} {after : B → H → Prop} :
    (x >>= f).Safe next h after ↔ x.Safe next h fun a h' => (f a).Safe next h' after := by
  induction x generalizing h with
  | done value => exact Iff.rfl
  | step op rest ih =>
    have same : (fun b h' => (rest b >>= f).Safe next h' after) =
        fun b h' => (rest b).Safe next h' fun a h'' => (f a).Safe next h'' after :=
      funext fun b => funext fun h' => propext (ih b)
    exact iff_of_eq (congrArg (next op h) same)

/-- What an operation is followed by may be weakened. -/
def Monotone : Prop :=
  ∀ {B : Type} (op : Op B) (h : H) (after after' : B → H → Prop),
    (∀ b h', after b h' → after' b h') → next op h after → next op h after'

variable {next}

theorem Safe.weaken (monotone : Monotone next) {x : Code Op A} {h : H} {after after' : A → H → Prop}
    (safe : x.Safe next h after) (weaker : ∀ a h', after a h' → after' a h') : x.Safe next h after' := by
  induction x generalizing h with
  | done value => exact weaker value h safe
  | step op rest ih => exact monotone op h _ _ (fun b h' here => ih b here) safe

theorem Safe.andThen (monotone : Monotone next) {x : Code Op A} {f : A → Code Op B} {h h' : H} {after : B → H → Prop}
    (first : x.Safe next h fun _ h'' => h'' = h') (rest : ∀ a, (f a).Safe next h' after) :
    (x >>= f).Safe next h after := by
  refine (safe_bind next).mpr (first.weaken monotone ?_)
  rintro a _ rfl
  exact rest a

theorem safe_forEach (monotone : Monotone next) {body : A → Code Op Unit} {h : H}
    (each : ∀ a, (body a).Safe next h fun _ h' => h' = h) (items : List A) :
    (forEach body items).Safe next h fun _ h' => h' = h := by
  induction items with
  | nil => exact rfl
  | cons first rest ih => exact (each first).andThen monotone fun _ => ih

end
end Code

/-! ## Interruptions -/

/-- The code that runs now, on top of the code that it has interrupted. -/
structure Process (Op : Type → Type 1) (S : Type) where
  stack : List (Code Op Unit)
  state : S

/-- Why a process moves: it goes on by itself, a signal arrives, or the state is changed from outside. -/
inductive Cause (I : Type) where
  | main
  | signal (signal : I)
  | outside
  deriving DecidableEq, Repr

variable {I H : Type}

section
variable (does : ∀ {B : Type}, Op B → Program F S B) (starts : Code Op Unit → Prop) (handler : I → Code Op Unit)
  (outside : S → S → Prop)

/-- A process with nothing to do starts on some code, and signals may arrive at any time. -/
inductive Moves : Cause I → Process Op S → Process Op S → Prop where
  | operation {C : Type} {op : Op C} {rest : C → Code Op Unit} {below : List (Code Op Unit)} {s s' : S} {c : C}
      (ran : does op s = .ok (c, s')) : Moves .main ⟨.step op rest :: below, s⟩ ⟨rest c :: below, s'⟩
  | returned {below : List (Code Op Unit)} {s : S} : Moves .main ⟨.done () :: below, s⟩ ⟨below, s⟩
  | started {code : Code Op Unit} {s : S} (is : starts code) : Moves .main ⟨[], s⟩ ⟨[code], s⟩
  | interrupted (signal : I) {stack : List (Code Op Unit)} {s : S} :
      Moves (.signal signal) ⟨stack, s⟩ ⟨handler signal :: stack, s⟩
  | changed {stack : List (Code Op Unit)} {s s' : S} (change : outside s s') : Moves .outside ⟨stack, s⟩ ⟨stack, s'⟩

variable {does} {starts} {handler} {outside} in
theorem Moves.weaken {starts' : Code Op Unit → Prop} {outside' : S → S → Prop} (fresh : ∀ code, starts code → starts' code)
    (around : ∀ s s', outside s s' → outside' s s') {cause : Cause I} {before after : Process Op S}
    (move : Moves does starts handler outside cause before after) : Moves does starts' handler outside' cause before after := by
  cases move with
  | operation ran => exact .operation ran
  | returned => exact .returned
  | started is => exact .started (fresh _ is)
  | interrupted signal => exact .interrupted signal
  | changed change => exact .changed (around _ _ change)

theorem moves_of_run {code : Code Op Unit} {below : List (Code Op Unit)} {s s' : S}
    (ran : code.run does s = .ok ((), s')) :
    Relation.ReflTransGen (Moves does starts handler outside .main) ⟨code :: below, s⟩ ⟨below, s'⟩ := by
  induction code generalizing s with
  | done value =>
    cases ran
    exact .single .returned
  | step op rest ih =>
    obtain ⟨b, t, first, later⟩ := Program.bind_eq_ok ran
    exact .head (.operation first) (ih b later)

def Process.Stops (process : Process Op S) (why : F) : Prop :=
  match process.stack with
  | .step op _ :: _ => does op process.state = .error why
  | _ => False

end

section
variable (next : ∀ {B : Type}, Op B → H → (B → H → Prop) → Prop)

/-- The code on the stack can be finished from the top down, and leaves the view `idle`. -/
def Unwinds (idle : H) : List (Code Op Unit) → H → Prop
  | [], h => h = idle
  | code :: below, h => code.Safe next h fun _ h' => Unwinds idle below h'

/-- While `inv` holds, an operation that is granted what it needs does to the view what `next`
says, and does not stop for a reason that is `bad`. -/
structure Follows (does : ∀ {B : Type}, Op B → Program F S B) (view : S → H) (inv : S → Prop)
    (granted : ∀ {B : Type}, Op B → S → Prop) (bad : F → Prop) : Prop where
  monotone : Code.Monotone next
  moves : ∀ {B : Type} (op : Op B) (s s' : S) (b : B) (after : B → H → Prop), inv s → granted op s →
    next op (view s) after → does op s = .ok (b, s') → inv s' ∧ after b (view s')
  spares : ∀ {B : Type} (op : Op B) (s : S) (why : F) (after : B → H → Prop), inv s →
    next op (view s) after → does op s = .error why → ¬bad why

end

section
variable {next : ∀ {B : Type}, Op B → H → (B → H → Prop) → Prop} {does : ∀ {B : Type}, Op B → Program F S B}
  {starts : Code Op Unit → Prop} {handler : I → Code Op Unit} {outside : S → S → Prop} {view : S → H} {inv : S → Prop}
  {granted : ∀ {B : Type}, Op B → S → Prop} {bad : F → Prop} {idle : H}

def Process.Granted (granted : ∀ {B : Type}, Op B → S → Prop) (process : Process Op S) : Prop :=
  match process.stack with
  | .step op _ :: _ => granted op process.state
  | _ => True

def Process.Sound (next : ∀ {B : Type}, Op B → H → (B → H → Prop) → Prop) (view : S → H) (inv : S → Prop) (idle : H)
    (process : Process Op S) : Prop :=
  inv process.state ∧ Unwinds next idle process.stack (view process.state)

theorem Process.Sound.moves {process process' : Process Op S} {cause : Cause I} (follows : Follows next does view inv granted bad)
    (fresh : ∀ code, starts code → code.Safe next idle fun _ h => h = idle)
    (keeps : ∀ s s', inv s → outside s s' → inv s' ∧ view s' = view s)
    (sound : process.Sound next view inv idle) (moves : Moves does starts handler outside cause process process')
    (grants : cause = .main → process.Granted granted)
    (handled : ∀ signal, cause = .signal signal →
      (handler signal).Safe next (view process.state) fun _ h => h = view process.state) :
    process'.Sound next view inv idle := by
  obtain ⟨holds, unwinds⟩ := sound
  cases moves with
  -- The stack is what follows the operation, in the view that the operation leaves.
  | operation ran => exact follows.moves _ _ _ _ _ holds (grants rfl) unwinds ran
  | returned => exact ⟨holds, unwinds⟩
  | @started code s is =>
    -- Nothing is on the stack, so nothing is held.
    have same : view s = idle := unwinds
    refine ⟨holds, ?_⟩
    change Unwinds next idle [code] (view s)
    rw [same]
    exact fresh code is
  -- The handler ends in the view it found, and there the code below can go on.
  | interrupted signal =>
    refine ⟨holds, (handled signal rfl).weaken follows.monotone ?_⟩
    rintro _ _ rfl
    exact unwinds
  | changed change =>
    obtain ⟨holds', same⟩ := keeps _ _ holds change
    exact ⟨holds', same ▸ unwinds⟩

theorem Process.Sound.spares {process : Process Op S} (follows : Follows next does view inv granted bad)
    (sound : process.Sound next view inv idle) {why : F} (stops : process.Stops does why) : ¬bad why := by
  obtain ⟨holds, unwinds⟩ := sound
  obtain ⟨stack, s⟩ := process
  cases stack with
  | nil => cases stops
  | cons code below =>
    cases code with
    | done value => cases stops
    | step op rest => exact follows.spares op s why _ holds unwinds stops

end

/-! ## Invariants of the state -/

section
variable (does : ∀ {B : Type}, Op B → Program F S B) (inv : S → Prop)

/-- The operation keeps the invariant. Nothing else is followed, so that the view is empty; what
comes next has to be fine for the values that the operation returns where the invariant holds. -/
def Keeping {B : Type} (op : Op B) (_ : Unit) (after : B → Unit → Prop) : Prop :=
  ∀ s s' b, inv s → does op s = .ok (b, s') → inv s' ∧ after b ()

theorem keeping_monotone : Code.Monotone fun {B : Type} => Keeping does inv (B := B) := by
  intro B op h after after' weaker keeps s s' b holds ran
  exact (keeps s s' b holds ran).imp_right (weaker b ())

theorem keeping_follows : Follows (fun {B : Type} => Keeping does inv (B := B)) does (fun _ => ()) inv
    (fun {_} _ _ => True) (fun _ => False) where
  monotone := keeping_monotone does inv
  moves _ s s' b _ holds _ next ran := next s s' b holds ran
  spares _ _ _ _ _ _ _ := id

/-- Every operation of the code keeps the invariant, and what the code returns is as `after` says. -/
def Code.Keeps (code : Code Op A) (after : A → Prop) : Prop :=
  code.Safe (fun {B : Type} => Keeping does inv (B := B)) () fun a _ => after a

namespace Code.Keeps

variable {does} {inv} {after : A → Prop}

theorem pure' {a : A} (is : after a) : Code.Keeps does inv (pure a : Code Op A) after := is

theorem perform {op : Op A} (keeps : ∀ s s' a, inv s → does op s = .ok (a, s') → inv s' ∧ after a) :
    Code.Keeps does inv (Code.perform op) after := keeps

theorem bind {x : Code Op A} {f : A → Code Op B} {out : B → Prop} (first : Code.Keeps does inv x after)
    (rest : ∀ a, after a → Code.Keeps does inv (f a) out) : Code.Keeps does inv (x >>= f) out :=
  (Code.safe_bind _).mpr (Code.Safe.weaken (keeping_monotone does inv) first fun a _ is => rest a is)

theorem weaken {x : Code Op A} {stronger : A → Prop} (keeps : Code.Keeps does inv x stronger)
    (weaker : ∀ a, stronger a → after a) : Code.Keeps does inv x after :=
  Code.Safe.weaken (keeping_monotone does inv) keeps fun a _ => weaker a

theorem ite' {c : Prop} [Decidable c] {x y : Code Op A} (yes : c → Code.Keeps does inv x after)
    (no : ¬c → Code.Keeps does inv y after) : Code.Keeps does inv (if c then x else y) after := by
  split
  · exact yes ‹c›
  · exact no ‹¬c›

theorem forEach {body : A → Code Op Unit} {items : List A}
    (each : ∀ a ∈ items, Code.Keeps does inv (body a) fun _ => True) :
    Code.Keeps does inv (Code.forEach body items) fun _ => True := by
  induction items with
  | nil => exact pure' trivial
  | cons first rest ih =>
    apply bind (each first List.mem_cons_self)
    exact fun _ _ => ih fun a member => each a (List.mem_cons_of_mem _ member)

end Code.Keeps

variable {does} {inv} {starts : Code Op Unit → Prop} {handler : I → Code Op Unit} {outside : S → S → Prop}

/-- What all code keeps, and what happens outside, holds in every state of every run. -/
theorem moves_keeps (fresh : ∀ code, starts code → Code.Keeps does inv code fun _ => True)
    (handles : ∀ signal, Code.Keeps does inv (handler signal) fun _ => True)
    (around : ∀ s s', inv s → outside s s' → inv s') {s : S} (holds : inv s) {process : Process Op S}
    (run : Relation.ReflTransGen (fun before after => ∃ cause, Moves does starts handler outside cause before after)
      ⟨[], s⟩ process) : inv process.state := by
  have sound : process.Sound (fun {B : Type} => Keeping does inv (B := B)) (fun _ => ()) inv () := by
    induction run with
    | refl => exact ⟨holds, rfl⟩
    | tail _ move ih =>
      obtain ⟨cause, move⟩ := move
      refine ih.moves (keeping_follows does inv) ?_ (fun s s' holds change => ⟨around s s' holds change, rfl⟩) move ?_ ?_
      · exact fun code is => Code.Safe.weaken (keeping_monotone does inv) (fresh code is) fun _ _ _ => rfl
      · intro _
        unfold Process.Granted
        split <;> trivial
      · exact fun signal _ => Code.Safe.weaken (keeping_monotone does inv) (handles signal) fun _ _ _ => rfl
  exact sound.1

end
end Inotispy.Library
