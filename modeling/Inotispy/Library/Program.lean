import Mathlib.Algebra.Ring.Int.Defs
import Mathlib.Algebra.Ring.Nat
import Mathlib.Logic.Relation

/-! Stateful programs that may stop with a fault, and rules for reasoning about them.

A program reads and changes a state and either returns a value or stops with a
fault; a fault discards the state. `Triple` is partial correctness: it says what
holds if the program returns. `Returns` is total correctness: the program does
return. `Spares` lies between them: the program may stop, but only with certain
faults. All come with one rule for each way of building a program.
-/

set_option autoImplicit false

namespace Inotispy.Library

abbrev Program (F S A : Type) := StateT S (Except F) A

variable {F S A B : Type}

namespace Program

def fault (why : F) : Program F S A := fun _ => .error why

def read (view : S → A) : Program F S A := fun s => .ok (view s, s)

def update (change : S → S) : Program F S Unit := fun s => .ok ((), change s)

def forEach (body : A → Program F S Unit) : List A → Program F S Unit
  | [] => pure ()
  | first :: rest => do
    body first
    forEach body rest

theorem forEach_append (body : A → Program F S Unit) (items more : List A) :
    forEach body (items ++ more) = (do
      forEach body items
      forEach body more) := by
  induction items with
  | nil => rfl
  | cons first rest ih => simp only [List.cons_append, forEach, ih, bind_assoc]

theorem forEach_map (body : B → Program F S Unit) (f : A → B) (items : List A) :
    forEach body (items.map f) = forEach (fun a => body (f a)) items := by
  induction items with
  | nil => rfl
  | cons first rest ih => simp only [List.map_cons, forEach, ih]

theorem forEach_filter {body : A → Program F S Unit} {heeded : A → Bool}
    (skips : ∀ a, heeded a = false → body a = pure ()) (items : List A) :
    forEach body (items.filter heeded) = forEach body items := by
  induction items with
  | nil => rfl
  | cons first rest ih =>
    cases kept : heeded first with
    | true => simp only [List.filter_cons, kept, if_true, forEach, ih]
    | false => simp only [List.filter_cons, kept, Bool.false_eq_true, if_false, forEach, ih, skips first kept, pure_bind]

@[simp] theorem pure_apply (a : A) (s : S) : (pure a : Program F S A) s = .ok (a, s) := rfl

@[simp] theorem fault_apply (why : F) (s : S) : (fault why : Program F S A) s = .error why := rfl

@[simp] theorem read_apply (view : S → A) (s : S) :
    (read view : Program F S A) s = .ok (view s, s) := rfl

@[simp] theorem update_apply (change : S → S) (s : S) :
    (update change : Program F S Unit) s = .ok ((), change s) := rfl

theorem bind_apply (x : Program F S A) (f : A → Program F S B) (s : S) :
    (x >>= f) s = match x s with
      | .ok (a, t) => f a t
      | .error why => .error why := by
  change (x s).bind _ = _
  cases x s <;> rfl

theorem bind_ok (x : Program F S A) (f : A → Program F S B) (s t : S) (a : A)
    (first : x s = .ok (a, t)) : (x >>= f) s = f a t := by
  rw [bind_apply, first]

theorem bind_eq_ok {x : Program F S A} {f : A → Program F S B} {s u : S} {b : B}
    (returned : (x >>= f) s = .ok (b, u)) :
    ∃ a t, x s = .ok (a, t) ∧ f a t = .ok (b, u) := by
  rw [bind_apply] at returned
  cases first : x s with
  | error why => rw [first] at returned; cases returned
  | ok result =>
    obtain ⟨a, t⟩ := result
    rw [first] at returned
    exact ⟨a, t, rfl, returned⟩

theorem bind_eq_ok_iff {x : Program F S A} {f : A → Program F S B} {s : S} {r : B × S} :
    (x >>= f) s = .ok r ↔ ∃ a t, x s = .ok (a, t) ∧ f a t = .ok r := by
  constructor
  · exact bind_eq_ok
  · rintro ⟨a, t, ran, rest⟩
    rw [bind_ok x f s t a ran, rest]

theorem bind_returns {x : Program F S A} {f : A → Program F S B} {s : S} (first : ∃ r, x s = .ok r)
    (rest : ∀ a t, x s = .ok (a, t) → ∃ r, f a t = .ok r) : ∃ r, (x >>= f) s = .ok r := by
  obtain ⟨⟨a, t⟩, ran⟩ := first
  rw [bind_ok x f s t a ran]
  exact rest a t ran

theorem ok_unique {x : Program F S A} {s t u : S} {a b : A} (first : x s = .ok (a, t))
    (second : x s = .ok (b, u)) : a = b ∧ t = u := by
  rw [first] at second
  cases second
  exact ⟨rfl, rfl⟩

theorem ok_of_toOption {x : Program F S A} {s : S} {r : A × S} (returned : (x s).toOption = some r) :
    x s = .ok r := by
  cases ran : x s with
  | error why => rw [ran] at returned; cases returned
  | ok result => rw [ran] at returned; cases returned; rfl

theorem pure_eq_ok {a b : A} {s t : S} :
    (pure a : Program F S A) s = .ok (b, t) ↔ b = a ∧ t = s := by
  constructor
  · intro returned
    cases returned
    exact ⟨rfl, rfl⟩
  · rintro ⟨rfl, rfl⟩
    rfl

theorem reaches_of_forEach {body : A → Program F S Unit} {step : S → S → Prop} {items : List A}
    (each : ∀ a ∈ items, ∀ s t, body a s = .ok ((), t) → step s t) {s t : S} (ran : forEach body items s = .ok ((), t)) :
    Relation.ReflTransGen step s t := by
  induction items generalizing s with
  | nil =>
    obtain ⟨_, rfl⟩ := pure_eq_ok.mp ran
    exact .refl
  | cons first rest ih =>
    obtain ⟨_, u, now, later⟩ := bind_eq_ok ran
    obtain ⟨here, others⟩ := List.forall_mem_cons.mp each
    exact .head (here s u now) (ih others later)

theorem ite_eq_ok {c : Prop} [Decidable c] {x y : Program F S A} {s : S} {r : A × S} :
    (if c then x else y) s = .ok r ↔ (c ∧ x s = .ok r) ∨ (¬c ∧ y s = .ok r) := by
  split <;> simp [*]

theorem ite_apply {c : Prop} [Decidable c] {x y : Program F S A} {s : S} :
    (if c then x else y) s = if c then x s else y s := by
  split <;> rfl

@[simp] theorem pure_bind_apply (a : A) (f : A → Program F S B) (s : S) :
    ((pure a : Program F S A) >>= f) s = f a s := rfl

@[simp] theorem read_bind_apply (view : S → A) (f : A → Program F S B) (s : S) :
    ((read view : Program F S A) >>= f) s = f (view s) s := rfl

@[simp] theorem update_bind_apply (change : S → S) (f : Unit → Program F S B) (s : S) :
    ((update change : Program F S Unit) >>= f) s = f () (change s) := rfl

@[simp] theorem fault_bind_apply (why : F) (f : A → Program F S B) (s : S) :
    ((fault why : Program F S A) >>= f) s = .error why := rfl

theorem ite_bind_apply {c : Prop} [Decidable c] {x y : Program F S A} {f : A → Program F S B}
    {s : S} : ((if c then x else y) >>= f) s = if c then (x >>= f) s else (y >>= f) s := by
  split <;> rfl

end Program

/-! ## Partial correctness -/

/-- If `x` starts where `pre` holds and returns, `post` holds of the value and
the state it returns. -/
def Triple (pre : S → Prop) (x : Program F S A) (post : A → S → Prop) : Prop :=
  ∀ s, pre s → ∀ a t, x s = .ok (a, t) → post a t

def Keeps (inv : S → Prop) (x : Program F S A) : Prop := Triple inv x fun _ => inv

namespace Triple

variable {pre : S → Prop} {post : A → S → Prop}

theorem pure' {a : A} (holds : ∀ s, pre s → post a s) :
    Triple pre (pure a : Program F S A) post := by
  intro s start b t returned
  cases returned
  exact holds s start

theorem fault' {why : F} : Triple pre (Program.fault why : Program F S A) post := by
  intro s _ a t returned
  cases returned

theorem read' {view : S → A} (holds : ∀ s, pre s → post (view s) s) :
    Triple pre (Program.read view : Program F S A) post := by
  intro s start a t returned
  cases returned
  exact holds s start

theorem update' {change : S → S} {post : Unit → S → Prop}
    (holds : ∀ s, pre s → post () (change s)) :
    Triple pre (Program.update change : Program F S Unit) post := by
  intro s start a t returned
  cases returned
  exact holds s start

theorem bind {x : Program F S A} {f : A → Program F S B} {mid : A → S → Prop}
    {out : B → S → Prop} (first : Triple pre x mid) (next : ∀ a, Triple (mid a) (f a) out) :
    Triple pre (x >>= f) out := by
  intro s start b u returned
  obtain ⟨a, t, ran, rest⟩ := Program.bind_eq_ok returned
  exact next a t (first s start a t ran) b u rest

theorem strengthen {x : Program F S A} {weaker : S → Prop} (holds : Triple weaker x post)
    (implies : ∀ s, pre s → weaker s) : Triple pre x post :=
  fun s start => holds s (implies s start)

theorem weaken {x : Program F S A} {stronger : A → S → Prop} (holds : Triple pre x stronger)
    (implies : ∀ a s, stronger a s → post a s) : Triple pre x post :=
  fun s start a t ran => implies a t (holds s start a t ran)

theorem ite' {c : Prop} [Decidable c] {x y : Program F S A}
    (yes : c → Triple pre x post) (no : ¬c → Triple pre y post) :
    Triple pre (if c then x else y) post := by
  split
  · exact yes ‹_›
  · exact no ‹_›

/-- What is known of every value may be used in what comes after. -/
theorem bind_congr {x : Program F S A} {f g : A → Program F S B}
    (same : Triple (fun _ => True) x fun a _ => f a = g a) : x >>= f = x >>= g := by
  funext s
  rw [Program.bind_apply, Program.bind_apply]
  cases ran : x s with
  | error why => rfl
  | ok result => exact congrFun (same s trivial result.1 result.2 ran) result.2

theorem assume {x : Program F S A} (holds : ∀ s, pre s → Triple (· = s) x post) :
    Triple pre x post :=
  fun s start a t ran => holds s start s rfl a t ran

theorem and {x : Program F S A} {other : A → S → Prop} (first : Triple pre x post)
    (second : Triple pre x other) : Triple pre x fun a s => post a s ∧ other a s :=
  fun s start a t ran => ⟨first s start a t ran, second s start a t ran⟩

end Triple

namespace Keeps

variable {inv : S → Prop}

theorem pure' {a : A} : Keeps inv (pure a : Program F S A) := Triple.pure' fun _ => id

theorem fault' {why : F} : Keeps inv (Program.fault why : Program F S A) := Triple.fault'

theorem read' {view : S → A} : Keeps inv (Program.read view : Program F S A) :=
  Triple.read' fun _ => id

theorem update' {change : S → S} (holds : ∀ s, inv s → inv (change s)) :
    Keeps inv (Program.update change : Program F S Unit) := Triple.update' holds

theorem bind {x : Program F S A} {f : A → Program F S B}
    (first : Keeps inv x) (next : ∀ a, Keeps inv (f a)) : Keeps inv (x >>= f) :=
  Triple.bind first next

theorem ite' {c : Prop} [Decidable c] {x y : Program F S A}
    (yes : c → Keeps inv x) (no : ¬c → Keeps inv y) : Keeps inv (if c then x else y) :=
  Triple.ite' yes no

theorem forEach {body : A → Program F S Unit} {items : List A}
    (each : ∀ a ∈ items, Keeps inv (body a)) : Keeps inv (Program.forEach body items) := by
  induction items with
  | nil => exact pure'
  | cons first rest ih =>
    exact bind (each first (by simp)) fun _ => ih fun a member => each a (by simp [member])

end Keeps

/-! ## Total correctness -/

/-- Started where `pre` holds, `x` returns and `post` holds of what it returns. -/
def Returns (pre : S → Prop) (x : Program F S A) (post : A → S → Prop) : Prop :=
  ∀ s, pre s → ∃ a t, x s = .ok (a, t) ∧ post a t

namespace Returns

variable {pre : S → Prop} {post : A → S → Prop}

theorem pure' {a : A} (holds : ∀ s, pre s → post a s) :
    Returns pre (pure a : Program F S A) post :=
  fun s start => ⟨a, s, rfl, holds s start⟩

theorem read' {view : S → A} (holds : ∀ s, pre s → post (view s) s) :
    Returns pre (Program.read view : Program F S A) post :=
  fun s start => ⟨view s, s, rfl, holds s start⟩

theorem update' {change : S → S} {post : Unit → S → Prop}
    (holds : ∀ s, pre s → post () (change s)) :
    Returns pre (Program.update change : Program F S Unit) post :=
  fun s start => ⟨(), change s, rfl, holds s start⟩

theorem bind {x : Program F S A} {f : A → Program F S B} {mid : A → S → Prop}
    {out : B → S → Prop} (first : Returns pre x mid) (next : ∀ a, Returns (mid a) (f a) out) :
    Returns pre (x >>= f) out := by
  intro s start
  obtain ⟨a, t, ran, between⟩ := first s start
  obtain ⟨b, u, rest, final⟩ := next a t between
  exact ⟨b, u, (Program.bind_ok x f s t a ran).trans rest, final⟩

theorem strengthen {x : Program F S A} {weaker : S → Prop} (holds : Returns weaker x post)
    (implies : ∀ s, pre s → weaker s) : Returns pre x post :=
  fun s start => holds s (implies s start)

theorem weaken {x : Program F S A} {stronger : A → S → Prop} (holds : Returns pre x stronger)
    (implies : ∀ a s, stronger a s → post a s) : Returns pre x post := by
  intro s start
  obtain ⟨a, t, ran, final⟩ := holds s start
  exact ⟨a, t, ran, implies a t final⟩

theorem ite' {c : Prop} [Decidable c] {x y : Program F S A}
    (yes : c → Returns pre x post) (no : ¬c → Returns pre y post) :
    Returns pre (if c then x else y) post := by
  split
  · exact yes ‹_›
  · exact no ‹_›

theorem given {fact : Prop} {x : Program F S A} (holds : fact → Returns pre x post) :
    Returns (fun s => fact ∧ pre s) x post :=
  fun s start => holds start.1 s start.2

theorem forEach {body : A → Program F S Unit} {inv : S → Prop} {items : List A}
    (each : ∀ a ∈ items, Returns inv (body a) fun _ => inv) :
    Returns inv (Program.forEach body items) fun _ => inv := by
  induction items with
  | nil => exact pure' fun _ => id
  | cons first rest ih =>
    exact bind (each first (by simp)) fun _ => ih fun a member => each a (by simp [member])

end Returns

/-! ## Certain faults only -/

/-- Started where `pre` holds, `x` returns with `post` or stops with an allowed fault. -/
def Spares (allowed : F → Prop) (pre : S → Prop) (x : Program F S A) (post : A → S → Prop) : Prop :=
  ∀ s, pre s → match x s with
    | .ok (a, t) => post a t
    | .error why => allowed why

namespace Spares

variable {allowed : F → Prop} {pre : S → Prop} {post : A → S → Prop}

theorem pure' {a : A} (holds : ∀ s, pre s → post a s) : Spares allowed pre (pure a : Program F S A) post := holds

theorem fault' {why : F} (allows : allowed why) : Spares allowed pre (Program.fault why : Program F S A) post :=
  fun _ _ => allows

theorem read' {view : S → A} (holds : ∀ s, pre s → post (view s) s) :
    Spares allowed pre (Program.read view : Program F S A) post := holds

theorem update' {change : S → S} {post : Unit → S → Prop} (holds : ∀ s, pre s → post () (change s)) :
    Spares allowed pre (Program.update change : Program F S Unit) post := holds

theorem bind {x : Program F S A} {f : A → Program F S B} {mid : A → S → Prop} {out : B → S → Prop}
    (first : Spares allowed pre x mid) (next : ∀ a, Spares allowed (mid a) (f a) out) :
    Spares allowed pre (x >>= f) out := by
  intro s start
  have between := first s start
  rw [Program.bind_apply]
  cases ran : x s with
  | error why =>
    rw [ran] at between
    exact between
  | ok result =>
    rw [ran] at between
    exact next result.1 result.2 between

theorem strengthen {x : Program F S A} {weaker : S → Prop} (holds : Spares allowed weaker x post)
    (implies : ∀ s, pre s → weaker s) : Spares allowed pre x post :=
  fun s start => holds s (implies s start)

theorem weaken {x : Program F S A} {stronger : A → S → Prop} (holds : Spares allowed pre x stronger)
    (implies : ∀ a s, stronger a s → post a s) : Spares allowed pre x post := by
  intro s start
  have final := holds s start
  cases ran : x s with
  | error why =>
    rw [ran] at final
    exact final
  | ok result =>
    rw [ran] at final
    exact implies result.1 result.2 final

theorem ite' {c : Prop} [Decidable c] {x y : Program F S A} (yes : c → Spares allowed pre x post)
    (no : ¬c → Spares allowed pre y post) : Spares allowed pre (if c then x else y) post := by
  split
  · exact yes ‹_›
  · exact no ‹_›

theorem forEach {body : A → Program F S Unit} {inv : S → Prop} {items : List A}
    (each : ∀ a ∈ items, Spares allowed inv (body a) fun _ => inv) :
    Spares allowed inv (Program.forEach body items) fun _ => inv := by
  induction items with
  | nil => exact pure' fun _ => id
  | cons first rest ih =>
    exact bind (each first (by simp)) fun _ => ih fun a member => each a (by simp [member])

theorem assume {x : Program F S A} (holds : ∀ s, pre s → Spares allowed (· = s) x post) :
    Spares allowed pre x post :=
  fun s start => holds s start s rfl

theorem remember {x : Program F S A} {s : S} (holds : Spares allowed pre x post) (start : pre s) :
    Spares allowed (· = s) x fun a t => x s = .ok (a, t) ∧ post a t := by
  rintro _ rfl
  have final := holds _ start
  cases ran : x _ with
  | error why =>
    rw [ran] at final
    exact final
  | ok result =>
    rw [ran] at final
    exact ⟨rfl, final⟩

end Spares
end Inotispy.Library
