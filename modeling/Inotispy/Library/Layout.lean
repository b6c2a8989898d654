import Inotispy.Library.Program

/-! Numbers as bytes, and loops over records that stand back to back in a buffer.

A loop reads at an offset and learns from what it has read how far to move. Over records
laid out without gaps it does what one pass over the list of records does, as soon as
this holds of one record at the head of any text.
-/

set_option autoImplicit false

namespace Inotispy.Library

/-! ## Numbers in memory -/

inductive ByteOrder where
  | little | big
  deriving DecidableEq, Repr

namespace ByteOrder

/-- The lowest `count` digits of a number in base 256, lowest first. -/
def digits : Nat → Nat → List UInt8
  | 0, _ => []
  | count + 1, value => UInt8.ofNat value :: digits count (value / 256)

def ofDigits : List UInt8 → Nat
  | [] => 0
  | digit :: rest => digit.toNat + 256 * ofDigits rest

def write (order : ByteOrder) (count value : Nat) : List UInt8 :=
  match order with
  | .little => digits count value
  | .big => (digits count value).reverse

def read (order : ByteOrder) (bytes : List UInt8) : Nat :=
  match order with
  | .little => ofDigits bytes
  | .big => ofDigits bytes.reverse

theorem length_digits (count value : Nat) : (digits count value).length = count := by
  induction count generalizing value with
  | zero => rfl
  | succ count ih => rw [digits, List.length_cons, ih]

theorem ofDigits_digits (count value : Nat) : ofDigits (digits count value) = value % 256 ^ count := by
  induction count generalizing value with
  | zero => rw [digits, ofDigits, Nat.pow_zero, Nat.mod_one]
  | succ count ih => rw [digits, ofDigits, ih, Nat.pow_succ', Nat.mod_mul, UInt8.toNat_ofNat']

@[simp] theorem length_write (order : ByteOrder) (count value : Nat) : (order.write count value).length = count := by
  cases order <;> simp [write, length_digits]

theorem read_write (order : ByteOrder) (count value : Nat) :
    order.read (order.write count value) = value % 256 ^ count := by
  cases order <;> simp [read, write, ofDigits_digits]

theorem read_write_of_lt (order : ByteOrder) {count value : Nat} (fits : value < 256 ^ count) :
    order.read (order.write count value) = value := by
  rw [read_write, Nat.mod_eq_of_lt fits]

end ByteOrder

/-! ## Records back to back -/

section
variable {F S B R : Type}

/-- A loop over a buffer. `visit` is given what stands at the offset and answers how far to
move. The value holds the offsets it was called at, in order, and the offset at the end. -/
def scan (buffer : List B) (visit : List B → Program F S Nat) : Nat → Nat → Program F S (List Nat × Nat)
  | 0, offset => pure ([], offset)
  | fuel + 1, offset => do
    if buffer.length ≤ offset then return ([], offset)
    let advance ← visit (buffer.drop offset)
    let (offsets, last) ← scan buffer visit fuel (offset + advance)
    return (offset :: offsets, last)

def starts (encode : R → List B) : Nat → List R → List Nat
  | _, [] => []
  | offset, record :: records => offset :: starts encode (offset + (encode record).length) records

theorem length_le_flatMap {encode : R → List B} (some_bytes : ∀ record, encode record ≠ []) (records : List R) :
    records.length ≤ (records.flatMap encode).length := by
  induction records with
  | nil => exact Nat.le_refl 0
  | cons record records ih =>
    have positive := List.length_pos_iff.mpr (some_bytes record)
    rw [List.length_cons, List.flatMap_cons, List.length_append]
    omega

/-- A loop that handles a record at the head of any text, and moves behind it, handles the
records of a layout one after the other, from start to start up to the end. -/
theorem scan_layout {encode : R → List B} (some_bytes : ∀ record, encode record ≠ [])
    {visit : List B → Program F S Nat} {handle : R → Program F S Unit}
    (visits : ∀ record rest, visit (encode record ++ rest) = do
      handle record
      return (encode record).length)
    (records : List R) {fuel : Nat} (enough : records.length ≤ fuel) :
    scan (records.flatMap encode) visit fuel 0 = do
      Program.forEach handle records
      return (starts encode 0 records, (records.flatMap encode).length) := by
  -- Behind a prefix that has been read already, with as many rounds left as there are records.
  suffices behind : ∀ (records : List R) (before : List B) (fuel : Nat), records.length ≤ fuel →
      scan (before ++ records.flatMap encode) visit fuel before.length = do
        Program.forEach handle records
        return (starts encode before.length records, (before ++ records.flatMap encode).length) from
    behind records [] fuel enough
  intro records
  induction records with
  | nil =>
    intro before fuel _
    cases fuel with
    | zero => simp [scan, Program.forEach, starts]
    | succ fuel => simp [scan, Program.forEach, starts]
  | cons record records ih =>
    intro before fuel enough
    rw [List.length_cons] at enough
    obtain ⟨fuel, rfl⟩ : ∃ n, fuel = n + 1 := ⟨fuel - 1, by omega⟩
    have more : ¬(before ++ (record :: records).flatMap encode).length ≤ before.length := by
      have positive := List.length_pos_iff.mpr (some_bytes record)
      simp only [List.length_append, List.flatMap_cons]
      omega
    have split : before ++ (record :: records).flatMap encode = (before ++ encode record) ++ records.flatMap encode := by
      rw [List.flatMap_cons, List.append_assoc]
    have next := ih (before ++ encode record) fuel (Nat.le_of_succ_le_succ enough)
    rw [List.length_append] at next
    rw [scan, if_neg more, List.drop_left, List.flatMap_cons, visits, ← List.flatMap_cons, split]
    simp only [Program.forEach, starts, bind_assoc, pure_bind, next]

end
end Inotispy.Library
