import Inotispy.Model.Buffer

/-! Reading a buffer record by record.

The offset of the loop always stands at the start of a record, since every way through a
round moves it behind the record that was read. So it makes no difference how the kernel
spreads its records over buffers.
-/

set_option autoImplicit false

namespace Inotispy
open Library

variable {σ : Type} [System σ]

/-! ## One record -/

theorem charOf_eq_nul_iff (byte : UInt8) : charOf byte = '\x00' ↔ byte = 0 := by
  constructor
  · intro same
    have small : byte.toNat < 256 := byte.toNat_lt
    have valid : byte.toNat.isValidChar := .inl (by omega)
    have codes := congrArg Char.toNat same
    rw [charOf, Char.ofNat, dif_pos valid] at codes
    exact UInt8.toNat_inj.mp codes
  · rintro rfl
    rfl

theorem wordAt_write (order : ByteOrder) (before rest : List UInt8) (value : UInt32) (index : Nat)
    (place : before.length = 4 * index) :
    wordAt order (before ++ (order.write 4 value.toNat ++ rest)) index = value := by
  rw [wordAt, ← place, List.drop_left, List.take_left' (order.length_write 4 _),
    order.read_write_of_lt value.toNat_lt, UInt32.ofNat_toNat]

namespace KernelRecord

variable (order : ByteOrder) (record : KernelRecord) (rest : List UInt8)

theorem len_toNat : record.len.toNat = record.name.length + record.padding :=
  UInt32.toNat_ofNat_of_lt' record.fits

theorem length_bytes : (record.bytes order).length = inotifyEventSize + record.len.toNat := by
  simp only [bytes, List.length_append, ByteOrder.length_write, List.length_replicate, len_toNat, inotifyEventSize]
  omega

theorem bytes_ne_nil : record.bytes order ≠ [] := by
  intro empty
  have length := record.length_bytes order
  rw [empty, List.length_nil, inotifyEventSize] at length
  omega

theorem name_eventAt (named : record.len ≠ 0) :
    (eventAt order (record.bytes order ++ rest)).name = record.event.name := by
  have padded : 0 < record.padding := by
    rcases record.terminated with empty | padded
    · by_contra none
      have zero : record.len.toNat = 0 := by
        rw [len_toNat, empty, List.length_nil]
        omega
      exact named (UInt32.toNat_inj.mp zero)
    · exact padded
  obtain ⟨padding, is⟩ : ∃ n, record.padding = n + 1 := ⟨record.padding - 1, by omega⟩
  have header : (record.bytes order ++ rest).drop inotifyEventSize =
      record.name ++ 0 :: (List.replicate padding 0 ++ rest) := by
    rw [bytes, List.append_assoc, List.append_assoc, List.drop_left' (by simp [inotifyEventSize]), is,
      List.replicate_succ]
    simp
  have text : ∀ c ∈ record.name.map charOf, decide (c ≠ '\x00') = true := by
    intro c member
    obtain ⟨byte, inside, rfl⟩ := List.mem_map.mp member
    have nonzero : byte ≠ 0 := fun zero => record.noNul (zero ▸ inside)
    simpa [charOf_eq_nul_iff] using nonzero
  rw [eventAt, header, CString.ofBuffer, List.map_append, List.takeWhile_append_of_pos text]
  simp [event, (charOf_eq_nul_iff 0).mpr rfl]

theorem header_eventAt :
    (eventAt order (record.bytes order ++ rest)).wd = record.wd.toInt ∧
      (eventAt order (record.bytes order ++ rest)).mask = record.mask ∧
      (eventAt order (record.bytes order ++ rest)).cookie = record.cookie ∧
      (eventAt order (record.bytes order ++ rest)).len = record.len := by
  let word (value : UInt32) := order.write 4 value.toNat
  have shape : record.bytes order ++ rest = word record.wd.toUInt32 ++ (word record.mask ++ (word record.cookie ++
      (word record.len ++ (record.name ++ (List.replicate record.padding 0 ++ rest))))) := by
    simp only [bytes, List.append_assoc, word]
  have length (value : UInt32) : (word value).length = 4 := order.length_write 4 _
  have first : wordAt order (record.bytes order ++ rest) 0 = record.wd.toUInt32 := by
    rw [shape]
    exact wordAt_write order [] _ _ 0 rfl
  have second : wordAt order (record.bytes order ++ rest) 1 = record.mask := by
    rw [shape]
    exact wordAt_write order _ _ _ 1 (length _)
  have third : wordAt order (record.bytes order ++ rest) 2 = record.cookie := by
    rw [shape, ← List.append_assoc]
    exact wordAt_write order _ _ _ 2 (by simp only [List.length_append, length])
  have fourth : wordAt order (record.bytes order ++ rest) 3 = record.len := by
    rw [shape, ← List.append_assoc, ← List.append_assoc]
    exact wordAt_write order _ _ _ 3 (by simp only [List.length_append, length])
  refine ⟨?_, second, third, fourth⟩
  change (wordAt order (record.bytes order ++ rest) 0).toInt32.toInt = _
  rw [first]
  rfl

theorem inotifyHandleRecord_eventAt :
    inotifyHandleRecord (eventAt order (record.bytes order ++ rest)) =
      (inotifyHandleRecord record.event : M σ Round) := by
  obtain ⟨wd, mask, cookie, len⟩ := record.header_eventAt order rest
  by_cases named : record.len = 0
  · have empty : record.event.len = 0 := named
    rw [inotifyHandleRecord, inotifyHandleRecord, if_pos (len.trans named), if_pos empty]
  · have name := record.name_eventAt order rest named
    have same : eventAt order (record.bytes order ++ rest) = record.event := by
      cases seen : eventAt order (record.bytes order ++ rest) with
      | mk wd' mask' cookie' len' name' =>
        rw [seen] at wd mask cookie len name
        subst wd mask cookie len name
        rfl
    rw [same]

end KernelRecord

/-! ## Rounds and buffers -/

theorem inotifyHandleRecord_advance (event : InEvent) :
    Triple (fun _ : World σ => True) (inotifyHandleRecord event) fun round _ =>
      round.advance = inotifyEventSize + event.len.toNat := by
  have behind {offered : Option (RootRef × Option InotispyError)} :
      Triple (fun _ : World σ => True) (pure ⟨inotifyEventSize + event.len.toNat, offered⟩ : M σ Round) fun round _ =>
        round.advance = inotifyEventSize + event.len.toNat := Triple.pure' fun _ _ => rfl
  have any {A : Type} (x : M σ A) : Triple (fun _ => True) x fun _ _ => True := fun _ _ _ _ _ => trivial
  unfold inotifyHandleRecord
  apply Triple.ite'
  · intro empty
    exact Triple.pure' fun _ _ => by rw [empty]; rfl
  intro _
  apply Triple.ite'
  · intro _
    exact Triple.bind (any _) fun _ => behind
  intro _
  apply Triple.ite'
  · intro _
    exact behind
  intro _
  refine Triple.bind (any _) ?_
  intro target
  cases target with
  | none => exact behind
  | some target =>
    -- Past the lookup there are three more ways out.
    refine Triple.bind (any _) ?_
    intro absPath
    refine Triple.bind (any _) ?_
    intro queued
    apply Triple.ite' (fun _ => behind)
    intro _
    refine Triple.bind (any _) ?_
    intro root
    apply Triple.ite' (fun _ => behind)
    intro _
    exact Triple.bind (any _) fun _ => behind

def layout (order : ByteOrder) (records : List KernelRecord) : List UInt8 := records.flatMap (·.bytes order)

/-- Over a layout the loop reads a record at the start of each one, in order, and nowhere else,
stops at the end, and does what handling the records one by one does. -/
theorem inotifyHandleBuffer_layout (order : ByteOrder) (records : List KernelRecord) :
    inotifyHandleBuffer order (layout order records) = (do
      inotifyHandleEvent (records.map KernelRecord.event)
      return (starts (·.bytes order) 0 records, (layout order records).length) : M σ (List Nat × Nat)) := by
  have visits (record : KernelRecord) (rest : List UInt8) :
      (do
        let round ← inotifyHandleRecord (eventAt order (record.bytes order ++ rest))
        return round.advance : M σ Nat) = (do
        (do
          let _ ← inotifyHandleRecord record.event
          return ())
        return (record.bytes order).length) := by
    rw [record.inotifyHandleRecord_eventAt, record.length_bytes, bind_assoc]
    apply Triple.bind_congr
    exact (inotifyHandleRecord_advance record.event).weaken fun round _ advance => by
      rw [advance, pure_bind]
      rfl
  have enough := length_le_flatMap (fun record : KernelRecord => record.bytes_ne_nil order) records
  rw [inotifyHandleEvent, Program.forEach_map]
  exact scan_layout (fun record => record.bytes_ne_nil order) visits records enough

/-- The loop reads a record at every start and nowhere else, and ends at the end of the buffer;
and one buffer is handled as two that hold the same records are, one after the other. -/
theorem batching_immaterial (order : ByteOrder) :
    (∀ records, inotifyHandleBuffer order (layout order records) = (do
      inotifyHandleEvent (records.map KernelRecord.event)
      return (starts (·.bytes order) 0 records, (layout order records).length) : M σ (List Nat × Nat))) ∧
    ∀ first second, (do
      let _ ← inotifyHandleBuffer order (layout order first ++ layout order second)
      return () : M σ Unit) = (do
      let _ ← inotifyHandleBuffer order (layout order first)
      let _ ← inotifyHandleBuffer order (layout order second)
      return ()) := by
  refine ⟨inotifyHandleBuffer_layout order, fun first second => ?_⟩
  have joined : layout order first ++ layout order second = layout order (first ++ second) :=
    List.flatMap_append.symm
  rw [joined]
  simp only [inotifyHandleBuffer_layout, List.map_append, inotifyHandleEvent, Program.forEach_append, bind_assoc,
    pure_bind]

end Inotispy
