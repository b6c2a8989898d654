import Inotispy.Events.Batching
import Inotispy.Events.Effects
import Inotispy.Model.Script

/-! Records without a name.

The loop passes over them before it looks at anything else of a record. The kernel writes
two kinds of records without a name that code further down was written for: the one that
says that its own queue was full, and the one for a watched directory whose file system
is unmounted.
-/

set_option autoImplicit false

namespace Inotispy
open Library

variable {σ : Type} [System σ]

/-! ## What becomes of them -/

theorem inotifyHandleRecord_nameless {event : InEvent} (nameless : event.len = 0) :
    (inotifyHandleRecord event : M σ Round) = pure ⟨inotifyEventSize, none⟩ := by
  rw [inotifyHandleRecord, if_pos nameless]

theorem nameless_inert (order : ByteOrder) (records : List KernelRecord) :
    (do
      let _ ← inotifyHandleBuffer order (layout order records)
      return () : M σ Unit) = do
      let _ ← inotifyHandleBuffer order (layout order (records.filter fun record => record.len != 0))
      return () := by
  have skips : ∀ record : KernelRecord, (record.len != 0) = false →
      (do
        let _ ← inotifyHandleRecord record.event
        return () : M σ Unit) = pure () := by
    intro record nameless
    have empty : record.len = 0 := by simpa using nameless
    rw [inotifyHandleRecord_nameless (by exact empty), pure_bind]
  simp only [inotifyHandleBuffer_layout, bind_assoc, pure_bind, inotifyHandleEvent, Program.forEach_map,
    Program.forEach_filter skips]

theorem inotifyHandleBuffer_passes (order : ByteOrder) (before : List KernelRecord) (record : KernelRecord)
    (after : List KernelRecord) :
    (do
      let _ ← inotifyHandleBuffer order (layout order (before ++ record :: after))
      return () : M σ Unit) = do
      let _ ← inotifyHandleBuffer order (layout order before)
      let _ ← inotifyHandleRecord record.event
      let _ ← inotifyHandleBuffer order (layout order after)
      return () := by
  simp only [inotifyHandleBuffer_layout, List.map_append, List.map_cons, inotifyHandleEvent, Program.forEach_append,
    Program.forEach, bind_assoc, pure_bind]

/-! ## What was meant to become of them -/

/-- The record by which the kernel says that its own queue was full. -/
structure KernelRecord.Overflow (record : KernelRecord) : Prop where
  wd : record.wd = -1
  nameless : record.len = 0
  bit : hasBit record.mask inQOverflow = true

/-- A record of an unmount, on the watch of a live root that wants to know of unmounts and has room. -/
structure UnmountDue (record : KernelRecord) (path : Str) (root : RootRef) (w : World σ) : Prop where
  nameless : record.len = 0
  bit : hasBit record.mask inUnmount = true
  target : eventTarget w record.wd.toInt = some (path, root)
  wanted : hasBit (w.roots.heap root).mask inUnmount = true
  room : ((w.roots.heap root).events.length : Int) < (w.roots.heap root).maxEvents.toInt

structure Treated (record : KernelRecord) (w : World σ) : Prop where
  reported : record.Overflow → ∃ round w', inotifyHandleRecord record.event w = .ok (round, w') ∧
    w'.output.overflowReports = w.output.overflowReports + 1
  appended : ∀ path root, UnmountDue record path root w →
    ∃ round w' node, inotifyHandleRecord record.event w = .ok (round, w') ∧
      (w'.roots.heap root).events = (w.roots.heap root).events ++ [node] ∧
      node.wd = record.wd.toInt ∧ node.mask = record.mask

/-- While a buffer is handled, the round for this record starts in the state `v`. -/
def Reads (order : ByteOrder) (records : List KernelRecord) (w : World σ) (record : KernelRecord) (v : World σ) : Prop :=
  ∃ before after log, records = before ++ record :: after ∧
    inotifyHandleBuffer order (layout order before) w = .ok (log, v)

theorem treated_iff (record : KernelRecord) (w : World σ) :
    Treated record w ↔ ¬record.Overflow ∧ ∀ path root, ¬UnmountDue record path root w := by
  have still {round : Round} {w' : World σ} (nameless : record.len = 0)
      (ran : inotifyHandleRecord record.event w = .ok (round, w')) : w' = w := by
    have empty : record.event.len = 0 := nameless
    rw [inotifyHandleRecord_nameless empty] at ran
    exact (Program.pure_eq_ok.mp ran).2
  constructor
  · intro treated
    constructor
    · intro overflow
      obtain ⟨round, w', ran, reported⟩ := treated.reported overflow
      rw [still overflow.nameless ran] at reported
      omega
    · intro path root due
      obtain ⟨round, w', node, ran, appended, _⟩ := treated.appended path root due
      rw [still due.nameless ran] at appended
      have longer := congrArg List.length appended
      rw [List.length_append, List.length_singleton] at longer
      omega
  · rintro ⟨none, never⟩
    exact ⟨fun overflow => absurd overflow none, fun path root due => absurd due (never path root)⟩

/-- The loop comes to every record of a buffer in turn, and gives each its treatment exactly when
none of them is the record of an overflow or an unmount that some root is to hear of. -/
theorem nameless_treated_iff (order : ByteOrder) (records : List KernelRecord) (w : World σ) :
    (∀ before record after, records = before ++ record :: after →
      (do
        let _ ← inotifyHandleBuffer order (layout order records)
        return () : M σ Unit) = do
        let _ ← inotifyHandleBuffer order (layout order before)
        let _ ← inotifyHandleRecord record.event
        let _ ← inotifyHandleBuffer order (layout order after)
        return ()) ∧
    ((∀ record v, Reads order records w record v → Treated record v) ↔
      ∀ record v, Reads order records w record v →
        ¬record.Overflow ∧ ∀ path root, ¬UnmountDue record path root v) := by
  constructor
  · rintro before record after rfl
    exact inotifyHandleBuffer_passes order before record after
  · simp only [treated_iff]

/-- A buffer of two records: the kernel's queue was full, and the root "/r" is unmounted. -/
theorem overflow_and_unmount_lost :
    ∃ (overflow unmount : KernelRecord) (w : World (Script true)),
      overflow.Overflow ∧ UnmountDue unmount (str "/r") 0 w ∧
      Reads .little [overflow, unmount] w overflow w ∧ Reads .little [overflow, unmount] w unmount w ∧
      ¬Treated overflow w ∧ ¬Treated unmount w := by
  let nameless (wd : Int32) (mask : UInt32) : KernelRecord :=
    ⟨wd, mask, 0, [], 0, nofun, .inl rfl, Nat.two_pow_pos 32⟩
  have overflow : (nameless (-1) inQOverflow).Overflow := ⟨rfl, rfl, by decide⟩
  have due : UnmountDue (nameless 1 inUnmount) (str "/r") 0 (World.watching (⟨[]⟩ : Script true) (str "/r")) :=
    ⟨rfl, by decide, rfl, by decide, by decide⟩
  refine ⟨nameless (-1) inQOverflow, nameless 1 inUnmount, World.watching ⟨[]⟩ (str "/r"), overflow, due, ?_, ?_, ?_, ?_⟩
  · exact ⟨[], [nameless 1 inUnmount], _, rfl, rfl⟩
  · refine ⟨[nameless (-1) inQOverflow], [], ([0], 16), rfl, ?_⟩
    rw [inotifyHandleBuffer_layout]
    rfl
  · exact fun treated => ((treated_iff _ _).mp treated).1 overflow
  · exact fun treated => ((treated_iff _ _).mp treated).2 _ _ due

end Inotispy
