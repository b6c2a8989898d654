import Inotispy.Library.Layout
import Inotispy.Model.Events

/-! The buffer that `inotify_handle_event` reads its records from. -/

set_option autoImplicit false

namespace Inotispy
open Library

def charOf (byte : UInt8) : Char := Char.ofNat byte.toNat

/-- A record as the kernel writes it: a header of four words, and a name field in which at
least one null byte follows the name. Without a name the field is empty. -/
structure KernelRecord where
  wd : Int32
  mask : UInt32
  cookie : UInt32
  name : List UInt8
  padding : Nat
  noNul : (0 : UInt8) ∉ name
  terminated : name = [] ∨ 0 < padding
  fits : name.length + padding < 2 ^ 32

namespace KernelRecord

def len (record : KernelRecord) : UInt32 := UInt32.ofNat (record.name.length + record.padding)

def bytes (order : ByteOrder) (record : KernelRecord) : List UInt8 :=
  order.write 4 record.wd.toUInt32.toNat ++ order.write 4 record.mask.toNat ++
    order.write 4 record.cookie.toNat ++ order.write 4 record.len.toNat ++
    record.name ++ List.replicate record.padding 0

def event (record : KernelRecord) : InEvent :=
  { wd := record.wd.toInt
    mask := record.mask
    cookie := record.cookie
    len := record.len
    name := record.name.map charOf }

end KernelRecord

def wordAt (order : ByteOrder) (rest : List UInt8) (index : Nat) : UInt32 :=
  UInt32.ofNat (order.read ((rest.drop (4 * index)).take 4))

/-- `(struct inotify_event *) &buffer[i]`, with `rest` the buffer from there on. The name is
read as a string, up to the next null byte, wherever that stands. -/
def eventAt (order : ByteOrder) (rest : List UInt8) : InEvent :=
  { wd := (wordAt order rest 0).toInt32.toInt
    mask := wordAt order rest 1
    cookie := wordAt order rest 2
    len := wordAt order rest 3
    name := CString.ofBuffer ((rest.drop inotifyEventSize).map charOf) }

variable {σ : Type} [System σ]

/-- The loop of `inotify_handle_event` over a buffer: each round reads a record at the offset
and advances the offset itself. The value holds the offsets a record was read at, and the
offset at the end. Every round advances, so there are at most as many as bytes. -/
def inotifyHandleBuffer (order : ByteOrder) (buffer : List UInt8) : M σ (List Nat × Nat) :=
  scan buffer (fun rest => do
    let round ← inotifyHandleRecord (eventAt order rest)
    return round.advance) buffer.length 0

end Inotispy
