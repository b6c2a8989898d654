import Inotispy.Library.Stream
import Inotispy.Library.Token
import Inotispy.Model.Roots

/-! Reading the dump file back: the loop of `inotify_setup`. -/

set_option autoImplicit false

namespace Inotispy
open Library

/-- What the loop does with a line: it watches a root again, or logs an invalid entry. -/
inductive DumpEntry where
  | root (path : Str) (mask maxEvents : Int32)
  | invalid
  deriving DecidableEq, Repr

/-- How the loop may break: by an access before the start of its line buffer, or by
handing a null token to `atoi`. -/
inductive DumpFault where
  | beforeLine
  | nullToken
  deriving DecidableEq, Repr

/-- `atoi (strtok (...))` -/
def atoiToken : Option Str → Except DumpFault Int32
  | some token => .ok (CString.atoi token)
  | none => .error .nullToken

/-- The body of the loop, for the bytes that `fgets` has read. -/
def inotifySetupLine (read : Str) : Except DumpFault DumpEntry := do
  let line := CString.ofBuffer read
  -- In an empty string the last character is looked for at the index -1.
  let some last := CString.charAt line (line.length - 1) | throw .beforeLine
  let line := if last = '\n' then line.dropLast else line
  let (path, rest) := CString.strtok ',' line
  let (token, rest) := CString.strtok ',' rest
  -- The tokens are converted before it is known whether they are there.
  let mask ← atoiToken token
  let (token, _) := CString.strtok ',' rest
  let maxEvents ← atoiToken token
  let some path := path | return .invalid
  if mask ≠ 0 ∧ maxEvents ≠ 0 then return .root path mask maxEvents else return .invalid

/-- `fgets (line, sizeof line, dump)` with `char line[1024]` leaves room for the terminator. -/
def lineRoom : Nat := 1023

/-- The loop over a file that stays as it is; `rounds` is an upper bound on its rounds. -/
def inotifySetupLoop (block : Nat) (file : Str) : Nat → Stream → Option (Except DumpFault (List DumpEntry))
  | 0, _ => none
  | rounds + 1, stream =>
    let (read, stream) := stream.fgets block file lineRoom
    if read = [] then some (.ok [])
    else
      match inotifySetupLine read with
      | .error why => some (.error why)
      | .ok entry => (inotifySetupLoop block file rounds stream).map (·.map (entry :: ·))

/-- What `inotify_setup` makes of a dump file that stays as it is. The blocks are those in which
the file is read. -/
def inotifySetupEntries (block : Nat) (file : Str) : Option (Except DumpFault (List DumpEntry)) :=
  inotifySetupLoop block file (file.length + 1) .start

end Inotispy
