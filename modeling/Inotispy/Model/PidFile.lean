import Inotispy.Library.Token
import Inotispy.Model.Roots
import Mathlib.Logic.Function.Basic

/-! The pid file: what `main.c` does with it in all the processes that are started. -/

set_option autoImplicit false

namespace Inotispy
open Library

namespace PidFile

/-- Where a process has got to. -/
inductive Phase where
  -- `check_pid`: opening the file, reading it, looking for the process it names, removing it
  | checking | reading (inode : Nat) | probing (pid : Int32) | stale
  /-- Before `daemon` -/
  | checked
  -- `write_pid`, in the process that `daemon` leaves
  | writing | opened (inode : Nat)
  /-- From there on, as a daemon -/
  | serving
  /-- Without the option for a daemon, which leaves out `check_pid` and `write_pid` -/
  | foreground
  /-- `sig_handler` after `clear_pid` -/
  | leaving
  deriving DecidableEq, Repr

/-- The file at the path of the pid file, the bytes in each file, and the processes. -/
structure Machine where
  file : Option Nat
  contents : Nat → Str
  inodes : Nat
  /-- The directories in /proc -/
  alive : Nat → Bool
  phase : Nat → Option Phase

/-- `fgets` with `char line[8]` leaves room for the terminator. -/
def lineRoom : Nat := 7

def firstLine (text : Str) : Str :=
  let read := text.take lineRoom
  read.takeWhile (· ≠ '\n') ++ if '\n' ∈ read then ['\n'] else []

/-- The pid in the file. Where nothing is read, `CONFIG` is dereferenced, which is still null; and an empty line
would be written to in front of its first byte. -/
def pidOf (text : Str) : Option Int32 :=
  let line := CString.ofBuffer (firstLine text)
  if line = [] then none
  else some (CString.atoi (if line.getLast? = some '\n' then line.dropLast else line))

namespace Machine

def enter (m : Machine) (pid : Nat) (phase : Phase) : Machine :=
  { m with phase := Function.update m.phase pid (some phase) }

def gone (m : Machine) (pid : Nat) : Machine :=
  { m with alive := Function.update m.alive pid false, phase := Function.update m.phase pid none }

def born (m : Machine) (pid : Nat) (phase : Phase) : Machine :=
  { m with alive := Function.update m.alive pid true, phase := Function.update m.phase pid (some phase) }

def unlink (m : Machine) : Machine := { m with file := none }

def listed (m : Machine) (pid : Int32) : Bool := 0 < pid.toInt && m.alive pid.toInt.toNat

def create (m : Machine) : Machine × Nat :=
  match m.file with
  | some inode => ({ m with contents := Function.update m.contents inode [] }, inode)
  | none =>
    ({ m with file := some m.inodes, contents := Function.update m.contents m.inodes [], inodes := m.inodes + 1 }, m.inodes)

/-- `fprintf` and `fclose`: the digits are written over what is in the file by then. -/
def write (m : Machine) (inode pid : Nat) : Machine :=
  let digits := percentD pid
  { m with contents := Function.update m.contents inode (digits ++ (m.contents inode).drop digits.length) }

/-- The next thing that a process does about the file by itself. -/
def go (m : Machine) (pid : Nat) : Option Machine :=
  match m.phase pid with
  | some .checking =>
    match m.file with
    | none => some (m.enter pid .checked)
    | some inode => some (m.enter pid (.reading inode))
  | some (.reading inode) =>
    match pidOf (m.contents inode) with
    | none => some (m.gone pid)
    | some found => some (m.enter pid (.probing found))
  | some (.probing found) => some (if m.listed found then m.gone pid else m.enter pid .stale)
  | some .stale => some (if m.file.isSome then m.unlink.enter pid .checked else m.gone pid)
  | some .writing => some (m.create.1.enter pid (.opened m.create.2))
  | some (.opened inode) => some ((m.write inode pid).enter pid .serving)
  | _ => none

end Machine

inductive Move where
  /-- The program is started, as a daemon or not. -/
  | launch (pid : Nat) (daemon : Bool)
  | go (pid : Nat)
  /-- `daemon`, which goes on in a child -/
  | daemon (pid child : Nat)
  /-- SIGINT, once its handler is there -/
  | interrupt (pid : Nat)
  /-- A process ends, by itself or not. -/
  | exit (pid : Nat)
  -- Other programs
  | appear (pid : Nat)
  | vanish (pid : Nat)
  deriving DecidableEq, Repr

/-- The pids that the kernel hands out: below `PID_MAX_LIMIT`, and none that is in use. -/
def Machine.hands (m : Machine) (pid : Nat) : Bool := 0 < pid && pid < 2 ^ 22 && !m.alive pid

def Machine.step (m : Machine) : Move → Option Machine
  | .launch pid daemon => if m.hands pid then some (m.born pid (if daemon then .checking else .foreground)) else none
  | .go pid => m.go pid
  | .daemon pid child =>
    if m.phase pid = some .checked ∧ m.hands child then some ((m.gone pid).born child .writing) else none
  | .interrupt pid =>
    if m.phase pid = some .serving ∨ m.phase pid = some .foreground then
      some (m.unlink.enter pid .leaving)
    else none
  | .exit pid => if (m.phase pid).isSome then some (m.gone pid) else none
  | .appear pid => if m.hands pid then some { m with alive := Function.update m.alive pid true } else none
  | .vanish pid => if (m.phase pid).isNone then some { m with alive := Function.update m.alive pid false } else none

def Machine.run : Machine → List Move → Option Machine
  | m, [] => some m
  | m, move :: moves => (m.step move).bind (·.run moves)

end PidFile
end Inotispy
