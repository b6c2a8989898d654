import Inotispy.Model.Dump
import Inotispy.Model.Trees

/-! `inotify_setup`: the roots of the dump file are watched again, and each of them that is
registered makes the daemon rewrite the file that it is reading. -/

set_option autoImplicit false

namespace Inotispy
open Library

variable {σ : Type} [System σ]

/-- What the outside answers while the daemon starts. -/
structure Boot where
  inotifyInit : Bool
  -- Whether `INOTIFY_ROOT_DUMP_DIR` opens.
  dumpDir : Bool
  -- Whether `INOTIFY_ROOT_DUMP_FILE` opens for reading.
  dumpFile : Bool

/-- The loop over the dump file, as it is at each read; `rounds` is an upper bound on its rounds. -/
def inotifySetupRewatch (block : Nat) : Nat → Stream → M σ (Option (Except DumpFault Unit))
  | 0, _ => return none
  | rounds + 1, stream => do
    let file ← Program.read (·.output.dumpFile)
    let (read, stream) := stream.fgets block file lineRoom
    if read = [] then return some (.ok ())
    match inotifySetupLine read with
    | .error why => return some (.error why)
    | .ok .invalid => inotifySetupRewatch block rounds stream
    | .ok (.root path mask maxEvents) =>
      -- What the call returns is not looked at.
      let _ ← inotifyWatchTree path mask.toUInt32 maxEvents true
      inotifySetupRewatch block rounds stream

/-- The same loop, with the entries that it handles. -/
def inotifySetupHandled (block : Nat) : Nat → Stream → M σ (Option (Except DumpFault (List DumpEntry)))
  | 0, _ => return none
  | rounds + 1, stream => do
    let file ← Program.read (·.output.dumpFile)
    let (read, stream) := stream.fgets block file lineRoom
    if read = [] then return some (.ok [])
    match inotifySetupLine read with
    | .error why => return some (.error why)
    | .ok .invalid =>
      let outcome ← inotifySetupHandled block rounds stream
      return outcome.map (·.map (.invalid :: ·))
    | .ok (.root path mask maxEvents) =>
      let _ ← inotifyWatchTree path mask.toUInt32 maxEvents true
      let outcome ← inotifySetupHandled block rounds stream
      return outcome.map (·.map (.root path mask maxEvents :: ·))

/-- `inotify_setup`, which returns the descriptor, or 0. The tables are those of `World.initial`. -/
def inotifySetup (boot : Boot) (block rounds : Nat) : M σ (Option (Except DumpFault Bool)) := do
  if !boot.inotifyInit then return some (.ok false)
  -- A directory that is missing is made, and holds no file yet.
  if !boot.dumpDir then return some (.ok true)
  if !boot.dumpFile then return some (.ok true)
  let outcome ← inotifySetupRewatch block rounds .start
  return outcome.map (·.map fun _ => true)

def World.restarted (w : World σ) (sys : σ) (turns : List (List Nat)) (maxInotifyEvents : Int32) : World σ :=
  { World.initial sys with
    pool.schedule := turns
    output.dumpFile := w.output.dumpFile
    maxInotifyEvents := maxInotifyEvents }

end Inotispy
