import Inotispy.Model.Primitives

/-! The table of roots: making a root, finding the root of a path, finding a root
below a path, and the dump file. All of these run with `inotify_mutex` held. -/

set_option autoImplicit false

namespace Inotispy
open Library

variable {σ : Type} [System σ]

/-- `make_root`. The copy of the path is null when its allocation fails. -/
def makeRoot (path : Str) (mask : UInt32) (maxEvents : Int32) (rewatch : Bool) :
    M σ (Option RootRef) := do
  if !(← malloc) then return none
  let copy ← mkString path
  let root ← Program.read (·.roots.nextRoot)
  let made : Root :=
    { path := copy
      mask := mask
      maxEvents := maxEvents
      queue := some []
      destroy := false
      pause := false
      rewatch := rewatch
      persist := false }
  modifyRoots fun roots => { roots.setRoot root fun _ => made with nextRoot := root + 1 }
  return some root

omit [System σ] in
def inotifyIsRoot (path : Str) : M σ (Option RootRef) :=
  Program.read fun w => w.roots.inotifyRoots.lookup path

/-- The loop of `inotify_path_to_root` over the keys of the table, in hash order. -/
def pathToRootLoop (path : Str) : List Str → M σ (Option RootRef)
  | [] => return none
  | key :: keys => do
    let tmp ← mkString (key ++ str "/")
    if path = key then return ← inotifyIsRoot key
    let tmp ← deref tmp
    -- An occurrence anywhere in the path will do.
    if (CString.strstr path tmp).isSome then return ← inotifyIsRoot key
    pathToRootLoop path keys

def inotifyPathToRoot (path : Str) : M σ (Option RootRef) := do
  -- Every path lies below "/", but "//" occurs in none of them.
  if let some root ← inotifyIsRoot (str "/") then return some root
  let keys ← Program.read fun w => w.roots.inotifyRoots.keys
  pathToRootLoop path keys

/-- The loop of `inotify_is_parent`; `tmp` may be null. -/
def isParentLoop (tmp : Option Str) : List Str → M σ (Option Str)
  | [] => return none
  | key :: keys => do
    let tmp' ← deref tmp
    if (CString.strstr key tmp').isSome then return ← mkString key
    isParentLoop tmp keys

def inotifyIsParent (path : Str) : M σ (Option Str) := do
  let tmp ← mkString (path ++ str "/")
  let keys ← Program.read fun w => w.roots.inotifyRoots.keys
  isParentLoop tmp keys

/-! ## The dump file -/

def percentD (value : Int) : Str := str (toString value)

/-- One line of the dump: `%s,%d,%d\n`. The mask is printed as a signed integer. -/
def dumpLine (root : Root) : Str :=
  percentS root.path ++ str "," ++ percentD root.mask.toInt32.toInt ++ str "," ++
    percentD root.maxEvents.toInt ++ str "\n"

/-- The critical section of `inotify_dump_roots`. The code also frees, and when the file does not open
prints, a pointer it has never set; that is left out. -/
def dumpRootsSection : M σ Unit := do
  if !(← call System.fopenDump) then return ()
  let roots ← Program.read fun w => w.roots.inotifyRoots.values.map w.roots.heap
  modifyOutput ({ · with dumpFile := (roots.filter (·.rewatch)).flatMap dumpLine })

end Inotispy
