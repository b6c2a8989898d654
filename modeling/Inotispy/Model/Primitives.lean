import Inotispy.Model.State

/-! Calls to the outside, raw mutex operations and the string helpers of `utils.c`. -/

set_option autoImplicit false

namespace Inotispy
open Library

variable {σ : Type}

def str (text : String) : Str := text.toList

/-- Ask the outside; its state is the only thing that changes. -/
def call {A : Type} (question : σ → A × σ) : M σ A := fun w =>
  .ok ((question w.sys).1, { w with sys := (question w.sys).2 })

theorem call_apply {A : Type} (question : σ → A × σ) (w : World σ) :
    call question w = .ok ((question w.sys).1, { w with sys := (question w.sys).2 }) := rfl

theorem call_bind {A B : Type} (question : σ → A × σ) (f : A → M σ B) (w : World σ) :
    (call question >>= f) w = f (question w.sys).1 { w with sys := (question w.sys).2 } := rfl

def malloc [System σ] : M σ Bool := call System.malloc

def pthreadCreate [System σ] : M σ Bool := call System.pthreadCreate

def opendir [System σ] (path : Str) : M σ Bool := call (System.opendir · path)

def inotifyAddWatch [System σ] (path : Str) (mask : UInt32) : M σ Int :=
  call (System.inotifyAddWatch · path mask)

def inotifyRmWatch [System σ] (wd : Int) : M σ Int := call (System.inotifyRmWatch · wd)

def AllocationsSucceed (σ : Type) [System σ] : Prop := ∀ s : σ, (System.malloc s).1 = true

def deref {A : Type} : Option A → M σ A
  | some value => pure value
  | none => Program.fault .nullDeref

/-- What glibc prints for a string argument of `%s`. -/
def percentS : Option Str → Str
  | some text => text
  | none => str "(null)"

/-- `mk_string`. A failed allocation gives a null string and the return value 1;
the callers test for -1, which only an output error of `vsnprintf` gives, so they
go on with the null string. -/
def mkString [System σ] (text : Str) : M σ (Option Str) := do
  if ← malloc then return some text
  return none

/-! ## Mutexes -/

def Locks.held (locks : Locks) : Mutex → Bool
  | .inotify => locks.inotify
  | .zmq => locks.zmq

def Locks.set (locks : Locks) : Mutex → Bool → Locks
  | .inotify, held => { locks with inotify := held }
  | .zmq, held => { locks with zmq := held }

/-- Unlocking a mutex that is not held is noted. -/
def Locks.unlock (locks : Locks) (mutex : Mutex) : Locks :=
  ({ locks with badUnlock := locks.badUnlock || !locks.held mutex } : Locks).set mutex false

def modifyLocks (change : Locks → Locks) : M σ Unit :=
  Program.update fun w => { w with locks := change w.locks }

def modifyRoots (change : RootTable → RootTable) : M σ Unit :=
  Program.update fun w => { w with roots := change w.roots }

def modifyWatches (change : WatchTable → WatchTable) : M σ Unit :=
  Program.update fun w => { w with watches := change w.watches }

def modifyPool (change : Pool → Pool) : M σ Unit :=
  Program.update fun w => { w with pool := change w.pool }

def modifySocket {A : Type} (use : Socket → A × Socket) : M σ A := fun w =>
  .ok ((use w.socket).1, { w with socket := (use w.socket).2 })

def modifyOutput (change : Output → Output) : M σ Unit :=
  Program.update fun w => { w with output := change w.output }

def acquire (mutex : Mutex) : M σ Unit := do
  if ← Program.read (·.locks.held mutex) then Program.fault (.relock mutex)
  modifyLocks (·.set mutex true)

def release (mutex : Mutex) : M σ Unit := modifyLocks (·.unlock mutex)

/-! ## Memory and tables -/

def getRoot (root : RootRef) : M σ Root := Program.read (·.roots.heap root)

def RootTable.setRoot (roots : RootTable) (root : RootRef) (change : Root → Root) : RootTable :=
  { roots with heap := Function.update roots.heap root (change (roots.heap root)) }

@[simp] theorem RootTable.heap_setRoot_self (roots : RootTable) (root : RootRef) (change : Root → Root) :
    (roots.setRoot root change).heap root = change (roots.heap root) := by simp [setRoot]

theorem RootTable.heap_setRoot_of_ne {root other : RootRef} (differs : other ≠ root)
    (roots : RootTable) (change : Root → Root) :
    (roots.setRoot root change).heap other = roots.heap other := by
  simp [setRoot, Function.update_of_ne differs]

theorem RootTable.field_setRoot {A : Type} (field : Root → A) {change : Root → Root}
    (same : ∀ r, field (change r) = field r) (roots : RootTable) (root other : RootRef) :
    field ((roots.setRoot root change).heap other) = field (roots.heap other) := by
  by_cases is : other = root
  · subst is
    rw [heap_setRoot_self, same]
  · rw [heap_setRoot_of_ne is]

def WatchTable.file (watches : WatchTable) (root : RootRef) (watch : Watch) : WatchTable :=
  { watches with
    inotifyWdToWatch := watches.inotifyWdToWatch.insert watch.wd watch
    inotifyPathToWatch := watches.inotifyPathToWatch.insert watch.path watch
    inserted := watches.inserted ++ [(root, watch)] }

def WatchTable.forget (watches : WatchTable) (path : Str) (wd : Int) : WatchTable :=
  { watches with
    inotifyWdToWatch := watches.inotifyWdToWatch.erase wd
    inotifyPathToWatch := watches.inotifyPathToWatch.erase path }

def lookupPath (path : Str) : M σ (Option Watch) :=
  Program.read (·.watches.inotifyPathToWatch.lookup path)

def lookupWd (wd : Int) : M σ (Option Watch) :=
  Program.read (·.watches.inotifyWdToWatch.lookup wd)

/-! ## Names -/

/-- The suffix rsync gives its temporary files. -/
def tmpStr : Str := str ".~tmp~"

/-- The test made in three places: the first `.~tmp~` in the text ends it. -/
def endsInTmp (text : Str) : Bool :=
  match CString.strstr text tmpStr with
  | some idx => idx + tmpStr.length == text.length
  | none => false

/-- Name of a directory's entry, as `_do_watch_tree_rec` builds it. -/
def childPath (path name : Str) : Str :=
  if path = str "/" then str "/" ++ name else path ++ str "/" ++ name

/-- Name of an event's subject, as `inotify_handle_event` builds it. In the branch
for the path "/" the format has one conversion, which takes the path. -/
def eventPath (path name : Str) : Str :=
  if path = str "/" then str "/" ++ path else path ++ str "/" ++ name

/-! ## Runs of the primitives

These are the equations with which proofs step through a function. -/

section
variable {A : Type} (w : World σ)

theorem modifyRoots_bind (change : RootTable → RootTable) (f : Unit → M σ A) :
    (modifyRoots change >>= f) w = f () { w with roots := change w.roots } := rfl

theorem modifyWatches_bind (change : WatchTable → WatchTable) (f : Unit → M σ A) :
    (modifyWatches change >>= f) w = f () { w with watches := change w.watches } := rfl

theorem modifyPool_bind (change : Pool → Pool) (f : Unit → M σ A) :
    (modifyPool change >>= f) w = f () { w with pool := change w.pool } := rfl

theorem modifySocket_bind {B : Type} (use : Socket → B × Socket) (f : B → M σ A) :
    (modifySocket use >>= f) w = f (use w.socket).1 { w with socket := (use w.socket).2 } := rfl

theorem modifyOutput_bind (change : Output → Output) (f : Unit → M σ A) :
    (modifyOutput change >>= f) w = f () { w with output := change w.output } := rfl

theorem getRoot_bind (root : RootRef) (f : Root → M σ A) :
    (getRoot root >>= f) w = f (w.roots.heap root) w := rfl

theorem lookupPath_bind (path : Str) (f : Option Watch → M σ A) :
    (lookupPath path >>= f) w = f (w.watches.inotifyPathToWatch.lookup path) w := rfl

theorem lookupWd_bind (wd : Int) (f : Option Watch → M σ A) :
    (lookupWd wd >>= f) w = f (w.watches.inotifyWdToWatch.lookup wd) w := rfl

theorem release_bind (mutex : Mutex) (f : Unit → M σ A) :
    (release mutex >>= f) w = f () { w with locks := w.locks.unlock mutex } := rfl

theorem release_eq_ok {w w' : World σ} {mutex : Mutex} {a : Unit} :
    release mutex w = .ok (a, w') ↔ w' = { w with locks := w.locks.unlock mutex } := by
  constructor
  · intro ran
    cases ran
    rfl
  · rintro rfl
    rfl

theorem acquire_bind_eq_ok {mutex : Mutex} {f : Unit → M σ A} {r : A × World σ} :
    (acquire mutex >>= f) w = .ok r ↔
      w.locks.held mutex = false ∧ f () { w with locks := w.locks.set mutex true } = .ok r := by
  cases held : w.locks.held mutex <;> simp [acquire, Program.bind_apply, held, modifyLocks]

theorem acquire_bind {w : World σ} {mutex : Mutex} (free : w.locks.held mutex = false)
    (f : Unit → M σ A) :
    (acquire mutex >>= f) w = f () { w with locks := w.locks.set mutex true } := by
  simp [acquire, Program.bind_apply, free, modifyLocks]

theorem acquire_run {w : World σ} {mutex : Mutex} (free : w.locks.held mutex = false) :
    acquire mutex w = .ok ((), { w with locks := w.locks.set mutex true }) := by
  have run := acquire_bind free (pure : Unit → M σ Unit)
  rwa [bind_pure] at run

theorem deref_bind_eq_ok {B : Type} {pointer : Option B} {f : B → M σ A} {r : A × World σ} :
    (deref pointer >>= f) w = .ok r ↔ ∃ value, pointer = some value ∧ f value w = .ok r := by
  cases pointer <;> simp [deref]

theorem malloc_bind [System σ] (f : Bool → M σ A) :
    (malloc >>= f) w = f (System.malloc w.sys).1 { w with sys := (System.malloc w.sys).2 } := rfl

theorem pthreadCreate_bind [System σ] (f : Bool → M σ A) :
    (pthreadCreate >>= f) w =
      f (System.pthreadCreate w.sys).1 { w with sys := (System.pthreadCreate w.sys).2 } := rfl

theorem opendir_bind [System σ] (path : Str) (f : Bool → M σ A) :
    (opendir path >>= f) w =
      f (System.opendir w.sys path).1 { w with sys := (System.opendir w.sys path).2 } := rfl

theorem inotifyAddWatch_bind [System σ] (path : Str) (mask : UInt32) (f : Int → M σ A) :
    (inotifyAddWatch path mask >>= f) w =
      f (System.inotifyAddWatch w.sys path mask).1
        { w with sys := (System.inotifyAddWatch w.sys path mask).2 } := rfl

theorem inotifyRmWatch_bind [System σ] (wd : Int) (f : Int → M σ A) :
    (inotifyRmWatch wd >>= f) w =
      f (System.inotifyRmWatch w.sys wd).1 { w with sys := (System.inotifyRmWatch w.sys wd).2 } := rfl

theorem mkString_bind [System σ] (text : Str) (f : Option Str → M σ A) :
    (mkString text >>= f) w =
      f (if (System.malloc w.sys).1 then some text else none)
        { w with sys := (System.malloc w.sys).2 } := by
  cases allocated : (System.malloc w.sys).1 <;>
    simp [mkString, malloc, Program.bind_apply, call_apply, allocated]

end

theorem Locks.unlock_set {locks : Locks} {mutex : Mutex} (free : locks.held mutex = false) :
    (locks.set mutex true).unlock mutex = locks := by
  obtain ⟨inotify, zmq, bad⟩ := locks
  cases mutex <;> simp_all [Locks.held, Locks.set, Locks.unlock]

end Inotispy
