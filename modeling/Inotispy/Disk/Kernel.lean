import Inotispy.Library.Traversal
import Inotispy.Threads.Effects

/-! The disk and the kernel's watches, as the daemon gets to know them.

`Outside` is a state of the disk and of the watch descriptors; it carries the facts that
an active descriptor belongs to one directory and was issued before. `Kernel` says how
the answers of the outside follow from it.
-/

set_option autoImplicit false

namespace Inotispy
open Library

/-- The directories that open, by path, and the watches on them. -/
structure Outside (Inode : Type) where
  directory : Str → Option Inode
  entries : Str → List Dirent
  mode : Str → FileMode
  active : Inode → Option Int
  issued : Int → Prop
  issued_nonneg : ∀ wd, issued wd → 0 ≤ wd
  active_issued : ∀ inode wd, active inode = some wd → issued wd
  active_injective : ∀ first second wd, active first = some wd → active second = some wd →
    first = second

namespace Outside

variable {Inode : Type}

def grant [DecidableEq Inode] (outside : Outside Inode) (inode : Inode) (wd : Int) (new : ¬outside.issued wd)
    (nonneg : 0 ≤ wd) : Outside Inode :=
  { outside with
    active := Function.update outside.active inode (some wd)
    issued := fun other => other = wd ∨ outside.issued other
    issued_nonneg := by
      rintro other (rfl | old)
      · exact nonneg
      · exact outside.issued_nonneg other old
    active_issued := by
      intro other wd' is
      by_cases same : other = inode
      · subst same
        rw [Function.update_self] at is
        exact .inl (Option.some.inj is).symm
      · rw [Function.update_of_ne same] at is
        exact .inr (outside.active_issued other wd' is)
    active_injective := by
      intro first second wd' one two
      -- A descriptor that was never used cannot be that of another directory.
      by_cases same : first = inode <;> by_cases same' : second = inode
      · rw [same, same']
      · subst same
        rw [Function.update_self] at one
        rw [Function.update_of_ne same'] at two
        cases one
        exact absurd (outside.active_issued second wd two) new
      · subst same'
        rw [Function.update_self] at two
        rw [Function.update_of_ne same] at one
        cases two
        exact absurd (outside.active_issued first wd one) new
      · rw [Function.update_of_ne same] at one
        rw [Function.update_of_ne same'] at two
        exact outside.active_injective first second wd' one two }

def drop (outside : Outside Inode) (wd : Int) : Outside Inode :=
  { outside with
    active := fun inode => if outside.active inode = some wd then none else outside.active inode
    active_issued := by
      intro inode wd' is
      split at is
      · cases is
      · exact outside.active_issued inode wd' is
    active_injective := by
      intro first second wd' one two
      split at one
      · cases one
      · split at two
        · cases two
        · exact outside.active_injective first second wd' one two }

/-! ## What a walk sees -/

section
variable (outside : Outside Inode)

def IsDir (path : Str) (dir : Dirent) : Prop :=
  match dir.dType with
  | .unknown => outside.mode (childPath path dir.name) = .dir
  | dType => dType = .dir

/-- A walker in the directory at `path`, with some entries left, goes on to `child`. -/
def KidIn (path : Str) (dirs : List Dirent) (child : Str) : Prop :=
  ∃ dir ∈ dirs, (dir.name ≠ str "." ∧ dir.name ≠ str "..") ∧ outside.IsDir path dir ∧
    child = childPath path dir.name

def Kid (path child : Str) : Prop := outside.KidIn path (outside.entries path) child

structure Eligible (path : Str) : Prop where
  plain : endsInTmp path = false
  opens : (outside.directory path).isSome

/-- The directories that one walk from `top` watches. -/
def Walks (top path : Str) : Prop := Reaches outside.Kid outside.Eligible top path

end

theorem Walks.length_le {outside : Outside Inode} {top path : Str} (reached : outside.Walks top path) :
    top.length ≤ path.length := by
  induction reached with
  | top => exact le_refl _
  | kid _ next _ ih =>
    obtain ⟨dir, _, _, _, rfl⟩ := next
    unfold childPath
    split <;> simp_all [str] <;> omega

structure SameDisk (before after : Outside Inode) : Prop where
  directory : after.directory = before.directory
  entries : after.entries = before.entries
  mode : after.mode = before.mode

namespace SameDisk

theorem refl (outside : Outside Inode) : SameDisk outside outside := ⟨rfl, rfl, rfl⟩

theorem trans {first second third : Outside Inode} (one : SameDisk first second)
    (two : SameDisk second third) : SameDisk first third :=
  ⟨two.directory.trans one.directory, two.entries.trans one.entries, two.mode.trans one.mode⟩

variable {before after : Outside Inode} (same : SameDisk before after)
include same

theorem eligible (path : Str) : after.Eligible path ↔ before.Eligible path := by
  constructor
  · rintro ⟨plain, opens⟩
    exact ⟨plain, same.directory ▸ opens⟩
  · rintro ⟨plain, opens⟩
    exact ⟨plain, same.directory.symm ▸ opens⟩

theorem isDir : after.IsDir = before.IsDir := by
  unfold IsDir
  rw [same.mode]

theorem walks : after.Walks = before.Walks := by
  have kid : after.Kid = before.Kid := by
    unfold Kid KidIn
    rw [same.isDir, same.entries]
  have eligible : after.Eligible = before.Eligible := funext fun path => propext (same.eligible path)
  unfold Walks
  rw [kid, eligible]

end SameDisk

structure Granted [DecidableEq Inode] (before after : Outside Inode) (inode : Inode) (wd : Int) : Prop
    extends SameDisk before after where
  kept : before.active inode = none ∨ before.active inode = some wd
  active : after.active = Function.update before.active inode (some wd)
  issued : ∀ other, before.issued other → after.issued other

end Outside

/-- How the outside's answers follow from the disk and the watches. -/
structure Kernel (σ Inode : Type) [System σ] [DecidableEq Inode] where
  view : σ → Outside Inode
  malloc : ∀ s, view (System.malloc s).2 = view s
  pthreadCreate : ∀ s, view (System.pthreadCreate s).2 = view s
  opendir : ∀ s path, (System.opendir s path).1 = ((view s).directory path).isSome
  opendir_view : ∀ s path, view (System.opendir s path).2 = view s
  readdir : ∀ s path, ((view s).directory path).isSome →
    (System.readdir s path).1 = some ((view s).entries path)
  readdir_view : ∀ s path, view (System.readdir s path).2 = view s
  lstat : ∀ s path, (System.lstat s path).1 = (view s).mode path
  lstat_view : ∀ s path, view (System.lstat s path).2 = view s
  /-- A directory keeps its active descriptor, or is given one that was never used. -/
  addWatch : ∀ s path mask inode, (view s).directory path = some inode →
    ((view s).active inode = some (System.inotifyAddWatch s path mask).1 ∧
      view (System.inotifyAddWatch s path mask).2 = view s) ∨
    (view s).active inode = none ∧ ∃ new nonneg,
      view (System.inotifyAddWatch s path mask).2 =
        (view s).grant inode (System.inotifyAddWatch s path mask).1 new nonneg
  rmWatch : ∀ s wd, view (System.inotifyRmWatch s wd).2 = (view s).drop wd

/-! ## A kernel that is computed

It shows that the laws can be met, and what runs on a given disk look like. -/

structure Simulated where
  outside : Outside Nat
  nextWd : Int
  nonneg : 0 ≤ nextWd
  fresh : ∀ wd, outside.issued wd → wd < nextWd

namespace Simulated

def grant (s : Simulated) (inode : Nat) : Simulated where
  outside := s.outside.grant inode s.nextWd (fun used => Int.lt_irrefl _ (s.fresh _ used)) s.nonneg
  nextWd := s.nextWd + 1
  nonneg := by have := s.nonneg; omega
  fresh := by
    rintro wd (rfl | used)
    · exact Int.lt_succ _
    · have := s.fresh wd used
      omega

def addWatch (s : Simulated) (path : Str) : Int × Simulated :=
  match s.outside.directory path with
  | none => (-1, s)
  | some inode =>
    match s.outside.active inode with
    | some wd => (wd, s)
    | none => (s.nextWd, s.grant inode)

instance : System Simulated where
  malloc s := (true, s)
  pthreadCreate s := (true, s)
  opendir s path := ((s.outside.directory path).isSome, s)
  readdir s path := (if (s.outside.directory path).isSome then some (s.outside.entries path) else none, s)
  lstat s path := (s.outside.mode path, s)
  statIsDir s path := ((s.outside.directory path).isSome, s)
  inotifyAddWatch s path _ := s.addWatch path
  inotifyRmWatch s wd := (0, { s with outside := s.outside.drop wd })
  fopenDump s := (false, s)
  getpid _ := 1
  uptime _ := 0
  jsonTokenerParse _ := none
  jsonObjectToJsonString _ := []

theorem allocationsSucceed : AllocationsSucceed Simulated := fun _ => rfl

def kernel : Kernel Simulated Nat where
  view := outside
  malloc _ := rfl
  pthreadCreate _ := rfl
  opendir _ _ := rfl
  opendir_view _ _ := rfl
  readdir s path opens := if_pos opens
  readdir_view _ _ := rfl
  lstat _ _ := rfl
  lstat_view _ _ := rfl
  addWatch s path _ inode directory := by
    cases active : s.outside.active inode with
    | some wd =>
      refine .inl ⟨?_, ?_⟩ <;> simp only [System.inotifyAddWatch, addWatch, directory, active]
    | none =>
      refine .inr ⟨rfl, ?_⟩
      simp only [System.inotifyAddWatch, addWatch, directory, active]
      exact ⟨fun used => Int.lt_irrefl _ (s.fresh _ used), s.nonneg, rfl⟩
  rmWatch _ _ := rfl

def change (s : Simulated) (path : Str) (inode : Option Nat) : Simulated :=
  { s with outside := { s.outside with directory := Function.update s.outside.directory path inode } }

/-- The directory "/r" with the empty directory "/r/a". -/
def nested : Simulated where
  outside :=
    { directory := fun path => if path = str "/r" then some 1 else if path = str "/r/a" then some 2 else none
      entries := fun path => if path = str "/r" then [⟨str "a", .dir⟩] else []
      mode := fun _ => .dir
      active := fun _ => none
      issued := fun _ => False
      issued_nonneg := nofun
      active_issued := nofun
      active_injective := nofun }
  nextWd := 1
  nonneg := by decide
  fresh := nofun

end Simulated
end Inotispy
