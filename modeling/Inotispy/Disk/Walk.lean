import Inotispy.Disk.Kernel
import Inotispy.Library.Traversal
import Inotispy.Roots.Search
import Inotispy.Threads.Interleaving

/-! One step of a walker, in terms of the disk and the kernel's watches.

A walker of a live root enters a directory exactly when it is eligible and not watched
yet, and its loop goes on to exactly the directories among the entries.
-/

set_option autoImplicit false

namespace Inotispy
open Library

variable {σ Inode : Type} [System σ] [DecidableEq Inode] (kernel : Kernel σ Inode)

/-! ## What the critical section asks -/

def askedSys (w : World σ) (path : Str) (root : RootRef) : σ :=
  (System.inotifyAddWatch (System.opendir w.sys path).2 path
    ((w.roots.heap root).mask ||| inDontFollow)).2

theorem makeWatch_view {wd : Int} {path : Str} {w w' : World σ} {made : Option Watch}
    (ran : makeWatch wd path w = .ok (made, w')) : kernel.view w'.sys = kernel.view w.sys := by
  simp only [makeWatch, malloc_bind, Program.ite_eq_ok, Program.pure_eq_ok, Program.read_bind_apply,
    modifyWatches_bind] at ran
  obtain ⟨_, _, rfl⟩ | ⟨_, ⟨_, _, rfl⟩ | ⟨_, _, rfl⟩⟩ := ran <;> simp [kernel.malloc]

theorem addTreeWatch_view {path : Str} {root : RootRef} {went : Bool} {w w' : World σ}
    (ran : addTreeWatch path root w = .ok (went, w')) :
    (went = false ∧ kernel.view w'.sys = kernel.view w.sys) ∨
      (System.opendir w.sys path).1 = true ∧ kernel.view w'.sys = kernel.view (askedSys w path root) := by
  simp only [addTreeWatch, Program.ite_eq_ok, Program.pure_eq_ok, getRoot_bind, opendir_bind,
    inotifyAddWatch_bind, Program.bind_eq_ok_iff] at ran
  obtain ⟨_, rfl, rfl⟩ | ⟨opens, ⟨_, _, rfl⟩ | ⟨_, made, v, making, ran⟩⟩ := ran
  · exact .inl ⟨rfl, kernel.opendir_view _ _⟩
  · exact .inr ⟨by simpa using opens, rfl⟩
  · refine .inr ⟨by simpa using opens, ?_⟩
    have asked := makeWatch_view kernel making
    cases made with
    | none =>
      obtain ⟨_, rfl⟩ := Program.pure_eq_ok.mp ran
      exact asked
    | some watch =>
      simp only [lookupWd_bind, Program.ite_eq_ok, Program.pure_eq_ok, modifyWatches_bind] at ran
      obtain ⟨_, _, rfl⟩ | ⟨_, _, rfl⟩ := ran <;> exact asked

theorem doWatchTreeSection_view {path : Str} {root : RootRef} {cleanup went : Bool} {w w' : World σ}
    (ran : doWatchTreeSection path root cleanup w = .ok (went, w')) :
    (went = false ∧ kernel.view w'.sys = kernel.view w.sys) ∨
      endsInTmp path = false ∧ (System.opendir w.sys path).1 = true ∧
        kernel.view w'.sys = kernel.view (askedSys w path root) := by
  simp only [doWatchTreeSection, Program.ite_eq_ok, Program.pure_eq_ok, acquire_bind_eq_ok,
    release_bind, getRoot_bind, lookupPath_bind] at ran
  obtain ⟨_, rfl, rfl⟩ | ⟨plain, _, ⟨_, rfl, rfl⟩ | ⟨_, ⟨_, rfl, rfl⟩ | ⟨_, ran⟩⟩⟩ := ran
  · exact .inl ⟨rfl, rfl⟩
  · exact .inl ⟨rfl, rfl⟩
  · exact .inl ⟨rfl, rfl⟩
  · obtain ⟨_, v, adding, ran⟩ := Program.bind_eq_ok ran
    rw [release_bind, Program.pure_eq_ok] at ran
    obtain ⟨rfl, rfl⟩ := ran
    exact (addTreeWatch_view kernel adding).imp_right fun asked => ⟨by simpa using plain, asked⟩

/-! ## Directories whose watch is in the table -/

/-- The directory at `path` has an active descriptor that the table knows. -/
def Watched (outside : Outside Inode) (watches : WatchTable) (path : Str) : Prop :=
  ∃ inode wd, outside.directory path = some inode ∧ outside.active inode = some wd ∧
    (watches.inotifyWdToWatch.lookup wd).isSome

def Issued (outside : Outside Inode) (watches : WatchTable) : Prop :=
  ∀ wd watch, watches.inotifyWdToWatch.lookup wd = some watch → outside.issued wd

variable {kernel} {w : World σ} {path : Str} {root : RootRef}

theorem asked_cases (root : RootRef) {inode : Inode} (opens : (kernel.view w.sys).directory path = some inode) :
    ((kernel.view w.sys).active inode = some (answeredWd w path root) ∧
      kernel.view (askedSys w path root) = kernel.view w.sys) ∨
    (kernel.view w.sys).active inode = none ∧ ∃ new nonneg,
      kernel.view (askedSys w path root) =
        (kernel.view w.sys).grant inode (answeredWd w path root) new nonneg := by
  have same := kernel.opendir_view w.sys path
  have law := kernel.addWatch (System.opendir w.sys path).2 path
    ((w.roots.heap root).mask ||| inDontFollow) inode (same ▸ opens)
  rwa [same] at law

/-- The critical section files a watch for a directory exactly when it is not watched yet. -/
theorem files_iff (live : (w.roots.heap root).destroy = false) (issued : Issued (kernel.view w.sys) w.watches) :
    Files w path root false ↔
      (kernel.view w.sys).Eligible path ∧ ¬Watched (kernel.view w.sys) w.watches path := by
  constructor
  · intro files
    have opens := files.opens
    rw [kernel.opendir] at opens
    refine ⟨⟨files.plain, opens⟩, ?_⟩
    rintro ⟨inode, wd, directory, active, known⟩
    rcases asked_cases root directory with ⟨same, _⟩ | ⟨none, _⟩
    · rw [same] at active
      cases active
      rw [files.new] at known
      cases known
    · rw [none] at active
      cases active
  · rintro ⟨⟨plain, opens⟩, unwatched⟩
    obtain ⟨inode, directory⟩ := Option.isSome_iff_exists.mp opens
    have open_ : (System.opendir w.sys path).1 = true := by rw [kernel.opendir, directory]; rfl
    -- Either descriptor is at least zero; the table knows neither.
    rcases asked_cases root directory with ⟨active, _⟩ | ⟨none, new, nonneg, _⟩
    · refine ⟨plain, live, by simp, open_, ?_, ?_⟩
      · exact (kernel.view w.sys).issued_nonneg _ ((kernel.view w.sys).active_issued _ _ active)
      · rw [← Option.not_isSome_iff_eq_none]
        exact fun known => unwatched ⟨inode, _, directory, active, known⟩
    · refine ⟨plain, live, by simp, open_, nonneg, ?_⟩
      rw [← Option.not_isSome_iff_eq_none]
      intro known
      obtain ⟨watch, found⟩ := Option.isSome_iff_exists.mp known
      exact new (issued _ watch found)

theorem asked_granted (root : RootRef) {inode : Inode} (opens : (kernel.view w.sys).directory path = some inode) :
    (kernel.view w.sys).Granted (kernel.view (askedSys w path root)) inode (answeredWd w path root) := by
  rcases asked_cases root opens with ⟨active, same⟩ | ⟨none, new, nonneg, same⟩
  · rw [same]
    exact ⟨.refl _, .inr active, by rw [← active, Function.update_eq_self], fun _ => id⟩
  · rw [same]
    exact ⟨⟨rfl, rfl, rfl⟩, .inl none, rfl, fun _ => .inr⟩

theorem watched_file {before after : Outside Inode} {watches filed : WatchTable} {inode : Inode}
    {watch : Watch} (granted : before.Granted after inode watch.wd)
    (files : filed.inotifyWdToWatch = watches.inotifyWdToWatch.insert watch.wd watch) (path : Str) :
    Watched after filed path ↔ Watched before watches path ∨ before.directory path = some inode := by
  have own : after.active inode = some watch.wd := by rw [granted.active, Function.update_self]
  constructor
  · rintro ⟨other, wd, directory, active, known⟩
    rw [granted.directory] at directory
    -- Two inodes never share a descriptor, so another one keeps its entry.
    by_cases same : other = inode
    · exact .inr (same ▸ directory)
    · have differs : wd ≠ watch.wd := by
        rintro rfl
        exact same (after.active_injective _ _ _ active own)
      rw [granted.active, Function.update_of_ne same] at active
      rw [files, AList.lookup_insert_ne differs] at known
      exact .inl ⟨other, wd, directory, active, known⟩
  · rintro (⟨other, wd, directory, active, known⟩ | directory)
    · by_cases same : other = inode
      · subst same
        exact ⟨other, watch.wd, granted.directory ▸ directory, own, by rw [files, AList.lookup_insert]; rfl⟩
      · have still : after.active other = some wd := by
          rw [granted.active, Function.update_of_ne same, active]
        have differs : wd ≠ watch.wd := by
          rintro rfl
          exact same (after.active_injective _ _ _ still own)
        refine ⟨other, wd, granted.directory ▸ directory, still, ?_⟩
        rw [files, AList.lookup_insert_ne differs]
        exact known
    · exact ⟨inode, watch.wd, granted.directory ▸ directory, own, by rw [files, AList.lookup_insert]; rfl⟩

theorem Issued.file {before after : Outside Inode} {watches filed : WatchTable} {inode : Inode}
    {watch : Watch} (issued : Issued before watches) (granted : before.Granted after inode watch.wd)
    (files : filed.inotifyWdToWatch = watches.inotifyWdToWatch.insert watch.wd watch) :
    Issued after filed := by
  intro wd other found
  rw [files, GHashTable.lookup_insert_if] at found
  split at found
  · subst wd
    have own : after.active inode = some watch.wd := by rw [granted.active, Function.update_self]
    exact after.active_issued _ _ own
  · exact granted.issued wd (issued wd other found)

inductive Enters (kernel : Kernel σ Inode) (path : Str) (root : RootRef) (w w' : World σ) : Bool → Prop where
  | leaves (skipped : Nat) (view : kernel.view w'.sys = kernel.view w.sys)
      (known : (kernel.view w.sys).Eligible path → Watched (kernel.view w.sys) w.watches path)
      (is : w' = { w with sys := w'.sys, watches.nextWatch := w.watches.nextWatch + skipped }) :
      Enters kernel path root w w' false
  | files (inode : Inode) (watch : Watch) (named : watch.path = path)
      (eligible : (kernel.view w.sys).Eligible path)
      (unknown : ¬Watched (kernel.view w.sys) w.watches path)
      (directory : (kernel.view w.sys).directory path = some inode)
      (granted : (kernel.view w.sys).Granted (kernel.view w'.sys) inode watch.wd)
      (new : w.watches.inotifyWdToWatch.lookup watch.wd = none)
      (is : w' = { w with
        sys := w'.sys
        watches := ({ w.watches with nextWatch := w.watches.nextWatch + 1 } : WatchTable).file root watch }) :
      Enters kernel path root w w' true

theorem doWatchTreeSection_enters (succeed : AllocationsSucceed σ)
    (live : (w.roots.heap root).destroy = false) (issued : Issued (kernel.view w.sys) w.watches)
    {went : Bool} {w' : World σ} (ran : doWatchTreeSection path root false w = .ok (went, w')) :
    Enters kernel path root w w' went := by
  have viewed := doWatchTreeSection_view kernel ran
  obtain ⟨s, ⟨rfl, ⟨n, rfl⟩, stuck⟩ | ⟨rfl, files, rfl⟩⟩ := doWatchTreeSection_cases ran
  · have known : (kernel.view w.sys).Eligible path → Watched (kernel.view w.sys) w.watches path := by
      intro eligible
      by_contra unknown
      exact stuck succeed ((files_iff live issued).mpr ⟨eligible, unknown⟩)
    refine .leaves n ?_ known rfl
    rcases viewed with ⟨_, same⟩ | ⟨plain, opens, asked⟩
    · exact same
    · -- The directory is watched, so its own descriptor was the answer.
      rw [kernel.opendir] at opens
      obtain ⟨inode, wd, directory, active, _⟩ := known ⟨plain, opens⟩
      rcases asked_cases root directory with ⟨_, same⟩ | ⟨none, _⟩
      · exact asked.trans same
      · rw [none] at active
        cases active
  · obtain ⟨eligible, unknown⟩ := (files_iff live issued).mp files
    obtain ⟨inode, directory⟩ := Option.isSome_iff_exists.mp eligible.opens
    rcases viewed with ⟨absurd, _⟩ | ⟨_, _, asked⟩
    · cases absurd
    · have granted := asked_granted root directory
      rw [← asked] at granted
      exact .files inode ⟨w.watches.nextWatch, answeredWd w path root, path⟩ rfl eligible unknown directory
        granted files.new rfl

/-! ## Between two critical sections -/

omit [DecidableEq Inode] in
theorem kidIn_cons (outside : Outside Inode) (path : Str) (dir : Dirent) (dirs : List Dirent) (child : Str) :
    outside.KidIn path (dir :: dirs) child ↔
      ((dir.name ≠ str "." ∧ dir.name ≠ str "..") ∧ outside.IsDir path dir ∧
        child = childPath path dir.name) ∨ outside.KidIn path dirs child := by
  simp [Outside.KidIn]

theorem entryIsDir_iff (kernel : Kernel σ Inode) {dir : Dirent} {isDir : Bool} {w' : World σ}
    (ran : entryIsDir (some (childPath path dir.name)) dir.dType w = .ok (isDir, w')) :
    (isDir = true ↔ (kernel.view w.sys).IsDir path dir) ∧ kernel.view w'.sys = kernel.view w.sys ∧
      w' = { w with sys := w'.sys } := by
  unfold Outside.IsDir
  cases kind : dir.dType <;>
    simp only [kind, entryIsDir, deref, Program.pure_bind_apply, call_bind, Program.pure_eq_ok] at ran <;>
    obtain ⟨rfl, rfl⟩ := ran
  · simp only [beq_iff_eq, kernel.lstat, kernel.lstat_view, and_self]
  all_goals simp

theorem doWatchTreeRec_round (kernel : Kernel σ Inode) (succeed : AllocationsSucceed σ) {data : TData}
    (live : (w.roots.heap data.root).destroy = false) {rest next : List Frame} {dir : Dirent}
    {dirs : List Dirent} {w' : World σ}
    (ran : doWatchTreeRec data rest (.reading path (dir :: dirs)) w = .ok (next, w')) :
    kernel.view w'.sys = kernel.view w.sys ∧ w' = { w with sys := w'.sys } ∧
      ((next = .reading path dirs :: rest ∧
          ¬((dir.name ≠ str "." ∧ dir.name ≠ str "..") ∧ (kernel.view w.sys).IsDir path dir)) ∨
        (next = .call (childPath path dir.name) :: .reading path dirs :: rest ∧
          (dir.name ≠ str "." ∧ dir.name ≠ str "..") ∧ (kernel.view w.sys).IsDir path dir)) := by
  simp only [doWatchTreeRec, Program.ite_eq_ok, Program.pure_eq_ok, mkString_bind, succeed _,
    if_true] at ran
  obtain ⟨dots, rfl, rfl⟩ | ⟨named, ran⟩ := ran
  · refine ⟨rfl, rfl, .inl ⟨rfl, ?_⟩⟩
    -- The entries for the directory itself and its parent are passed over.
    rintro ⟨⟨one, two⟩, _⟩
    exact dots.elim one two
  · obtain ⟨isDir, v, asking, ran⟩ := Program.bind_eq_ok ran
    obtain ⟨exactly, view, only⟩ := entryIsDir_iff kernel asking
    rw [kernel.malloc] at exactly view
    rw [not_or] at named
    simp only [Program.ite_eq_ok, Program.pure_eq_ok, getRoot_bind, deref, Program.pure_bind_apply] at ran
    have same : v.roots = w.roots := by rw [only]
    rw [same, live] at ran
    obtain ⟨other, rfl, rfl⟩ | ⟨found, ⟨dead, _⟩ | ⟨_, rfl, rfl⟩⟩ := ran
    · refine ⟨view, only, .inl ⟨rfl, ?_⟩⟩
      rintro ⟨_, directory⟩
      rw [exactly.mpr directory] at other
      cases other
    · cases dead
    · exact ⟨view, only, .inr ⟨rfl, named, exactly.mp (by simpa using found)⟩⟩

end Inotispy
