import Inotispy.Disk.Coverage
import Inotispy.Roots.Lifecycle
import Inotispy.Threads.Moves

/-! Walkers in cleanup mode over a tree that does not change.

Such a walker gives up at every path that is in the table, whatever is missing below it.
It finds the directories without an entry that it reaches through such directories only.
-/

set_option autoImplicit false

namespace Inotispy
open Library

variable {σ Inode : Type}

/-- A cleanup walker stops at the path: it has an entry, or its descriptor has one. -/
def Stops (outside : Outside Inode) (watches : WatchTable) (path : Str) : Prop :=
  (watches.inotifyPathToWatch.lookup path).isSome ∨ Watched outside watches path

/-- A directory that is reached from one of the tops through unmarked directories. -/
def Exposed (disk : Outside Inode) (marked tops : Str → Prop) (path : Str) : Prop :=
  ∃ top, tops top ∧ Reaches disk.Kid (fun dir => disk.Eligible dir ∧ ¬marked dir) top path

section
variable {disk : Outside Inode} {marked tops : Str → Prop} {path : Str}

theorem Exposed.unmarked (exposed : Exposed disk marked tops path) : disk.Eligible path ∧ ¬marked path := by
  obtain ⟨top, _, reached⟩ := exposed
  exact reached.eligible

theorem Exposed.walks (exposed : Exposed disk marked tops path) : ∃ top, tops top ∧ disk.Walks top path := by
  obtain ⟨top, is, reached⟩ := exposed
  refine ⟨top, is, ?_⟩
  induction reached with
  | top fits => exact .top fits.1
  | kid _ next fits ih => exact .kid ih next fits.1

theorem Exposed.kid (exposed : Exposed disk marked tops path) {child : Str} (kid : disk.Kid path child)
    (eligible : disk.Eligible child) (unmarked : ¬marked child) : Exposed disk marked tops child := by
  obtain ⟨top, is, reached⟩ := exposed
  exact ⟨top, is, .kid reached kid ⟨eligible, unmarked⟩⟩

def Frame.Repairs (disk : Outside Inode) (marked tops : Str → Prop) : Frame → Prop
  | .call path => disk.Eligible path → ¬marked path → Exposed disk marked tops path
  | .opened path => Exposed disk marked tops path
  | .reading path rest => Exposed disk marked tops path ∧ ∀ child, disk.KidIn path rest child → disk.Kid path child

/-- A cleanup walker of a live root, or a thread that has finished. -/
def Thread.Repairs (disk : Outside Inode) (marked tops : Str → Prop) (roots : RootTable) : Thread → Prop
  | .watchTree data => data.cleanup = true ∧ (roots.heap data.root).destroy = false ∧
      ∃ top, data.path = some top ∧ (roots.heap data.root).path = some top ∧ tops top
  | .watchTreeRec data stack => data.cleanup = true ∧ (roots.heap data.root).destroy = false ∧
      ∀ frame ∈ stack, frame.Repairs disk marked tops
  | .finished => True
  | _ => False

theorem Frame.Repairs.of_inside {rest next : List Frame} (exposed : Exposed disk marked tops path)
    (leads : ∀ later ∈ next, later ∈ rest ∨ later.Inside disk path ∨ ∃ child, later = .call child ∧ disk.Kid path child) :
    ∀ later ∈ next, later ∈ rest ∨ later.Repairs disk marked tops := by
  intro later member
  refine (leads later member).imp_right ?_
  rintro (inside | ⟨child, rfl, kid⟩)
  · cases later with
    | call path => exact inside.elim
    | opened dir => exact (show dir = path from inside) ▸ exposed
    | reading dir dirs =>
      obtain ⟨rfl, part⟩ := inside
      exact ⟨exposed, part⟩
  · exact fun eligible unmarked => exposed.kid kid eligible unmarked

end

/-! ## One step -/

variable [System σ]

theorem doWatchTreeSection_cleanup {path : Str} {root : RootRef} {w : World σ}
    (absent : w.watches.inotifyPathToWatch.lookup path = none) :
    doWatchTreeSection path root true w = doWatchTreeSection path root false w := by
  simp only [doWatchTreeSection, Program.ite_apply]
  split
  · rfl
  by_cases free : w.locks.held .inotify = false
  · simp only [acquire_bind free, getRoot_bind, lookupPath_bind, absent, Program.ite_apply, Option.isSome_none,
      Bool.and_false, Bool.false_eq_true, if_false]
  · simp [acquire, Program.bind_apply, free]

theorem doWatchTreeSection_known {path : Str} {root : RootRef} {went : Bool} {w w' : World σ}
    (known : (w.watches.inotifyPathToWatch.lookup path).isSome)
    (ran : doWatchTreeSection path root true w = .ok (went, w')) : went = false ∧ w' = w := by
  simp only [doWatchTreeSection, Program.ite_eq_ok, Program.pure_eq_ok, acquire_bind_eq_ok, release_bind, getRoot_bind,
    lookupPath_bind, known, Bool.and_self, if_true] at ran
  obtain ⟨_, rfl, rfl⟩ | ⟨_, free, ⟨_, rfl, rfl⟩ | ⟨_, rfl, rfl⟩⟩ := ran
  · exact ⟨rfl, rfl⟩
  · exact ⟨rfl, by rw [Locks.unlock_set free]⟩
  · exact ⟨rfl, by rw [Locks.unlock_set free]⟩

inductive RepairEffect [DecidableEq Inode] (kernel : Kernel σ Inode) (disk : Outside Inode) (marked tops : Str → Prop)
    (w v : World σ) (thread next : Thread) : Prop where
  | moves (skipped : Nat) (view : kernel.view v.sys = kernel.view w.sys) (roots : v.roots = w.roots)
      (watches : v.watches = { w.watches with nextWatch := w.watches.nextWatch + skipped })
      (pends : ∀ child, disk.Eligible child → thread.Pends disk child →
        Stops (kernel.view w.sys) w.watches child ∨ next.Pends disk child)
  | files (path : Str) (inode : Inode) (root : RootRef) (watch : Watch) (named : watch.path = path)
      (exposed : Exposed disk marked tops path) (unknown : ¬Stops (kernel.view w.sys) w.watches path)
      (directory : disk.directory path = some inode)
      (granted : (kernel.view w.sys).Granted (kernel.view v.sys) inode watch.wd) (roots : v.roots = w.roots)
      (watches : v.watches =
        ({ w.watches with nextWatch := w.watches.nextWatch + 1 } : WatchTable).file root watch)
      (pends : ∀ child, thread.Pends disk child → child = path ∨ next.Pends disk child)
      (kids : ∀ child, disk.Kid path child → next.Pends disk child)

section
variable [DecidableEq Inode] {kernel : Kernel σ Inode} {disk : Outside Inode} {marked tops : Str → Prop}
  {w v : World σ} (succeed : AllocationsSucceed σ) (same : Outside.SameDisk disk (kernel.view w.sys))
include succeed same

theorem repair_call (issued : Issued (kernel.view w.sys) w.watches)
    (since : ∀ path, marked path → Stops (kernel.view w.sys) w.watches path) {data : TData}
    (cleanup : data.cleanup = true) (live : (w.roots.heap data.root).destroy = false) {path : Str}
    {rest next : List Frame} (repairs : Frame.Repairs disk marked tops (.call path))
    (ran : doWatchTreeRec data rest (.call path) w = .ok (next, v)) :
    (∀ frame ∈ next, frame ∈ rest ∨ frame.Repairs disk marked tops) ∧
      RepairEffect kernel disk marked tops w v (.watchTreeRec data (.call path :: rest)) (.watchTreeRec data next) := by
  obtain ⟨went, section_, rfl⟩ := doWatchTreeRec_call ran
  rw [cleanup] at section_
  -- A cleanup walker turns back at a path with an entry, whatever the kernel watches.
  cases found : w.watches.inotifyPathToWatch.lookup path with
  | some watch =>
    have known : (w.watches.inotifyPathToWatch.lookup path).isSome := by rw [found]; rfl
    obtain ⟨rfl, rfl⟩ := doWatchTreeSection_known known section_
    refine ⟨fun frame member => .inl member, .moves 0 rfl rfl rfl ?_⟩
    rintro child _ ⟨frame, member, pends⟩
    rcases List.mem_cons.mp member with rfl | later
    · cases pends
      exact .inl (.inl known)
    · exact .inr ⟨frame, later, pends⟩
  | none =>
    rw [doWatchTreeSection_cleanup found] at section_
    cases doWatchTreeSection_enters succeed live issued section_ with
    | leaves skipped view known is =>
      refine ⟨fun frame member => .inl member, .moves skipped view (by rw [is]) (by rw [is]) ?_⟩
      rintro child eligible ⟨frame, member, pends⟩
      rcases List.mem_cons.mp member with rfl | later
      · cases pends
        exact .inl (.inr (known ((same.eligible _).mpr eligible)))
      · exact .inr ⟨frame, later, pends⟩
    | files inode watch named eligible unknown directory granted new is =>
      have unknown : ¬Stops (kernel.view w.sys) w.watches path := by
        rintro (entry | watched)
        · rw [found] at entry
          cases entry
        · exact unknown watched
      have exposed := repairs ((same.eligible _).mp eligible) fun was => unknown (since path was)
      rw [if_pos rfl]
      constructor
      · intro frame member
        rcases List.mem_cons.mp member with rfl | later
        · exact .inr exposed
        · exact .inl later
      · refine .files path inode data.root watch named exposed unknown (same.directory ▸ directory) granted
          (by rw [is]) (by rw [is]) ?_ ?_
        · rintro child ⟨frame, member, pends⟩
          rcases List.mem_cons.mp member with rfl | later
          · exact .inl pends
          · exact .inr ⟨frame, List.mem_cons_of_mem _ later, pends⟩
        · exact fun child kid => ⟨_, List.mem_cons_self, kid⟩

theorem repair_step (issued : Issued (kernel.view w.sys) w.watches)
    (since : ∀ path, marked path → Stops (kernel.view w.sys) w.watches path) {thread next : Thread}
    (repairs : thread.Repairs disk marked tops w.roots) (ran : threadStep thread w = .ok (next, v)) :
    next.Repairs disk marked tops w.roots ∧ RepairEffect kernel disk marked tops w v thread next := by
  cases thread with
  | watchTree data =>
    obtain ⟨cleanup, live, top, named, rooted, is⟩ := repairs
    rcases doWatchTreeEnter_eq_ok ran with ⟨_, _, stops⟩ | ⟨_, _, named', _, _, _, rfl, rfl⟩
    · rw [live, named, rooted] at stops
      rcases stops with ⟨⟨⟩⟩ | ⟨_, _, ⟨⟩, ⟨⟩, shorter⟩
      omega
    · rw [named] at named'
      cases named'
      constructor
      · refine ⟨cleanup, live, fun frame member => ?_⟩
        rw [List.mem_singleton.mp member]
        exact fun eligible unmarked => ⟨top, is, .top ⟨eligible, unmarked⟩⟩
      · refine .moves 0 rfl rfl rfl fun child _ pends => ?_
        rw [Thread.Pends, named] at pends
        cases pends
        exact .inr ⟨_, List.mem_singleton_self _, rfl⟩
  | watchTreeRec data stack =>
    obtain ⟨cleanup, live, frames⟩ := repairs
    cases stack with
    | nil =>
      simp only [threadStep, doWatchTreeLeave, cleanup, if_true, modifyPool_bind, Program.pure_eq_ok] at ran
      obtain ⟨rfl, rfl⟩ := ran
      refine ⟨trivial, .moves 0 rfl rfl rfl ?_⟩
      rintro child _ ⟨frame, ⟨⟩, _⟩
    | cons frame rest =>
      obtain ⟨stack, v', step, ran⟩ := Program.bind_eq_ok ran
      obtain ⟨rfl, rfl⟩ := Program.pure_eq_ok.mp ran
      have first := frames frame List.mem_cons_self
      have combine (split_ : ∀ frame ∈ stack, frame ∈ rest ∨ frame.Repairs disk marked tops) :
          Thread.Repairs disk marked tops w.roots (.watchTreeRec data stack) :=
        ⟨cleanup, live, fun frame member =>
          (split_ frame member).elim (fun outer => frames frame (List.mem_cons_of_mem _ outer)) id⟩
      -- Between two sections only the frames change.
      have reads {path : Str} (exposed : Exposed disk marked tops path) (inside : frame.Inside disk path) :
          Thread.Repairs disk marked tops w.roots (.watchTreeRec data stack) ∧
            RepairEffect kernel disk marked tops w v (.watchTreeRec data (frame :: rest)) (.watchTreeRec data stack) := by
        obtain ⟨⟨view, is⟩, leads, pends⟩ :=
          doWatchTreeRec_reads succeed same live exposed.unmarked.1.opens inside step
        refine ⟨combine (Frame.Repairs.of_inside exposed leads), .moves 0 view (by rw [is]) (by rw [is]; rfl) ?_⟩
        exact fun child _ waiting => .inr (pends child waiting)
      cases frame with
      | call path => exact (repair_call succeed same issued since cleanup live first step).imp_left combine
      | opened path => exact reads first rfl
      | reading path dirs => exact reads first.1 ⟨rfl, first.2⟩
  | finished =>
    obtain ⟨rfl, rfl⟩ := Program.pure_eq_ok.mp ran
    exact ⟨trivial, .moves 0 rfl rfl rfl fun _ _ => .inr⟩
  | _ => exact repairs.elim

end

/-! ## Any number of steps -/

def Outside.InTrees (disk : Outside Inode) (tops : Str → Prop) (path : Str) : Prop := ∃ top, tops top ∧ disk.Walks top path

def Outside.DistinctTrees (disk : Outside Inode) (tops : Str → Prop) : Prop :=
  ∀ first second, disk.InTrees tops first → disk.InTrees tops second →
    disk.directory first = disk.directory second → first = second

def LiveRoot (roots : RootTable) (path : Str) : Prop :=
  ∃ root, roots.inotifyRoots.lookup path = some root ∧ (roots.heap root).destroy = false

/-- Cleanup walkers are at work from the live roots. They found the kernel's watches as in `disk`,
which otherwise stays as it is, and the tables as in `old`. -/
structure Repairing [DecidableEq Inode] (kernel : Kernel σ Inode) (disk : Outside Inode) (old : WatchTable)
    (table : RootTable) (w : World σ) : Prop where
  same : Outside.SameDisk disk (kernel.view w.sys)
  issued : Issued (kernel.view w.sys) w.watches
  roots : w.roots = table
  started : ∀ thread ∈ w.pool.threads, thread.Repairs disk (Stops disk old) (LiveRoot table) w.roots
  frontier : ∀ top, LiveRoot table top → Frontier disk.Kid (fun dir => disk.Eligible dir ∧ ¬Stops disk old dir) top
    (Stops (kernel.view w.sys) w.watches) (Pending disk w.pool.threads)
  kept : ∀ path, Stops disk old path → Stops (kernel.view w.sys) w.watches path
  keysKept : ∀ path, (old.inotifyPathToWatch.lookup path).isSome → (w.watches.inotifyPathToWatch.lookup path).isSome
  keysOnly : ∀ path, (w.watches.inotifyPathToWatch.lookup path).isSome →
    (old.inotifyPathToWatch.lookup path).isSome ∨ Exposed disk (Stops disk old) (LiveRoot table) path
  entered : ∀ path, Exposed disk (Stops disk old) (LiveRoot table) path → Stops (kernel.view w.sys) w.watches path →
    (w.watches.inotifyPathToWatch.lookup path).isSome

namespace Repairing

variable [DecidableEq Inode] {kernel : Kernel σ Inode} {disk : Outside Inode} {old : WatchTable}
  {roots : RootTable} {w v : World σ}

theorem turn (repairing : Repairing kernel disk old roots w) (succeed : AllocationsSucceed σ)
    (distinct : disk.DistinctTrees (LiveRoot roots)) {index : Nat} (ran : runThread index w = .ok ((), v)) :
    Repairing kernel disk old roots v := by
  obtain ⟨_, rfl⟩ | ⟨thread, next, u, found, stepped, rfl⟩ := runThread_eq_ok ran
  · exact repairing
  have threads := (threadStep_effect stepped).threads
  have member : thread ∈ w.pool.threads := List.mem_of_getElem? found
  obtain ⟨started, effect⟩ :=
    repair_step succeed repairing.same repairing.issued repairing.kept (repairing.started thread member) stepped
  have allStarted (same : u.roots = w.roots) : ∀ other ∈ u.pool.threads.set index next,
      other.Repairs disk (Stops disk old) (LiveRoot roots) u.roots := by
    rw [threads, same]
    intro other member
    rcases List.mem_or_eq_of_mem_set member with before | rfl
    · exact repairing.started other before
    · exact started
  cases effect with
  | moves skipped view same watches pends =>
    have stops : Stops (kernel.view u.sys) u.watches = Stops (kernel.view w.sys) w.watches := by
      unfold Stops Watched
      rw [view, watches]
    refine
      { same := view ▸ repairing.same
        issued := by
          have before := repairing.issued
          unfold Issued at before ⊢
          rwa [view, watches]
        roots := same.trans repairing.roots
        started := allStarted same
        frontier := fun top is => ?_
        kept := stops ▸ repairing.kept
        keysKept := by rw [watches]; exact repairing.keysKept
        keysOnly := by rw [watches]; exact repairing.keysOnly
        entered := by
          change ∀ path, _ → Stops (kernel.view u.sys) u.watches path → _
          rw [stops, watches]
          exact repairing.entered }
    change Frontier _ _ top (Stops (kernel.view u.sys) u.watches) _
    rw [stops, threads]
    refine (repairing.frontier top is).step (fun _ => id) (fun child fits pending => ?_)
      fun _ _ _ now before => absurd now before
    rcases pending.set found next with own | other
    · exact (pends child fits.1 own).imp_right (Pending.of_set found)
    · exact .inr other
  | files path inode root watch named exposed unknown directory granted same watches pends kids =>
    subst named
    have watched : ∀ path, Watched (kernel.view u.sys) u.watches path ↔
        Watched (kernel.view w.sys) w.watches path ∨ disk.directory path = some inode := by
      intro path
      have filed : u.watches.inotifyWdToWatch = w.watches.inotifyWdToWatch.insert watch.wd watch := by
        rw [watches]
        rfl
      have law := watched_file granted filed path
      rwa [repairing.same.directory] at law
    have keys : ∀ path, (u.watches.inotifyPathToWatch.lookup path).isSome ↔
        path = watch.path ∨ (w.watches.inotifyPathToWatch.lookup path).isSome := by
      intro path
      rw [watches, WatchTable.file, GHashTable.lookup_insert_if]
      by_cases is : path = watch.path <;> simp [is]
    have grown : ∀ path, Stops (kernel.view w.sys) w.watches path → Stops (kernel.view u.sys) u.watches path := by
      rintro path (entry | before)
      · exact .inl ((keys path).mpr (.inr entry))
      · exact .inr ((watched path).mpr (.inl before))
    -- Of the directories of the trees, only this one is new.
    have only : ∀ path, disk.InTrees (LiveRoot roots) path → Stops (kernel.view u.sys) u.watches path →
        path = watch.path ∨ Stops (kernel.view w.sys) w.watches path := by
      rintro path inTrees (entry | now)
      · exact ((keys path).mp entry).imp_right .inl
      · rcases (watched path).mp now with before | is
        · exact .inr (.inr before)
        · exact .inl (distinct _ _ inTrees exposed.walks (is.trans directory.symm))
    refine
      { same := repairing.same.trans granted.toSameDisk
        issued := repairing.issued.file granted (by rw [watches]; rfl)
        roots := same.trans repairing.roots
        started := allStarted same
        frontier := fun top is => ?_
        kept := fun path before => grown path (repairing.kept path before)
        keysKept := fun path entry => (keys path).mpr (.inr (repairing.keysKept path entry))
        keysOnly := ?_
        entered := ?_ }
    · change Frontier _ _ top (Stops (kernel.view u.sys) u.watches) _
      rw [threads]
      refine (repairing.frontier top is).step grown (fun child _ pending => ?_) ?_
      · rcases pending.set found next with own | other
        · rcases pends child own with rfl | later
          · exact .inl (.inl ((keys _).mpr (.inl rfl)))
          · exact .inr (Pending.of_set found later)
        · exact .inr other
      · intro parent child reached now before kid _
        obtain rfl := (only parent (Exposed.walks ⟨top, is, reached⟩) now).resolve_right before
        exact .inr (Pending.of_set found (kids child kid))
    · intro path entry
      rcases (keys path).mp entry with rfl | before
      · exact .inr exposed
      · exact repairing.keysOnly path before
    · intro path reached now
      rcases only path reached.walks now with rfl | before
      · exact (keys _).mpr (.inl rfl)
      · exact (keys path).mpr (.inr (repairing.entered path reached before))

theorem run (succeed : AllocationsSucceed σ) (distinct : disk.DistinctTrees (LiveRoot roots)) (turns : Turns w v)
    (repairing : Repairing kernel disk old roots w) : Repairing kernel disk old roots v := by
  induction turns with
  | refl => exact repairing
  | tail _ step ih =>
    obtain ⟨index, ran⟩ := step
    exact ih.turn succeed distinct ran

/-- When all have finished, the entries that were added are those of the exposed directories. -/
theorem keys_iff (repairing : Repairing kernel disk old roots w)
    (finished : ∀ thread ∈ w.pool.threads, thread = .finished) (path : Str) :
    (w.watches.inotifyPathToWatch.lookup path).isSome ↔
      (old.inotifyPathToWatch.lookup path).isSome ∨ Exposed disk (Stops disk old) (LiveRoot roots) path := by
  constructor
  · exact repairing.keysOnly path
  · rintro (before | exposed)
    · exact repairing.keysKept path before
    · refine repairing.entered path exposed ?_
      obtain ⟨top, is, reached⟩ := exposed
      refine (repairing.frontier top is).complete ?_ reached
      rintro child ⟨thread, member, pends⟩
      rw [finished thread member] at pends
      exact pends

end Repairing
end Inotispy
