import Inotispy.Disk.Walk

/-! Walkers over a tree that does not change.

Any number of walkers of one live root run through each other. A walker gives up at a
directory whose descriptor is in the table already; then another walker has entered it,
and still has its subdirectories before it or has dealt with them.
-/

set_option autoImplicit false

namespace Inotispy
open Library

variable {σ Inode : Type}

/-! ## What a walker still has before it -/

section
variable (disk : Outside Inode)

/-- The directories a call has yet to go on to. -/
def Frame.Pends : Frame → Str → Prop
  | .call path, child => child = path
  | .opened path, child => disk.Kid path child
  | .reading path rest, child => disk.KidIn path rest child

def Thread.Pends : Thread → Str → Prop
  | .watchTree data, child => data.path = some child
  | .watchTreeRec _ stack, child => ∃ frame ∈ stack, frame.Pends disk child
  | _, _ => False

def Pending (threads : List Thread) (child : Str) : Prop := ∃ thread ∈ threads, thread.Pends disk child

def Frame.From (top : Str) : Frame → Prop
  | .call path => disk.Eligible path → disk.Walks top path
  | .opened path => disk.Walks top path
  | .reading path rest => disk.Walks top path ∧ ∀ child, disk.KidIn path rest child → disk.Kid path child

/-- A walker of the root that is not in cleanup mode, started in the tree below `top`. -/
def Thread.From (root : RootRef) (top : Str) : Thread → Prop
  | .watchTree data => data.root = root ∧ data.cleanup = false ∧
      ∃ path, data.path = some path ∧ top.length ≤ path.length ∧ (disk.Eligible path → disk.Walks top path)
  | .watchTreeRec data stack => data.root = root ∧ data.cleanup = false ∧ ∀ frame ∈ stack, frame.From disk top
  | .finished => True
  | _ => False

end

variable {disk : Outside Inode} {root : RootRef} {top : Str}

theorem Pending.set {threads : List Thread} {index : Nat} {thread : Thread}
    (found : threads[index]? = some thread) (next : Thread) {child : Str}
    (pending : Pending disk threads child) :
    thread.Pends disk child ∨ Pending disk (threads.set index next) child := by
  obtain ⟨other, member, pends⟩ := pending
  obtain ⟨place, at_⟩ := List.mem_iff_getElem?.mp member
  by_cases same : index = place
  · subst same
    rw [found] at at_
    cases at_
    exact .inl pends
  · refine .inr ⟨other, List.mem_iff_getElem?.mpr ⟨place, ?_⟩, pends⟩
    rw [List.getElem?_set_ne same, at_]

theorem Pending.of_set {threads : List Thread} {index : Nat} {thread next : Thread}
    (found : threads[index]? = some thread) {child : Str} (pends : next.Pends disk child) :
    Pending disk (threads.set index next) child := by
  have inside := (List.getElem?_eq_some_iff.mp found).1
  exact ⟨next, List.mem_set inside next, pends⟩

/-! ## One step -/

variable [System σ] [DecidableEq Inode] (kernel : Kernel σ Inode)

/-- What a step of a walker does: it passes what it had before it on, or finds it watched
already; or it enters a directory and takes its subdirectories up. -/
inductive WalkerEffect (top : Str) (disk : Outside Inode) (root : RootRef) (w v : World σ) (thread next : Thread) : Prop where
  | moves (skipped : Nat) (view : kernel.view v.sys = kernel.view w.sys) (roots : v.roots = w.roots)
      (watches : v.watches = { w.watches with nextWatch := w.watches.nextWatch + skipped })
      (pends : ∀ child, disk.Eligible child → thread.Pends disk child →
        Watched (kernel.view w.sys) w.watches child ∨ next.Pends disk child)
  | files (path : Str) (inode : Inode) (watch : Watch) (named : watch.path = path)
      (reached : disk.Walks top path) (unknown : ¬Watched (kernel.view w.sys) w.watches path)
      (directory : disk.directory path = some inode)
      (granted : (kernel.view w.sys).Granted (kernel.view v.sys) inode watch.wd)
      (new : w.watches.inotifyWdToWatch.lookup watch.wd = none) (roots : v.roots = w.roots)
      (watches : v.watches =
        ({ w.watches with nextWatch := w.watches.nextWatch + 1 } : WatchTable).file root watch)
      (pends : ∀ child, thread.Pends disk child → child = path ∨ next.Pends disk child)
      (kids : ∀ child, disk.Kid path child → next.Pends disk child)

variable {kernel} {w v : World σ}

theorem walker_call (succeed : AllocationsSucceed σ) (same : Outside.SameDisk disk (kernel.view w.sys))
    (live : (w.roots.heap root).destroy = false) (issued : Issued (kernel.view w.sys) w.watches)
    {path : Str} {rest next : List Frame} {data : TData} (own : data.root = root) (plain : data.cleanup = false)
    (from_ : disk.Eligible path → disk.Walks top path)
    (ran : doWatchTreeRec data rest (.call path) w = .ok (next, v)) :
    (∀ frame ∈ next, frame ∈ rest ∨ frame.From disk top) ∧
      WalkerEffect kernel top disk root w v (.watchTreeRec data (.call path :: rest))
        (.watchTreeRec data next) := by
  obtain ⟨went, section_, rfl⟩ := doWatchTreeRec_call ran
  subst own
  rw [plain] at section_
  cases doWatchTreeSection_enters succeed live issued section_ with
  | leaves skipped view known is =>
    refine ⟨fun frame member => .inl member, .moves skipped view (by rw [is]) (by rw [is]) ?_⟩
    rintro child eligible ⟨frame, member, pends⟩
    rcases List.mem_cons.mp member with rfl | later
    -- The directory of the call is watched, or no walk enters it.
    · cases pends
      exact .inl (known ((same.eligible _).mpr eligible))
    · exact .inr ⟨frame, later, pends⟩
  | files inode watch named eligible unknown directory granted new is =>
    have reached := from_ ((same.eligible _).mp eligible)
    rw [if_pos rfl]
    constructor
    · intro frame member
      rcases List.mem_cons.mp member with rfl | later
      · exact .inr reached
      · exact .inl later
    · refine .files path inode watch named reached unknown (same.directory ▸ directory) granted new
        (by rw [is]) (by rw [is]) ?_ ?_
      · rintro child ⟨frame, member, pends⟩
        rcases List.mem_cons.mp member with rfl | later
        · exact .inl pends
        · exact .inr ⟨frame, List.mem_cons_of_mem _ later, pends⟩
      · exact fun child kid => ⟨_, List.mem_cons_self, kid⟩

/-- A call that is in the directory at `path`; what is left of its loop are entries of it. -/
def Frame.Inside (disk : Outside Inode) (path : Str) : Frame → Prop
  | .call _ => False
  | .opened dir => dir = path
  | .reading dir rest => dir = path ∧ ∀ child, disk.KidIn path rest child → disk.Kid path child

/-- Reading a directory leads to its subdirectories, and leaves nothing out. -/
theorem doWatchTreeRec_reads (succeed : AllocationsSucceed σ) (same : Outside.SameDisk disk (kernel.view w.sys))
    {path : Str} {frame : Frame} {rest next : List Frame} {data : TData}
    (live : (w.roots.heap data.root).destroy = false) (opens : (disk.directory path).isSome)
    (inside : frame.Inside disk path) (ran : doWatchTreeRec data rest frame w = .ok (next, v)) :
    (kernel.view v.sys = kernel.view w.sys ∧ v = { w with sys := v.sys }) ∧
      (∀ later ∈ next, later ∈ rest ∨ later.Inside disk path ∨ ∃ child, later = .call child ∧ disk.Kid path child) ∧
      ∀ child, (∃ one ∈ frame :: rest, one.Pends disk child) → ∃ one ∈ next, one.Pends disk child := by
  cases frame with
  | call path => exact inside.elim
  | opened dir =>
    obtain rfl := inside
    simp only [doWatchTreeRec, call_bind, kernel.readdir _ _ (same.directory ▸ opens), Program.pure_eq_ok] at ran
    obtain ⟨rfl, rfl⟩ := ran
    rw [same.entries]
    refine ⟨⟨kernel.readdir_view _ _, rfl⟩, fun later member => ?_, fun child => ?_⟩
    · rcases List.mem_cons.mp member with rfl | outer
      · exact .inr (.inl ⟨rfl, fun _ => id⟩)
      · exact .inl outer
    · rintro ⟨one, member, pends⟩
      rcases List.mem_cons.mp member with rfl | outer
      · exact ⟨_, List.mem_cons_self, pends⟩
      · exact ⟨one, List.mem_cons_of_mem _ outer, pends⟩
  | reading dir dirs =>
    obtain ⟨rfl, part⟩ := inside
    cases dirs with
    | nil =>
      obtain ⟨rfl, rfl⟩ := Program.pure_eq_ok.mp ran
      refine ⟨⟨rfl, rfl⟩, fun later => .inl, fun child => ?_⟩
      rintro ⟨one, member, pends⟩
      rcases List.mem_cons.mp member with rfl | outer
      · obtain ⟨_, ⟨⟩, _⟩ := pends
      · exact ⟨one, outer, pends⟩
    | cons entry dirs =>
      obtain ⟨view, is, ways⟩ := doWatchTreeRec_round kernel succeed live ran
      rw [same.isDir] at ways
      have fewer : ∀ child, disk.KidIn dir dirs child → disk.Kid dir child :=
        fun child kid => part child ((kidIn_cons disk dir entry dirs child).mpr (.inr kid))
      refine ⟨⟨view, is⟩, ?_, ?_⟩
      · intro later member
        rcases ways with ⟨rfl, _⟩ | ⟨rfl, directory⟩
        · rcases List.mem_cons.mp member with rfl | outer
          · exact .inr (.inl ⟨rfl, fewer⟩)
          · exact .inl outer
        · rcases List.mem_cons.mp member with rfl | below
          · have kid := part _ ((kidIn_cons disk dir entry dirs _).mpr (.inl ⟨directory.1, directory.2, rfl⟩))
            exact .inr (.inr ⟨_, rfl, kid⟩)
          rcases List.mem_cons.mp below with rfl | outer
          · exact .inr (.inl ⟨rfl, fewer⟩)
          · exact .inl outer
      · rintro child ⟨one, member, pends⟩
        rcases List.mem_cons.mp member with rfl | outer
        · rcases (kidIn_cons disk dir entry dirs child).mp pends with ⟨named, directory, rfl⟩ | kid
          · rcases ways with ⟨_, other⟩ | ⟨rfl, _⟩
            · exact absurd ⟨named, directory⟩ other
            · exact ⟨_, List.mem_cons_self, rfl⟩
          · rcases ways with ⟨rfl, _⟩ | ⟨rfl, _⟩
            · exact ⟨_, List.mem_cons_self, kid⟩
            · exact ⟨_, List.mem_cons_of_mem _ List.mem_cons_self, kid⟩
        · rcases ways with ⟨rfl, _⟩ | ⟨rfl, _⟩
          · exact ⟨one, List.mem_cons_of_mem _ outer, pends⟩
          · exact ⟨one, List.mem_cons_of_mem _ (List.mem_cons_of_mem _ outer), pends⟩

omit [DecidableEq Inode] in
theorem Frame.From.of_inside {path : Str} {rest next : List Frame} (reached : disk.Walks top path)
    (leads : ∀ later ∈ next, later ∈ rest ∨ later.Inside disk path ∨ ∃ child, later = .call child ∧ disk.Kid path child) :
    ∀ later ∈ next, later ∈ rest ∨ later.From disk top := by
  intro later member
  refine (leads later member).imp_right ?_
  rintro (inside | ⟨child, rfl, kid⟩)
  · cases later with
    | call path => exact inside.elim
    | opened dir => exact (show dir = path from inside) ▸ reached
    | reading dir dirs =>
      obtain ⟨rfl, part⟩ := inside
      exact ⟨reached, part⟩
  · exact fun eligible => .kid reached kid eligible

structure Serves (roots : RootTable) (root : RootRef) (top : Str) : Prop where
  live : (roots.heap root).destroy = false
  above : ∃ rootPath, (roots.heap root).path = some rootPath ∧ rootPath.length ≤ top.length

theorem walker_step (succeed : AllocationsSucceed σ) (same : Outside.SameDisk disk (kernel.view w.sys))
    (serves : Serves w.roots root top) (issued : Issued (kernel.view w.sys) w.watches)
    {thread next : Thread} (from_ : thread.From disk root top) (ran : threadStep thread w = .ok (next, v)) :
    next.From disk root top ∧ WalkerEffect kernel top disk root w v thread next := by
  cases thread with
  | watchTree data =>
    obtain ⟨rfl, plain, path, named, long, from_⟩ := from_
    obtain ⟨rootPath, rooted, short⟩ := serves.above
    rcases doWatchTreeEnter_eq_ok ran with ⟨_, _, stops⟩ | ⟨_, _, named', _, _, _, rfl, rfl⟩
    · rw [serves.live, named, rooted] at stops
      rcases stops with ⟨⟨⟩⟩ | ⟨_, _, ⟨⟩, ⟨⟩, shorter⟩
      omega
    · rw [named] at named'
      cases named'
      constructor
      · refine ⟨rfl, plain, ?_⟩
        intro frame member
        rw [List.mem_singleton.mp member]
        exact from_
      · refine .moves 0 rfl rfl rfl ?_
        intro child _ pends
        rw [Thread.Pends, named] at pends
        cases pends
        exact .inr ⟨_, List.mem_singleton_self _, rfl⟩
  | watchTreeRec data stack =>
    obtain ⟨rfl, plain, from_⟩ := from_
    cases stack with
    | nil =>
      simp only [threadStep, doWatchTreeLeave, plain, Bool.false_eq_true, if_false, Program.pure_eq_ok] at ran
      obtain ⟨rfl, rfl⟩ := ran
      refine ⟨trivial, .moves 0 rfl rfl rfl ?_⟩
      rintro child _ ⟨frame, ⟨⟩, _⟩
    | cons frame rest =>
      obtain ⟨frames, v', step, ran⟩ := Program.bind_eq_ok ran
      obtain ⟨rfl, rfl⟩ := Program.pure_eq_ok.mp ran
      have first := from_ frame List.mem_cons_self
      have outer : ∀ frame ∈ rest, frame.From disk top := fun frame member =>
        from_ frame (List.mem_cons_of_mem _ member)
      -- The calls around the innermost one are as they were.
      have combine : (∀ frame ∈ frames, frame ∈ rest ∨ frame.From disk top) →
          Thread.From disk data.root top (.watchTreeRec data frames) := by
        intro split_
        exact ⟨rfl, plain, fun frame member => (split_ frame member).elim (outer frame) id⟩
      have reads {path : Str} (reached : disk.Walks top path) (inside : frame.Inside disk path) :
          Thread.From disk data.root top (.watchTreeRec data frames) ∧
            WalkerEffect kernel top disk data.root w v (.watchTreeRec data (frame :: rest))
              (.watchTreeRec data frames) := by
        obtain ⟨⟨view, is⟩, leads, pends⟩ :=
          doWatchTreeRec_reads succeed same serves.live reached.eligible.opens inside step
        refine ⟨combine (Frame.From.of_inside reached leads), .moves 0 view (by rw [is]) (by rw [is]; rfl) ?_⟩
        exact fun child _ waiting => .inr (pends child waiting)
      cases frame with
      | call path => exact (walker_call succeed same serves.live issued rfl plain first step).imp_left combine
      | opened path => exact reads first rfl
      | reading path dirs => exact reads first.1 ⟨rfl, first.2⟩
  | finished =>
    obtain ⟨rfl, rfl⟩ := Program.pure_eq_ok.mp ran
    exact ⟨trivial, .moves 0 rfl rfl rfl fun _ _ => .inr⟩
  | _ => exact from_.elim

end Inotispy
