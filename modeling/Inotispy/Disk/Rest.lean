import Inotispy.Disk.Agreement
import Inotispy.Disk.Changing
import Inotispy.Library.Turns
import Inotispy.Model.Script
import Inotispy.Threads.Outside
import Inotispy.Threads.Peace
import Inotispy.Threads.Whole
import Mathlib.Data.Nat.Pairing

/-! The threads come to rest.

On a disk that nobody changes and in which no descent goes on for ever, the work of each thread
is bounded: a walker's by the tree below it, the others' by the number of entries there can be
when they take their snapshot of the keys.
-/

set_option autoImplicit false

namespace Inotispy
open Library

variable {σ Inode : Type} [System σ] [DecidableEq Inode]

/-! ## Threads leave the disk alone -/

def OnDisk (host : Host σ Inode) (disk : Outside Inode) (w : World σ) : Prop :=
  Outside.SameDisk disk (host.view w.sys)

section
variable {host : Host σ Inode} {disk : Outside Inode}

theorem onDisk_unmoved : Unmoved fun s : σ => Outside.SameDisk disk (host.view s) where
  quiet quiet on := by
    rw [host.view_quiet quiet]
    exact on
  rmWatch s wd on := by
    rw [host.rmWatch]
    exact on.trans ⟨rfl, rfl, rfl⟩
  enters path root cleanup := by
    intro w on went w' ran
    rcases doWatchTreeSection_view host.toKernel ran with ⟨_, same⟩ | ⟨_, opens, asked⟩
    · rw [same]
      exact on
    · rw [host.opendir] at opens
      obtain ⟨inode, directory⟩ := Option.isSome_iff_exists.mp opens
      rw [asked]
      exact on.trans (asked_granted root directory).toSameDisk

end

/-! ## What a walk costs -/

section
variable (disk : Outside Inode)

open Classical in
noncomputable def Outside.kidsIn (path : Str) : List Dirent → List Str
  | [] => []
  | dir :: dirs =>
    if (dir.name ≠ str "." ∧ dir.name ≠ str "..") ∧ disk.IsDir path dir then
      childPath path dir.name :: kidsIn path dirs
    else kidsIn path dirs

omit [DecidableEq Inode] in
theorem Outside.mem_kidsIn (path : Str) (dirs : List Dirent) (child : Str) :
    child ∈ disk.kidsIn path dirs ↔ disk.KidIn path dirs child := by
  induction dirs with
  | nil => simp [kidsIn, KidIn]
  | cons dir dirs ih =>
    rw [kidIn_cons, kidsIn]
    split
    · next goes => simp [goes, ih]
    · next stays =>
      rw [ih, or_iff_right]
      exact fun goes => stays ⟨goes.1, goes.2.1⟩

/-- No descent goes on for ever. -/
def Outside.Shallow : Prop := WellFounded fun child parent => disk.Kid parent child

/-- What is left of reading a directory: a step for each entry, the calls for the directories among
them, and one step more. -/
noncomputable def Outside.readCost (cost : Str → Nat) (path : Str) (dirs : List Dirent) : Nat :=
  dirs.length + 1 + ((disk.kidsIn path dirs).map cost).sum

def Outside.Costs (cost : Str → Nat) : Prop := ∀ path, cost path = disk.readCost cost path (disk.entries path) + 2

omit [DecidableEq Inode] in
theorem Outside.Shallow.costs {disk : Outside Inode} (shallow : disk.Shallow) : ∃ cost, disk.Costs cost := by
  have ends : WellFounded fun child parent => child ∈ disk.kidsIn parent (disk.entries parent) := by
    simp only [disk.mem_kidsIn]
    exact shallow
  obtain ⟨cost, is⟩ := exists_cost (fun path => (disk.entries path).length + 3) _ ends
  refine ⟨cost, fun path => ?_⟩
  rw [is, Outside.readCost]
  omega

/-- The steps a call of the walker has left, without those of the calls around it. -/
noncomputable def Frame.left (cost : Str → Nat) : Frame → Nat
  | .call path => cost path
  | .opened path => disk.readCost cost path (disk.entries path) + 1
  | .reading path dirs => disk.readCost cost path dirs

noncomputable def stackCost (cost : Str → Nat) (stack : List Frame) : Nat := (stack.map (Frame.left disk cost)).sum

end

section
variable {host : Host σ Inode} {disk : Outside Inode} {cost : Str → Nat} {w w' : World σ}

omit [System σ] [DecidableEq Inode] in
theorem stackCost_cons (frame : Frame) (rest : List Frame) :
    stackCost disk cost (frame :: rest) = frame.left disk cost + stackCost disk cost rest := by
  rw [stackCost, List.map_cons, List.sum_cons, stackCost]

theorem doWatchTreeRec_round_cases (succeed : AllocationsSucceed σ) (on : OnDisk host disk w) {data : TData}
    {rest next : List Frame} {path : Str} {dir : Dirent} {dirs : List Dirent}
    (ran : doWatchTreeRec data rest (.reading path (dir :: dirs)) w = .ok (next, w')) :
    next = rest ∨ next = .reading path dirs :: rest ∨
      next = .call (childPath path dir.name) :: .reading path dirs :: rest ∧
        (dir.name ≠ str "." ∧ dir.name ≠ str "..") ∧ disk.IsDir path dir := by
  simp only [doWatchTreeRec, Program.ite_eq_ok, Program.pure_eq_ok, mkString_bind_allocated succeed] at ran
  obtain ⟨_, rfl, rfl⟩ | ⟨named, ran⟩ := ran
  · exact .inr (.inl rfl)
  obtain ⟨isDir, v, asking, ran⟩ := Program.bind_eq_ok ran
  have exactly := (entryIsDir_iff host.toKernel asking).1
  rw [host.malloc, on.isDir] at exactly
  simp only [Program.ite_eq_ok, Program.pure_eq_ok, getRoot_bind, deref, Program.pure_bind_apply] at ran
  obtain ⟨_, rfl, rfl⟩ | ⟨found, ⟨_, rfl, rfl⟩ | ⟨_, rfl, rfl⟩⟩ := ran
  · exact .inr (.inl rfl)
  · exact .inl rfl
  · exact .inr (.inr ⟨rfl, not_or.mp named, exactly.mp (by simpa using found)⟩)

theorem doWatchTreeRec_cost (succeed : AllocationsSucceed σ)
    (closed : ∀ s path, (host.view s).directory path = none → (System.readdir s path).1 = none)
    (on : OnDisk host disk w) (costs : disk.Costs cost) {data : TData} {rest next : List Frame} {frame : Frame}
    (ran : doWatchTreeRec data rest frame w = .ok (next, w')) :
    stackCost disk cost next < frame.left disk cost + stackCost disk cost rest := by
  cases frame with
  | call path =>
    obtain ⟨went, _, rfl⟩ := doWatchTreeRec_call ran
    have is := costs path
    simp only [Frame.left]
    split
    · rw [stackCost_cons, Frame.left]
      omega
    · omega
  | opened path =>
    simp only [doWatchTreeRec, call_bind] at ran
    simp only [Frame.left]
    cases there : (host.view w.sys).directory path with
    | none =>
      rw [closed _ _ there] at ran
      obtain ⟨rfl, _⟩ := Program.pure_eq_ok.mp ran
      omega
    | some inode =>
      rw [host.readdir _ _ (by rw [there]; rfl), on.entries] at ran
      obtain ⟨rfl, _⟩ := Program.pure_eq_ok.mp ran
      rw [stackCost_cons, Frame.left]
      omega
  | reading path dirs =>
    cases dirs with
    | nil =>
      obtain ⟨rfl, _⟩ := Program.pure_eq_ok.mp ran
      simp only [Frame.left, Outside.readCost]
      omega
    | cons dir dirs =>
      obtain rfl | rfl | ⟨rfl, goes⟩ := doWatchTreeRec_round_cases succeed on ran
      · simp only [Frame.left, Outside.readCost]
        omega
      · simp only [stackCost_cons, Frame.left, Outside.readCost, Outside.kidsIn, List.length_cons]
        split
        · simp only [List.map_cons, List.sum_cons]
          omega
        · omega
      · simp only [stackCost_cons, Frame.left, Outside.readCost, Outside.kidsIn, List.length_cons, if_pos goes,
          List.map_cons, List.sum_cons]
        omega

end

/-! ## What the threads have left to do -/

section
variable (disk : Outside Inode) (cost : Str → Nat)

noncomputable def Thread.walk : Thread → Nat
  | .watchTree data => data.path.elim 0 cost + 2
  | .watchTreeRec _ stack => stackCost disk cost stack + 1
  | _ => 0

/-- The steps a thread has left, when there can be so many keys at its snapshot. -/
noncomputable def Thread.left (keys : Nat) : Thread → Nat
  | .watchTree data => (Thread.watchTree data).walk disk cost
  | .watchTreeRec data stack => (Thread.watchTreeRec data stack).walk disk cost
  | .destroyRoot _ => 3 * keys + 3
  | .destroyKeys _ _ rest => 3 * rest.length + 2
  | .destroyWatch _ _ _ _ rest => 3 * rest.length + 4
  | .destroyEntry _ _ _ _ rest => 3 * rest.length + 3
  | .destroyDump => 1
  | .memclean => 2 * keys + 3
  | .memcleanSnapshot => 2 * keys + 2
  | .memcleanKeys rest => 2 * rest.length + 1
  | .memcleanPath _ rest => 2 * rest.length + 2
  | .finished => 0

omit [DecidableEq Inode] in
theorem Thread.left_mono {keys more : Nat} (le : keys ≤ more) (thread : Thread) :
    thread.left disk cost keys ≤ thread.left disk cost more := by
  cases thread <;> simp only [Thread.left] <;> omega

/-- A walker files at most one watch a step, so there are never more keys than this. -/
noncomputable def keysBound (w : World σ) : Nat :=
  w.watches.inotifyPathToWatch.keys.length + (w.pool.threads.map (Thread.walk disk cost)).sum

noncomputable def turnsBound (w : World σ) : Nat :=
  (w.pool.threads.map (Thread.left disk cost (keysBound disk cost w))).sum

end

section
variable {host : Host σ Inode} {disk : Outside Inode} {cost : Str → Nat} {w w' : World σ}

/-- What a step takes off the cost of its thread, and what it can add to the keys. -/
structure Spends (disk : Outside Inode) (cost : Str → Nat) (thread next : Thread) (w w' : World σ) : Prop where
  keys : w'.watches.inotifyPathToWatch.keys.length + next.walk disk cost ≤
    w.watches.inotifyPathToWatch.keys.length + thread.walk disk cost
  less : ∀ keys, w.watches.inotifyPathToWatch.keys.length ≤ keys → next.left disk cost keys < thread.left disk cost keys

theorem WatchesEffect.length_keys {thread : Thread} {watches : WatchTable} (effect : WatchesEffect thread w watches) :
    watches.inotifyPathToWatch.keys.length ≤ w.watches.inotifyPathToWatch.keys.length ∨
      (∃ data stack, thread = .watchTreeRec data stack) ∧
        watches.inotifyPathToWatch.keys.length ≤ w.watches.inotifyPathToWatch.keys.length + 1 := by
  cases effect with
  | same skipped => exact .inl (Nat.le_refl _)
  | file data path rest is files => exact .inr ⟨⟨data, _, is⟩, GHashTable.length_keys_insert_le _ _ _⟩
  | forget path watch how => exact .inl (GHashTable.length_keys_erase_le _ _)

theorem threadStep_spends (succeed : AllocationsSucceed σ)
    (closed : ∀ s path, (host.view s).directory path = none → (System.readdir s path).1 = none)
    (on : OnDisk host disk w) (costs : disk.Costs cost) {thread next : Thread} (busy : thread ≠ .finished)
    (ran : threadStep thread w = .ok (next, w')) : Spends disk cost thread next w w' := by
  have fewer := (threadStep_effect ran).watches.length_keys
  -- Threads that are no walkers file nothing, and what they become is none either.
  have other (is : ∀ data stack, thread ≠ .watchTreeRec data stack) (walk : next.walk disk cost ≤ thread.walk disk cost)
      (less : ∀ keys, w.watches.inotifyPathToWatch.keys.length ≤ keys →
        next.left disk cost keys < thread.left disk cost keys) : Spends disk cost thread next w w' := by
    refine ⟨?_, less⟩
    rcases fewer with fewer | ⟨⟨data, stack, same⟩, _⟩
    · omega
    · exact absurd same (is data stack)
  have walks {data : TData} {stack : List Frame} (is : thread = .watchTreeRec data stack)
      (stepped : next.walk disk cost < thread.walk disk cost)
      (same : ∀ keys, next.left disk cost keys ≤ next.walk disk cost) : Spends disk cost thread next w w' := by
    subst is
    exact ⟨by omega, fun keys _ => Nat.lt_of_le_of_lt (same keys) stepped⟩
  cases threadStep_cases ran with
  | refuse => exact other (by simp) (Nat.zero_le _) fun _ _ => by simp only [Thread.left, Thread.walk]; omega
  | @enter data path named =>
    have is : stackCost disk cost [.call path] = cost path := by simp [stackCost, Frame.left]
    refine other (by simp) ?_ fun _ _ => ?_ <;> simp only [Thread.left, Thread.walk, named, Option.elim, is] <;> omega
  | walk stepped =>
    have less := doWatchTreeRec_cost succeed closed on costs stepped
    refine walks rfl ?_ fun _ => Nat.le_refl _
    simp only [Thread.walk, stackCost_cons]
    omega
  | leave => exact walks rfl (by simp [Thread.walk]) fun _ => Nat.le_refl _
  | free =>
    refine other (by simp) (Nat.le_refl _) fun keys le => ?_
    simp only [Thread.left]
    omega
  | pass | look => exact other (by simp) (Nat.le_refl _) fun _ _ => by simp only [Thread.left, List.length_cons]; omega
  | giveUp | forget => exact other (by simp) (Nat.le_refl _) fun _ _ => by simp only [Thread.left]; omega
  | bare | finish | dump => exact other (by simp) (Nat.le_refl _) fun _ _ => by simp [Thread.left]
  | memclean step =>
    cases step <;>
      refine other (by simp) (Nat.le_refl _) fun keys le => ?_ <;> simp only [Thread.left, List.length_cons] <;> omega
  | rest => exact absurd rfl busy

/-! ## Turns -/

def Turn (index : Nat) (w w' : World σ) : Prop := runThread index w = .ok ((), w')

/-- The thread at a position has not finished. -/
def Busy (index : Nat) (w : World σ) : Prop := ∃ thread, w.pool.threads[index]? = some thread ∧ thread ≠ .finished

omit [System σ] [DecidableEq Inode] in
theorem allFinished_of_not_busy (idle : ∀ index, ¬Busy index w) : AllFinished w := by
  intro thread member
  obtain ⟨index, found⟩ := List.getElem?_of_mem member
  by_contra going
  exact idle index ⟨thread, found, going⟩

/-- A turn of a busy thread uses some of the bound up, and its keys stay within theirs. -/
theorem turn_spends (succeed : AllocationsSucceed σ)
    (closed : ∀ s path, (host.view s).directory path = none → (System.readdir s path).1 = none)
    (costs : disk.Costs cost) {index : Nat} (on : OnDisk host disk w) (busy : Busy index w) (turn : Turn index w w') :
    turnsBound disk cost w' < turnsBound disk cost w := by
  obtain ⟨thread, found, going⟩ := busy
  obtain ⟨none, _⟩ | ⟨_, next, v, found', stepped, is⟩ := runThread_eq_ok turn
  · cases found.symm.trans none
  obtain rfl : thread = _ := Option.some.inj (found.symm.trans found')
  have threads : w'.pool.threads = w.pool.threads.set index next := by
    rw [is, ← (threadStep_effect stepped).threads]
  have watches : w'.watches = v.watches := by rw [is]
  have spends := threadStep_spends succeed closed on costs going stepped
  have walks := sum_map_set (b := next) (Thread.walk disk cost) found
  have lefts := sum_map_set (b := next) (Thread.left disk cost (keysBound disk cost w)) found
  have fewer : keysBound disk cost w' ≤ keysBound disk cost w := by
    have := spends.keys
    rw [keysBound, keysBound, threads, watches]
    omega
  have least := List.sum_le_sum fun thread (_ : thread ∈ w.pool.threads.set index next) =>
    thread.left_mono disk cost fewer
  have less := spends.less (keysBound disk cost w) (Nat.le_add_right _ _)
  rw [turnsBound, turnsBound, threads]
  omega

theorem turns_exhaust (succeed : AllocationsSucceed σ)
    (closed : ∀ s path, (host.view s).directory path = none → (System.readdir s path).1 = none)
    (costs : disk.Costs cost) : Exhausts Turn Busy (OnDisk host disk) (turnsBound disk cost) where
  keeps {index w w'} on turn := onDisk_unmoved.steady.run index w on () w' turn
  works on busy turn := turn_spends succeed closed costs on busy turn
  idles {index w w'} _ idle turn := by
    obtain ⟨_, same⟩ | ⟨thread, next, v, found, stepped, _⟩ := runThread_eq_ok turn
    · exact same
    · obtain rfl : thread = .finished := by
        by_contra going
        exact idle ⟨thread, found, going⟩
      cases (runThread_finished found).symm.trans turn
      rfl
  others {index other w w'} _ turn apart := by
    obtain ⟨_, rfl⟩ | ⟨thread, next, v, _, stepped, rfl⟩ := runThread_eq_ok turn
    · exact Iff.rfl
    · simp only [Busy, (threadStep_effect stepped).threads, List.getElem?_set_ne (Ne.symm apart)]

/-! ## Every turn is taken -/

/-- No string is missing, and nobody holds the mutex of the tables. -/
structure Ready (w : World σ) : Prop where
  whole : Whole w
  free : w.locks.held .inotify = false

omit [DecidableEq Inode] in
theorem Ready.turn (ready : Ready w) (succeed : AllocationsSucceed σ) (index : Nat) :
    ∃ w', Turn index w w' ∧ Ready w' := by
  simp only [Turn, runThread, Program.read_bind_apply]
  cases found : w.pool.threads[index]? with
  | none => exact ⟨_, rfl, ready⟩
  | some thread =>
    have strings := ready.whole.threads thread (List.mem_of_getElem? found)
    obtain ⟨next, v, ran, strings'⟩ := threadStep_returns succeed ready.whole ready.free strings
    have effect := threadStep_effect ran
    have whole := threadStep_whole ready.whole ran
    refine ⟨_, Program.bind_ok _ _ _ _ _ ran, ⟨whole.rootPaths, whole.eventStrings, ?_⟩, ?_⟩
    · intro other member
      rcases List.mem_or_eq_of_mem_set member with old | rfl
      · exact whole.threads other old
      · exact strings'
    · exact (congrArg (·.held .inotify) effect.locks).trans ready.free

/-- From a peaceful start, however the threads interleave, every turn of one is taken and frees nothing that is
still used, and there is a time from which all have finished. -/
theorem threads_come_to_rest (host : Host σ Inode) (succeed : AllocationsSucceed σ)
    (closed : ∀ s path, (host.view s).directory path = none → (System.readdir s path).1 = none)
    (ready : Ready w) (peaceful : Peaceful w) (shallow : (host.view w.sys).Shallow) {run : Nat → World σ}
    {who : Nat → Nat} (start : run 0 = w) (turned : ∀ n w', Turn (who n) (run n) w' → run (n + 1) = w')
    (fair : ∀ index n, Busy index (run n) → ∃ m, n ≤ m ∧ who m = index) :
    (∀ n, Turn (who n) (run n) (run (n + 1)) ∧ Peaceful (run n) ∧ KeysKept (run n) (run (n + 1))) ∧
      ∃ n, ∀ m, n ≤ m → AllFinished (run m) := by
  have takes (n : Nat) : Turn (who n) (run n) (run (n + 1)) := by
    have ready' : Ready (run n) := by
      induction n with
      | zero => exact start ▸ ready
      | succ n ih =>
        obtain ⟨w', turn, after⟩ := ih.turn succeed (who n)
        exact turned n w' turn ▸ after
    obtain ⟨w', turn, _⟩ := ready'.turn succeed (who n)
    exact turned n w' turn ▸ turn
  have peace (n : Nat) : Peaceful (run n) := by
    induction n with
    | zero => exact start ▸ peaceful
    | succ n ih => exact (ih.turn (takes n)).1
  obtain ⟨cost, costs⟩ := shallow.costs
  have exhausts := turns_exhaust succeed closed costs
  have on : OnDisk host (host.view w.sys) (run 0) := start ▸ ⟨rfl, rfl, rfl⟩
  obtain ⟨n, idle⟩ := exhausts.comes_to_rest on takes fair
  exact ⟨fun n => ⟨takes n, peace n, ((peace n).turn (takes n)).2⟩, n,
    fun m later => allFinished_of_not_busy (idle m later)⟩

end

namespace Simulated

theorem nested_kid_iff {parent child : Str} : nested.outside.Kid parent child ↔ parent = str "/r" ∧ child = str "/r/a" := by
  constructor
  · rintro ⟨entry, member, _, _, rfl⟩
    by_cases top : parent = str "/r"
    · subst top
      obtain rfl : entry = ⟨str "a", .dir⟩ := by simpa [nested] using member
      exact ⟨rfl, by decide⟩
    · simp [nested, top] at member
  · rintro ⟨rfl, rfl⟩
    exact nested_kid

theorem nested_shallow : nested.outside.Shallow := by
  refine ⟨fun path => ⟨path, fun child kid => ⟨child, fun grandchild kid' => ?_⟩⟩⟩
  cases (nested_kid_iff.mp kid).2.symm.trans (nested_kid_iff.mp kid').1

end Simulated

/-- "/r" is watched, with an entry for a directory that is gone, and the alarm has started a pass for what is missing
and one for what is left over. -/
def World.atWork : World Simulated :=
  let start := World.watching Simulated.nested (str "/r")
  { start with
    watches :=
      { inotifyWdToWatch := AList.singleton 9 ⟨0, 9, str "/r/gone"⟩
        inotifyPathToWatch := AList.singleton (str "/r/gone") ⟨0, 9, str "/r/gone"⟩
        nextWatch := 1
        inserted := [(0, ⟨0, 9, str "/r/gone"⟩)] }
    pool.threads := [.watchTree ⟨some (str "/r"), 0, true⟩, .memclean] }

def World.working : Nat → World Simulated
  | 0 => World.atWork
  | n + 1 =>
    match runThread n.unpair.1 (World.working n) with
    | .ok (_, w') => w'
    | .error _ => World.working n

theorem lifecycle_atWork : Lifecycle World.atWork.roots World.atWork.pool.threads := by
  have idle : ∀ thread ∈ World.atWork.pool.threads, thread.destroys = none := by
    intro thread member
    rcases List.mem_pair.mp member with rfl | rfl <;> rfl
  constructor
  case absolute =>
    intro key member
    rw [List.mem_singleton.mp member]
    rfl
  case once =>
    intro i j first second root one two mine
    rw [idle first (List.mem_of_getElem? one)] at mine
    cases mine
  case flagged | registered =>
    intro thread member root mine
    rw [idle thread member] at mine
    cases mine
  all_goals simp [World.atWork, World.watching, GHashTable.lookup_singleton_if]

theorem peaceful_atWork : Peaceful World.atWork where
  life := lifecycle_atWork
  held thread member := by
    rcases List.mem_pair.mp member with rfl | rfl <;> exact .of_nothing rfl
  once thread member := by
    rcases List.mem_pair.mp member with rfl | rfl <;> exact List.nodup_nil
  single i j first second one two sifts sifts' := by
    match i, j with
    | 0, _ => cases one; exact sifts.elim
    | _, 0 => cases two; exact sifts'.elim
    | 1, 1 => rfl
    | 1, j + 2 => cases two
    | i + 2, _ => cases one
  cleanup thread _ _ walker member data is := by
    rcases List.mem_pair.mp member with rfl | rfl <;> cases is
    rfl
  rooted walker member data is := by
    rcases List.mem_pair.mp member with rfl | rfl <;> cases is
    refine ⟨str "/r", rfl, fun thread member => ?_⟩
    rcases List.mem_pair.mp member with rfl | rfl <;> simp [Thread.destroys]

theorem threads_come_to_rest_working :
    (∀ n, KeysKept (World.working n) (World.working (n + 1))) ∧ ∃ n, ∀ m, n ≤ m → AllFinished (World.working m) := by
  have ready : Ready World.atWork := by
    refine ⟨⟨fun _ => rfl, fun root event inside => ?_, fun thread member => ?_⟩, rfl⟩
    · cases inside
    · rcases List.mem_pair.mp member with rfl | rfl
      · exact rfl
      · exact trivial
  have closed (s : Simulated) (path : Str) (gone : s.outside.directory path = none) :
      (System.readdir s path).1 = none := if_neg (by simp [gone])
  have turned (n : Nat) (w' : World Simulated) (turn : Turn n.unpair.1 (World.working n) w') :
      World.working (n + 1) = w' := by
    simp only [World.working, show runThread n.unpair.1 (World.working n) = .ok ((), w') from turn]
  have fair (index n : Nat) : Busy index (World.working n) → ∃ m, n ≤ m ∧ m.unpair.1 = index :=
    fun _ => ⟨Nat.pair index n, Nat.right_le_pair index n, by rw [Nat.unpair_pair]⟩
  obtain ⟨turns, rest⟩ := threads_come_to_rest Simulated.host Simulated.allocationsSucceed closed ready peaceful_atWork
    Simulated.nested_shallow rfl turned fair
  exact ⟨fun n => (turns n).2.2, rest⟩

end Inotispy
