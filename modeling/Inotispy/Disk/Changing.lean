import Inotispy.Disk.Following

/-! A root over directories that come and go, one change at a time.

The kernel reports each change on the watches of the directories it touches. When the records
have been read and the walkers they started have finished, the tables list the directories
there are.
-/

set_option autoImplicit false

namespace Inotispy
open Library

variable {σ Inode : Type}

/-! ## What the kernel reports -/

structure Notice.Record (notice : Notice) (wd : Int) (event : InEvent) : Prop where
  wd : event.wd = wd
  mask : event.mask = notice.bit ||| inIsdir
  named : event.len ≠ 0
  name : event.name = notice.name.text

/-- The records of some notices, among others: each notice is reported on the watch of its directory
if there is one and its mask has the bit. -/
inductive Reports (tree : Tree Name Inode) (disk : Outside Inode) (mask : UInt32) : List Notice → List InEvent → Prop where
  | none : Reports tree disk mask [] []
  | unrelated {notices : List Notice} {event : InEvent} {events : List InEvent} (other : Unrelated event)
      (rest : Reports tree disk mask notices events) : Reports tree disk mask notices (event :: events)
  | heard {notice : Notice} {notices : List Notice} {event : InEvent} {events : List InEvent} {inode : Inode} {wd : Int}
      (dir : tree.node notice.dir = some inode) (active : disk.active inode = some wd)
      (wanted : hasBit mask notice.bit = true) (record : notice.Record wd event)
      (rest : Reports tree disk mask notices events) : Reports tree disk mask (notice :: notices) (event :: events)
  | unheard {notice : Notice} {notices : List Notice} {events : List InEvent}
      (deaf : (∀ inode, tree.node notice.dir = some inode → disk.active inode = none) ∨ hasBit mask notice.bit = false)
      (rest : Reports tree disk mask notices events) : Reports tree disk mask (notice :: notices) events

/-- The bits without which a root does not hear of directories that come and go. -/
structure Hears (mask : UInt32) : Prop where
  create : hasBit mask inCreate = true
  delete : hasBit mask inDelete = true
  movedFrom : hasBit mask inMovedFrom = true
  movedTo : hasBit mask inMovedTo = true

theorem hears_default : Hears inotifyDefaultMask := ⟨by decide, by decide, by decide, by decide⟩

variable [System σ] [DecidableEq Inode]

/-! ## Record by record -/

/-- The notices that are still to be read, and how far the tables have got. -/
inductive Stage (host : Host σ Inode) (base : Str) (root : RootRef) (tree : Tree Name Inode) (deleted : Inode → Prop)
    (start : Outside Inode) (w : World σ) : List Notice → Prop where
  | waits {node : List Name → Option Inode} {notices : List Notice} (due : Due tree deleted node notices)
      (waiting : Waiting host base root tree deleted start node w) : Stage host base root tree deleted start w notices
  | walks (descends : Descends host base root tree w) : Stage host base root tree deleted start w []

section
variable {host : Host σ Inode} {base : Str} {root : RootRef} {tree : Tree Name Inode} {deleted : Inode → Prop}
  {start : Outside Inode} {node : List Name → Option Inode} {w : World σ}

theorem Waiting.target (waiting : Waiting host base root tree deleted start node w) {dir : List Name} {inode : Inode}
    (is : node dir = some inode) (stays : tree.node dir = some inode) {wd : Int} (active : start.active inode = some wd) :
    eventTarget w wd = some (Path.join base dir, root) := by
  have left : ¬deleted inode := fun lost => waiting.gone inode lost dir stays
  obtain ⟨watch, found⟩ := waiting.lists.entry (by rw [is]; rfl)
  have own := (waiting.lists.own dir inode watch is found).resolve_right left
  have same := waiting.fewer inode watch.wd own
  rw [active] at same
  cases same
  obtain ⟨named, known⟩ := waiting.lists.anchored _ watch found
  exact eventTarget_eq_some.mpr ⟨watch, known, named, waiting.single.pathToRoot dir, waiting.single.running,
    waiting.single.live⟩

def Notice.Known (notice : Notice) : Prop :=
  (notice.bit = inMovedFrom ∨ notice.bit = inDelete) ∨ notice.bit = inCreate ∨ notice.bit = inMovedTo

omit [System σ] [DecidableEq Inode] in
theorem Notice.Record.heeded {notice : Notice} {wd : Int} {event : InEvent} (record : notice.Record wd event)
    (known : notice.Known) (plain : ¬tmpStr <:+ notice.name.text) {found : Str × RootRef}
    (target : eventTarget w wd = some found) : ¬Overlooked w event := by
  have bits : hasBit event.mask inQOverflow = false ∧ hasBit event.mask inIgnored = false ∧
      hasBit event.mask inCloseNowrite = false := by
    rw [record.mask]
    rcases known with (is | is) | is | is <;> rw [is] <;> decide
  have temporary : endsInTmp event.name = false := by
    rw [record.name, ← Bool.not_eq_true, endsInTmp_iff]
    exact fun ends => plain ends.1
  rintro (empty | overflow | skips | unknown)
  · exact record.named empty
  · rw [bits.1] at overflow
    cases overflow
  · simp [skipped, bits, temporary] at skips
  · rw [record.wd, target] at unknown
    cases unknown

theorem Notice.Record.gone {notice : Notice} {wd : Int} {event : InEvent} (record : notice.Record wd event)
    (bit : notice.bit = inMovedFrom ∨ notice.bit = inDelete) (path : Str) (absPath : Option Str) (root : RootRef) :
    (handleDirectory event path absPath root : M σ Bool) = handleGone event absPath := by
  unfold handleDirectory
  rw [record.mask]
  rcases bit with is | is <;> rw [is] <;> rfl

theorem Notice.Record.new {notice : Notice} {wd : Int} {event : InEvent} (record : notice.Record wd event)
    (bit : notice.bit = inCreate ∨ notice.bit = inMovedTo) (path : Str) (absPath : Option Str) (root : RootRef) :
    (handleDirectory event path absPath root : M σ Bool) = handleNew path absPath root := by
  unfold handleDirectory
  rw [record.mask]
  rcases bit with is | is <;> rw [is] <;> rfl

namespace Stage

theorem lasting (top : TopPath base) (succeed : AllocationsSucceed σ) (notices : List Notice) :
    Lasting host fun w => Stage host base root tree deleted start w notices where
  quiet view agree watches threads stage := by
    cases stage with
    | waits due waiting => exact .waits due (Waiting.lasting.quiet view agree watches threads waiting)
    | walks descends => exact .walks ((Descends.lasting top succeed).quiet view agree watches threads descends)
  run index := by
    intro w stage a w' ran
    cases stage with
    | waits due waiting => exact .waits due (Waiting.lasting.run index w waiting a w' ran)
    | walks descends => exact .walks ((Descends.lasting top succeed).run index w descends a w' ran)

theorem heard (top : TopPath base) (succeed : AllocationsSucceed σ) (starts : ∀ s : σ, (System.pthreadCreate s).1 = true)
    {notice : Notice} {notices : List Notice} (stage : Stage host base root tree deleted start w (notice :: notices))
    {inode : Inode} {wd : Int} (dir : tree.node notice.dir = some inode) (active : start.active inode = some wd)
    {event : InEvent} (record : notice.Record wd event) {round : Round} {w' : World σ}
    (ran : inotifyHandleRecord event w = .ok (round, w')) : Stage host base root tree deleted start w' notices := by
  obtain ⟨due, waiting⟩ := stage
  rename_i node
  have absPath : eventPath (Path.join base notice.dir) event.name = Path.join base notice.place := by
    rw [record.name, top.eventPath_join]
    rfl
  cases due with
  | gone other is stays there bit next =>
    rw [stays] at dir
    cases dir
    have known : notice.Known := .inl (bit.imp_right And.left)
    have plain := waiting.plain _ _ there
    have lasting : Lasting host (Waiting host base root tree deleted start node) := Waiting.lasting
    refine .waits next (inotifyHandleRecord_leads lasting Waiting.lasting succeed ?_ ?_ w waiting _ _ ran)
    · exact fun u before passed => absurd passed (record.heeded known plain (before.target is stays active))
    · intro u path found before target v holds queued v' ran
      rw [record.wd, before.target is stays active] at target
      cases target
      rw [record.gone (bit.imp_right And.left), absPath] at ran
      refine holds.handleGone top succeed there (bit.imp (fun moved => ?_) And.right) ran
      rw [record.mask, moved]
      decide
  | new other is stays bit there outside inside =>
    rw [stays] at dir
    cases dir
    have known : notice.Known := .inr bit
    have plain := waiting.shows_.plain _ _ there
    have lasting : Lasting host (Waiting host base root tree deleted start node) := Waiting.lasting
    refine .walks (inotifyHandleRecord_leads lasting (Descends.lasting top succeed) succeed ?_ ?_ w waiting _ _ ran)
    · exact fun u before passed => absurd passed (record.heeded known plain (before.target is stays active))
    · intro u path found before target v holds queued v' ran
      rw [record.wd, before.target is stays active] at target
      cases target
      rw [record.new bit, absPath] at ran
      exact holds.handleNew top succeed starts (by rw [stays]; rfl) there outside inside ran

theorem not_deaf {notice : Notice} {notices : List Notice} {mask : UInt32} (hears : Hears mask)
    (stage : Stage host base root tree deleted start w (notice :: notices)) :
    ¬((∀ inode, tree.node notice.dir = some inode → start.active inode = none) ∨ hasBit mask notice.bit = false) := by
  obtain ⟨due, waiting⟩ := stage
  rename_i node
  have active {inode : Inode} (is : node notice.dir = some inode) (stays : tree.node notice.dir = some inode) :
      start.active inode ≠ none := by
    intro idle
    obtain ⟨watch, found⟩ := waiting.lists.entry (by rw [is]; rfl)
    have own := (waiting.lists.own _ inode watch is found).resolve_right fun lost => waiting.gone inode lost _ stays
    have before := waiting.fewer inode watch.wd own
    rw [idle] at before
    cases before
  have heard (known : notice.Known) : hasBit mask notice.bit = true := by
    rcases known with (is | is) | is | is <;> rw [is]
    · exact hears.movedFrom
    · exact hears.delete
    · exact hears.create
    · exact hears.movedTo
  cases due with
  | gone other is stays there bit next =>
    rintro (deaf | off)
    · exact active is stays (deaf other stays)
    · rw [heard (.inl (bit.imp_right And.left))] at off
      cases off
  | new other is stays bit there outside inside =>
    rintro (deaf | off)
    · exact active is stays (deaf other stays)
    · rw [heard (.inr bit)] at off
      cases off

theorem buffer (top : TopPath base) (succeed : AllocationsSucceed σ) (starts : ∀ s : σ, (System.pthreadCreate s).1 = true)
    {mask : UInt32} (hears : Hears mask) {notices : List Notice} (stage : Stage host base root tree deleted start w notices)
    {events more : List InEvent} (reports : Reports tree start mask notices (events ++ more)) {v : World σ}
    (ran : inotifyHandleEvent events w = .ok ((), v)) :
    ∃ later, Stage host base root tree deleted start v later ∧ Reports tree start mask later more := by
  induction events generalizing w notices with
  | nil =>
    obtain ⟨_, rfl⟩ := Program.pure_eq_ok.mp ran
    exact ⟨notices, stage, reports⟩
  | cons event events ih =>
    obtain ⟨_, u, first, rest⟩ := Program.bind_eq_ok ran
    obtain ⟨round, x, handled, done⟩ := Program.bind_eq_ok first
    obtain ⟨_, rfl⟩ := Program.pure_eq_ok.mp done
    cases reports with
    | unrelated other reports =>
      exact ih ((Stage.lasting top succeed notices).unrelated succeed other w stage _ _ handled) reports rest
    | heard dir active wanted record reports =>
      exact ih (stage.heard top succeed starts dir active record handled) reports rest
    | unheard deaf reports => exact absurd deaf (stage.not_deaf hears)

end Stage
end

/-! ## Change by change -/

/-- The daemon reads the records, in any number of buffers, and threads take turns before, between
and within them. -/
inductive Handling : List InEvent → World σ → World σ → Prop where
  | done (w : World σ) : Handling [] w w
  | turn {index : Nat} {events : List InEvent} {w v w' : World σ} (ran : runThread index w = .ok ((), v))
      (rest : Handling events v w') : Handling events w w'
  | schedule {events : List InEvent} {w w' : World σ} (turns : List (List Nat))
      (rest : Handling events { w with pool.schedule := turns } w') : Handling events w w'
  | buffer {events more : List InEvent} {w v w' : World σ} (ran : inotifyHandleEvent events w = .ok ((), v))
      (rest : Handling more v w') : Handling (events ++ more) w w'

omit [DecidableEq Inode] in
theorem Handling.of_turns {w w' : World σ} (turns : Turns w w') : Handling [] w w' := by
  induction turns using Relation.ReflTransGen.head_induction_on with
  | refl => exact .done w'
  | head step _ ih =>
    obtain ⟨index, ran⟩ := step
    exact .turn ran ih

omit [DecidableEq Inode] in
theorem Handling.last {events : List InEvent} {w v w' : World σ} (ran : inotifyHandleEvent events w = .ok ((), v))
    (rest : Handling [] v w') : Handling events w w' := by
  have all := Handling.buffer ran rest
  rwa [List.append_nil] at all

/-- The directories change while the daemon waits. The kernel drops the watches on what is deleted, and
no others. -/
structure Changed (host : Host σ Inode) (base : Str) (tree : Tree Name Inode) (deleted : Inode → Prop) (w v : World σ) :
    Prop where
  outside : v = { w with sys := v.sys }
  shows_ : Shows (host.view v.sys) base tree
  lost : ∀ inode, deleted inode → (host.view v.sys).active inode = none
  kept : ∀ inode, ¬deleted inode → (host.view v.sys).active inode = (host.view w.sys).active inode
  issued : ∀ wd, (host.view w.sys).issued wd → (host.view v.sys).issued wd

/-- A change of the directories, its records, and what the daemon makes of them until its walkers
have finished. -/
inductive Follows (host : Host σ Inode) (base : Str) (mask : UInt32) :
    Tree Name Inode × World σ → Tree Name Inode × World σ → Prop where
  | intro {tree after : Tree Name Inode} {deleted : Inode → Prop} {notices : List Notice} {events : List InEvent}
      {w v w' : World σ} (change : TreeChange tree after deleted notices) (changed : Changed host base after deleted w v)
      (reports : Reports after (host.view v.sys) mask notices events) (handling : Handling events v w')
      (finished : AllFinished w') : Follows host base mask (tree, w) (after, w')

/-- The tables list the directories there are. -/
structure Settled (host : Host σ Inode) (base : Str) (root : RootRef) (tree : Tree Name Inode) (w : World σ) : Prop where
  idle : AllFinished w
  single : SingleRoot base root w.roots
  shows_ : Shows (host.view w.sys) base tree
  lists : Lists base tree.node (fun _ => False) (host.view w.sys) w.watches

section
variable {host : Host σ Inode} {base : Str} {root : RootRef} {tree after : Tree Name Inode} {deleted : Inode → Prop}
  {start : Outside Inode} {w w' : World σ}

theorem Descends.settled (descends : Descends host base root tree w) (top : TopPath base) (finished : AllFinished w) :
    Settled host base root tree w := by
  obtain ⟨single, awaits, walking⟩ := descends
  exact ⟨finished, single, awaits.shows_.same walking.same, awaits.complete top walking finished⟩

theorem Stage.settled (stage : Stage host base root tree deleted start w []) (top : TopPath base)
    (finished : AllFinished w) : Settled host base root tree w := by
  cases stage with
  | waits due waiting =>
    cases due with
    | done => exact ⟨finished, waiting.single, waiting.shows_, waiting.lists.settled waiting.gone⟩
  | walks descends => exact descends.settled top finished

theorem Stage.handling (top : TopPath base) (succeed : AllocationsSucceed σ)
    (starts : ∀ s : σ, (System.pthreadCreate s).1 = true) {mask : UInt32} (hears : Hears mask) {notices : List Notice}
    {events : List InEvent} (stage : Stage host base root tree deleted start w notices)
    (reports : Reports tree start mask notices events) (handling : Handling events w w') :
    Stage host base root tree deleted start w' [] := by
  induction handling generalizing notices with
  | done w =>
    cases reports with
    | none => exact stage
    | unheard deaf rest => exact absurd deaf (stage.not_deaf hears)
  | turn ran rest ih => exact ih ((Stage.lasting top succeed notices).run _ _ stage _ _ ran) reports
  | @schedule _ u _ turns rest ih =>
    exact ih ((Stage.lasting top succeed notices).rests (w := u) ⟨.refl, rfl, rfl, rfl, rfl, rfl⟩ stage) reports
  | buffer ran rest ih =>
    obtain ⟨later, read, reports⟩ := stage.buffer top succeed starts hears reports ran
    exact ih read reports

theorem Settled.changed (settled : Settled host base root tree w) {notices : List Notice} {v : World σ}
    (change : TreeChange tree after deleted notices) (changed : Changed host base after deleted w v) :
    Stage host base root after deleted (host.view v.sys) v notices := by
  obtain ⟨s, rfl⟩ : ∃ s, v = { w with sys := s } := ⟨v.sys, changed.outside⟩
  refine .waits change.due
    { idle := settled.idle
      single := settled.single
      shows_ := changed.shows_
      inactive := changed.lost
      gone := fun inode lost => change.deleted_gone lost
      fewer := fun _ _ => id
      plain := settled.shows_.plain
      lists := ⟨?_, settled.lists.filed, settled.lists.anchored, settled.lists.keys, ?_, ?_⟩ }
  · exact fun wd watch known => changed.issued wd (settled.lists.issued wd watch known)
  · intro names inode watch is found
    by_cases lost : deleted inode
    · exact .inr lost
    · rw [changed.kept inode lost]
      exact .inl ((settled.lists.own names inode watch is found).resolve_right id)
  · intro inode wd watch active known
    by_cases lost : deleted inode
    · rw [changed.lost inode lost] at active
      cases active
    · rw [changed.kept inode lost] at active
      exact settled.lists.known inode wd watch active known

theorem Settled.follows (settled : Settled host base root tree w) (top : TopPath base) (succeed : AllocationsSucceed σ)
    (starts : ∀ s : σ, (System.pthreadCreate s).1 = true) {mask : UInt32} (hears : Hears mask)
    (follows : Follows host base mask (tree, w) (after, w')) : Settled host base root after w' := by
  cases follows with
  | intro change changed reports handling finished =>
    exact ((settled.changed change changed).handling top succeed starts hears reports handling).settled top finished

/-- Change after change, the tables list the directories there are. -/
theorem Settled.run (settled : Settled host base root tree w) (top : TopPath base) (succeed : AllocationsSucceed σ)
    (starts : ∀ s : σ, (System.pthreadCreate s).1 = true) {mask : UInt32} (hears : Hears mask)
    (run : Relation.ReflTransGen (Follows host base mask) (tree, w) (after, w')) : Settled host base root after w' := by
  generalize finish : (after, w') = last at run
  induction run generalizing after w' with
  | refl =>
    cases finish
    exact settled
  | tail _ step ih =>
    rename_i middle last _
    obtain ⟨tree', v⟩ := middle
    subst finish
    exact (ih rfl).follows top succeed starts hears step

end

/-! ## The first walk -/

/-- The disk shows the tree, no root is watched and no directory is listed; what is left in the table of
descriptors is of watches that are not active. -/
structure Vacant (host : Host σ Inode) (base : Str) (tree : Tree Name Inode) (w : World σ) : Prop where
  idle : AllFinished w
  shows_ : Shows (host.view w.sys) base tree
  roots : ∀ path, w.roots.inotifyRoots.lookup path = none
  paths : ∀ path, w.watches.inotifyPathToWatch.lookup path = none
  issued : Issued (host.view w.sys) w.watches
  filed : GHashTable.Filed Watch.wd w.watches.inotifyWdToWatch
  known : ∀ inode wd, (host.view w.sys).active inode = some wd → w.watches.inotifyWdToWatch.lookup wd = none

namespace Vacant

variable {host : Host σ Inode} {base : Str} {tree : Tree Name Inode} {w : World σ}

theorem lasting : Lasting host (Vacant host base tree) where
  quiet view agree watches threads vacant :=
    { idle := by
        unfold AllFinished
        rw [threads]
        exact vacant.idle
      shows_ := view ▸ vacant.shows_
      roots := by
        rw [agree.registered]
        exact vacant.roots
      paths := watches ▸ vacant.paths
      issued := by
        rw [view, watches]
        exact vacant.issued
      filed := watches ▸ vacant.filed
      known := by
        rw [view, watches]
        exact vacant.known }
  run index := by
    intro w vacant _ w' ran
    rw [vacant.idle.run ran]
    exact vacant

theorem register (vacant : Vacant host base tree w) {made : Root} (named : made.path = some base)
    (live : made.destroy = false) (running : made.pause = false) :
    Waiting host base w.roots.nextRoot tree (fun _ => False) (host.view w.sys) (fun _ => none)
      { w with roots := w.roots.register base made } where
  idle := vacant.idle
  single :=
    { only := by
        intro path other
        rw [RootTable.register, GHashTable.lookup_insert_if]
        split
        · next same => simp [same, eq_comm]
        · next differs => simp [differs, vacant.roots]
      path := by simpa [RootTable.register] using named
      live := by simpa [RootTable.register] using live
      running := by simpa [RootTable.register] using running }
  shows_ := vacant.shows_
  inactive _ lost := lost.elim
  gone _ lost := lost.elim
  fewer _ _ := id
  plain _ _ there := by cases there
  lists :=
    { issued := vacant.issued
      filed := vacant.filed
      anchored := by
        intro path watch found
        rw [vacant.paths] at found
        cases found
      keys := by simp [vacant.paths]
      own := nofun
      known := by
        intro inode wd watch active known
        rw [vacant.known inode wd active] at known
        cases known }

theorem watchTreeInsert (vacant : Vacant host base tree w) (succeed : AllocationsSucceed σ) {mask : UInt32}
    {maxEvents : Int32} {rewatch : Bool} {root : RootRef} {w' : World σ}
    (ran : watchTreeInsert base mask maxEvents rewatch w = .ok (some root, w')) :
    ∃ start, Waiting host base root tree (fun _ => False) start (fun _ => none) w' := by
  obtain ⟨_, v, locking, ran⟩ := Program.bind_eq_ok ran
  have locked := lasting.lock .inotify w vacant _ _ locking
  obtain ⟨made, u, making, ran⟩ := Program.bind_eq_ok ran
  obtain ⟨s, quiet, ⟨rfl, rfl⟩ | ⟨copy, _, whole, rfl, rfl⟩⟩ := makeRoot_eq_ok making
  · cases (lasting.of_unlock_pure ran (lasting.asked quiet locked)).1
  · rw [whole succeed] at ran
    simp only [modifyRoots_bind] at ran
    let made : Root := ⟨some base, mask, maxEvents, some [], false, false, rewatch, false⟩
    have waiting := (lasting.asked quiet locked).register (show made.path = some base from rfl) rfl rfl
    obtain ⟨is, waiting⟩ := Waiting.lasting.of_unlock_pure ran waiting
    cases is
    exact ⟨_, waiting⟩

theorem inotifyWatchTree {path : Str} (vacant : Vacant host (trimSlash path) tree w) (top : TopPath (trimSlash path))
    (succeed : AllocationsSucceed σ) (starts : ∀ s : σ, (System.pthreadCreate s).1 = true) {mask : UInt32}
    {maxEvents : Int32} {rewatch : Bool} {w' : World σ}
    (ran : inotifyWatchTree path mask maxEvents rewatch w = .ok (none, w')) :
    ∃ root, Descends host (trimSlash path) root tree w' := by
  obtain ⟨code, v, checking, ran⟩ := Program.bind_eq_ok ran
  have checked := lasting.watchTreeCheck _ w vacant _ _ checking
  cases code with
  | some err => cases (Program.pure_eq_ok.mp ran).1
  | none =>
    simp only [opendir_bind, Program.ite_eq_ok] at ran
    obtain ⟨_, ran⟩ | ⟨_, ran⟩ := ran
    · cases (Program.pure_eq_ok.mp ran).1
    have opened := lasting.asked (.opendir (trimSlash path) .refl) checked
    obtain ⟨found, u, inserting, ran⟩ := Program.bind_eq_ok ran
    cases found with
    | none => cases (Program.pure_eq_ok.mp ran).1
    | some root =>
      obtain ⟨start, inserted⟩ := opened.watchTreeInsert succeed inserting
      obtain ⟨_, x, dumping, ran⟩ := Program.bind_eq_ok ran
      have dumped := Waiting.lasting.inotifyDumpRoots _ inserted _ _ dumping
      rw [getRoot_bind, dumped.single.path, ← Path.join_nil (trimSlash path)] at ran
      refine ⟨root, dumped.doWatchTree top succeed starts tree.top (fun names apart => ?_) ?_ ran⟩
      · exact absurd List.nil_prefix apart
      · intro names inode _ is
        cases is

end Vacant

/-- A root other than "/" that hears of directories that come and go. Once the first walk is done the
tables list just the directories there are, and they do so after every change of them. -/
theorem directories_followed (host : Host σ Inode) (succeed : AllocationsSucceed σ)
    (starts : ∀ s : σ, (System.pthreadCreate s).1 = true) {path : Str} (top : TopPath (trimSlash path)) {mask : UInt32}
    (hears : Hears mask) {maxEvents : Int32} {rewatch : Bool} {tree after : Tree Name Inode} {w v u w' : World σ}
    (vacant : Vacant host (trimSlash path) tree w)
    (watched : inotifyWatchTree path mask maxEvents rewatch w = .ok (none, v)) (walked : Turns v u)
    (finished : AllFinished u) (run : Relation.ReflTransGen (Follows host (trimSlash path) mask) (tree, u) (after, w')) :
    Shows (host.view w'.sys) (trimSlash path) after ∧
      ∀ key, key ∈ w'.watches.inotifyPathToWatch.keys ↔
        ∃ names, (after.node names).isSome ∧ key = Path.join (trimSlash path) names := by
  obtain ⟨root, descends⟩ := vacant.inotifyWatchTree top succeed starts watched
  have descended := (Descends.lasting top succeed).turns walked descends
  have settled := (descended.settled top finished).run top succeed starts hears run
  refine ⟨settled.shows_, fun key => ?_⟩
  rw [GHashTable.mem_keys_iff, ← Option.isSome_iff_exists]
  exact settled.lists.keys key

namespace Simulated

def host : Host Simulated Nat where
  toKernel := platform.toKernel
  statIsDir_view := platform.statIsDir_view
  fopenDump_view _ := rfl

def become (s : Simulated) (disk : Outside Nat) : Simulated :=
  { s with outside := { s.outside with directory := disk.directory, entries := disk.entries, mode := disk.mode } }

def bare : Simulated where
  outside :=
    { nested.outside with
      directory := fun path => if path = str "/r" then some 1 else none
      entries := fun _ => [] }
  nextWd := 1
  nonneg := nested.nonneg
  fresh := nested.fresh

def a : Name := ⟨str "a", by decide, by decide⟩

def bareTree : Tree Name Nat := .single 1

theorem bareTree_new (names : List Name) : bareTree.node names ≠ some 2 := by
  cases names <;> simp [bareTree, Tree.single]

def nestedTree : Tree Name Nat :=
  bareTree.graft [] a (.single 2) bareTree.top ((bareTree.apart_single bareTree_new).prune [] a)

theorem bare_shows : Shows bare.outside (str "/r") bareTree where
  directory := by
    intro names inode is
    cases names with
    | nil =>
      cases is
      decide
    | cons => cases is
  listed := by
    intro names child _
    constructor
    · rintro ⟨entry, member, _⟩
      cases member
    · rintro ⟨name, there, _⟩
      cases names <;> cases there
  plain := by
    intro names name there
    cases names <;> cases there

theorem nestedTree_isSome {names : List Name} : (nestedTree.node names).isSome ↔ names = [] ∨ names = [a] := by
  by_cases below : [] ++ [a] <+: names
  · obtain ⟨inner, rfl⟩ := below
    rw [nestedTree, Tree.graft_below]
    cases inner <;> simp [Tree.single]
  · rw [nestedTree, Tree.graft_apart below]
    cases names with
    | nil => simp [bareTree, Tree.single]
    | cons name names =>
      simp only [bareTree, Tree.single, List.isEmpty_cons, Bool.false_eq_true, if_false, Option.isSome_none, reduceCtorEq,
        false_or, false_iff]
      rintro ⟨rfl, rfl⟩
      exact below (List.prefix_refl _)

theorem nested_shows : Shows nested.outside (str "/r") nestedTree where
  directory := by
    intro names inode is
    rcases nestedTree_isSome.mp (by rw [is]; rfl) with rfl | rfl
    · cases (show nestedTree.node [] = some 1 from rfl).symm.trans is
      decide
    · cases (show nestedTree.node [a] = some 2 by decide).symm.trans is
      decide
  listed := by
    intro names child there
    rcases nestedTree_isSome.mp there with rfl | rfl
    · constructor
      · rintro ⟨entry, member, _, _, rfl⟩
        obtain rfl : entry = ⟨str "a", .dir⟩ := by simpa [nested] using member
        exact ⟨a, nestedTree_isSome.mpr (.inr rfl), by decide⟩
      · rintro ⟨name, there, rfl⟩
        obtain is : name = a := by simpa using nestedTree_isSome.mp there
        subst is
        exact nested_kid
    · constructor
      · rintro ⟨entry, member, _⟩
        cases (show nested.outside.entries (Path.join (str "/r") [a]) = [] by decide) ▸ member
      · rintro ⟨name, there, _⟩
        simpa using nestedTree_isSome.mp there
  plain := by
    intro names name there
    have is : name = a := by
      rcases nestedTree_isSome.mp there with is | is
      · simp at is
      · simpa using (List.append_inj' (is.trans (List.nil_append _).symm) rfl).2
    rw [is]
    decide

theorem nested_removed : nestedTree.prune [] a = bareTree := by
  have same : pruned [a] nestedTree.node = bareTree.node := by
    funext names
    by_cases below : [a] <+: names
    · obtain ⟨inner, rfl⟩ := below
      rw [pruned_below (List.prefix_append _ _)]
      rfl
    · rw [pruned_apart below]
      exact Tree.graft_apart below
  simp only [Tree.prune, List.nil_append, same]

theorem nested_leaf : nestedTree.Leaf ([] ++ [a]) where
  there := nestedTree_isSome.mpr (.inr rfl)
  bare name := by
    rw [← Option.not_isSome_iff_eq_none, nestedTree_isSome]
    rintro (is | is)
    · cases is
    · exact absurd (congrArg List.length is) (by simp)

def remove (s : Simulated) (wd : Int) : Simulated :=
  { s.become bare.outside with outside := (s.become bare.outside).outside.drop wd }

end Simulated

/-- "/r" is watched, and walked; then "/r/a" is made, and then it is removed. -/
def watchMakeRemove : M Simulated (Option InotispyError × World Simulated × World Simulated) := do
  let code ← inotifyWatchTree (str "/r") inotifyDefaultMask 100 false
  Program.forEach runThread [0, 0, 0, 0, 0, 0]
  let settled ← Program.read fun w => w
  Program.update fun w => { w with sys := w.sys.become Simulated.nested.outside }
  inotifyHandleEvent [⟨1, inCreate, 0, 16, str "f"⟩, ⟨1, inCreate ||| inIsdir, 0, 16, str "a"⟩]
  Program.forEach runThread [1, 1, 1, 1, 1, 1]
  let followed ← Program.read fun w => w
  Program.update fun w => { w with sys := w.sys.remove 2 }
  inotifyHandleEvent [⟨2, inDelete, 0, 0, []⟩, ⟨1, inDelete ||| inIsdir, 0, 16, str "a"⟩]
  return (code, settled, followed)

theorem Vacant.initial {disk : Simulated} {base : Str} {tree : Tree Name Nat} (shows_ : Shows disk.outside base tree)
    (quiet : ∀ inode, disk.outside.active inode = none) : Vacant Simulated.host base tree (World.initial disk) where
  idle _ member := by cases member
  shows_ := shows_
  roots _ := rfl
  paths _ := rfl
  issued := fun _ _ found => by cases found
  filed := .empty
  known inode wd active := by
    cases (quiet inode).symm.trans active

theorem Follows.make {u w : World Simulated} (active : u.sys.outside.active 1 = some 1)
    (handling : Handling [⟨1, inCreate, 0, 16, str "f"⟩, ⟨1, inCreate ||| inIsdir, 0, 16, str "a"⟩]
      { u with sys := u.sys.become Simulated.nested.outside } w) (finished : AllFinished w) :
    Follows Simulated.host (str "/r") inotifyDefaultMask (Simulated.bareTree, u) (Simulated.nestedTree, w) := by
  have changed : Changed Simulated.host (str "/r") Simulated.nestedTree (fun _ => False) u
      { u with sys := u.sys.become Simulated.nested.outside } :=
    ⟨rfl, Simulated.nested_shows.same ⟨rfl, rfl, rfl⟩, fun _ lost => lost.elim, fun _ _ => rfl, fun _ => id⟩
  have change : TreeChange Simulated.bareTree Simulated.nestedTree (fun _ => False) [⟨[], Simulated.a, inCreate⟩] :=
    .mkdir [] Simulated.a 2 Simulated.bareTree.top rfl Simulated.bareTree_new
  have file : Unrelated ⟨1, inCreate, 0, 16, str "f"⟩ := .inr fun isdir => by
    cases (show hasBit inCreate inIsdir = false by decide).symm.trans isdir
  exact .intro change changed (.unrelated file (.heard (show Simulated.nestedTree.node [] = some 1 from rfl) active
    (by decide) ⟨rfl, rfl, by decide, rfl⟩ .none)) handling finished

theorem Follows.remove {u w : World Simulated} (top : u.sys.outside.active 1 = some 1)
    (active : u.sys.outside.active 2 = some 2)
    (handling : Handling [⟨2, inDelete, 0, 0, []⟩, ⟨1, inDelete ||| inIsdir, 0, 16, str "a"⟩]
      { u with sys := u.sys.remove 2 } w) (finished : AllFinished w) :
    Follows Simulated.host (str "/r") inotifyDefaultMask (Simulated.nestedTree, u) (Simulated.bareTree, w) := by
  have removed : Simulated.nestedTree.node ([] ++ [Simulated.a]) = some 2 := by decide
  have change := TreeChange.rmdir [] Simulated.a Simulated.nested_leaf
  rw [Simulated.nested_removed] at change
  have changed : Changed Simulated.host (str "/r") Simulated.bareTree
      (fun inode => Simulated.nestedTree.node ([] ++ [Simulated.a]) = some inode) u { u with sys := u.sys.remove 2 } :=
    { outside := rfl
      shows_ := Simulated.bare_shows.same ⟨rfl, rfl, rfl⟩
      lost := by
        intro inode lost
        cases removed.symm.trans lost
        exact if_pos active
      kept := by
        intro inode stays
        refine if_neg fun is => stays (removed.trans ?_)
        rw [u.sys.outside.active_injective 2 inode 2 active is]
      issued := fun _ => id }
  have stays : (u.sys.remove 2).outside.active 1 = some 1 := by
    refine (if_neg fun is => ?_).trans top
    cases top.symm.trans is
  exact .intro change changed (.unrelated (.inl rfl) (.heard (show Simulated.bareTree.node [] = some 1 from rfl) stays
    (by decide) ⟨rfl, rfl, by decide, rfl⟩ .none)) handling finished

theorem directories_followed_removed : ∃ w' : World Simulated, Shows w'.sys.outside (str "/r") Simulated.bareTree ∧
    ∀ key, key ∈ w'.watches.inotifyPathToWatch.keys ↔
      ∃ names, (Simulated.bareTree.node names).isSome ∧ key = Path.join (str "/r") names := by
  -- The kernel evaluates the run.
  have facts : (watchMakeRemove (World.initial Simulated.bare)).toOption.map (fun done =>
      (done.1.1, [done.1.2.1, done.1.2.2, done.2].map fun w => w.pool.threads,
        [done.1.2.1, done.1.2.2].map fun w => [w.sys.outside.active 1, w.sys.outside.active 2])) =
    some (none, [[.finished], [.finished, .finished], [.finished, .finished]], [[some 1, none], [some 1, some 2]]) := by
    decide +kernel
  obtain ⟨⟨⟨_, settled, followed⟩, w'⟩, ran, facts⟩ := Option.map_eq_some_iff.mp facts
  simp only [List.map_cons, List.map_nil, Prod.mk.injEq, List.cons.injEq, and_true] at facts
  obtain ⟨done, ⟨walked, made, finished⟩, ⟨first, _⟩, top, second⟩ := facts
  obtain ⟨_, v, watched, ran⟩ := Program.bind_eq_ok (Program.ok_of_toOption ran)
  obtain ⟨_, _, walking, ran⟩ := Program.bind_eq_ok ran
  rw [Program.read_bind_apply, Program.update_bind_apply] at ran
  obtain ⟨_, _, reading, ran⟩ := Program.bind_eq_ok ran
  obtain ⟨_, _, following, ran⟩ := Program.bind_eq_ok ran
  rw [Program.read_bind_apply, Program.update_bind_apply] at ran
  obtain ⟨_, _, last, ran⟩ := Program.bind_eq_ok ran
  obtain ⟨same, rfl⟩ := Program.pure_eq_ok.mp ran
  cases same
  subst done
  have making := Follows.make first (.last reading (.of_turns (.of_forEach following)))
    (by simp [AllFinished, made])
  have removing := Follows.remove top second (.last last (.done w')) (by simp [AllFinished, finished])
  exact ⟨w', directories_followed Simulated.host Simulated.allocationsSucceed (fun _ => rfl)
    ⟨by decide, by decide, by decide⟩ hears_default (.initial Simulated.bare_shows fun _ => rfl) watched
    (.of_forEach walking) (by simp [AllFinished, walked]) (.tail (.single making) removing)⟩

end Inotispy
