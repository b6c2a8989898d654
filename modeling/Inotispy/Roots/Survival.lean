import Inotispy.Roots.Rewatching
import Mathlib.Algebra.Order.BigOperators.Group.List
import Mathlib.Algebra.Order.Ring.Nat

/-! Which dump files a daemon can be started over.

A root that is registered again makes the daemon rewrite the file that it is reading. Its loop goes
through the file as it was when nothing of it is still to be fetched by then, and the new dump is no
longer. It then takes every line for what it says exactly when each fits and is complete.
-/

set_option autoImplicit false

namespace Inotispy
open Library

variable {σ : Type} [System σ]

theorem inotifySetupRewatch_eq (block rounds : Nat) (stream : Stream) :
    inotifySetupRewatch (σ := σ) block rounds stream =
      (do
        let outcome ← inotifySetupHandled block rounds stream
        return outcome.map (·.map fun _ => ())) := by
  induction rounds generalizing stream with
  | zero => rfl
  | succ rounds ih =>
    -- What a round puts before the entries is forgotten.
    have forgets (entry : DumpEntry) (outcome : Option (Except DumpFault (List DumpEntry))) :
        (outcome.map (·.map (entry :: ·))).map (·.map fun _ => ()) = outcome.map (·.map fun _ => ()) := by
      obtain _ | _ | _ := outcome <;> rfl
    simp only [inotifySetupRewatch, inotifySetupHandled, bind_assoc]
    refine congrArg _ (funext fun file => ?_)
    generalize stream.fgets block file lineRoom = next
    split
    · rfl
    · cases inotifySetupLine next.1 with
      | error why => rfl
      | ok entry =>
        cases entry with
        | invalid => simp only [ih, bind_assoc, pure_bind, forgets]
        | root path mask maxEvents => simp only [ih, bind_assoc, pure_bind, forgets]

/-- What the daemon adds to its dump for a line, when it names a root whose directory opens. -/
def rewritten (opens : Str → Bool) (read : Str) : Str :=
  match inotifySetupLine read with
  | .ok (.root path mask maxEvents) =>
    if opens (trimSlash path) then
      dumpLine ⟨some (trimSlash path), mask.toUInt32, maxEvents, some [], false, false, true, false⟩
    else []
  | _ => []

/-- The reads of a file that stays as it is. -/
def dumpReads (block : Nat) (file : Str) : List (Str × Stream) :=
  Stream.reads block file lineRoom (file.length + 1) .start

/-- Whenever a root is registered again, the end of the file has been met, or all of the file has been fetched
and what is dumped by then is no longer. -/
def Unspoilt (opens : Str → Bool) (file : Str) : Nat → List (Str × Stream) → Prop
  | _, [] => True
  | written, next :: reads =>
    (rewritten opens next.1 ≠ [] → next.2.ended = true ∨
      file.length ≤ next.2.offset ∧ written + (rewritten opens next.1).length ≤ file.length) ∧
    Unspoilt opens file (written + (rewritten opens next.1).length) reads

section
variable {opens : Str → Bool} {file : Str}

theorem Unspoilt.of_loaded {reads : List (Str × Stream)} {written : Nat}
    (loaded : ∀ next ∈ reads, next.2.Loaded file.length)
    (room : written + (reads.flatMap fun next => rewritten opens next.1).length ≤ file.length) :
    Unspoilt opens file written reads := by
  induction reads generalizing written with
  | nil => trivial
  | cons next reads ih =>
    rw [List.flatMap_cons, List.length_append] at room
    obtain ⟨now, later⟩ := List.forall_mem_cons.mp loaded
    exact ⟨fun _ => now.imp id fun fetched => ⟨fetched, by omega⟩, ih later (by omega)⟩

theorem Unspoilt.of_one_block {block : Nat} (fits : file.length ≤ block)
    (room : ((dumpReads block file).flatMap fun next => rewritten opens next.1).length ≤ file.length) :
    Unspoilt opens file 0 (dumpReads block file) :=
  .of_loaded (fun _ member => Stream.loaded_of_mem_reads_start fits member) (by omega)

/-- With no directory that opens the file is left as it is. -/
theorem Unspoilt.of_closed (closed : ∀ path, opens path = false) (written : Nat) (reads : List (Str × Stream)) :
    Unspoilt opens file written reads := by
  have nothing (read : Str) : rewritten opens read = [] := by
    simp only [rewritten, closed, Bool.false_eq_true, if_false]
    split <;> rfl
  induction reads generalizing written with
  | nil => trivial
  | cons next reads ih => exact ⟨fun some_ => absurd (nothing next.1) some_, ih _⟩

end

/-! ## The loop -/

/-- The roots and the dump file of a daemon whose file was `first` at the start, and that has dumped no more than
`written` bytes at a time. -/
structure Rereading (first : Str) (written : Nat) (stream : Stream) (roots : RootTable) (file : Str) : Prop where
  registered : Registered roots
  dumped : roots.dump.length ≤ written
  same : file = first ∨ ∃ limit, stream.Loaded limit ∧ file.length ≤ limit ∧ first.length ≤ limit

section
variable {first : Str} {written amount : Nat} {stream : Stream} {roots : RootTable} {file : Str}
  (rereading : Rereading first written stream roots file)
include rereading

theorem Rereading.fgets (block : Nat) :
    stream.fgets block file lineRoom = stream.fgets block first lineRoom ∧
      Rereading first written (stream.fgets block first lineRoom).2 roots file := by
  constructor
  · rcases rereading.same with rfl | ⟨limit, loaded, short, short'⟩
    · rfl
    · exact loaded.fgets_eq block short short' lineRoom
  · exact ⟨rereading.registered, rereading.dumped,
      rereading.same.imp id fun ⟨limit, loaded, shorts⟩ => ⟨limit, loaded.fgets block first lineRoom, shorts⟩⟩

theorem Rereading.mono (more : written ≤ amount) : Rereading first amount stream roots file :=
  ⟨rereading.registered, rereading.dumped.trans more, rereading.same⟩

theorem Rereading.register {path : Str} (admits : roots.Admits path) (mask : UInt32) (maxEvents : Int32) {text : Str}
    (dumps : Dumps σ (roots.register path ⟨some path, mask, maxEvents, some [], false, false, true, false⟩) file text)
    (is : amount = written + (dumpLine ⟨some path, mask, maxEvents, some [], false, false, true, false⟩).length)
    (unspoilt : stream.ended = true ∨ first.length ≤ stream.offset ∧ amount ≤ first.length) :
    Rereading first amount stream
      (roots.register path ⟨some path, mask, maxEvents, some [], false, false, true, false⟩) text := by
  have longer := congrArg List.length (RootTable.dump_register rereading.registered admits.new
    (show Root.rewatch ⟨some path, mask, maxEvents, some [], false, false, true, false⟩ = true from rfl))
  rw [List.length_append] at longer
  have before := rereading.dumped
  refine ⟨rereading.registered.register rfl, by omega, ?_⟩
  -- From here on the file is the new dump, or it could not be opened.
  rcases dumps with rfl | ⟨rfl, _⟩
  · rcases unspoilt with ended | ⟨fetched, room⟩
    · exact .inr ⟨max _ _, .inl ended, Nat.le_max_left _ _, Nat.le_max_right _ _⟩
    · exact .inr ⟨first.length, .inr fetched, by omega, Nat.le_refl _⟩
  · exact rereading.same

end

section
variable (succeed : AllocationsSucceed σ) {openings : Openings σ} {available : Str → Bool}
include succeed

theorem inotifySetupHandled_run {block : Nat} {first : Str} {rounds written : Nat} {stream : Stream} {roots : RootTable}
    {file : Str} {w : World σ} (sound : Sound w) (starting : Starting openings available roots file w)
    (rereading : Rereading first written stream roots file)
    (unspoilt : Unspoilt available first written (Stream.reads block first lineRoom rounds stream)) :
    ∃ w', inotifySetupHandled block rounds stream w = .ok (inotifySetupLoop block first rounds stream, w') ∧ Sound w' := by
  induction rounds generalizing stream roots file w written with
  | zero => exact ⟨w, rfl, sound⟩
  | succ rounds ih =>
    obtain ⟨got, rereading⟩ := rereading.fgets block
    simp only [inotifySetupHandled, inotifySetupLoop, Program.read_bind_apply, starting.file, got]
    rw [Stream.reads] at unspoilt
    generalize stream.fgets block first lineRoom = next at rereading unspoilt
    by_cases empty : next.1 = []
    · exact ⟨w, by simp only [empty, if_true]; rfl, sound⟩
    simp only [empty, if_false] at unspoilt ⊢
    obtain ⟨now, later⟩ := unspoilt
    cases took : inotifySetupLine next.1 with
    | error why => exact ⟨w, rfl, sound⟩
    | ok entry =>
      cases entry with
      | invalid =>
        obtain ⟨w', ran, sound'⟩ := ih sound starting (rereading.mono (Nat.le_add_right _ _)) later
        exact ⟨w', Program.bind_ok _ _ _ _ _ ran, sound'⟩
      | root path mask maxEvents =>
        obtain ⟨code, v, watching, free⟩ := inotifyWatchTree_stays succeed path mask.toUInt32 maxEvents true w
          ⟨sound.inotify, sound.zmq, rfl, sound.whole⟩
        have sound' : Sound v := ⟨free.inotify, free.zmq, free.whole⟩
        have watched := inotifyWatchTree_starting succeed path mask.toUInt32 maxEvents w starting code v watching
        obtain ⟨w', ran, sound''⟩ : ∃ w', inotifySetupHandled block rounds next.2 v =
            .ok (inotifySetupLoop block first rounds next.2, w') ∧ Sound w' := by
          split at watched
          · next registers =>
            obtain ⟨admits, open_⟩ := registers
            obtain ⟨text, dumps, starting'⟩ := watched
            have adds : rewritten available next.1 =
                dumpLine ⟨some (trimSlash path), mask.toUInt32, maxEvents, some [], false, false, true, false⟩ := by
              simp only [rewritten, took, open_, if_true]
            have some_ : rewritten available next.1 ≠ [] := by simp [adds, dumpLine_eq]
            exact ih sound' starting' (rereading.register admits _ _ dumps (by rw [adds]) (now some_)) later
          · -- Nothing is dumped, and there may be less in the dump than was counted.
            exact ih sound' watched (rereading.mono (Nat.le_add_right _ _)) later
        refine ⟨w', ?_, sound''⟩
        dsimp only
        rw [Program.bind_ok _ _ _ _ _ watching, Program.bind_ok _ _ _ _ _ ran]
        rfl

/-- A daemon that starts handles the entries that its dump file had at first. -/
theorem inotifySetupHandled_unspoilt (openings : Openings σ) {block : Nat} {w : World σ} (sys : σ) (turns : List (List Nat))
    (maxInotifyEvents : Int32)
    (unspoilt : Unspoilt (openings.opens sys) w.output.dumpFile 0 (dumpReads block w.output.dumpFile)) :
    ∃ w', inotifySetupHandled block (w.output.dumpFile.length + 1) .start (w.restarted sys turns maxInotifyEvents) =
      .ok (inotifySetupEntries block w.output.dumpFile, w') := by
  have initial := Sound.initial sys
  have sound : Sound (w.restarted sys turns maxInotifyEvents) :=
    ⟨initial.inotify, initial.zmq, initial.whole.of_same rfl rfl⟩
  have starting : Starting openings (openings.opens sys) (World.initial sys).roots w.output.dumpFile
      (w.restarted sys turns maxInotifyEvents) := ⟨rfl, rfl, rfl, fun _ => nofun⟩
  have rereading : Rereading w.output.dumpFile 0 .start (World.initial sys).roots w.output.dumpFile :=
    ⟨.empty rfl, Nat.le_refl _, .inl rfl⟩
  obtain ⟨w', ran, _⟩ := inotifySetupHandled_run succeed sound starting rereading unspoilt
  exact ⟨w', ran⟩

/-- A daemon that starts comes to the end of reading its dump file, if that is not spoilt. It handles each line as one
root or one invalid entry exactly when every line has at most 1023 bytes, starts with no null byte and has three fields. -/
theorem dump_file_survivable_iff (openings : Openings σ) {block : Nat} (positive : 0 < block) (w : World σ) (sys : σ)
    (turns : List (List Nat)) (maxInotifyEvents : Int32)
    (unspoilt : Unspoilt (openings.opens sys) w.output.dumpFile 0 (dumpReads block w.output.dumpFile)) :
    ∃ outcome w', inotifySetupHandled block (w.output.dumpFile.length + 1) .start
        (w.restarted sys turns maxInotifyEvents) = .ok (some outcome, w') ∧
      (outcome = .ok ((Stream.lines w.output.dumpFile).map entryOf) ↔
        ∀ line ∈ Stream.lines w.output.dumpFile, line.length ≤ lineRoom ∧ Complete line) := by
  obtain ⟨w', ran⟩ := inotifySetupHandled_unspoilt succeed openings sys turns maxInotifyEvents unspoilt
  obtain ⟨outcome, entries⟩ : ∃ outcome, inotifySetupEntries block w.output.dumpFile = some outcome :=
    inotifySetupLoop_ends positive (Nat.lt_succ_self _)
  refine ⟨outcome, w', by rw [ran, entries], ?_⟩
  rw [← entries_of_lines_iff positive, entries, Option.some.injEq]

end

/-! ## Dumps of one block -/

theorem reads_eq_lines {block : Nat} (positive : 0 < block) {file : Str} {rounds : Nat} {stream : Stream}
    (enough : (stream.unread file).length < rounds)
    (fit : ∀ line ∈ Stream.lines (stream.unread file), line.length ≤ lineRoom) :
    (Stream.reads block file lineRoom rounds stream).map Prod.fst = Stream.lines (stream.unread file) := by
  induction rounds generalizing stream with
  | zero => omega
  | succ rounds ih =>
    cases are : Stream.lines (stream.unread file) with
    | nil =>
      obtain ⟨after, got, _⟩ := Stream.fgets_unread positive file stream lineRoom
      rw [Stream.lines_eq_nil.mp are] at got
      simp only [Stream.reads, got]
      rfl
    | cons line more =>
      obtain ⟨after, got, some_, left, less⟩ := fgets_lines positive are
      rw [are] at fit
      obtain ⟨short, others⟩ := List.forall_mem_cons.mp fit
      rw [if_pos short] at left
      rw [List.take_of_length_le short] at got some_
      simp only [Stream.reads, got, if_neg some_, List.map_cons]
      rw [ih (by omega) (by rwa [left]), left]

theorem length_trimSlash_le (path : Str) : (trimSlash path).length ≤ path.length := by
  unfold trimSlash
  split
  · simp
  · exact Nat.le_refl _

theorem length_rewritten_le (opens : Str → Bool) {root : Root} (watched : root.Watched) (plain : root.Plain) :
    (rewritten opens (dumpLine root)).length ≤ (dumpLine root).length := by
  obtain ⟨path, named, _⟩ := watched.absolute
  rw [rewritten, (taken_iff watched plain.newline).mpr ⟨plain.comma, plain.maxEvents⟩]
  simp only [Root.entry]
  split
  · have shorter := length_trimSlash_le path
    simp only [dumpLine, percentS, named, UInt32.toUInt32_toInt32, List.length_append]
    omega
  · exact Nat.zero_le _

/-- What is read of a dump of one block is what would be read if it stayed as it is: its roots, when they are plain. -/
theorem dump_handled (succeed : AllocationsSucceed σ) (openings : Openings σ) {block : Nat} (positive : 0 < block)
    {w : World σ} {roots : List Root} (file : w.output.dumpFile = roots.flatMap dumpLine)
    (fits : w.output.dumpFile.length ≤ block) (readable : ∀ root ∈ roots, root.Watched ∧ root.Plain) (sys : σ)
    (turns : List (List Nat)) (maxInotifyEvents : Int32) :
    ∃ w', inotifySetupHandled block (w.output.dumpFile.length + 1) .start (w.restarted sys turns maxInotifyEvents) =
      .ok (some (.ok (roots.map Root.entry)), w') := by
  have lines : Stream.lines w.output.dumpFile = roots.map dumpLine := by
    rw [file, lines_dumped, List.flatMap_congr fun root member => lines_dumpLine (readable root member).2.newline,
      ← List.map_eq_flatMap]
  have fit : ∀ line ∈ Stream.lines w.output.dumpFile, line.length ≤ lineRoom := by
    rw [lines]
    exact List.forall_mem_map.mpr fun root member => (readable root member).2.short
  have read : (dumpReads block w.output.dumpFile).map Prod.fst = roots.map dumpLine := by
    rw [← lines]
    exact reads_eq_lines positive (Nat.lt_succ_self _) fit
  have room : ((dumpReads block w.output.dumpFile).flatMap fun next => rewritten (openings.opens sys) next.1).length ≤
      w.output.dumpFile.length := by
    rw [← List.flatMap_map Prod.fst, read, List.flatMap_map, file, List.length_flatMap, List.length_flatMap]
    exact List.sum_le_sum fun root member => length_rewritten_le _ (readable root member).1 (readable root member).2
  obtain ⟨w', ran⟩ := inotifySetupHandled_unspoilt succeed openings sys turns maxInotifyEvents (.of_one_block fits room)
  have entries : inotifySetupEntries block w.output.dumpFile = some (.ok (roots.map Root.entry)) := by
    rw [inotifySetupEntries_eq_ok positive fit, lines, List.forall₂_map_right_iff, List.forall₂_map_left_iff,
      List.forall₂_same]
    exact fun root member => (taken_iff (readable root member).1 (readable root member).2.newline).mpr
      ⟨(readable root member).2.comma, (readable root member).2.maxEvents⟩
  exact ⟨w', by rw [ran, entries]⟩

def World.left (file : Str) : World (Script true) := { World.initial ⟨[]⟩ with output.dumpFile := file }

def handledOver (block : Nat) (file : Str) : Option (Option (Except DumpFault (List DumpEntry))) :=
  (inotifySetupHandled block (file.length + 1) .start ((World.left file).restarted ⟨[1, 2, 3]⟩ [] 65536)).toOption.map (·.1)

/-- A root is registered, and a line with a number that cannot be used and one without its newline are read after that. -/
theorem invalid_line_survived :
    handledOver 4096 (str "/srv,4095,10\n/tmp,x,1\n/opt,1,1") =
      some (some (.ok [.root (str "/srv") 4095 10, .invalid, .root (str "/opt") 1 1])) := by
  have unspoilt : Unspoilt (Script.openings.opens ⟨[1, 2, 3]⟩) (str "/srv,4095,10\n/tmp,x,1\n/opt,1,1") 0
      (dumpReads 4096 (str "/srv,4095,10\n/tmp,x,1\n/opt,1,1")) := by
    refine .of_one_block (by decide) ?_
    decide +kernel
  obtain ⟨outcome, w', ran, took⟩ := dump_file_survivable_iff (fun _ => rfl) Script.openings (by decide : 0 < 4096)
    (World.left (str "/srv,4095,10\n/tmp,x,1\n/opt,1,1")) ⟨[1, 2, 3]⟩ [] 65536 unspoilt
  rw [took.mpr (by decide)] at ran
  exact congrArg (fun r => r.toOption.map (·.1)) ran

/-- A line with one comma hands `atoi` a null token, and so does one that is lost half when the file is rewritten. -/
theorem cut_line_not_survived :
    handledOver 4096 (str "/srv,4095") = some (some (.error .nullToken)) ∧
      handledOver 4096 (str "\n") = some (some (.error .nullToken)) ∧
      handledOver 4096 ['\x00', '\n'] = some (some (.error .beforeLine)) ∧
      handledOver 10 (str "/a,1,1\n/b,1,1\n") = some (some (.error .nullToken)) := by
  decide +kernel

end Inotispy
