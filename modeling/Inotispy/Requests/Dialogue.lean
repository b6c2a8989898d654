import Inotispy.Requests.Conversation
import Inotispy.Requests.Reading
import Inotispy.Requests.Trimming

/-! The client and the daemon together.

A command is sent as a text, parsed and dispatched, served between the turns of the other
threads, and answered with a text that the client reads again. What the client prints in the
end is compared with the daemon's tables.
-/

set_option autoImplicit false

namespace Inotispy
open Library
open Inotispyctl (Command)

variable {σ : Type} [System σ]

/-! ## From the text to the handler -/

/-- A path that the daemon gets as the client was given it, and trims inside its string. -/
structure Agreed (takes : Char → Bool) (path : Str) : Prop where
  null : '\x00' ∉ path
  plain : ∀ c ∈ path, JsonText.plain takes c = true ∧ c ≠ '\x7d'
  trimmed : ¬OnlySlashes path

/-- The request that the daemon takes the text of a command for. -/
def Inotispyctl.Command.request (command : Command) (path : Str) : Request :=
  ⟨some command.call, some (command.text path), .object (command.members path)⟩

section
variable {takes : Char → Bool} {path : Str} (agreed : Agreed takes path) (command : Command)
include agreed

theorem requestOf_command (implements : ImplementsJson σ takes) :
    requestOf σ (throughBrace (CString.ofBuffer (command.text path))) = some (command.request path) := by
  have brace : '\x7d' ∉ path := fun inside => (agreed.plain _ inside).2 rfl
  obtain ⟨before, shape, first⟩ := command_text_ends command brace
  have whole : throughBrace (command.text path) = command.text path := shape ▸ throughBrace_append first []
  have object : JsonText.IsObject takes (command.text path) (command.members path) :=
    JsonText.isObject_text fun c inside => (agreed.plain c inside).1
  have parsed : System.jsonTokenerParse (σ := σ) (command.text path) = some (.object (command.members path)) :=
    (implements.exact _ _).mpr ⟨_, [], (List.append_nil _).symm, object⟩
  have called : (Json.object (command.members path)).objectGet (str "call") = some (.string command.call) := rfl
  have call : CString.ofBuffer command.call = command.call := by cases command <;> rfl
  rw [CString.ofBuffer_of_plain (null_not_mem_text agreed.null), whole, requestOf_object parsed object called, call]
  rfl

theorem requestGetPath_command : requestGetPath (command.request path) = some (canonicalPath path) := by
  have plain := CString.ofBuffer_of_plain agreed.null
  have field : (command.request path).parser.objectGet (str "path") = some (.string path) := rfl
  rw [requestGetPath_canonical field (by rw [plain]; exact agreed.trimmed), plain]

end

section
variable {inv : World σ → Prop}

theorem zmqReceive_request (succeed : AllocationsSucceed σ) {w : World σ} (sound : Sound w) {message : List Char}
    (received : w.socket.recv.1 = some message) {req : Request}
    (is : requestOf σ (throughBrace (CString.ofBuffer message)) = some req) (steady : SteadyMute inv) (holds : inv w) :
    ∃ v, zmqReceive w = .ok (some req, v) ∧ At false false w.socket.recv.2 v ∧
      v.maxInotifyEvents = w.maxInotifyEvents ∧ inv v := by
  have text : throughBrace (CString.ofBuffer message) ≠ [] := by
    intro empty
    rw [empty] at is
    cases is
  have nonempty : CString.ofBuffer message ≠ [] := by
    intro empty
    rw [empty] at text
    exact text rfl
  have filled : message.length ≠ 0 := by
    intro empty
    rw [List.length_eq_zero_iff.mp empty] at nonempty
    exact nonempty rfl
  have copied : (CString.ofBuffer message).length ≠ 0 := fun empty => nonempty (List.length_eq_zero_iff.mp empty)
  have looks : looksLikeJson (throughBrace (CString.ofBuffer message)) = true := by
    by_contra refused
    rw [requestOf, if_neg refused] at is
    cases is
  obtain ⟨_, v, locking, locked⟩ := lock_zmq succeed w ⟨sound.inotify, sound.zmq, rfl, sound.whole⟩
  have taken : At false true w.socket.recv.2 { v with sys := (System.malloc v.sys).2, socket := w.socket.recv.2 } :=
    ⟨locked.inotify, locked.zmq, rfl, locked.whole.of_same rfl rfl⟩
  have kept : inv { v with sys := (System.malloc v.sys).2, socket := w.socket.recv.2 } :=
    steady.mute { v with sys := (System.malloc v.sys).2 } _
      (steady.still.asked (.malloc .refl) (steady.toSteady.lock .zmq w holds () v locking))
  obtain ⟨parsed, u, parsing, request, reached⟩ := requestParse_returns succeed looks _ taken
  have config := lock_config w.maxInotifyEvents .zmq w rfl () v locking
  obtain ⟨s, quiet, rfl⟩ := requestParse_asks parsing
  obtain ⟨_, t, unlocking, final⟩ := unlock_zmq succeed _ reached
  rw [is] at request
  cases parsed with
  | request req' =>
    cases request
    refine ⟨t, ?_, final, unlock_config w.maxInotifyEvents .zmq _ (by exact config) () t unlocking,
      steady.toSteady.of_unlock unlocking (steady.still.asked quiet kept)⟩
    rw [zmqReceive, Program.bind_ok _ _ _ _ _ locking, modifySocket_bind, locked.socket, received]
    simp only [filled, copied, if_false, malloc_bind, succeed v.sys, Bool.not_true, Bool.false_eq_true, junkLoop_eq, looks]
    rw [Program.bind_ok _ _ _ _ _ parsing]
    exact Program.bind_ok _ _ _ _ _ unlocking
  | _ => cases request

theorem request_dispatched (succeed : AllocationsSucceed σ) {w : World σ} (sound : Sound w) {message : List Char}
    (received : w.socket.recv.1 = some message) {req : Request}
    (is : requestOf σ (throughBrace (CString.ofBuffer message)) = some req) (steady : SteadyMute inv) (holds : inv w) :
    ∃ v, zmqHandleEvent w = zmqDispatchEvent req v ∧ v.socket.pending = true ∧ v.socket.replies = w.socket.replies ∧
      v.maxInotifyEvents = w.maxInotifyEvents ∧ Sound v ∧ inv v := by
  obtain ⟨v, ran, reached, config, kept⟩ := zmqReceive_request succeed sound received is steady holds
  refine ⟨v, ?_, ?_, ?_, config, ⟨reached.inotify, reached.zmq, reached.whole⟩, kept⟩
  · rw [zmqHandleEvent_eq_receive, Program.bind_ok _ _ _ _ _ ran, Option.elim_some]
  · rw [reached.socket]
    exact Socket.pending_of_recv_some received
  · rw [reached.socket, Socket.replies_recv]

end

/-! ## What the handlers do -/

def Refused (s : Socket) (w : World σ) : Prop := ∃ err, Sent (errorText err) s w.socket

theorem steady_refused (s : Socket) : Steady fun w : World σ => Refused s w :=
  .of_socket fun socket => ∃ err, Sent (errorText err) s socket

/-- Every root that is registered was registered before, at the same path. -/
def Within (before : RootTable) (w : World σ) : Prop :=
  ∀ key root, w.roots.inotifyRoots.lookup key = some root → before.inotifyRoots.lookup key = some root

/-- The root that was registered at `path` has come to be so. -/
def Became (before : RootTable) (path : Str) (so : Root → Prop) (w : World σ) : Prop :=
  ∃ root, before.inotifyRoots.lookup path = some root ∧ so (w.roots.heap root)

/-- The queue of every root registered at `key` is empty. -/
def Flushed (key : Str) (w : World σ) : Prop :=
  ∀ root, w.roots.inotifyRoots.lookup key = some root → (w.roots.heap root).events = []

theorem steady_within (before : RootTable) : Steady fun w : World σ => Within before w :=
  steady_of_shrinks
    (fun roots => ∀ key root, roots.inotifyRoots.lookup key = some root → before.inotifyRoots.lookup key = some root)
    fun _ _ shrinks within key root found => within key root (shrinks.kept key root found)

omit [System σ] in
theorem Root.queue_of_events {root : Root} (empty : root.events = []) (there : root.queue ≠ none) :
    root.queue = some [] := by
  obtain ⟨queue, is⟩ := Option.ne_none_iff_exists'.mp there
  rw [Root.events, is, Option.getD_some] at empty
  rw [is, empty]

/-- What a thread that does its part leaves true of a root. -/
def Withstood (so : Root → Prop) : Prop :=
  ∀ thread before after root, RootsEffect thread before after → so (before.heap root) → so (after.heap root)

theorem steady_became (before : RootTable) (path : Str) {so : Root → Prop} (withstood : Withstood so) :
    Steady fun w : World σ => Became before path so w := by
  apply Steady.of_tables fun roots _ => ∃ root, before.inotifyRoots.lookup path = some root ∧ so (roots.heap root)
  rintro thread w w' effect ⟨root, registered, is⟩
  exact ⟨root, registered, withstood thread w.roots w'.roots root effect.roots is⟩

theorem steady_flushed (key : Str) : Steady fun w : World σ => Flushed key w :=
  steady_of_shrinks
    (fun roots => ∀ root, roots.inotifyRoots.lookup key = some root → (roots.heap root).events = [])
    fun _ _ shrinks flushed root found =>
      List.eq_nil_iff_forall_not_mem.mpr fun event member =>
        List.not_mem_nil (flushed root (shrinks.kept key root found) ▸ shrinks.events root event member)

omit [System σ] in
theorem RootsEffect.pause {thread : Thread} {before after : RootTable} (effect : RootsEffect thread before after)
    (root : RootRef) : (after.heap root).pause = (before.heap root).pause := by
  cases effect with
  | same => rfl
  | free freed =>
    apply RootTable.field_setRoot Root.pause
    exact fun _ => rfl
  | remove => rfl

omit [System σ] in
theorem withstood_destroy : Withstood fun root => root.destroy = true :=
  fun _ _ _ root effect marked => (Shrinks.of_effect effect).destroyed root marked

omit [System σ] in
theorem withstood_pause (pause : Bool) : Withstood fun root => root.pause = pause :=
  fun _ _ _ root effect is => (effect.pause root).trans is

variable {before : RootTable}

theorem inotifyUnwatchTree_ends (path : Str) : Triple (Within (σ := σ) before) (inotifyUnwatchTree path) fun code w =>
    code = none → Became before (trimLastSlash path) (fun root => root.destroy = true) w := by
  have steady := steady_became (σ := σ) before (trimLastSlash path) withstood_destroy
  intro w within code w' ran
  simp only [inotifyUnwatchTree, inotifyIsRoot, Program.read_bind_apply] at ran
  cases found : w.roots.inotifyRoots.lookup (trimLastSlash path) with
  | none =>
    rw [found] at ran
    obtain ⟨rfl, _⟩ := Program.pure_eq_ok.mp ran
    rintro ⟨⟩
  | some root =>
    simp only [found, getRoot_bind, Program.ite_eq_ok, Program.pure_eq_ok, destroyRoot, modifyRoots_bind] at ran
    obtain ⟨_, rfl, _⟩ | ⟨_, ran⟩ := ran
    · rintro ⟨⟩
    have marked : Became before (trimLastSlash path) (fun root => root.destroy = true)
        { w with roots := w.roots.setRoot root fun r => { r with destroy := true } } := by
      refine ⟨root, within _ root found, ?_⟩
      simp only [RootTable.heap_setRoot_self]
    obtain ⟨_, v, yielding, ran⟩ := Program.bind_eq_ok ran
    have between := steady.yieldMain _ marked _ _ yielding
    obtain ⟨started, u, spawning, ran⟩ := Program.bind_eq_ok ran
    have after := steady.still.start _ (fun _ => id) v between started u spawning
    cases started <;> obtain ⟨rfl, rfl⟩ := Program.pure_eq_ok.mp ran
    · rintro ⟨⟩
    · exact fun _ => after

theorem setPause_sets (pause : Bool) (path : Str) : Triple (Within (σ := σ) before) (setPause pause path) fun code w =>
    code = none → Became before path (fun root => root.pause = pause) w := by
  have steady := steady_became (σ := σ) before path (withstood_pause pause)
  intro w within code w' ran
  obtain ⟨_, v, locking, ran⟩ := Program.bind_eq_ok ran
  have within := (steady_within before).lock .inotify w within () v locking
  simp only [inotifyIsRoot, Program.read_bind_apply] at ran
  cases found : v.roots.inotifyRoots.lookup path with
  | none =>
    rw [found] at ran
    obtain ⟨rfl, _⟩ := Steady.always.of_unlock_pure ran trivial
    rintro ⟨⟩
  | some root =>
    simp only [found, modifyRoots_bind] at ran
    have set : Became before path (fun root => root.pause = pause)
        { v with roots := v.roots.setRoot root fun r => { r with pause := pause } } := by
      refine ⟨root, within path root found, ?_⟩
      simp only [RootTable.heap_setRoot_self]
    exact fun _ => (steady.of_unlock_pure ran set).2

theorem inotifyGetEvents_flushes (succeed : AllocationsSucceed σ) (path : Str) :
    Triple (fun w : World σ => Countable w.roots) (inotifyGetEvents path 0) fun _ w => Flushed path w := by
  intro w countable got w' ran
  simp only [inotifyGetEvents, inotifyIsRoot, Program.read_bind_apply] at ran
  cases found : w.roots.inotifyRoots.lookup path with
  | none =>
    rw [found] at ran
    obtain ⟨_, rfl⟩ := Program.pure_eq_ok.mp ran
    intro root is
    rw [found] at is
    cases is
  | some root =>
    rw [found] at ran
    obtain ⟨_, queue, _, _, _, left_⟩ := inotifyDequeue_takes succeed (by decide : 0 ≤ (0 : Int32).toInt) countable ran
    have only := inotifyDequeue_keeps (steady_within w.roots) (fun _ => id) (fun _ _ => id) 0 w (fun _ _ => id) got w' ran
    intro other is
    obtain rfl := Option.some.inj ((only path other is).symm.trans found)
    rw [dequeueCount, if_pos rfl, List.drop_length] at left_
    rcases left_ with empty | freed
    · rw [Root.events, empty, Option.getD_some]
    · rw [Root.events, freed, Option.getD_none]

/-! ## What they answer -/

/-- The request has been refused, or else carried out and answered with success. -/
def Verdict (s : Socket) (done : World σ → Prop) (w : World σ) : Prop :=
  Refused s w ∨ (Sent successText s w.socket ∧ done w)

section
variable (succeed : AllocationsSucceed σ) {s : Socket} (pending : s.pending = true)
include succeed pending

theorem sends_pending {text : Str} {w w' : World σ} (is : w.socket = s)
    (sent : w'.socket = (w.socket.send text).2 ∨ (w'.socket = w.socket ∧ ¬AllocationsSucceed σ)) : Sent text s w'.socket := by
  rcases sent with sent | ⟨_, refused⟩
  · rw [sent, is]
    exact sent_send pending text
  · exact absurd succeed refused

theorem replySendError_refuses (err : InotispyError) :
    Triple (fun w : World σ => w.socket = s) (replySendError err) fun _ w => Refused s w :=
  fun _ is _ _ ran => ⟨err, sends_pending succeed pending is (replySendError_socket ran)⟩

theorem replySendSuccess_carries {done : World σ → Prop} (still : StillMute done) :
    Triple (fun w : World σ => w.socket = s ∧ done w) replySendSuccess fun _ w => Sent successText s w.socket ∧ done w :=
  fun w holds _ w' ran => ⟨sends_pending succeed pending holds.1 (replySendMessage_socket ran),
    still.replySendSuccess w holds.2 _ w' ran⟩

theorem answer_verdict {done : World σ → Prop} (still : StillMute done) (code : Option InotispyError) :
    Triple (fun w : World σ => w.socket = s ∧ (code = none → done w))
      (match code with
        | some err => replySendError err
        | none => replySendSuccess) fun _ => Verdict s done := by
  cases code with
  | some err =>
    exact ((replySendError_refuses succeed pending err).strengthen fun _ => And.left).weaken fun _ _ => .inl
  | none =>
    exact ((replySendSuccess_carries succeed pending still).strengthen fun _ =>
      And.imp_right fun holds => holds rfl).weaken fun _ _ => .inr

theorem eventWatch_answers (req : Request) :
    Triple (fun w : World σ => w.socket = s) (eventWatch req) fun _ => Verdict s fun _ => True := by
  have same := Steady.of_socket (σ := σ) (· = s)
  have refuses (err : InotispyError) : Triple (fun w : World σ => w.socket = s) (replySendError err)
      fun _ => Verdict s fun _ => True := (replySendError_refuses succeed pending err).weaken fun _ _ => .inl
  unfold eventWatch
  refine Triple.bind (same.still.mkString _) fun copy => ?_
  cases copy with
  | none => exact refuses _
  | some path =>
    apply Triple.ite' (fun _ => refuses _)
    intro _
    refine Triple.bind (same.lock .zmq) fun _ => ?_
    refine Triple.bind Keeps.read' fun found => ?_
    apply Triple.ite'
    · intro _
      refine Triple.bind (replySendError_refuses succeed pending _) fun _ => ?_
      exact ((steady_refused s).unlock .zmq).weaken fun _ _ => .inl
    intro _
    refine Triple.bind (same.unlock .zmq) fun _ => ?_
    refine Triple.bind Keeps.read' fun defaultEvents => ?_
    refine Triple.bind (inotifyWatchTree_keeps same (fun _ holds _ _ _ => holds) _ _ _) fun code => ?_
    exact (answer_verdict succeed pending ⟨Steady.always.still, fun _ _ => id⟩ code).strengthen
      fun _ is => ⟨is, fun _ => trivial⟩

variable {req : Request} {path : Str}

theorem eventWatch_verdict (asked : requestGetPath req = some path) (defaultEvents : Int32) :
    Triple (fun w : World σ => ((Lifecycle w.roots w.pool.threads ∧ True) ∧ w.socket = s) ∧ w.maxInotifyEvents = defaultEvents)
      (eventWatch req) fun _ => Verdict s fun w =>
        ∃ root, Live path root w.roots ∧ (w.roots.heap root).options = req.options defaultEvents := by
  intro w holds a w' ran
  rcases eventWatch_answers succeed pending req w holds.1.2 a w' ran with refused | ⟨sent, _⟩
  · exact .inl refused
  · obtain ⟨path', root, is, live, options⟩ := eventWatch_live req defaultEvents w holds a w' ran sent
    rw [asked] at is
    cases is
    rw [trimSlash_of_asked asked] at live
    exact .inr ⟨sent, root, live, options⟩

variable (asked : requestGetPath req = some path)
include asked

variable {before : RootTable}

/-- No root is registered under what "/" is trimmed to. -/
theorem eventUnwatch_verdict :
    Triple (fun w : World σ => (Lifecycle w.roots w.pool.threads ∧ Within before w) ∧ w.socket = s)
      (eventUnwatch req) fun _ => Verdict s (Became before path fun root => root.destroy = true) := by
  have same := Steady.of_socket (σ := σ) (· = s)
  have keeps : Keeps (fun w : World σ => w.socket = s) (inotifyUnwatchTree path) :=
    inotifyUnwatchTree_keeps same ⟨fun _ _ _ => id, fun _ _ => id, fun _ _ _ => id⟩ (fun _ _ => id) path
  have ends : Triple (fun w : World σ => Lifecycle w.roots w.pool.threads ∧ Within before w) (inotifyUnwatchTree path)
      fun code w => code = none → Became before path (fun root => root.destroy = true) w := by
    by_cases top : path = str "/"
    · subst top
      rintro w ⟨life, _⟩ code w' ran
      have unregistered : w.roots.inotifyRoots.lookup (trimLastSlash (str "/")) = none := by
        rw [GHashTable.lookup_eq_none_iff]
        exact fun member => absurd (life.absolute _ member) (by decide)
      simp only [inotifyUnwatchTree, inotifyIsRoot, Program.read_bind_apply, unregistered] at ran
      obtain ⟨rfl, _⟩ := Program.pure_eq_ok.mp ran
      rintro ⟨⟩
    · have trims := trimLastSlash_of_last (requestGetPath_last asked top)
      have ends : Triple (Within (σ := σ) before) (inotifyUnwatchTree path) fun code w =>
          code = none → Became before (trimLastSlash path) (fun root => root.destroy = true) w := inotifyUnwatchTree_ends path
      rw [trims] at ends
      exact ends.strengthen fun _ => And.right
  unfold eventUnwatch
  rw [asked]
  refine Triple.bind (Triple.and (keeps.strengthen fun _ => And.right) (ends.strengthen fun _ => And.left)) fun code => ?_
  exact answer_verdict succeed pending ⟨(steady_became _ _ withstood_destroy).still, fun _ _ => id⟩ code

theorem eventUnpause_verdict : Triple (fun w : World σ => Within before w ∧ w.socket = s) (eventUnpause req) fun _ =>
    Verdict s (Became before path fun root => root.pause = false) := by
  have same := Steady.of_socket (σ := σ) (· = s)
  have keeps : Keeps (fun w : World σ => w.socket = s) (setPause false path) :=
    setPause_keeps same ⟨fun _ _ _ => id, fun _ _ => id, fun _ _ _ => id⟩ _ _
  unfold eventUnpause
  rw [asked]
  refine Triple.bind Keeps.read' fun found => ?_
  apply Triple.ite'
  · exact fun _ => ((replySendError_refuses succeed pending _).strengthen fun _ => And.right).weaken fun _ _ => .inl
  intro _
  refine Triple.bind (Triple.and (keeps.strengthen fun _ => And.right)
    ((setPause_sets false path).strengthen fun _ => And.left)) fun code => ?_
  have answers := answer_verdict succeed pending ⟨(steady_became before path (withstood_pause false)).still, fun _ _ => id⟩ code
  cases code <;> exact answers

omit succeed pending asked in
theorem inotifyGetEvents_became_paused (pause : Bool) (count : Int32) :
    Keeps (fun w : World σ => Became before path (fun root => root.pause = pause) w) (inotifyGetEvents path count) := by
  apply Keeps.bind Keeps.read'
  intro found
  cases found with
  | none => exact Keeps.pure'
  | some root =>
    refine inotifyDequeue_keeps (steady_became before path (withstood_pause pause)) (fun _ => id) ?_ count
    rintro w taken ⟨other, registered, is⟩
    refine ⟨other, registered, ?_⟩
    change Root.pause _ = pause
    rw [RootTable.field_setRoot Root.pause (fun _ => by rfl)]
    exact is

theorem eventPause_verdict :
    Triple (fun w : World σ => (Countable w.roots ∧ Within before w) ∧ w.socket = s) (eventPause req) fun _ =>
      Verdict s fun w => Became before path (fun root => root.pause = true) w ∧ Flushed path w := by
  have same := Steady.of_socket (σ := σ) (· = s)
  have sockets : InPlace fun w : World σ => w.socket = s := ⟨fun _ _ _ => id, fun _ _ => id, fun _ _ _ => id⟩
  have keeps : Keeps (fun w : World σ => Countable w.roots ∧ w.socket = s) (setPause true path) :=
    Triple.and ((setPause_keeps steady_countable.toSteady countable_inPlace _ _).strengthen fun _ => And.left)
      ((setPause_keeps same sockets _ _).strengthen fun _ => And.right)
  unfold eventPause
  rw [asked]
  refine Triple.bind Keeps.read' fun found => ?_
  apply Triple.ite'
  · exact fun _ => ((replySendError_refuses succeed pending _).strengthen fun _ => And.right).weaken fun _ _ => .inl
  intro _
  refine Triple.bind (Triple.and (keeps.strengthen fun _ holds => ⟨holds.1.1, holds.2⟩)
    ((setPause_sets true path).strengthen fun _ holds => holds.1.2)) fun code => ?_
  cases code with
  | some err =>
    exact ((replySendError_refuses succeed pending err).strengthen fun _ holds => holds.1.2).weaken fun _ _ => .inl
  | none =>
    have still : StillMute fun w : World σ => Became before path (fun root => root.pause = true) w ∧ Flushed path w :=
      ⟨((steady_became before path (withstood_pause true)).and (steady_flushed path)).still, fun _ _ => id⟩
    have flushes : Triple (fun w : World σ => (Countable w.roots ∧ w.socket = s) ∧
        Became before path (fun root => root.pause = true) w) (inotifyGetEvents path 0) fun _ w =>
          w.socket = s ∧ Became before path (fun root => root.pause = true) w ∧ Flushed path w :=
      Triple.and ((inotifyGetEvents_socket path 0).strengthen fun _ holds => holds.1.2)
        (Triple.and ((inotifyGetEvents_became_paused true 0).strengthen fun _ => And.right)
          ((inotifyGetEvents_flushes succeed path).strengthen fun _ holds => holds.1.1))
    refine Triple.bind (flushes.strengthen fun _ => And.imp_right fun holds => holds rfl) fun _ => ?_
    exact (replySendSuccess_carries succeed pending still).weaken fun _ _ => .inr

theorem eventGetEvents_flushes (all : requestGetCount req = 0) :
    Triple (fun w : World σ => (Countable w.roots ∧ Within before w) ∧ w.socket = s) (eventGetEvents req) fun _ w =>
      Refused s w ∨ ∃ items, Sent (eventsText σ items) s w.socket ∧ Became before path (fun root => root.events = []) w := by
  rintro w ⟨⟨countable, within⟩, rfl⟩ a w' ran
  cases found : w.roots.inotifyRoots.lookup path with
  | none =>
    simp only [eventGetEvents, asked, inotifyIsRoot, Program.read_bind_apply, found, Option.isNone_none, if_true] at ran
    exact .inl (replySendError_refuses succeed pending _ w rfl a w' ran)
  | some root =>
    obtain ⟨u, queue, _, _, sent, left_⟩ := eventGetEvents_takes succeed countable pending asked found
      (by rw [all]; decide) ran
    refine .inr ⟨_, sent, root, within path root found, ?_⟩
    rw [all, dequeueCount, if_pos rfl, List.drop_length] at left_
    rcases left_ with empty | freed
    · rw [Root.events, empty, Option.getD_some]
    · rw [Root.events, freed, Option.getD_none]

end

end Inotispy
