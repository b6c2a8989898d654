import Inotispy.Requests.Isolation

/-! What the client reports is what the daemon has done.

Each command is followed from the text that is sent to the line that is printed, through a daemon
in any state that it can be in, with its threads taking turns in between.
-/

set_option autoImplicit false

namespace Inotispy
open Library
open JsonText (IsObject)

theorem Sent.of_replies {text : Str} {before between after : Socket} (sent : Sent text between after)
    (same : between.replies = before.replies) : Sent text before after := by
  rw [Sent, ← same]
  exact sent

namespace Inotispyctl

def Order.line : Order → Str → Str
  | .watch, path => str "Root " ++ path ++ str " is now being watched\n"
  | .unwatch, path => str "Root " ++ path ++ str " is no longer being watched\n"
  | .pauseRoot, path => str "Root " ++ path ++ str " is now paused\n"
  | .unpauseRoot, path => str "Root " ++ path ++ str " is now unpaused\n"
  | .flushQueue, path => str "Queue for root " ++ path ++ str " has been flushed\n"

end Inotispyctl

open Inotispyctl (Command Order)

variable {σ : Type} [System σ]

theorem Steady.all {A : Type} {each : A → World σ → Prop} (steady : ∀ a, Steady (each a)) :
    Steady fun w => ∀ a, each a w where
  quiet rests holds a := (steady a).quiet rests (holds a)
  spawned thread fresh holds a := (steady a).spawned thread fresh (holds a)
  run index w holds done w' ran a := (steady a).run index w (holds a) done w' ran

/-- The root that was registered at `path` still is, and no thread is destroying it. -/
def Remains (path : Str) (before : RootTable) (w : World σ) : Prop :=
  ∀ root : {root // before.inotifyRoots.lookup path = some root},
    Lifecycle w.roots w.pool.threads ∧ Undisturbed path root.1 w.roots w.pool.threads

theorem steady_remains (path : Str) (before : RootTable) : Steady fun w : World σ => Remains path before w :=
  .all fun root => (living_undisturbed path root.1).toSteady

/-- What has been done when an order about the root at `path` was carried out. -/
def Inotispyctl.Order.Done (path : Str) (w w' : World σ) : Order → Prop
  | .watch => ∃ root, Live path root w'.roots ∧
      (w'.roots.heap root).options = (inotifyDefaultMask, w.maxInotifyEvents, false)
  | .unwatch => Became w.roots path (fun root => root.destroy = true) w'
  | .pauseRoot => Became w.roots path (fun root => root.pause = true ∧ root.queue = some []) w'
  | .unpauseRoot => Became w.roots path (fun root => root.pause = false) w'
  | .flushQueue => Became w.roots path (fun root => root.queue = some []) w'

section
variable {takes : Char → Bool} (implements : ImplementsJson σ takes) (otherInt : Json → Int32)
include implements

theorem printed_error (order : Order) (path : Str) (err : InotispyError) :
    order.printed σ otherInt path (errorText err) = .error (printedError err) := by
  have failed := Inotispyctl.getReply_error implements otherInt err
  cases order <;>
    · change Inotispyctl.confirm σ otherInt _ _ _ _ = _
      rw [Inotispyctl.confirm, failed]
      rfl

theorem printed_object (order : Order) (path : Str) {text : Str} {members : List (Str × Json)}
    (object : IsObject takes text members) (fine : (Json.object members).objectGet (str "error") = none) :
    order.printed σ otherInt path text = .ok (order.line path) := by
  have confirmed := Inotispyctl.confirm_object implements otherInt object fine
  cases order <;> exact confirmed _ _ _

variable (prints : PrintsJson σ takes) (succeed : AllocationsSucceed σ)
include prints succeed

omit implements in
/-- What a request does, as long as the root that was registered at its path is not being destroyed. -/
theorem order_dispatched (order : Order) {path : Str} (agreed : Agreed takes path) {w v w' : World σ}
    (pending : v.socket.pending = true) (config : v.maxInotifyEvents = w.maxInotifyEvents)
    (life : Lifecycle v.roots v.pool.threads) (countable : Countable v.roots) (within : Within w.roots v)
    (remains : Remains (canonicalPath path) w.roots v)
    (ran : zmqDispatchEvent (order.command.request path) v = .ok ((), w')) :
    Refused v.socket w' ∨ ∃ text members, IsObject takes text members ∧
      (Json.object members).objectGet (str "error") = none ∧ Sent text v.socket w'.socket ∧
        order.Done (canonicalPath path) w w' := by
  have asked : requestGetPath (order.command.request path) = some (canonicalPath path) :=
    requestGetPath_command agreed order.command
  have succeeds {done : World σ → Prop} (verdict : Verdict v.socket done w') : Refused v.socket w' ∨
      ∃ text members, IsObject takes text members ∧ (Json.object members).objectGet (str "error") = none ∧
        Sent text v.socket w'.socket ∧ done w' :=
    verdict.imp_right fun answered => ⟨_, _, isObject_success, rfl, answered⟩
  have step : ServerStep (.request (order.command.request path)) v w' := ⟨trivial, ran⟩
  -- A queue without events is one that is there and empty.
  have emptied (other : (order.command.request path).call ≠ some (str "unwatch")) {root : RootRef}
      (registered : w.roots.inotifyRoots.lookup (canonicalPath path) = some root)
      (empty : (w'.roots.heap root).events = []) : (w'.roots.heap root).queue = some [] := by
    have after := step.undisturbed other life (remains ⟨root, registered⟩).2
    exact Root.queue_of_events empty (after.2.queue_ne_none after.1)
  cases order with
  | watch =>
    exact succeeds (eventWatch_verdict succeed pending asked w.maxInotifyEvents v ⟨⟨⟨life, trivial⟩, rfl⟩, config⟩ () w' ran)
  | unwatch => exact succeeds (eventUnwatch_verdict succeed pending asked v ⟨⟨life, within⟩, rfl⟩ () w' ran)
  | pauseRoot =>
    have other : (Order.pauseRoot.command.request path).call ≠ some (str "unwatch") := by
      change some (str "pause") ≠ _
      decide
    rcases eventPause_verdict succeed pending asked v ⟨⟨countable, within⟩, rfl⟩ () w' ran with
      refused | ⟨sent, ⟨root, registered, paused⟩, flushed⟩
    · exact .inl refused
    · have after := step.undisturbed other life (remains ⟨root, registered⟩).2
      have empty := emptied other registered (flushed root after.2.registered)
      exact .inr ⟨_, _, isObject_success, rfl, sent, root, registered, paused, empty⟩
  | unpauseRoot => exact succeeds (eventUnpause_verdict succeed pending asked v ⟨within, rfl⟩ () w' ran)
  | flushQueue =>
    have other : (Order.flushQueue.command.request path).call ≠ some (str "unwatch") := by
      change some (str "get_events") ≠ _
      decide
    refine (eventGetEvents_flushes succeed pending asked rfl v ⟨⟨countable, within⟩, rfl⟩ () w' ran).imp_right ?_
    rintro ⟨items, sent, root, registered, empty⟩
    exact ⟨_, _, isObject_events prints items, rfl, sent, root, registered, emptied other registered empty⟩

end

/-! ## Queues -/

/-- What is handed out of a queue for a count that the client was given, and what stays. -/
def handedOut (count : Str) (queue : List Event) : List Event × List Event :=
  let n := Nat.ofDigitChars 10 count 0
  if n = 0 then (queue, []) else queue.splitAt n

theorem atoi_unsigned {count : Str} (unsigned : Inotispyctl.isUnsignedInt count = true)
    (small : Nat.ofDigitChars 10 count 0 < 2 ^ 31) :
    (CString.atoi count).toInt = Nat.ofDigitChars 10 count 0 := by
  have digits : ∀ c ∈ count, c.isDigit = true := List.all_eq_true.mp (Bool.and_eq_true_iff.mp unsigned).2
  have inside : max (-2 ^ 63) (min (Nat.ofDigitChars 10 count 0 : Int) (2 ^ 63 - 1)) = Nat.ofDigitChars 10 count 0 := by
    omega
  rw [CString.atoi_digits digits, inside, Int32.toInt_ofInt_of_le (by omega) (by omega)]

theorem handedOut_eq {count : Str} {c : Int32} (is : c.toInt = Nat.ofDigitChars 10 count 0) (queue : List Event) :
    handedOut count queue = (queue.take (dequeueCount queue c), queue.drop (dequeueCount queue c)) := by
  unfold handedOut dequeueCount
  have zero : Nat.ofDigitChars 10 count 0 = 0 ↔ c = 0 := by
    rw [← Int32.toInt_inj, is]
    exact Int.natCast_eq_zero.symm
  by_cases all : c = 0
  · simp only [zero, all, if_true, List.take_length, List.drop_length]
  · simp only [zero, all, if_false, is, Int.toNat_natCast, List.splitAt_eq, Prod.mk.injEq]
    constructor
    · rw [List.take_eq_take_iff]
      omega
    · rw [List.drop_eq_drop_iff]
      omega

omit [System σ] in
theorem requestGetCount_command (path : Str) {c : Int32} (nonneg : 0 ≤ c.toInt) :
    requestGetCount ((Command.getEventsRaw c).request path) = c ∧ c ≠ -1 := by
  have given : ((Command.getEventsRaw c).request path).HasInt (str "count") c.toInt := rfl
  have minus : c ≠ -1 := by
    rintro rfl
    exact absurd nonneg (by decide)
  have notNegative : ¬c < 0 := by
    rw [Int32.lt_iff_toInt_lt]
    exact Int.not_lt.mpr nonneg
  rw [requestGetCount_given given, if_neg minus, if_neg notNegative]
  exact ⟨rfl, minus⟩

theorem eventGetQueueSize_live (succeed : AllocationsSucceed σ) {key : Str} {root : RootRef} {queue : List Event}
    {s : Socket} (pending : s.pending = true) (fits : queue.length < 2 ^ 31) {req : Request}
    (asked : requestGetPath req = some key) :
    Triple (fun w : World σ => ((Lifecycle w.roots w.pool.threads ∧ Live key root w.roots) ∧
      ((w.roots.heap root).queue = some queue ∨ (w.roots.heap root).queue = none)) ∧ w.socket = s)
      (eventGetQueueSize req) fun _ w => Sent (dataReply queue.length) s w.socket ∧
        ((w.roots.heap root).queue = some queue ∨ (w.roots.heap root).queue = none) := by
  have steady := ((living_live (σ := σ) key root).toSteady.and (steady_queue root (some queue))).and (Steady.of_socket (· = s))
  unfold eventGetQueueSize
  rw [asked]
  refine Triple.bind (steady.lock .zmq) ?_
  rintro _ w ⟨⟨⟨life, live⟩, there⟩, socket⟩ a w' ran
  have there := there.resolve_right (life.queue_of_live live)
  simp only [inotifyIsRoot, Program.read_bind_apply, live.registered, getRoot_bind, live.running,
    Bool.false_eq_true, if_false, rootQueue_bind, Root.events, there, Option.getD_some, toInt_queueLength fits] at ran
  obtain ⟨_, v, replying, ran⟩ := Program.bind_eq_ok ran
  obtain ⟨system, sent⟩ := replySendFormatted_run succeed (dataReply queue.length) _
  obtain ⟨_, rfl⟩ := Program.ok_unique replying sent
  have told := (Steady.of_socket (σ := σ) fun socket => Sent (dataReply queue.length) s socket).and
    (steady_queue root (some queue))
  refine told.of_unlock ran ⟨?_, .inl there⟩
  rw [← socket] at pending ⊢
  exact sent_send pending _

section
variable {takes : Char → Bool} (implements : ImplementsJson σ takes) (succeed : AllocationsSucceed σ) {path : Str}
  (agreed : Agreed takes path) {w : World σ} (served : Served w) {root : RootRef}
  (live : Live (canonicalPath path) root w.roots)
include implements succeed agreed served live

theorem live_dispatched {command : Command} (received : w.socket.recv.1 = some (command.text path)) :
    ∃ v, zmqHandleEvent w = zmqDispatchEvent (command.request path) v ∧ v.socket.pending = true ∧
      v.socket.replies = w.socket.replies ∧ Countable v.roots ∧
      (Lifecycle v.roots v.pool.threads ∧ Live (canonicalPath path) root v.roots) ∧
      (v.roots.heap root).queue = some (w.roots.heap root).events := by
  have there : (w.roots.heap root).queue = some (w.roots.heap root).events := by
    have freed := served.life.queue_of_live live
    cases queue : (w.roots.heap root).queue with
    | none => exact absurd queue freed
    | some queue_ => simp only [Root.events, queue, Option.getD_some]
  have living := living_live (σ := σ) (canonicalPath path) root
  have steady : SteadyMute fun v : World σ => ((Lifecycle v.roots v.pool.threads ∧ Live (canonicalPath path) root v.roots) ∧
      Countable v.roots) ∧ ((v.roots.heap root).queue = some (w.roots.heap root).events ∨ (v.roots.heap root).queue = none) :=
    ⟨(living.toSteady.and steady_countable.toSteady).and (steady_queue root _), fun _ _ => id⟩
  obtain ⟨v, handled, pending, replies, _, _, ⟨lives, countable⟩, queue⟩ := request_dispatched succeed
    (served.sound succeed) received (requestOf_command agreed command implements) steady
    ⟨⟨⟨served.life, live⟩, served.countable⟩, .inl there⟩
  exact ⟨v, handled, pending, replies, countable, lives, queue.resolve_right (lives.1.queue_of_live lives.2)⟩

variable (prints : PrintsJson σ takes) (otherInt : Json → Int32)

include prints in
theorem events_listed {count message : Str} (small : Nat.ofDigitChars 10 count 0 < 2 ^ 31)
    (requested : Inotispyctl.listEvents path count = .ok message) (received : w.socket.recv.1 = some message) :
    ∃ w' reply, zmqHandleEvent w = .ok ((), w') ∧ Sent reply w.socket w'.socket ∧
      Inotispyctl.eventsListed σ otherInt reply = .ok (linesOr (str "There are no events at this time\n")
        ((handedOut count (w.roots.heap root).events).1.map Event.line)) ∧
      Live (canonicalPath path) root w'.roots ∧
      (w'.roots.heap root).events = (handedOut count (w.roots.heap root).events).2 := by
  unfold Inotispyctl.listEvents at requested
  split at requested
  · next unsigned =>
    have value := atoi_unsigned unsigned small
    have text : (Command.getEventsRaw (CString.atoi count)).text path = message := Except.ok.inj requested
    rw [← text] at received
    obtain ⟨_, w', ran, _⟩ := zmqHandleEvent_sound succeed w (served.sound succeed)
    obtain ⟨v, handled, pending, replies, countable, before, there⟩ := live_dispatched implements succeed agreed served live received
    rw [handled] at ran
    have nonneg : 0 ≤ (CString.atoi count).toInt := by
      rw [value]
      exact Int.natCast_nonneg _
    obtain ⟨given, minus⟩ := requestGetCount_command path nonneg
    have plain : requestGetCount ((Command.getEventsRaw (CString.atoi count)).request path) ≠ -1 := by rwa [given]
    have asked := requestGetPath_command agreed (.getEventsRaw (CString.atoi count))
    have after : Lifecycle w'.roots w'.pool.threads ∧ Live (canonicalPath path) root w'.roots := by
      have step : ServerStep (.request ((Command.getEventsRaw (CString.atoi count)).request path)) v w' := ⟨trivial, ran⟩
      refine step.live ?_ before.1 before.2
      rintro ⟨_, _, is, called, _⟩
      cases is
      cases called
    obtain ⟨sent, left_⟩ := eventGetEvents_live succeed before there countable pending asked plain after ran
    rw [given] at sent left_
    refine ⟨w', _, handled.trans ran, sent.of_replies replies, ?_, after.2, ?_⟩
    · rw [handedOut_eq value, Inotispyctl.eventsListed_array implements otherInt (isObject_events prints _),
        printEvents_eventJobj]
    · rw [handedOut_eq value, Root.events, left_, Option.getD_some]
  · cases requested

theorem queue_size_listed (received : w.socket.recv.1 = some (Inotispyctl.getQueueSize path)) :
    ∃ w' reply, zmqHandleEvent w = .ok ((), w') ∧ Sent reply w.socket w'.socket ∧
      Inotispyctl.queueSizeListed σ otherInt path reply =
        .ok (path ++ str "  " ++ percentD (w.roots.heap root).events.length ++ str "\n") ∧
      Live (canonicalPath path) root w'.roots ∧ (w'.roots.heap root).events = (w.roots.heap root).events := by
  obtain ⟨_, w', ran, _⟩ := zmqHandleEvent_sound succeed w (served.sound succeed)
  have received : w.socket.recv.1 = some (Command.getQueueSize.text path) := received
  obtain ⟨v, handled, pending, replies, countable, before, there⟩ := live_dispatched implements succeed agreed served live received
  rw [handled] at ran
  have asked := requestGetPath_command agreed .getQueueSize
  have fits : (w.roots.heap root).events.length < 2 ^ 31 := served.countable root
  have after : Lifecycle w'.roots w'.pool.threads ∧ Live (canonicalPath path) root w'.roots := by
    have step : ServerStep (.request (Command.getQueueSize.request path)) v w' := ⟨trivial, ran⟩
    refine step.live ?_ before.1 before.2
    rintro ⟨_, _, is, called, _⟩
    cases is
    cases called
  obtain ⟨sent, kept⟩ := eventGetQueueSize_live succeed pending fits asked v ⟨⟨before, .inl there⟩, rfl⟩ () w' ran
  have queue := kept.resolve_right (after.1.queue_of_live after.2)
  refine ⟨w', _, handled.trans ran, sent.of_replies replies, ?_, after.2, ?_⟩
  · have read : (Json.getInt ((w.roots.heap root).events.length : Int)).toInt = (w.roots.heap root).events.length := by
      have same := getInt_toInt (queueLength (w.roots.heap root).events)
      rw [toInt_queueLength fits] at same
      rw [same, toInt_queueLength fits]
    rw [Inotispyctl.queueSizeListed, Inotispyctl.queueSize_data implements]
    simp only [bind, Except.bind, read]
    rfl
  · rw [Root.events, queue, Option.getD_some]

include prints in
/-- For a live root, the client that asks for events prints the first ones and leaves the others, and the client that asks
for the size prints how many there are and leaves them all. -/
theorem queue_listed_truly :
    (∀ count message, Nat.ofDigitChars 10 count 0 < 2 ^ 31 → Inotispyctl.listEvents path count = .ok message →
      w.socket.recv.1 = some message → ∃ w' reply, zmqHandleEvent w = .ok ((), w') ∧ Sent reply w.socket w'.socket ∧
        Inotispyctl.eventsListed σ otherInt reply = .ok (linesOr (str "There are no events at this time\n")
          ((handedOut count (w.roots.heap root).events).1.map Event.line)) ∧
        Live (canonicalPath path) root w'.roots ∧
        (w'.roots.heap root).events = (handedOut count (w.roots.heap root).events).2) ∧
    (w.socket.recv.1 = some (Inotispyctl.getQueueSize path) → ∃ w' reply, zmqHandleEvent w = .ok ((), w') ∧
      Sent reply w.socket w'.socket ∧ Inotispyctl.queueSizeListed σ otherInt path reply =
        .ok (path ++ str "  " ++ percentD (w.roots.heap root).events.length ++ str "\n") ∧
      Live (canonicalPath path) root w'.roots ∧ (w'.roots.heap root).events = (w.roots.heap root).events) :=
  ⟨fun _ _ small requested received => events_listed implements succeed agreed served live prints otherInt small requested
      received,
    fun received => queue_size_listed implements succeed agreed served live otherInt received⟩

end

/-! ## Roots -/

theorem requestOf_listRoots {takes : Char → Bool} (implements : ImplementsJson σ takes) :
    requestOf σ (throughBrace (CString.ofBuffer Inotispyctl.listRoots)) =
      some ⟨some (str "get_roots"), some Inotispyctl.listRoots, .object [(str "call", .string (str "get_roots"))]⟩ := by
  have object : IsObject takes Inotispyctl.listRoots [(str "call", .string (str "get_roots"))] := rfl
  have parsed : System.jsonTokenerParse (σ := σ) Inotispyctl.listRoots =
      some (.object [(str "call", .string (str "get_roots"))]) :=
    (implements.exact _ _).mpr ⟨_, [], (List.append_nil _).symm, object⟩
  have whole : throughBrace (CString.ofBuffer Inotispyctl.listRoots) = Inotispyctl.listRoots := rfl
  rw [whole, requestOf_object parsed object rfl]
  rfl

def StillLive (before : RootTable) (w : World σ) : Prop :=
  ∀ entry : {entry : Str × RootRef // Live entry.1 entry.2 before},
    Lifecycle w.roots w.pool.threads ∧ Live entry.1.1 entry.1.2 w.roots

theorem steady_stillLive (before : RootTable) : Steady fun w : World σ => StillLive before w :=
  .all fun entry => (living_live entry.1.1 entry.1.2).toSteady

/-- The client prints all roots that are live, each once, and none that has not been registered. -/
theorem roots_listed_truly {takes : Char → Bool} (implements : ImplementsJson σ takes) (prints : PrintsJson σ takes)
    (succeed : AllocationsSucceed σ) (otherInt : Json → Int32) {w : World σ} (served : Served w)
    (received : w.socket.recv.1 = some Inotispyctl.listRoots) :
    ∃ (w' : World σ) (reply : Str) (roots : List Str), zmqHandleEvent w = .ok ((), w') ∧ Sent reply w.socket w'.socket ∧
      Inotispyctl.rootsListed σ otherInt reply =
        .ok (linesOr (str "There are no currently watched roots\n") (roots.map rootLine)) ∧
      roots.Nodup ∧ (∀ key ∈ roots, ∃ root, w.roots.inotifyRoots.lookup key = some root) ∧
      ∀ key root, Live key root w.roots → key ∈ roots := by
  have steady := (steady_life.and (steady_within w.roots)).and (steady_stillLive (σ := σ) w.roots)
  obtain ⟨_, w', ran, _⟩ := zmqHandleEvent_sound succeed w (served.sound succeed)
  obtain ⟨v, handled, pending, replies, _, _, holds⟩ := request_dispatched succeed (served.sound succeed) received
    (requestOf_listRoots implements) ⟨steady, fun _ _ => id⟩
    ⟨⟨served.life, fun _ _ => id⟩, fun entry => ⟨served.life, entry.2⟩⟩
  rw [handled] at ran
  obtain ⟨u, when_, replied⟩ := eventGetRoots_replies holds.1.1 ran
  have between : (Lifecycle u.roots u.pool.threads ∧ Within w.roots u) ∧ StillLive w.roots u := by
    rcases when_ with rfl | yielding
    · exact holds
    · exact steady.yieldMain v holds () u yielding
  generalize is : w'.socket = after at replied
  cases replied with
  | listed roots reply once all lists =>
    have printed : Inotispyctl.rootsListed σ otherInt reply =
        .ok (linesOr (str "There are no currently watched roots\n") (roots.map rootLine)) := by
      rcases lists with rfl | ⟨rfl, rfl⟩
      · rw [Inotispyctl.rootsListed_array implements otherInt (isObject_roots prints roots), printRoots_strings]
      · rw [Inotispyctl.rootsListed_array implements otherInt isObject_empty]
        rfl
    have sent : Sent reply v.socket w'.socket := by
      rw [is]
      exact sent_send pending reply
    refine ⟨w', reply, roots, handled.trans ran, sent.of_replies replies, printed, once, ?_, ?_⟩
    · intro key member
      obtain ⟨root, found⟩ := (all key).mp member
      exact ⟨root, between.1.2 key root found⟩
    · intro key root live
      exact (all key).mpr ⟨root, (between.2 ⟨(key, root), live⟩).2.registered⟩
  | failed refused => exact absurd succeed refused
  | silent refused => exact absurd succeed refused

/-! ## On a computed json-c -/

/-- An outside whose json-c reads and prints, and where every file is a directory without entries. -/
structure Peer where

instance : System Peer where
  malloc s := (true, s)
  pthreadCreate s := (true, s)
  opendir s _ := (true, s)
  readdir s _ := (some [], s)
  lstat s _ := (.dir, s)
  statIsDir s _ := (true, s)
  inotifyAddWatch s _ _ := (1, s)
  inotifyRmWatch s _ := (0, s)
  fopenDump s := (true, s)
  getpid _ := 1
  uptime _ := 0
  jsonTokenerParse := JsonText.value? (fun _ => false) .start
  jsonObjectToJsonString := JsonText.write

theorem Peer.implements : ImplementsJson Peer fun _ => false where
  null := rfl
  exact text members := by
    refine JsonText.value?_eq_some.trans ?_
    constructor
    · rintro ⟨object, rest, found, split, ran, same⟩
      cases same
      exact ⟨object, rest, split, ran⟩
    · rintro ⟨object, rest, split, ran⟩
      exact ⟨object, rest, members, split, ran, rfl⟩

theorem Peer.prints : PrintsJson Peer fun _ => false where
  exact _ printable := JsonText.isObject_write printable

theorem agreed_srv : Agreed (fun _ => false) (str "/srv/") where
  null := by decide
  plain := by simp [str, JsonText.plain]
  trimmed := by decide

theorem srv_watched (message : Str) : ∃ w : World Peer, Served w ∧ w.socket.recv.1 = some message ∧
    Live (str "/srv") 0 w.roots ∧
    (w.roots.heap 0).events.map Event.line = [str "/srv/b  256\n", str "/srv/c  512\n", str "/srv/d  256\n"] := by
  have facts : ((Program.forEach Action.perform [.request (.about "watch" "/srv"), .thread 0, .thread 0,
      .record ⟨1, inCreate, 0, 16, str "a"⟩, .record ⟨1, inCreate, 0, 16, str "b"⟩,
      .request (.about "get_events" "/srv"), .record ⟨1, inDelete, 0, 16, str "c"⟩, .thread 0,
      .record ⟨1, inCreate, 0, 16, str "d"⟩] (World.initial (⟨⟩ : Peer))).toOption.map fun r =>
        decide (r.2.roots.inotifyRoots.lookup (str "/srv") = some 0 ∧ (r.2.roots.heap 0).destroy = false ∧
          (r.2.roots.heap 0).events.map Event.line =
            [str "/srv/b  256\n", str "/srv/c  512\n", str "/srv/d  256\n"])) = some true := by decide +kernel
  obtain ⟨⟨_, w⟩, ran, is⟩ := Option.map_eq_some_iff.mp facts
  obtain ⟨registered, running, lines⟩ := of_decide_eq_true is
  have run := ServerStep.of_forEach (by simp [Action.Possible]) (Program.ok_of_toOption ran)
  have received : ServerStep (.receive ⟨[some message], false, []⟩) w { w with socket := ⟨[some message], false, []⟩ } :=
    ⟨trivial, rfl⟩
  exact ⟨_, ⟨_, run.tail ⟨_, received⟩⟩, rfl, ⟨registered, running⟩, lines⟩

/-- The three events in "/srv" are counted, or the first two of them are printed and the third is left. -/
theorem queue_listed_truly_three :
    (∃ (w w' : World Peer) (reply : Str), zmqHandleEvent w = .ok ((), w') ∧
      Inotispyctl.queueSizeListed Peer (fun _ => 0) (str "/srv/") reply = .ok (str "/srv/  3\n")) ∧
    ∃ (w w' : World Peer) (reply : Str), zmqHandleEvent w = .ok ((), w') ∧
      Inotispyctl.eventsListed Peer (fun _ => 0) reply = .ok (str "/srv/b  256\n/srv/c  512\n") ∧
      (w'.roots.heap 0).events.map Event.line = [str "/srv/d  256\n"] := by
  constructor
  · obtain ⟨w, served, received, live, lines⟩ := srv_watched (Inotispyctl.getQueueSize (str "/srv/"))
    obtain ⟨w', reply, ran, _, listed, _⟩ := (queue_listed_truly Peer.implements (fun _ => rfl) agreed_srv served live
      Peer.prints (fun _ => 0)).2 received
    have three := congrArg List.length lines
    rw [List.length_map] at three
    rw [three] at listed
    exact ⟨w, w', reply, ran, listed⟩
  · obtain ⟨w, served, received, live, lines⟩ :=
      srv_watched (Inotispyctl.getEventsRaw (str "/srv/") (CString.atoi (str "2")))
    obtain ⟨w', reply, ran, _, listed, _, left⟩ := (queue_listed_truly Peer.implements (fun _ => rfl) agreed_srv served
      live Peer.prints (fun _ => 0)).1 (str "2") _ (by decide) rfl received
    obtain ⟨b, events, is, first, lines⟩ := List.map_eq_cons_iff.mp lines
    obtain ⟨c, events, rfl, second, lines⟩ := List.map_eq_cons_iff.mp lines
    obtain ⟨d, rfl, third⟩ := List.map_eq_singleton_iff.mp lines
    have shares : handedOut (str "2") [b, c, d] = ([b, c], [d]) := rfl
    rw [is, shares] at listed left
    refine ⟨w, w', reply, ran, ?_, ?_⟩
    · rw [listed, List.map_cons, List.map_singleton, first, second]
      rfl
    · rw [left, List.map_singleton, third]

theorem roots_listed_truly_srv : ∃ (w w' : World Peer) (reply : Str) (roots : List Str), zmqHandleEvent w = .ok ((), w') ∧
    Inotispyctl.rootsListed Peer (fun _ => 0) reply =
      .ok (linesOr (str "There are no currently watched roots\n") (roots.map rootLine)) ∧ str "/srv" ∈ roots := by
  obtain ⟨w, served, received, live, _⟩ := srv_watched Inotispyctl.listRoots
  obtain ⟨w', reply, roots, ran, _, listed, _, _, all⟩ := roots_listed_truly Peer.implements Peer.prints (fun _ => rfl)
    (fun _ => 0) served received
  exact ⟨w, w', reply, roots, ran, listed, all _ 0 live⟩

end Inotispy
