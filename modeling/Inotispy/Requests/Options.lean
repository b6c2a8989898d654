import Inotispy.Events.Queue
import Inotispy.Requests.Addressing
import Inotispy.Requests.Whole

/-! The integers in a request.

The function that reads one returns -1 both for a key that is missing and for the integer -1, and
each of its callers makes something else of that. What a request asks for is done exactly when none
of its integers is the one that its caller takes for a missing key.
-/

set_option autoImplicit false

namespace Inotispy
open Library

variable {σ : Type}

/-! ## Queues that can be counted -/

/-- The number of events in a queue is always an `int`. -/
def Countable (roots : RootTable) : Prop := ∀ root, (roots.heap root).events.length < 2 ^ 31

namespace Countable

theorem setRoot {roots : RootTable} (countable : Countable roots) (root : RootRef) (change : Root → Root)
    (fits : (change (roots.heap root)).events.length < 2 ^ 31) : Countable (roots.setRoot root change) := by
  intro other
  by_cases same : other = root
  · subst same
    rwa [RootTable.heap_setRoot_self]
  · rw [RootTable.heap_setRoot_of_ne same]
    exact countable other

theorem requeue {roots : RootTable} (countable : Countable roots) (root : RootRef) {queue : List Event}
    (fits : queue.length < 2 ^ 31) :
    Countable (roots.setRoot root fun r => { r with queue := r.queue.map fun _ => queue }) := by
  apply countable.setRoot
  unfold Root.events
  cases (roots.heap root).queue with
  | none => exact Nat.two_pow_pos 31
  | some old => exact fits

theorem register {roots : RootTable} (countable : Countable roots) (path : Str) {made : Root}
    (empty : made.queue = some []) : Countable (roots.register path made) := by
  intro other
  by_cases same : other = roots.nextRoot
  · subst same
    simp [RootTable.register, Root.events, empty]
  · simp only [RootTable.register, Function.update_of_ne same]
    exact countable other

theorem effect {thread : Thread} {before after : RootTable} (countable : Countable before)
    (effect : RootsEffect thread before after) : Countable after := by
  cases effect with
  | same => exact countable
  | free root => exact countable.setRoot root (fun r => { r with queue := none }) (Nat.two_pow_pos 31)
  | remove => exact countable

end Countable

section
variable [System σ]

theorem steady_countable : SteadyMute fun w : World σ => Countable w.roots where
  toSteady := .of_tables (fun roots _ => Countable roots) fun effect holds => holds.effect effect.roots
  mute _ _ := id

omit [System σ] in
theorem countable_inPlace : InPlace fun w : World σ => Countable w.roots where
  pauses _ root pause holds := holds.setRoot root (fun r => { r with pause := pause }) (holds root)
  marks _ root holds := holds.setRoot root (fun r => { r with destroy := true }) (holds root)
  drops w root taken holds := by
    apply holds.requeue root
    rw [List.length_drop]
    have before := holds root
    omega

theorem countable_watches (path : Str) (mask : UInt32) (maxEvents : Int32) (rewatch : Bool) :
    Keeps (fun w : World σ => Countable w.roots) (inotifyWatchTree path mask maxEvents rewatch) :=
  inotifyWatchTree_keeps steady_countable.toSteady (fun _ holds _ made _ => holds.register _ made.queue) mask
    maxEvents rewatch

/-- A record is queued only where there are fewer events than the root's limit, which is an `int`. -/
theorem countable_records (event : InEvent) :
    Keeps (fun w : World σ => Countable w.roots) (inotifyHandleRecord event) := by
  have steady : Steady fun w : World σ => Countable w.roots ∧ True := steady_countable.toSteady.and .always
  apply inotifyHandleRecord_triple (fun _ _ _ => True) steady_countable.toSteady fun _ _ => steady
  · exact fun _ _ => ⟨fun _ _ _ _ _ => id, fun _ _ => id⟩
  · exact fun _ _ _ _ _ _ _ _ => trivial
  · intro path root
    refine (inotifyEnqueue_adds steady_countable.toSteady (fun _ => id) event ?_).strengthen fun _ => And.left
    intro w node _ holds room
    apply holds.requeue root
    rw [le_queueLength_iff (holds root), Int.not_le] at room
    have limit := (w.roots.heap root).maxEvents.toInt_lt
    rw [List.length_append, List.length_singleton]
    omega

theorem ServerStep.countable {action : Action} {w w' : World σ} (step : ServerStep action w w')
    (holds : Countable w.roots) : Countable w'.roots := by
  refine step.keeps holds steady_countable ?_ (fun path mask maxEvents rewatch _ =>
    countable_watches path mask maxEvents rewatch) countable_records
  intro req _
  have steady := steady_countable (σ := σ)
  constructor
  · exact steady
  · exact fun path mask maxEvents rewatch _ => countable_watches path mask maxEvents rewatch
  · exact fun _ path _ => inotifyUnwatchTree_keeps steady.toSteady countable_inPlace (fun _ _ => id) path
  · exact setPause_keeps steady.toSteady countable_inPlace
  · exact fun _ path count _ => inotifyGetEvents_keeps steady.toSteady countable_inPlace (fun _ _ => id) path count
  · rintro key root w ⟨holds, _⟩ queue w' ran
    have ran' : (rootQueue root >>= pure) w = .ok (queue, w') := by rwa [bind_pure]
    rw [rootQueue_bind, Program.pure_eq_ok] at ran'
    rw [ran'.2]
    exact holds

theorem Served.countable {w : World σ} (served : Served w) : Countable w.roots := by
  obtain ⟨sys, run⟩ := served
  induction run with
  | refl => exact fun _ => Nat.two_pow_pos 31
  | tail _ step ih =>
    obtain ⟨action, step⟩ := step
    exact step.countable ih

theorem Served.sound (succeed : AllocationsSucceed σ) {w : World σ} (served : Served w) : Sound w := by
  obtain ⟨sys, run⟩ := served
  induction run with
  | refl => exact .initial sys
  | tail _ step ih =>
    obtain ⟨action, step⟩ := step
    exact step.sound succeed ih

end

/-! ## Counts -/

def eventJobj (event : Event) : Json :=
  .object ([(str "name", .string (event.name.getD [])), (str "path", .string (event.path.getD [])),
    (str "mask", .int event.mask.toInt32.toInt)] ++
      if event.cookie ≠ 0 then [(str "cookie", .int event.cookie.toInt32.toInt)] else [])

theorem eventsToJarr_eq_ok {items : List Event} {jarr : List Json} {w w' : World σ}
    (ran : eventsToJarr items w = .ok (jarr, w')) : jarr = items.map eventJobj ∧ w' = w := by
  induction items generalizing jarr w w' with
  | nil => exact Program.pure_eq_ok.mp ran
  | cons event rest ih =>
    obtain ⟨first, v, one, more⟩ := Program.bind_eq_ok ran
    simp only [inotifyEventToJobj, deref_bind_eq_ok, Program.pure_eq_ok] at one
    obtain ⟨path, located, name, named, rfl, rfl⟩ := one
    obtain ⟨later, u, others, last⟩ := Program.bind_eq_ok more
    obtain ⟨rfl, rfl⟩ := ih others
    obtain ⟨rfl, rfl⟩ := Program.pure_eq_ok.mp last
    simp only [List.map_cons, eventJobj, located, named, Option.getD_some, and_self]

theorem take_dequeueCount_eq_nil {queue : List Event} {count : Int32} (nonneg : 0 ≤ count.toInt) :
    queue.take (dequeueCount queue count) = [] ↔ queue = [] := by
  rw [dequeueCount_take]
  split
  · rfl
  · rename_i nonzero
    have nonzero : count.toInt ≠ 0 := fun is => nonzero (Int32.toInt_inj.mp is)
    have positive : count.toInt.toNat ≠ 0 := by omega
    rw [List.take_eq_nil_iff, or_iff_right positive]

theorem RootsEffect.queue {thread : Thread} {before after : RootTable} (effect : RootsEffect thread before after)
    (root : RootRef) : (after.heap root).queue = (before.heap root).queue ∨ (after.heap root).queue = none := by
  cases effect with
  | same => exact .inl rfl
  | free freed =>
    by_cases same : root = freed
    · subst same
      rw [RootTable.heap_setRoot_self]
      exact .inr rfl
    · rw [RootTable.heap_setRoot_of_ne same]
      exact .inl rfl
  | remove => exact .inl rfl

section
variable [System σ]

theorem steady_queue (root : RootRef) (queue : Option (List Event)) :
    Steady fun w : World σ => (w.roots.heap root).queue = queue ∨ (w.roots.heap root).queue = none := by
  apply Steady.of_tables fun roots _ => (roots.heap root).queue = queue ∨ (roots.heap root).queue = none
  intro thread w w' effect holds
  rcases effect.roots.queue root with same | freed
  · rwa [same]
  · exact .inr freed

theorem inotifyDequeue_takes (succeed : AllocationsSucceed σ) {root : RootRef} {count : Int32}
    (nonneg : 0 ≤ count.toInt) {w w' : World σ} (countable : Countable w.roots) {got : Dequeued}
    (ran : inotifyDequeue root count w = .ok (got, w')) :
    ∃ u queue, lock .inotify w = .ok ((), u) ∧ (u.roots.heap root).events = queue ∧
      got = (if queue = [] then .null else .events (queue.take (dequeueCount queue count))) ∧
      ((w'.roots.heap root).queue = some (queue.drop (dequeueCount queue count)) ∨
        (w'.roots.heap root).queue = none) := by
  obtain ⟨_, u, locking, ran⟩ := Program.bind_eq_ok ran
  have fits := steady_countable.toSteady.lock .inotify w countable _ _ locking root
  refine ⟨u, _, locking, rfl, ?_⟩
  simp only [rootQueue_bind, Program.ite_eq_ok, malloc_bind, setRootQueue_bind, queueLength_eq_zero fits,
    toNat_dequeueCount fits nonneg] at ran
  obtain ⟨empty, ran⟩ | ⟨some_, ⟨failed, _⟩ | ⟨_, ran⟩⟩ := ran
  · obtain ⟨rfl, after⟩ := (steady_queue root (u.roots.heap root).queue).of_unlock_pure ran (.inl rfl)
    refine ⟨(if_pos empty).symm, ?_⟩
    rw [empty, List.drop_nil]
    unfold Root.events at empty
    cases queue : (u.roots.heap root).queue with
    | none => exact .inr (after.elim (·.trans queue) id)
    | some events =>
      rw [queue, Option.getD_some] at empty
      rwa [queue, empty] at after
  · simp [succeed u.sys] at failed
  · have kept := (steady_queue root (some ((u.roots.heap root).events.drop
      (dequeueCount (u.roots.heap root).events count)))).of_unlock_pure ran
    obtain ⟨rfl, after⟩ := kept (by
      rw [RootTable.heap_setRoot_self]
      cases queue : (u.roots.heap root).queue with
      | none => exact .inr rfl
      | some events => exact .inl rfl)
    exact ⟨(if_neg some_).symm, after⟩

def eventsText (σ : Type) [System σ] (items : List Event) : Str :=
  if items = [] then emptyData
  else System.jsonObjectToJsonString (σ := σ) (.object [(str "data", .array (items.map eventJobj))])

def Request.HasInt (req : Request) (key : Str) (value : Int) : Prop := req.parser.objectGet key = some (.int value)

theorem eventGetEvents_takes (succeed : AllocationsSucceed σ) {req : Request} {path : Str} {root : RootRef}
    {w w' : World σ} (countable : Countable w.roots) (pending : w.socket.pending = true)
    (asked : requestGetPath req = some path) (registered : w.roots.inotifyRoots.lookup path = some root)
    (nonneg : 0 ≤ (requestGetCount req).toInt) (ran : eventGetEvents req w = .ok ((), w')) :
    ∃ u queue, lock .inotify w = .ok ((), u) ∧ (u.roots.heap root).events = queue ∧
      Sent (eventsText σ (queue.take (dequeueCount queue (requestGetCount req)))) w.socket w'.socket ∧
      ((w'.roots.heap root).queue = some (queue.drop (dequeueCount queue (requestGetCount req))) ∨
        (w'.roots.heap root).queue = none) := by
  have given : requestGetCount req ≠ -1 := by
    intro is
    rw [is] at nonneg
    exact absurd nonneg (by decide)
  simp only [eventGetEvents, asked, inotifyIsRoot, Program.read_bind_apply, registered, Option.isNone_some,
    Bool.false_eq_true, if_false, given] at ran
  obtain ⟨got, v, getting, ran⟩ := Program.bind_eq_ok ran
  have same := inotifyGetEvents_socket path _ w rfl got v getting
  simp only [inotifyGetEvents, inotifyIsRoot, Program.read_bind_apply, registered] at getting
  obtain ⟨u, queue, locking, is, rfl, left_⟩ := inotifyDequeue_takes succeed nonneg countable getting
  refine ⟨u, queue, locking, is, ?_⟩
  -- Whatever is sent leaves the queue alone.
  have sends : ∀ text, replySendMessage text v = .ok ((), w') → Sent text w.socket w'.socket ∧
      (w'.roots.heap root).queue = (v.roots.heap root).queue := by
    intro text sending
    obtain ⟨s, sent⟩ := replySendMessage_run succeed text v
    obtain ⟨_, rfl⟩ := Program.ok_unique sending sent
    refine ⟨?_, rfl⟩
    rw [← same] at pending ⊢
    exact sent_send pending text
  unfold eventsText
  rw [ite_congr (propext (take_dequeueCount_eq_nil nonneg)) (fun _ => rfl) fun _ => rfl]
  by_cases empty : queue = []
  · simp only [empty, if_true] at ran left_ ⊢
    obtain ⟨sent, same⟩ := sends _ ran
    rw [same]
    exact ⟨sent, left_⟩
  · simp only [empty, if_false] at ran ⊢
    obtain ⟨jarr, t, listing, sending⟩ := Program.bind_eq_ok ran
    obtain ⟨rfl, rfl⟩ := eventsToJarr_eq_ok listing
    obtain ⟨sent, same⟩ := sends _ sending
    rw [same]
    exact ⟨sent, left_⟩

omit [System σ] in
theorem requestGetCount_nonneg {req : Request} (given : requestGetCount req ≠ -1) : 0 ≤ (requestGetCount req).toInt := by
  revert given
  unfold requestGetCount
  dsimp only
  split
  · decide
  · split
    · exact fun minus => absurd rfl minus
    · next nonneg => exact fun _ => Int32.le_iff_toInt_le.mp (Int32.not_lt.mp nonneg)

theorem eventGetEvents_live (succeed : AllocationsSucceed σ) {key : Str} {root : RootRef} {queue : List Event}
    {w w' : World σ} (before : Lifecycle w.roots w.pool.threads ∧ Live key root w.roots)
    (there : (w.roots.heap root).queue = some queue) (countable : Countable w.roots) (pending : w.socket.pending = true)
    {req : Request} (asked : requestGetPath req = some key) (given : requestGetCount req ≠ -1)
    (after : Lifecycle w'.roots w'.pool.threads ∧ Live key root w'.roots) (ran : eventGetEvents req w = .ok ((), w')) :
    Sent (eventsText σ (queue.take (dequeueCount queue (requestGetCount req)))) w.socket w'.socket ∧
      (w'.roots.heap root).queue = some (queue.drop (dequeueCount queue (requestGetCount req))) := by
  obtain ⟨u, found, locking, events, sent, left_⟩ := eventGetEvents_takes succeed countable pending asked
    before.2.registered (requestGetCount_nonneg given) ran
  -- The other threads had their turn before the mutex was locked.
  have between := (living_live (σ := σ) key root).toSteady.lock .inotify w before () u locking
  have kept := (steady_queue root (some queue)).lock .inotify w (.inl there) () u locking
  obtain rfl : found = queue := by
    rw [← events, Root.events, kept.resolve_right (between.1.queue_of_live between.2), Option.getD_some]
  exact ⟨sent, left_.resolve_right (after.1.queue_of_live after.2)⟩

omit [System σ] in
theorem errorText_ne_emptyData : errorText .invalidEventCount ≠ emptyData := by decide +kernel

/-- What a request for `v` events is to do with the queue of this root. -/
structure CountMeant (req : Request) (root : RootRef) (v : Int32) (w : World σ) : Prop where
  refused : v < 0 → ∃ w', zmqDispatchEvent req w = .ok ((), w') ∧
    Sent (errorText .invalidEventCount) w.socket w'.socket ∧
      (w'.roots.heap root).queue = (w.roots.heap root).queue
  taken : 0 ≤ v → ∃ queue w', (w.roots.heap root).queue = some queue ∧ zmqDispatchEvent req w = .ok ((), w') ∧
    Sent (eventsText σ (queue.take (dequeueCount queue v))) w.socket w'.socket ∧
      (w'.roots.heap root).queue = some (queue.drop (dequeueCount queue v))

theorem getInt_eq_neg_one {value : Int} : Json.getInt value = -1 ↔ value = -1 := by
  unfold Json.getInt
  rw [← Int32.toInt_inj, Int32.toInt_ofInt_of_le (by omega) (by omega)]
  change _ = (-1 : Int) ↔ _
  omega

theorem getInt_toInt (v : Int32) : Json.getInt v.toInt = v := by
  have above := v.le_toInt
  have below := v.toInt_lt
  have inside : max (-2147483648) (min 2147483647 v.toInt) = v.toInt := by omega
  rw [Json.getInt, inside, Int32.ofInt_toInt]

theorem Request.HasInt.read {req : Request} {key : Str} {value : Int} (given : req.HasInt key value) :
    requestGetKeyInt req key = Json.getInt value := by
  rw [Request.HasInt] at given
  rw [requestGetKeyInt, given]

theorem requestGetCount_given {req : Request} {v : Int32} (given : req.HasInt (str "count") v.toInt) :
    requestGetCount req = if v = -1 then 1 else if v < 0 then -1 else v := by
  rw [requestGetCount, given.read, getInt_toInt]

/-- The count -1 is taken for none, and one event is handed out. -/
theorem countMeant_iff (succeed : AllocationsSucceed σ) {req : Request} {path : Str} {root : RootRef} {v : Int32}
    {w : World σ} (served : Served w) (pending : w.socket.pending = true) (called : req.call = some (str "get_events"))
    (asked : requestGetPath req = some path) (live : Live path root w.roots)
    (given : req.HasInt (str "count") v.toInt) : CountMeant req root v w ↔ v ≠ -1 := by
  have sound := served.sound succeed
  have start : At false false w.socket w := ⟨sound.inotify, sound.zmq, rfl, sound.whole⟩
  have dispatch : zmqDispatchEvent req w = eventGetEvents req w := by
    rw [zmqDispatchEvent, called]
    rfl
  obtain ⟨_, w', ran, _⟩ := eventGetEvents_sends succeed req w start
  have step : ServerStep (.request req) w w' := ⟨trivial, dispatch.trans ran⟩
  have watched : ¬Unwatches path (.request req) := by
    rintro ⟨_, _, same, unwatch, _⟩
    cases same
    rw [called] at unwatch
    exact absurd unwatch (by decide)
  have after := step.live watched served.life live
  -- A queue is there, since the root is not being destroyed.
  obtain ⟨queue, there⟩ := Option.ne_none_iff_exists'.mp (served.life.queue_of_live live)
  have handed := fun given => eventGetEvents_live succeed ⟨served.life, live⟩ there served.countable pending asked
    given after ran
  have count := requestGetCount_given given
  constructor
  · rintro meant rfl
    obtain ⟨u, ran', refused, same⟩ := meant.refused (by decide)
    rw [dispatch] at ran'
    obtain ⟨_, rfl⟩ := Program.ok_unique ran ran'
    rw [if_pos rfl] at count
    obtain ⟨sent, left_⟩ := handed (by rw [count]; decide)
    rw [same, there, count] at left_
    by_cases empty : queue = []
    · have text := (List.cons.inj (List.append_cancel_left (refused.symm.trans sent))).1
      rw [empty, List.take_nil] at text
      exact errorText_ne_emptyData text
    · have shorter := congrArg List.length (Option.some.inj left_)
      have positive : queue.length ≠ 0 := fun zero => empty (List.length_eq_zero_iff.mp zero)
      have one : dequeueCount queue 1 = min 1 queue.length := rfl
      rw [List.length_drop, one] at shorter
      omega
  · intro other
    rw [if_neg other] at count
    constructor
    · intro negative
      rw [if_pos negative] at count
      obtain ⟨s, refusing⟩ := replySendFormatted_run succeed (errorText .invalidEventCount) w
      have refused : eventGetEvents req w = replySendError .invalidEventCount w := by
        simp only [eventGetEvents, asked, inotifyIsRoot, Program.read_bind_apply, live.registered, Option.isNone_some,
          Bool.false_eq_true, if_false, count, if_true]
      exact ⟨_, (dispatch.trans refused).trans refusing, sent_send pending _, rfl⟩
    · intro nonneg
      rw [if_neg (Int32.not_lt.mpr nonneg)] at count
      obtain ⟨sent, left_⟩ := handed (count ▸ other)
      rw [count] at sent left_
      exact ⟨queue, w', there, dispatch.trans ran, sent, left_⟩

/-! ## Options of a watch request -/

/-- The root has the options that the integers of the request say. -/
structure OptionsMeant (req : Request) (root : Root) : Prop where
  rewatch : root.rewatch = true ↔ ∃ value, value ≠ 0 ∧ req.HasInt (str "rewatch") value
  mask : ∀ v : Int32, v ≠ 0 → req.HasInt (str "mask") v.toInt → root.mask = v.toUInt32
  maxEvents : ∀ v : Int32, v ≠ 0 → req.HasInt (str "max_events") v.toInt → root.maxEvents = v

/-- None of the integers in the request is one that a watch request takes for something else. -/
structure Unambiguous (req : Request) (defaultEvents : Int32) : Prop where
  rewatchZero : ¬req.HasInt (str "rewatch") 0
  rewatch : ¬req.HasInt (str "rewatch") (-1)
  mask : ¬req.HasInt (str "mask") (-1)
  maxEvents : req.HasInt (str "max_events") (-1) → defaultEvents = -1

section
omit [System σ]
variable {req : Request}

theorem Request.HasInt.unique {key : Str} {value other : Int} (one : req.HasInt key value)
    (two : req.HasInt key other) : value = other :=
  Json.int.inj (Option.some.inj (one.symm.trans two))

theorem requestGetKeyInt_ne {key : Str} :
    requestGetKeyInt req key ≠ -1 ↔ ∃ value, value ≠ -1 ∧ req.HasInt key value := by
  constructor
  · intro present
    unfold requestGetKeyInt at present
    split at present
    · rename_i value given
      exact ⟨value, fun is => present (getInt_eq_neg_one.mpr is), given⟩
    · exact absurd rfl present
  · rintro ⟨value, other, given⟩ is
    rw [given.read] at is
    exact other (getInt_eq_neg_one.mp is)

theorem requestGetIntOrZero_given {key : Str} {v : Int32} (given : req.HasInt key v.toInt) :
    requestGetIntOrZero key req = if v = -1 then 0 else v := by
  rw [requestGetIntOrZero, given.read, getInt_toInt]

variable {root : Root} {defaultEvents : Int32}

theorem rewatchMeant_iff (chosen : root.rewatch = requestGetRewatch req) :
    (root.rewatch = true ↔ ∃ value, value ≠ 0 ∧ req.HasInt (str "rewatch") value) ↔
      ¬req.HasInt (str "rewatch") 0 ∧ ¬req.HasInt (str "rewatch") (-1) := by
  rw [chosen, requestGetRewatch, decide_eq_true_iff, requestGetKeyInt_ne]
  constructor
  · intro meant
    constructor
    · intro zero
      obtain ⟨value, nonzero, given⟩ := meant.mp ⟨0, by decide, zero⟩
      exact nonzero (given.unique zero)
    · intro absent
      obtain ⟨value, other, given⟩ := meant.mpr ⟨-1, by decide, absent⟩
      exact other (given.unique absent)
  · rintro ⟨notZero, notAbsent⟩
    constructor
    · rintro ⟨value, _, given⟩
      exact ⟨value, fun zero => notZero (zero ▸ given), given⟩
    · rintro ⟨value, _, given⟩
      exact ⟨value, fun absent => notAbsent (absent ▸ given), given⟩

theorem maskMeant_iff (chosen : root.mask =
    if requestGetMask req = 0 then inotifyDefaultMask else (requestGetMask req).toUInt32) :
    (∀ v : Int32, v ≠ 0 → req.HasInt (str "mask") v.toInt → root.mask = v.toUInt32) ↔
      ¬req.HasInt (str "mask") (-1) := by
  rw [chosen, requestGetMask]
  constructor
  · intro meant absent
    have is := meant (-1) (by decide) absent
    rw [requestGetIntOrZero_given (v := -1) absent, if_pos rfl, if_pos rfl] at is
    exact absurd is (by decide)
  · intro notAbsent v nonzero given
    have other : v ≠ -1 := by
      rintro rfl
      exact notAbsent given
    rw [requestGetIntOrZero_given given, if_neg other, if_neg nonzero]

theorem maxEventsMeant_iff (chosen : root.maxEvents =
    if requestGetMaxEvents req = 0 then defaultEvents else requestGetMaxEvents req) :
    (∀ v : Int32, v ≠ 0 → req.HasInt (str "max_events") v.toInt → root.maxEvents = v) ↔
      (req.HasInt (str "max_events") (-1) → defaultEvents = -1) := by
  rw [chosen, requestGetMaxEvents]
  constructor
  · intro meant absent
    have is := meant (-1) (by decide) absent
    rwa [requestGetIntOrZero_given (v := -1) absent, if_pos rfl, if_pos rfl] at is
  · intro given v nonzero present
    rw [requestGetIntOrZero_given present]
    by_cases absent : v = -1
    · subst absent
      exact given present
    · rw [if_neg absent, if_neg nonzero]

theorem optionsMeant_iff (chosen : root.options = req.options defaultEvents) :
    OptionsMeant req root ↔ Unambiguous req defaultEvents := by
  obtain ⟨mask, rest⟩ := Prod.mk.inj chosen
  obtain ⟨maxEvents, rewatch⟩ := Prod.mk.inj rest
  constructor
  · intro meant
    obtain ⟨zero, absent⟩ := (rewatchMeant_iff rewatch).mp meant.rewatch
    exact ⟨zero, absent, (maskMeant_iff mask).mp meant.mask, (maxEventsMeant_iff maxEvents).mp meant.maxEvents⟩
  · intro clear
    exact ⟨(rewatchMeant_iff rewatch).mpr ⟨clear.rewatchZero, clear.rewatch⟩, (maskMeant_iff mask).mpr clear.mask,
      (maxEventsMeant_iff maxEvents).mpr clear.maxEvents⟩

end

theorem watched_options {req : Request} {path : Str} {w w' : World σ} (served : Served w)
    (called : req.call = some (str "watch")) (asked : requestGetPath req = some path)
    (step : ServerStep (.request req) w w') (success : Sent successText w.socket w'.socket) :
    ∃ root, w'.roots.inotifyRoots.lookup path = some root ∧
      (w'.roots.heap root).options = req.options w.maxInotifyEvents := by
  have ran := step.ran
  rw [Action.perform, zmqDispatchEvent, called] at ran
  obtain ⟨given, root, asked', live, chosen⟩ := eventWatch_live req w.maxInotifyEvents w
    ⟨⟨⟨served.life, trivial⟩, rfl⟩, rfl⟩ () w' ran success
  rw [asked] at asked'
  cases asked'
  rw [trimSlash_of_asked asked] at live
  exact ⟨root, live.registered, chosen⟩

/-- The integers of a request mean what they say exactly when none of them is taken for a missing
key, and the flag is not zero. -/
theorem integers_meant_iff (succeed : AllocationsSucceed σ) {req : Request} {path : Str} {w : World σ}
    (served : Served w) (asked : requestGetPath req = some path) :
    (∀ (root : RootRef) (v : Int32), req.call = some (str "get_events") → w.socket.pending = true →
      Live path root w.roots → req.HasInt (str "count") v.toInt → (CountMeant req root v w ↔ v ≠ -1)) ∧
    ∀ w', req.call = some (str "watch") → ServerStep (.request req) w w' → Sent successText w.socket w'.socket →
      ∃ root, w'.roots.inotifyRoots.lookup path = some root ∧
        (OptionsMeant req (w'.roots.heap root) ↔ Unambiguous req w.maxInotifyEvents) := by
  constructor
  · exact fun root v called pending live given => countMeant_iff succeed served pending called asked live given
  · intro w' called step success
    obtain ⟨root, registered, chosen⟩ := watched_options served called asked step success
    exact ⟨root, registered, optionsMeant_iff chosen⟩

def Request.withInts (call path : String) (ints : List (String × Int)) : Request :=
  { call := some (str call)
    json := none
    parser := .object ((str "path", .string (str path)) :: ints.map fun entry => (str entry.1, .int entry.2)) }

/-- "/a" is watched with all three options; when three things have happened in it, two events are
asked for. -/
theorem integers_meant_iff_watch_and_count : ∃ (v w : World (Script true)) (root : RootRef),
    OptionsMeant (.withInts "watch" "/a" [("rewatch", 1), ("mask", 256), ("max_events", 3)]) (v.roots.heap root) ∧
      Relation.ReflTransGen (fun x y => ∃ action, ServerStep action x y) v w ∧
      (w.roots.heap root).queue.map List.length = some 3 ∧
      CountMeant (.withInts "get_events" "/a" [("count", 2)]) root 2 w := by
  have start : Served { World.initial (⟨[1]⟩ : Script true) with socket := ⟨[], true, []⟩ } :=
    ⟨_, .single ⟨.receive ⟨[], true, []⟩, trivial, rfl⟩⟩
  have facts : ((zmqDispatchEvent (.withInts "watch" "/a" [("rewatch", 1), ("mask", 256), ("max_events", 3)])
      { World.initial (⟨[1]⟩ : Script true) with socket := ⟨[], true, []⟩ }).toOption.bind fun watched =>
    (Program.forEach Action.perform [.thread 0, .thread 0, .record ⟨1, inCreate, 0, 16, str "b"⟩,
      .record ⟨1, inCreate, 0, 16, str "c"⟩, .record ⟨1, inCreate, 0, 16, str "d"⟩, .receive ⟨[], true, []⟩]
        watched.2).toOption.map fun queued =>
      decide (watched.2.socket.replies = [successText] ∧ watched.2.roots.inotifyRoots.lookup (str "/a") = some 0 ∧
        queued.2.socket.pending = true ∧ queued.2.roots.inotifyRoots.lookup (str "/a") = some 0 ∧
        (queued.2.roots.heap 0).destroy = false ∧ (queued.2.roots.heap 0).queue.map List.length = some 3)) = some true := by
    decide +kernel
  obtain ⟨⟨_, v⟩, watching, facts⟩ := Option.bind_eq_some_iff.mp facts
  obtain ⟨⟨_, w⟩, queueing, facts⟩ := Option.map_eq_some_iff.mp facts
  obtain ⟨success, found, pending, registered, running, three⟩ := of_decide_eq_true facts
  have step : ServerStep (.request (.withInts "watch" "/a" [("rewatch", 1), ("mask", 256), ("max_events", 3)])) _ v :=
    ⟨trivial, Program.ok_of_toOption watching⟩
  obtain ⟨root, found', meant⟩ := (integers_meant_iff (fun _ => rfl) start rfl).2 v rfl step success
  obtain rfl : root = 0 := Option.some.inj (found'.symm.trans found)
  have clear : Unambiguous (.withInts "watch" "/a" [("rewatch", 1), ("mask", 256), ("max_events", 3)]) 65536 := by
    constructor <;> exact nofun
  have run : Relation.ReflTransGen (fun x y => ∃ action, ServerStep action x y) v w := by
    refine ServerStep.of_forEach ?_ (Program.ok_of_toOption queueing)
    simp [Action.Possible]
  have served : Served w := by
    obtain ⟨sys, before⟩ := start
    exact ⟨sys, (before.tail ⟨_, step⟩).trans run⟩
  have counted : CountMeant (.withInts "get_events" "/a" [("count", 2)]) 0 2 w ↔ (2 : Int32) ≠ -1 :=
    (integers_meant_iff (fun _ => rfl) served rfl).1 0 2 rfl pending ⟨registered, running⟩ rfl
  exact ⟨v, w, 0, meant.mpr clear, run, three, counted.mpr (by decide)⟩

/-- An event is queued for "/a", and a request for -1 events takes it; and a watch request without
rewatching sets the flag. -/
theorem integers_taken_for_absent :
    (∃ (w : World (Script true)) (root : RootRef), Served w ∧ w.socket.pending = true ∧
      Live (str "/a") root w.roots ∧ (w.roots.heap root).queue.map List.length = some 1 ∧
      ¬CountMeant (.withInts "get_events" "/a" [("count", -1)]) root (-1) w) ∧
    ∃ (u v : World (Script true)) (root : RootRef), Served u ∧
      ServerStep (.request (.withInts "watch" "/a" [("rewatch", 0)])) u v ∧ Sent successText u.socket v.socket ∧
      v.roots.inotifyRoots.lookup (str "/a") = some root ∧
      ¬OptionsMeant (.withInts "watch" "/a" [("rewatch", 0)]) (v.roots.heap root) := by
  constructor
  · have ran : ((Program.forEach Action.perform [.request (.about "watch" "/a"), .thread 0, .thread 0,
        .record ⟨1, inCreate, 0, 16, str "b"⟩, .receive ⟨[], true, []⟩]
        (World.initial (⟨[1]⟩ : Script true))).toOption.map fun r =>
          (r.2.socket.pending, r.2.roots.inotifyRoots.lookup (str "/a"), (r.2.roots.heap 0).destroy,
            (r.2.roots.heap 0).queue.map List.length)) = some (true, some 0, false, some 1) := by decide +kernel
    obtain ⟨⟨_, w⟩, is, same⟩ := Option.map_eq_some_iff.mp ran
    simp only [Prod.mk.injEq] at same
    obtain ⟨pending, registered, running, one⟩ := same
    have served : Served w := by
      refine ⟨_, ServerStep.of_forEach ?_ (Program.ok_of_toOption is)⟩
      simp [Action.Possible]
    have refused : CountMeant (.withInts "get_events" "/a" [("count", -1)]) 0 (-1) w ↔ (-1 : Int32) ≠ -1 :=
      countMeant_iff (fun _ => rfl) served pending rfl rfl ⟨registered, running⟩ rfl
    exact ⟨w, 0, served, pending, ⟨registered, running⟩, one, fun meant => refused.mp meant rfl⟩
  · have start : Served { World.initial (⟨[]⟩ : Script true) with socket := ⟨[], true, []⟩ } :=
      ⟨_, .single ⟨.receive ⟨[], true, []⟩, trivial, rfl⟩⟩
    have watched : ∃ v, ServerStep (.request (.withInts "watch" "/a" [("rewatch", 0)]))
        { World.initial (⟨[]⟩ : Script true) with socket := ⟨[], true, []⟩ } v ∧
          Sent successText ⟨[], true, []⟩ v.socket := ⟨_, ⟨trivial, rfl⟩, rfl⟩
    obtain ⟨v, step, success⟩ := watched
    obtain ⟨root, registered, chosen⟩ := watched_options start rfl rfl step success
    exact ⟨_, v, root, start, step, success, registered, fun meant =>
      ((optionsMeant_iff chosen).mp meant).rewatchZero rfl⟩

end

end Inotispy
