import Inotispy.Events.Effects
import Inotispy.Locks.Requests
import Inotispy.Model.Script

/-! Which calls leave the mutexes as they found them.

Three ways out do not: `inotify_enqueue` without memory for its node, `zmq_handle_event`
without memory for its message, and a request for the size of a queue that names none.
-/

set_option autoImplicit false

namespace Inotispy
open Library

variable {σ : Type}

/-- The call leaves both mutexes free. On its way it has locked none that it held and unlocked
none that it did not hold. -/
structure BalancedAt {A : Type} (x : M σ A) (w : World σ) : Prop where
  frees : ∀ a w', x w = .ok (a, w') → Holds false false w'
  once : ∀ mutex, x w ≠ .error (.relock mutex)

theorem BalancedAt.of_spares {A : Type} {x : M σ A} {w : World σ}
    (spares : Spares Fault.Crash (· = w) x fun _ => Holds false false) : BalancedAt x w := by
  have outcome := spares w rfl
  constructor
  · intro a w' ran
    rw [ran] at outcome
    exact outcome
  · intro mutex stuck
    rw [stuck] at outcome
    exact outcome

theorem BalancedAt.of_balanced {A : Type} {x : M σ A} {w : World σ} (balanced : Balanced false false x)
    (free : Holds false false w) : BalancedAt x w := by
  apply of_spares
  rintro _ rfl
  exact balanced _ free

variable [System σ]

/-! ## Queues -/

/-- The queue is full or its new node is allocated, once other threads have had their turns. -/
def NodeAllocates (root : RootRef) (w : World σ) : Prop :=
  ∀ u, yieldMain w = .ok ((), u) →
    (u.roots.heap root).maxEvents ≤ queueLength (u.roots.heap root).events ∨ (System.malloc u.sys).1 = true

theorem lock_spares {mutex : Mutex} {w : World σ} {z : Bool} (held : Holds false z w)
    (free : mutex = .zmq → z = false) :
    Spares Fault.Crash (· = w) (lock mutex) fun _ v =>
      ∃ u, yieldMain w = .ok ((), u) ∧ Holds false z u ∧ v = { u with locks := u.locks.set mutex true } := by
  intro v is
  have yields := yieldMain_balanced w held
  rw [is, lock, Program.bind_apply]
  cases yielding : yieldMain w with
  | error why =>
    rw [yielding] at yields
    exact yields
  | ok result =>
    obtain ⟨⟨⟩, u⟩ := result
    rw [yielding] at yields
    have unheld : u.locks.held mutex = false := by
      rw [show u.locks = ⟨false, z, false⟩ from yields]
      cases mutex with
      | inotify => rfl
      | zmq => exact free rfl
    simp only [acquire_run unheld]
    exact ⟨u, rfl, yields, rfl⟩

theorem inotifyEnqueue_spares {root : RootRef} {w : World σ} {z : Bool} (held : Holds false z w)
    (allocates : NodeAllocates root w) (event : InEvent) (path : Str) :
    Spares Fault.Crash (· = w) (inotifyEnqueue root event path) fun _ => Holds false z := by
  refine Spares.bind (lock_spares held nofun) fun _ => Spares.assume ?_
  rintro _ ⟨u, yielded, free, locked⟩ v rfl
  have held : Holds true z v := by
    rw [Holds, locked]
    exact congrArg (fun locks : Locks => locks.set .inotify true) free
  have there := allocates u yielded
  rw [show u.sys = v.sys by rw [locked], show u.roots = v.roots by rw [locked]] at there
  simp only [rootQueue_bind, getRoot_bind, Program.ite_apply, malloc_bind]
  by_cases full : (v.roots.heap root).maxEvents ≤ queueLength (v.roots.heap root).events
  · rw [if_pos full]
    exact unlock_pure _ _ held
  · rw [if_neg full]
    have allocated := there.resolve_left full
    simp only [allocated, Bool.not_true, Bool.false_eq_true, if_false]
    -- From here on nothing returns but past the unlock.
    have rest : Takes (σ := σ) true z (do
        let name ← mkString event.name
        let path ← mkString path
        setRootQueue root ((v.roots.heap root).events ++ [makeNode event name path])
        unlock .inotify
        return none : M σ (Option InotispyError)) false z := by
      apply Spares.bind (mkString_lockless _).balanced
      intro name
      apply Spares.bind (mkString_lockless _).balanced
      intro copy
      apply Spares.bind (modifyRoots_lockless _).balanced
      exact fun _ => unlock_pure _
    exact rest _ held

/-- Without memory for the node the function returns with the mutex. -/
theorem inotifyEnqueue_stuck {root : RootRef} {w u : World σ} (yielded : yieldMain w = .ok ((), u))
    (free : Holds false false u) (room : ¬(u.roots.heap root).maxEvents ≤ queueLength (u.roots.heap root).events)
    (failed : (System.malloc u.sys).1 = false) (event : InEvent) (path : Str) :
    ∃ w', inotifyEnqueue root event path w = .ok (some .memoryAllocation, w') ∧ Holds true false w' ∧
      w'.pool = u.pool := by
  have unheld : u.locks.held .inotify = false := congrArg Locks.inotify free
  simp only [inotifyEnqueue, lock, bind_assoc]
  rw [Program.bind_ok _ _ _ _ _ yielded, acquire_bind unheld]
  simp only [rootQueue_bind, getRoot_bind, Program.ite_apply, if_neg room, malloc_bind, failed, Bool.not_false, if_true]
  exact ⟨_, rfl, congrArg (fun locks : Locks => locks.set .inotify true) free, rfl⟩

theorem NodeAllocates.of_balanced {root : RootRef} {w : World σ} (free : Holds false false w) {event : InEvent}
    {path : Str} (balanced : BalancedAt (inotifyEnqueue root event path) w) : NodeAllocates root w := by
  intro u yielded
  have free' := yieldMain_balanced w free
  rw [yielded] at free'
  by_contra fails
  obtain ⟨room, failed⟩ := not_or.mp fails
  obtain ⟨w', ran, held, _⟩ := inotifyEnqueue_stuck yielded free' room (eq_false_of_ne_true failed) event path
  have frees := balanced.frees _ _ ran
  rw [Holds, held] at frees
  cases frees

/-! ## Records -/

/-- A round, up to the queue that the record is offered to. -/
def offerRecord (event : InEvent) : M σ (Nat × Option (Str × RootRef)) := do
  if event.len = 0 then return (inotifyEventSize, none)
  let advance := inotifyEventSize + event.len.toNat
  if hasBit event.mask inQOverflow then
    modifyOutput fun out => { out with overflowReports := out.overflowReports + 1 }
    return (advance, none)
  if skipped event then return (advance, none)
  let some (path, root) ← lookupEvent event.wd | return (advance, none)
  let absPath ← mkString (eventPath path event.name)
  if !(← handleDirectory event path absPath root) then return (advance, none)
  if !hasBit event.mask (← getRoot root).mask then return (advance, none)
  return (advance, some (path, root))

theorem inotifyHandleRecord_eq (event : InEvent) :
    (inotifyHandleRecord event : M σ Round) = (do
      match ← offerRecord event with
      | (advance, none) => return ⟨advance, none⟩
      | (advance, some (path, root)) =>
        let code ← inotifyEnqueue root event path
        return ⟨advance, some (root, code)⟩) := by
  funext w
  simp only [inotifyHandleRecord, offerRecord, Program.ite_apply, Program.ite_bind_apply]
  split
  · rfl
  split
  · rfl
  split
  · rfl
  simp only [bind_assoc]
  refine congrFun (?_ : _ >>= _ = _ >>= _) w
  congr 1
  funext target
  cases target with
  | none => rfl
  | some target =>
    simp only [bind_assoc]
    congr 1
    funext absPath
    congr 1
    funext queued
    cases queued with
    | false => rfl
    | true =>
      simp only [Bool.not_true, Bool.false_eq_true, if_false, bind_assoc]
      congr 1
      funext r
      split <;> rfl

theorem offerRecord_balanced (event : InEvent) : Balanced (σ := σ) false false (offerRecord event) := by
  apply Spares.ite'
  · exact fun _ => (pure_lockless _).balanced
  intro _
  apply Spares.ite'
  · intro _
    apply Spares.bind (modifyOutput_lockless _).balanced
    exact fun _ => (pure_lockless _).balanced
  intro _
  apply Spares.ite'
  · exact fun _ => (pure_lockless _).balanced
  intro _
  apply Spares.bind (lookupEvent_balanced event.wd)
  intro target
  cases target with
  | none => exact (pure_lockless _).balanced
  | some target =>
    apply Spares.bind (mkString_lockless _).balanced
    intro absPath
    apply Spares.bind (handleDirectory_balanced event target.1 absPath target.2)
    intro queued
    apply Spares.ite'
    · exact fun _ => (pure_lockless _).balanced
    intro _
    apply Spares.bind (read_lockless _).balanced
    intro r
    apply Spares.ite' <;> exact fun _ => (pure_lockless _).balanced

/-- Each record that is offered to a queue in turn finds it full or is given a node. -/
def NodesAllocate : List InEvent → World σ → Prop
  | [], _ => True
  | event :: events, w =>
    (∀ advance path root v, offerRecord event w = .ok ((advance, some (path, root)), v) → NodeAllocates root v) ∧
      ∀ round v, inotifyHandleRecord event w = .ok (round, v) → NodesAllocate events v

theorem inotifyHandleRecord_spares {event : InEvent} {w : World σ} (free : Holds false false w)
    (allocates : ∀ advance path root v, offerRecord event w = .ok ((advance, some (path, root)), v) →
      NodeAllocates root v) :
    Spares Fault.Crash (· = w) (inotifyHandleRecord event) fun _ => Holds false false := by
  rw [inotifyHandleRecord_eq]
  refine Spares.bind ((offerRecord_balanced event).remember free) fun offer => Spares.assume ?_
  obtain ⟨advance, _ | ⟨path, root⟩⟩ := offer
  · rintro v ⟨_, held⟩
    exact (pure_lockless _).balanced.strengthen fun u is => is ▸ held
  · rintro v ⟨ran, held⟩
    apply Spares.bind (inotifyEnqueue_spares held (allocates advance path root v ran) event path)
    exact fun code => (pure_lockless _).balanced

theorem inotifyHandleEvent_spares {events : List InEvent} {w : World σ} (free : Holds false false w)
    (allocate : NodesAllocate events w) :
    Spares Fault.Crash (· = w) (inotifyHandleEvent events) fun _ => Holds false false := by
  induction events generalizing w with
  | nil => exact (pure_lockless _).balanced.strengthen fun u is => is ▸ free
  -- What a round leaves decides what the records after it ask for.
  | cons event events ih =>
    have first : Spares Fault.Crash (· = w) (do let _ ← inotifyHandleRecord event; return ()) fun _ v =>
        NodesAllocate events v ∧ Holds false false v := by
      apply Spares.bind ((inotifyHandleRecord_spares free allocate.1).remember rfl)
      exact fun round => Spares.pure' fun v ⟨ran, held⟩ => ⟨allocate.2 round v ran, held⟩
    exact Spares.bind first fun _ => Spares.assume fun v holds => ih holds.2 holds.1

/-- While the mutex is held, records are passed over until one is looked up, which hangs. -/
theorem inotifyHandleEvent_stuck (events : List InEvent) {w : World σ} (alone : w.pool.schedule = [])
    (held : Holds true false w) :
    (∃ w', inotifyHandleEvent events w = .ok ((), w') ∧ Holds true false w') ∨
      inotifyHandleEvent events w = .error (.relock .inotify) := by
  induction events generalizing w with
  | nil => exact .inl ⟨w, rfl, held⟩
  | cons event events ih =>
    have round : (∃ round w', inotifyHandleRecord event w = .ok (round, w') ∧ w'.locks = w.locks ∧ w'.pool = w.pool) ∨
        inotifyHandleRecord event w = .error (.relock .inotify) := by
      simp only [inotifyHandleRecord, Program.ite_apply]
      split
      · exact .inl ⟨_, w, rfl, rfl, rfl⟩
      split
      · exact .inl ⟨_, _, rfl, rfl, rfl⟩
      split
      · exact .inl ⟨_, w, rfl, rfl, rfl⟩
      · right
        have taken : w.locks.held .inotify = true := congrArg Locks.inotify held
        simp only [lookupEvent, lock, bind_assoc, yieldMain_bind alone]
        simp [acquire, Program.bind_apply, taken]
    simp only [inotifyHandleEvent, Program.forEach] at ih ⊢
    obtain ⟨_, v, ran, locks, pool⟩ | stuck := round
    · have first : (do let _ ← inotifyHandleRecord event; return () : M σ Unit) w = .ok ((), v) :=
        Program.bind_ok _ _ _ _ _ ran
      rw [Program.bind_ok _ _ _ _ _ first]
      exact ih (pool ▸ alone) (locks.trans held)
    · right
      simp only [Program.bind_apply, stuck]

theorem offerRecord_schedule {event : InEvent} {w v : World σ} {offer : Nat × Option (Str × RootRef)}
    (alone : w.pool.schedule = []) (ran : offerRecord event w = .ok (offer, v)) : v.pool.schedule = [] := by
  simp only [offerRecord, Program.ite_eq_ok, Program.pure_eq_ok, modifyOutput_bind] at ran
  obtain ⟨_, _, rfl⟩ | ⟨_, ⟨_, _, rfl⟩ | ⟨_, ⟨_, _, rfl⟩ | ⟨_, ran⟩⟩⟩ := ran
  · exact alone
  · exact alone
  · exact alone
  obtain ⟨target, u, looking, ran⟩ := Program.bind_eq_ok ran
  obtain ⟨_, _, s, rfl⟩ := lookupEvent_eq_ok alone looking
  cases target with
  | none =>
    obtain ⟨_, rfl⟩ := Program.pure_eq_ok.mp ran
    exact alone
  | some target =>
    simp only [mkString_bind] at ran
    obtain ⟨queued, x, handling, ran⟩ := Program.bind_eq_ok ran
    have effect := handleDirectory_eq_ok (by exact alone) (ite_eq_or_eq _ _ _) (fun succeed => if_pos (succeed s)) handling
    have same := effect.frame.2.1.trans alone
    simp only [Program.ite_eq_ok, Program.pure_eq_ok, getRoot_bind] at ran
    obtain ⟨_, _, rfl⟩ | ⟨_, ⟨_, _, rfl⟩ | ⟨_, _, rfl⟩⟩ := ran <;> exact same

theorem inotifyHandleRecord_schedule {event : InEvent} {round : Round} {w v : World σ} (alone : w.pool.schedule = [])
    (ran : inotifyHandleRecord event w = .ok (round, v)) : v.pool.schedule = [] := by
  obtain ⟨_, ⟨s, n, rfl⟩, _⟩ | ⟨path, root, queued, u, _, _, effect, ⟨_, rfl⟩ | ⟨code, _, _, _, offering⟩⟩ :=
    inotifyHandleRecord_eq_ok alone ran
  · exact alone
  · exact effect.frame.2.1.trans alone
  · have same := effect.frame.2.1.trans alone
    obtain ⟨s, locks, used, ⟨_, rfl⟩ | ⟨name, copy, _, _, _, _, rfl⟩⟩ := inotifyEnqueue_eq_ok same offering <;> exact same

theorem NodesAllocate.of_balanced {events : List InEvent} {w : World σ} (alone : w.pool.schedule = [])
    (free : Holds false false w) (balanced : BalancedAt (inotifyHandleEvent events) w) : NodesAllocate events w := by
  induction events generalizing w with
  | nil => trivial
  | cons event events ih =>
    have step {round : Round} {v : World σ} (ran : inotifyHandleRecord event w = .ok (round, v)) :
        inotifyHandleEvent (event :: events) w = inotifyHandleEvent events v := by
      have first : (do let _ ← inotifyHandleRecord event; return () : M σ Unit) w = .ok ((), v) :=
        Program.bind_ok _ _ _ _ _ ran
      simp only [inotifyHandleEvent, Program.forEach]
      rw [Program.bind_ok _ _ _ _ _ first]
    have allocates : ∀ advance path root v, offerRecord event w = .ok ((advance, some (path, root)), v) →
        NodeAllocates root v := by
      intro advance path root v offered u yielded
      have alone' := offerRecord_schedule alone offered
      have free' := offerRecord_balanced event w free
      rw [offered] at free'
      obtain ⟨_, rfl⟩ := Program.ok_unique (yieldMain_alone alone') yielded
      by_contra fails
      obtain ⟨room, failed⟩ := not_or.mp fails
      -- The queue takes no node, and the rest of the buffer finds the mutex held.
      obtain ⟨w', ran, held, pool⟩ :=
        inotifyEnqueue_stuck yielded free' room (eq_false_of_ne_true failed) event path
      have round : inotifyHandleRecord event w = .ok (⟨advance, some (root, some .memoryAllocation)⟩, w') := by
        rw [inotifyHandleRecord_eq, Program.bind_ok _ _ _ _ _ offered]
        exact Program.bind_ok _ _ _ _ _ ran
      obtain ⟨x, ends, kept⟩ | hangs := inotifyHandleEvent_stuck events (pool ▸ alone') held
      · have frees := balanced.frees _ _ ((step round).trans ends)
        rw [Holds, kept] at frees
        cases frees
      · exact balanced.once _ ((step round).trans hangs)
    refine ⟨allocates, fun round v ran => ?_⟩
    have free' := inotifyHandleRecord_spares free allocates w rfl
    rw [ran] at free'
    exact ih (inotifyHandleRecord_schedule alone ran) free' ⟨fun a w' ran' => balanced.frees a w' ((step ran).trans ran'),
      fun mutex stuck => balanced.once mutex ((step ran).trans stuck)⟩

/-! ## Messages -/

def World.received (u : World σ) : World σ :=
  { u with
    sys := (System.malloc u.sys).2
    locks := u.locks.set .zmq true
    socket := u.socket.recv.2 }

def messageText (request : List Char) : Str :=
  junkLoop (CString.ofBuffer request).length (CString.ofBuffer request) 0 false

/-- The message that is next, if there is one, can be copied, and it is no request for the size
of a queue that names none; unless the reply to that cannot be allocated, which ends the
daemon first. -/
def MessageHandled (w : World σ) : Prop :=
  ∀ u, yieldMain w = .ok ((), u) → ∀ request, u.socket.recv.1 = some request → request.length ≠ 0 →
    ((System.malloc u.sys).1 = false → (System.malloc (System.malloc u.sys).2).1 = false) ∧
      ((System.malloc u.sys).1 = true → (CString.ofBuffer request).length ≠ 0 →
        looksLikeJson (messageText request) = true → ∀ req v x,
          requestParse (messageText request) u.received = .ok (.request req, v) → unlock .zmq v = .ok ((), x) →
            req.Pathless → (System.malloc x.sys).1 = false)

/-- A reply whose text is not allocated ends the daemon; otherwise only the socket is used. -/
theorem replySendError_outcome (err : InotispyError) (w : World σ) :
    if (System.malloc w.sys).1 = true then
      ∃ s socket, replySendError err w = .ok ((), { w with sys := s, socket := socket })
    else replySendError err w = .error .nullDeref := by
  rw [replySendError, replySendFormatted, mkString_bind]
  split
  · simp only [deref, Program.pure_bind_apply, replySendMessage, malloc_bind, Program.ite_apply]
    split <;> exact ⟨_, _, rfl⟩
  · rfl

theorem zmqDispatchEvent_pathless {req : Request} (pathless : req.Pathless) :
    (zmqDispatchEvent req : M σ Unit) = (do replySendError .jsonKeyNotFound; unlock .zmq) := by
  rw [zmqDispatchEvent, pathless.1, deref, pure_bind]
  repeat rw [if_neg (by decide)]
  rw [if_pos rfl, eventGetQueueSize, pathless.2]

def answerParsed : Parsed → M σ Unit
  | .failed => do
    replySendError .memoryAllocation
    unlock .zmq
  | .null => do
    replySendError .jsonParse
    unlock .zmq
  | .request req => do
    unlock .zmq
    zmqDispatchEvent req

def answerMessage (request : List Char) : M σ Unit := do
  if request.length = 0 then return ← unlock .zmq
  if !(← malloc) then return ← replySendError .memoryAllocation
  if (CString.ofBuffer request).length = 0 then return ← unlock .zmq
  if !looksLikeJson (messageText request) then
    replySendError .jsonInvalid
    return ← unlock .zmq
  answerParsed (← requestParse (messageText request))

theorem zmqHandleEvent_eq :
    (zmqHandleEvent : M σ Unit) = (do
      lock .zmq
      match ← modifySocket Socket.recv with
      | none =>
        replySendError .zeromqReconnect
        unlock .zmq
      | some request => answerMessage request) := by
  unfold zmqHandleEvent
  congr 1
  funext _
  congr 1
  funext received
  cases received with
  | none => rfl
  | some request =>
    unfold answerMessage answerParsed
    rfl

theorem answerParsed_spares {parsed : Parsed} {v : World σ} (held : Holds false true v)
    (served : ∀ req x, parsed = .request req → unlock .zmq v = .ok ((), x) → req.Pathless →
      (System.malloc x.sys).1 = false) :
    Spares Fault.Crash (· = v) (answerParsed parsed) fun _ => Holds false false := by
  have start : ∀ u, u = v → Holds false true u := fun u is => is ▸ held
  cases parsed with
  | failed => exact (unlock_zmq_after (replySendError_lockless _).balanced).strengthen start
  | null => exact (unlock_zmq_after (replySendError_lockless _).balanced).strengthen start
  | request req =>
    refine Spares.bind (unlock_zmq_takes.remember held) fun _ => Spares.assume ?_
    rintro x ⟨ran, free⟩
    by_cases pathless : req.Pathless
    · rw [zmqDispatchEvent_pathless pathless]
      intro y is
      have outcome := replySendError_outcome .jsonKeyNotFound x
      rw [served req x rfl ran pathless, if_neg (by simp)] at outcome
      rw [is, Program.bind_apply, outcome]
      trivial
    · exact (zmqDispatchEvent_balanced pathless).strengthen fun u is => is ▸ free

theorem zmqHandleEvent_spares {w : World σ} (free : Holds false false w) (handled : MessageHandled w) :
    Spares Fault.Crash (· = w) zmqHandleEvent fun _ => Holds false false := by
  rw [zmqHandleEvent_eq]
  refine Spares.bind (lock_spares free fun _ => rfl) fun _ => Spares.assume ?_
  rintro v ⟨u, yielded, free', rfl⟩ y is
  have held : Holds false true { u with locks := u.locks.set .zmq true, socket := u.socket.recv.2 } :=
    congrArg (fun locks : Locks => locks.set .zmq true) free'
  rw [is, modifySocket_bind]
  cases received : u.socket.recv.1 with
  | none => exact unlock_zmq_after (replySendError_lockless _).balanced _ held
  | some request =>
    simp only [answerMessage, Program.ite_apply]
    by_cases empty : request.length = 0
    · rw [if_pos empty]
      exact unlock_zmq_takes _ held
    obtain ⟨refused, granted⟩ := handled u yielded request received empty
    rw [if_neg empty, malloc_bind]
    by_cases allocated : (System.malloc u.sys).1 = true
    · simp only [allocated, Bool.not_true, Bool.false_eq_true, if_false, Program.ite_apply]
      by_cases nul : (CString.ofBuffer request).length = 0
      · rw [if_pos nul]
        exact unlock_zmq_takes _ held
      rw [if_neg nul]
      by_cases junk : looksLikeJson (messageText request) = true
      · simp only [junk, Bool.not_true, Bool.false_eq_true, if_false]
        have answers : Spares Fault.Crash (· = u.received) (requestParse (messageText request) >>= answerParsed)
            fun _ => Holds false false := by
          refine Spares.bind ((requestParse_lockless (messageText request)).balanced.remember held) fun parsed =>
            Spares.assume ?_
          rintro x ⟨parsing, held⟩
          exact answerParsed_spares held fun req y is ran pathless =>
            granted allocated nul junk req x y (is ▸ parsing) ran pathless
        exact answers u.received rfl
      · simp only [eq_false_of_ne_true junk, Bool.not_false, if_true]
        exact unlock_zmq_after (replySendError_lockless _).balanced _ held
    · simp only [eq_false_of_ne_true allocated, Bool.not_false, if_true]
      have outcome := replySendError_outcome .memoryAllocation
        ({ u with sys := (System.malloc u.sys).2, locks := u.locks.set .zmq true, socket := u.socket.recv.2 } : World σ)
      rw [refused (eq_false_of_ne_true allocated), if_neg (by simp)] at outcome
      rw [outcome]
      trivial

theorem answerParsed_pathless {req : Request} {v : World σ} (alone : v.pool.schedule = [])
    (held : Holds false true v) (pathless : req.Pathless) (allocated : (System.malloc v.sys).1 = true) :
    ∃ w', answerParsed (.request req) v = .ok ((), w') ∧ w'.locks = ⟨false, false, true⟩ := by
  have free : v.locks.unlock .zmq = ⟨false, false, false⟩ := congrArg (fun locks : Locks => locks.unlock .zmq) held
  simp only [answerParsed, unlock_bind alone, zmqDispatchEvent_pathless pathless]
  have outcome := replySendError_outcome .jsonKeyNotFound { v with locks := v.locks.unlock .zmq }
  rw [if_pos allocated] at outcome
  obtain ⟨s, socket, replied⟩ := outcome
  rw [Program.bind_ok _ _ _ _ _ replied, unlock, release_bind, yieldMain_alone (by exact alone)]
  exact ⟨_, rfl, congrArg (fun locks : Locks => locks.unlock .zmq) free⟩

theorem MessageHandled.of_balanced {w : World σ} (alone : w.pool.schedule = []) (free : Holds false false w)
    (balanced : BalancedAt zmqHandleEvent w) : MessageHandled w := by
  intro u yielded request received nonempty
  obtain ⟨_, rfl⟩ := Program.ok_unique (yieldMain_alone alone) yielded
  have unheld : w.locks.held .zmq = false := congrArg Locks.zmq free
  have runs : zmqHandleEvent w = answerMessage request
      { w with locks := w.locks.set .zmq true, socket := w.socket.recv.2 } := by
    rw [zmqHandleEvent_eq, lock_bind alone unheld, modifySocket_bind]
    simp only [received]
  simp only [answerMessage, Program.ite_apply, if_neg nonempty, malloc_bind] at runs
  constructor
  · intro failed
    by_contra granted
    have outcome := replySendError_outcome .memoryAllocation
      ({ w with sys := (System.malloc w.sys).2, locks := w.locks.set .zmq true, socket := w.socket.recv.2 } : World σ)
    rw [if_pos (eq_true_of_ne_false granted)] at outcome
    obtain ⟨s, socket, replied⟩ := outcome
    simp only [failed, Bool.not_false, if_true] at runs
    have kept := congrArg Locks.zmq (balanced.frees _ _ (runs.trans replied))
    cases kept
  · intro allocated nul junk req v x parsing unlocked pathless
    simp only [allocated, Bool.not_true, Bool.false_eq_true, if_false, if_neg nul, junk] at runs
    have alone' : v.pool.schedule = [] := ((requestParse_lockless _).of_ok parsing).2.trans alone
    have held : Holds false true v := by
      have parses := (requestParse_lockless (messageText request)).balanced w.received
        (congrArg (fun locks : Locks => locks.set .zmq true) free : Holds false true w.received)
      rwa [parsing] at parses
    by_contra granted
    obtain rfl := of_unlock unlocked alone'
    obtain ⟨w', answers, bad⟩ := answerParsed_pathless alone' held pathless (eq_true_of_ne_false granted)
    have good := balanced.frees _ _ (runs.trans ((Program.bind_ok _ _ _ _ _ parsing).trans answers))
    rw [Holds, bad] at good
    cases good

/-! ## All of them -/

/-- Watching, dequeuing and every step of a thread leave the mutexes free. The other calls do
so exactly when memory for a node or a message is there, and a request for the size of a queue
names it. Other threads may run in between; the daemon may then crash before the imbalance
shows, so the conditions are necessary only for calls that run undisturbed. -/
theorem locks_balanced_iff {w : World σ} (free : Holds false false w) :
    (∀ path mask maxEvents rewatch, BalancedAt (inotifyWatchTree path mask maxEvents rewatch) w) ∧
      (∀ root count, BalancedAt (inotifyDequeue root count) w) ∧
      (∀ thread, BalancedAt (threadStep thread) w) ∧
      (∀ root w', RunsAlone (.destroyRoot root) w w' → Holds false false w') ∧
      (∀ root event path, BalancedAt (inotifyEnqueue root event path) w ↔ NodeAllocates root w) ∧
      (∀ events, (NodesAllocate events w → BalancedAt (inotifyHandleEvent events) w) ∧
        (w.pool.schedule = [] → BalancedAt (inotifyHandleEvent events) w → NodesAllocate events w)) ∧
      (MessageHandled w → BalancedAt zmqHandleEvent w) ∧
      (w.pool.schedule = [] → BalancedAt zmqHandleEvent w → MessageHandled w) := by
  refine ⟨?_, ?_, ?_, ?_, ?_, ?_, ?_, ?_⟩
  · exact fun path mask maxEvents rewatch => .of_balanced (inotifyWatchTree_balanced path mask maxEvents rewatch) free
  · exact fun root count => .of_balanced (inotifyDequeue_balanced root count) free
  · exact fun thread => .of_balanced (threadStep_balanced thread) free
  · intro root w' run
    refine @RunsAlone.invariant σ _ (fun _ => Holds false false) (fun thread next v u held ran => ?_) _ _ _ run free
    have balanced := threadStep_balanced thread v held
    rwa [ran] at balanced
  · exact fun root event path =>
      ⟨.of_balanced free, fun allocates => .of_spares (inotifyEnqueue_spares free allocates event path)⟩
  · exact fun events =>
      ⟨fun allocate => .of_spares (inotifyHandleEvent_spares free allocate), fun alone => .of_balanced alone free⟩
  · exact fun handled => .of_spares (zmqHandleEvent_spares free handled)
  · exact fun alone => .of_balanced alone free

def World.asked (allocations : List Bool) (text : Str) : World Ration :=
  { World.watching ⟨allocations⟩ (str "/r") with socket := ⟨[some text], false, []⟩ }

theorem NodesAllocate.of_succeed (succeed : AllocationsSucceed σ) (events : List InEvent) (w : World σ) :
    NodesAllocate events w := by
  induction events generalizing w with
  | nil => trivial
  | cons event events ih => exact ⟨fun _ _ _ _ _ _ _ => .inr (succeed _), fun _ v _ => ih v⟩

theorem messageHandled_roots : MessageHandled (World.asked [] Ration.rootsText) := by
  intro u yielded request received _
  obtain ⟨_, rfl⟩ := Program.ok_unique (yieldMain_alone rfl) yielded
  obtain rfl : Ration.rootsText = request := Option.some.inj received
  refine ⟨nofun, fun _ _ _ req v x parsed _ pathless => ?_⟩
  have asks : requestParse (messageText Ration.rootsText) (World.asked [] Ration.rootsText).received =
      .ok (.request ⟨some (str "get_roots"), some Ration.rootsText, .object [(str "call", .string (str "get_roots"))]⟩,
        (World.asked [] Ration.rootsText).received) := rfl
  obtain ⟨same, _⟩ := Program.ok_unique asks parsed
  cases same
  exact absurd pathless.1 (by decide)

/-- There is no memory for the root of a watch request, the roots are asked for, and a directory and a file are
made in "/r": each call comes back with both mutexes free. -/
theorem locks_balanced_calls :
    (∃ w, inotifyWatchTree (str "/s") inCreate 8 true (World.asked [true, true, false] Ration.rootsText) =
        .ok (some .memoryAllocation, w) ∧ Holds false false w) ∧
      (∃ w, zmqHandleEvent (World.asked [] Ration.rootsText) = .ok ((), w) ∧ w.socket.replies.length = 1 ∧
        Holds false false w) ∧
      ∃ w, inotifyHandleEvent [⟨1, inCreate ||| inIsdir, 0, 16, str "d"⟩, ⟨1, inCreate, 0, 16, str "f"⟩]
          (World.watching (⟨[]⟩ : Script true) (str "/r")) = .ok ((), w) ∧ (w.roots.heap 0).events.length = 2 ∧
        w.pool.threads.length = 1 ∧ Holds false false w := by
  refine ⟨?_, ?_, ?_⟩
  · have facts : ((inotifyWatchTree (str "/s") inCreate 8 true
        (World.asked [true, true, false] Ration.rootsText)).toOption.map fun r => r.1) =
          some (some .memoryAllocation) := by decide +kernel
    obtain ⟨⟨_, w⟩, ran, rfl⟩ := Option.map_eq_some_iff.mp facts
    have free : Holds false false (World.asked [true, true, false] Ration.rootsText) := rfl
    have ran := Program.ok_of_toOption ran
    exact ⟨w, ran, ((locks_balanced_iff free).1 _ _ _ _).frees _ w ran⟩
  · have facts : ((zmqHandleEvent (World.asked [] Ration.rootsText)).toOption.map fun r => r.2.socket.replies.length) =
        some 1 := by decide +kernel
    obtain ⟨⟨_, w⟩, ran, replied⟩ := Option.map_eq_some_iff.mp facts
    have free : Holds false false (World.asked [] Ration.rootsText) := rfl
    have ran := Program.ok_of_toOption ran
    exact ⟨w, ran, replied, ((locks_balanced_iff free).2.2.2.2.2.2.1 messageHandled_roots).frees _ w ran⟩
  · have facts : ((inotifyHandleEvent [⟨1, inCreate ||| inIsdir, 0, 16, str "d"⟩, ⟨1, inCreate, 0, 16, str "f"⟩]
        (World.watching (⟨[]⟩ : Script true) (str "/r"))).toOption.map fun r =>
          decide ((r.2.roots.heap 0).events.length = 2 ∧ r.2.pool.threads.length = 1)) = some true := by decide +kernel
    obtain ⟨⟨_, w⟩, ran, same⟩ := Option.map_eq_some_iff.mp facts
    obtain ⟨queued, started⟩ := of_decide_eq_true same
    have free : Holds false false (World.watching (⟨[]⟩ : Script true) (str "/r")) := rfl
    have ran := Program.ok_of_toOption ran
    refine ⟨w, ran, queued, started, BalancedAt.frees ?_ _ w ran⟩
    exact ((locks_balanced_iff free).2.2.2.2.2.1 _).1 (.of_succeed (fun _ => rfl) _ _)

/-- A request for the size of a queue that names none unlocks `zmq_mutex` when it is free. An
event for which there is no memory leaves `inotify_mutex` locked, and so does a message for
which there is none with `zmq_mutex`. -/
theorem locks_unbalanced :
    (Holds false false (World.asked [] Ration.pathlessText) ∧
      (∃ w, zmqHandleEvent (World.asked [] Ration.pathlessText) = .ok ((), w) ∧ w.locks.badUnlock = true)) ∧
      (Holds false false (World.asked [false] Ration.pathlessText) ∧
        (∃ w, inotifyEnqueue 0 ⟨1, inCreate, 0, 16, str "f"⟩ (str "/r") (World.asked [false] Ration.pathlessText) =
          .ok (some .memoryAllocation, w) ∧ w.locks.inotify = true) ∧
        ∃ w, zmqHandleEvent (World.asked [false] Ration.pathlessText) = .ok ((), w) ∧ w.locks.zmq = true) := by
  have pathless : (zmqHandleEvent (World.asked [] Ration.pathlessText)).toOption.map (·.2.locks.badUnlock) = some true := by decide +kernel
  have event : (inotifyEnqueue 0 ⟨1, inCreate, 0, 16, str "f"⟩ (str "/r") (World.asked [false] Ration.pathlessText)).toOption.map
      (fun r => (r.1, r.2.locks.inotify)) = some (some .memoryAllocation, true) := by decide +kernel
  have message : (zmqHandleEvent (World.asked [false] Ration.pathlessText)).toOption.map (·.2.locks.zmq) = some true := by decide +kernel
  refine ⟨⟨rfl, ?_⟩, rfl, ?_, ?_⟩
  · obtain ⟨⟨_, w⟩, ran, bad⟩ := Option.map_eq_some_iff.mp pathless
    exact ⟨w, Program.ok_of_toOption ran, bad⟩
  · obtain ⟨⟨code, w⟩, ran, result⟩ := Option.map_eq_some_iff.mp event
    obtain ⟨rfl, held⟩ := by simpa only [Prod.mk.injEq] using result
    exact ⟨w, Program.ok_of_toOption ran, held⟩
  · obtain ⟨⟨_, w⟩, ran, held⟩ := Option.map_eq_some_iff.mp message
    exact ⟨w, Program.ok_of_toOption ran, held⟩

end Inotispy
