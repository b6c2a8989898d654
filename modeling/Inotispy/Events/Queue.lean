import Inotispy.Events.Delivery
import Inotispy.Library.BoundedQueue
import Inotispy.Requests.Replies

/-! A root's queue is a bounded queue that can be paused.

`Simulates` ties a root to a value of `BoundedQueue`. Every main-loop step on the root is
shown to return and to do what the operation of the bounded queue does; what holds in
whole runs is then read off the bounded queue.
-/

set_option autoImplicit false

namespace Inotispy
open Library

variable {σ : Type} [System σ]

/-! ## Counting events -/

theorem toInt_queueLength {queue : List Event} (fits : queue.length < 2 ^ 31) :
    (queueLength queue).toInt = queue.length := Int32.toInt_ofNat_of_lt fits

theorem queueLength_eq_zero {queue : List Event} (fits : queue.length < 2 ^ 31) :
    queueLength queue = 0 ↔ queue = [] := by
  rw [← Int32.toInt_inj, toInt_queueLength fits, ← List.length_eq_zero_iff]
  simp

def dequeueCount (queue : List Event) (count : Int32) : Nat :=
  if count = 0 then queue.length else min count.toInt.toNat queue.length

theorem toNat_dequeueCount {queue : List Event} (fits : queue.length < 2 ^ 31) {count : Int32}
    (nonneg : 0 ≤ count.toInt) :
    (if count = 0 ∨ queueLength queue < count then queueLength queue else count).toInt.toNat =
      dequeueCount queue count := by
  unfold dequeueCount
  by_cases zero : count = 0
  · simp [zero, toInt_queueLength fits]
  · simp only [zero, false_or, if_false, Int32.lt_iff_toInt_lt, toInt_queueLength fits]
    split
    · rw [toInt_queueLength fits]
      omega
    · omega

def Dequeued.items : Dequeued → List Event
  | .events items => items
  | _ => []

/-! ## The operations on one root -/

theorem RootTable.setRoot_same_queue (roots : RootTable) (root : RootRef) {queue : List Event}
    (same : (roots.heap root).queue = some queue) :
    (roots.setRoot root fun r => { r with queue := some queue }) = roots := by
  simp only [setRoot, ← same, Function.update_eq_self]

variable {w : World σ} {root : RootRef} {path : Str}

theorem inotifyGetEvents_run (succeed : AllocationsSucceed σ) (alone : w.pool.schedule = [])
    (free : w.locks.held .inotify = false) (registered : w.roots.inotifyRoots.lookup path = some root)
    {queue : List Event} (holds : (w.roots.heap root).queue = some queue)
    (fits : queue.length < 2 ^ 31) {count : Int32} (nonneg : 0 ≤ count.toInt) :
    ∃ s got, got.items = queue.take (dequeueCount queue count) ∧
      inotifyGetEvents path count w = .ok (got, { w with
        sys := s
        roots := w.roots.setRoot root fun r =>
          { r with queue := some (queue.drop (dequeueCount queue count)) } }) := by
  have events : (w.roots.heap root).events = queue := by simp [Root.events, holds]
  simp only [inotifyGetEvents, inotifyIsRoot, Program.read_bind_apply, registered, inotifyDequeue,
    lock_bind alone free, rootQueue_bind, events, Program.ite_apply, malloc_bind, succeed w.sys,
    queueLength_eq_zero fits, toNat_dequeueCount fits nonneg, setRootQueue_bind, unlock_bind,
    alone, Locks.unlock_set free, Bool.not_true, Bool.false_eq_true, if_false, Program.pure_apply, holds,
    Option.isNone_some, Bool.or_false]
  by_cases empty : queue = []
  · subst empty
    rw [if_pos rfl, List.drop_nil, RootTable.setRoot_same_queue _ _ holds]
    exact ⟨_, .null, List.take_nil.symm, rfl⟩
  · rw [if_neg empty]
    refine ⟨(System.malloc w.sys).2, .events (queue.take (dequeueCount queue count)), rfl, ?_⟩
    simp only [RootTable.setRoot, holds, Option.map_some]

theorem setPause_run (alone : w.pool.schedule = []) (free : w.locks.held .inotify = false)
    (registered : w.roots.inotifyRoots.lookup path = some root) (pause : Bool) :
    setPause pause path w = .ok (none, { w with
      roots := w.roots.setRoot root fun r => { r with pause := pause } }) := by
  simp only [setPause, lock_bind alone free, inotifyIsRoot, Program.read_bind_apply,
    registered, modifyRoots_bind, unlock_bind, alone, Locks.unlock_set free]
  rfl

theorem eventPause_eq {req : Request} {v u : World σ} {flushed : Dequeued}
    (asked : requestGetPath req = some path)
    (registered : w.roots.inotifyRoots.lookup path = some root)
    (pausing : inotifyPauseTree path w = .ok (none, v))
    (flushing : inotifyGetEvents path 0 v = .ok (flushed, u)) :
    eventPause req w = replySendSuccess u := by
  simp only [eventPause, asked, inotifyIsRoot, Program.read_bind_apply, registered, Program.ite_apply,
    Option.isNone_some, Bool.false_eq_true, if_false]
  rw [Program.bind_ok _ _ _ _ _ pausing]
  exact Program.bind_ok _ _ _ _ _ flushing

theorem eventUnpause_eq {req : Request} {v : World σ} (asked : requestGetPath req = some path)
    (registered : w.roots.inotifyRoots.lookup path = some root)
    (unpausing : inotifyUnpauseTree path w = .ok (none, v)) :
    eventUnpause req w = replySendSuccess v := by
  simp only [eventUnpause, asked, inotifyIsRoot, Program.read_bind_apply, registered, Program.ite_apply,
    Option.isNone_some, Bool.false_eq_true, if_false]
  exact Program.bind_ok _ _ _ _ _ unpausing

/-! ## Simulation -/

/-- The root registered at `path` behaves as `q`; no other thread is at work and the mutex
is free. -/
structure Simulates (w : World σ) (root : RootRef) (path : Str) (q : BoundedQueue Event) : Prop where
  registered : w.roots.inotifyRoots.lookup path = some root
  queue : (w.roots.heap root).queue = some q.items
  pause : (w.roots.heap root).pause = q.paused
  capacity : q.capacity = (w.roots.heap root).maxEvents.toInt.toNat
  alone : w.pool.schedule = []
  free : w.locks.held .inotify = false

namespace Simulates

variable {q : BoundedQueue Event}

omit [System σ] in
theorem fits (sim : Simulates w root path q) : q.items.length < 2 ^ 31 := by
  have bounded := q.bounded
  have below := (w.roots.heap root).maxEvents.toInt_lt
  rw [sim.capacity] at bounded
  omega

theorem getEvents (succeed : AllocationsSucceed σ) (sim : Simulates w root path q) {count : Int32}
    (nonneg : 0 ≤ count.toInt) :
    ∃ got w', inotifyGetEvents path count w = .ok (got, w') ∧
      got.items = q.items.take (dequeueCount q.items count) ∧
      Simulates w' root path (q.take (dequeueCount q.items count)) := by
  obtain ⟨s, got, items, ran⟩ := inotifyGetEvents_run succeed sim.alone sim.free sim.registered sim.queue
    sim.fits nonneg
  refine ⟨got, _, ran, items, sim.registered, ?_, ?_, ?_, sim.alone, sim.free⟩
  · simp [RootTable.setRoot, BoundedQueue.take]
  · simpa [RootTable.setRoot, BoundedQueue.take] using sim.pause
  · simpa [RootTable.setRoot, BoundedQueue.take] using sim.capacity

theorem eventPause (succeed : AllocationsSucceed σ) (sim : Simulates w root path q) {req : Request}
    (asked : requestGetPath req = some path) :
    ∃ v flushed u w', inotifyPauseTree path w = .ok (none, v) ∧
      inotifyGetEvents path 0 v = .ok (flushed, u) ∧ flushed.items = q.items ∧
      Inotispy.eventPause req w = .ok ((), w') ∧ Simulates w' root path q.pause := by
  have pausing := setPause_run sim.alone sim.free sim.registered true
  have all : 0 ≤ (0 : Int32).toInt := by decide
  obtain ⟨s, flushed, items, flushing⟩ := inotifyGetEvents_run succeed
    (w := { w with roots := w.roots.setRoot root fun r => { r with pause := true } }) sim.alone sim.free
    sim.registered (by simpa [RootTable.setRoot] using sim.queue) sim.fits all
  obtain ⟨t, sending⟩ := replySendMessage_run succeed (str "\x7b\"success\":1\x7d") _
  have ran := (eventPause_eq asked sim.registered pausing flushing).trans sending
  refine ⟨_, flushed, _, _, pausing, flushing, by simpa [dequeueCount] using items, ran,
    sim.registered, ?_, ?_, ?_, sim.alone, sim.free⟩
  · simp [RootTable.setRoot, BoundedQueue.pause, dequeueCount]
  · simp [RootTable.setRoot, BoundedQueue.pause]
  · simpa [RootTable.setRoot, BoundedQueue.pause] using sim.capacity

theorem eventUnpause (succeed : AllocationsSucceed σ) (sim : Simulates w root path q) {req : Request}
    (asked : requestGetPath req = some path) :
    ∃ w', Inotispy.eventUnpause req w = .ok ((), w') ∧ Simulates w' root path q.unpause := by
  have unpausing := setPause_run sim.alone sim.free sim.registered false
  obtain ⟨t, sending⟩ := replySendMessage_run succeed (str "\x7b\"success\":1\x7d") _
  have ran := (eventUnpause_eq asked sim.registered unpausing).trans sending
  refine ⟨_, ran, sim.registered, ?_, ?_, ?_, sim.alone, sim.free⟩
  · simpa [RootTable.setRoot, BoundedQueue.unpause] using sim.queue
  · simp [RootTable.setRoot, BoundedQueue.unpause]
  · simpa [RootTable.setRoot, BoundedQueue.unpause] using sim.capacity

omit [System σ] in
theorem of_same_root (sim : Simulates w root path q) {w' : World σ}
    (roots : w'.roots.inotifyRoots = w.roots.inotifyRoots)
    (heap : w'.roots.heap root = w.roots.heap root) (schedule : w'.pool.schedule = w.pool.schedule)
    (locks : w'.locks = w.locks) : Simulates w' root path q :=
  ⟨roots ▸ sim.registered, heap ▸ sim.queue, heap ▸ sim.pause, heap ▸ sim.capacity,
    schedule.trans sim.alone, locks ▸ sim.free⟩

/-- A round either leaves the queue alone or adds the event to it. It is refused only by a
full queue, and not offered at all to a paused one. -/
theorem handleRecord (succeed : AllocationsSucceed σ) (sim : Simulates w root path q) (event : InEvent) :
    ∃ round w', inotifyHandleRecord event w = .ok (round, w') ∧
      (round.offered ≠ some (root, none) ∧ Simulates w' root path q ∨
        ∃ dir running room, eventTarget w event.wd = some (dir, root) ∧
          round.offered = some (root, none) ∧
          Simulates w' root path (q.push (makeNode event (some event.name) (some dir)) running room)) ∧
      (∀ code, round.offered = some (root, some code) →
        (w.roots.heap root).maxEvents.toInt ≤ q.items.length) ∧
      (q.paused = true → ∀ code, round.offered ≠ some (root, code)) := by
  obtain ⟨⟨round, w'⟩, ran⟩ := inotifyHandleRecord_returns sim.alone succeed sim.free event
  refine ⟨round, w', ran, ?_⟩
  obtain ⟨offered, ⟨s, n, rfl⟩, _⟩ | ⟨dir, target, queued, v, found, _, effect, offer⟩ :=
    inotifyHandleRecord_eq_ok sim.alone ran
  · simp only [offered]
    exact ⟨.inl ⟨by simp, sim.of_same_root rfl rfl rfl rfl⟩, by simp, by simp⟩
  obtain ⟨roots, schedule, locks⟩ := effect.frame
  obtain ⟨offered, rfl⟩ | ⟨code, _, _, offered, offering⟩ := offer
  · simp only [offered]
    exact ⟨.inl ⟨by simp, sim.of_same_root (roots ▸ rfl) (roots ▸ rfl) schedule locks⟩, by simp, by simp⟩
  simp only [offered]
  obtain ⟨watch, _, _, _, running, _⟩ := eventTarget_eq_some.mp found
  have quiet : q.paused = true → ∀ code', some (target, code) ≠ some (root, code') := by
    rintro paused code' same
    cases same
    rw [sim.pause, paused] at running
    cases running
  have events : (w.roots.heap root).events = q.items := by simp [Root.events, sim.queue]
  obtain ⟨s, _, used, ⟨⟨rfl, rfl, full⟩ | ⟨_, failed⟩, rfl⟩ | ⟨name, copy, rfl, room, _, made, rfl⟩⟩ :=
    inotifyEnqueue_eq_ok (schedule.trans sim.alone) offering
  · refine ⟨.inl ⟨by simp, sim.of_same_root (roots ▸ rfl) (roots ▸ rfl) schedule locks⟩, ?_, quiet⟩
    rintro _ same
    cases same
    rwa [roots, events, le_queueLength_iff sim.fits] at full
  · exact absurd succeed failed
  · refine ⟨?_, by simp, quiet⟩
    obtain ⟨rfl, rfl⟩ := made succeed
    by_cases same : target = root
    · subst target
      rw [roots, events, le_queueLength_iff sim.fits, Int.not_le] at room
      refine .inr ⟨dir, sim.pause ▸ running, by rw [sim.capacity]; omega, found, rfl, ?_⟩
      refine ⟨roots ▸ sim.registered, ?_, ?_, ?_, schedule.trans sim.alone, locks ▸ sim.free⟩
      · simp [RootTable.setRoot, BoundedQueue.push, roots, sim.queue, events]
      · simpa [RootTable.setRoot, BoundedQueue.push, roots] using sim.pause
      · simpa [RootTable.setRoot, BoundedQueue.push, roots] using sim.capacity
    · refine .inl ⟨by simp [same], sim.of_same_root (roots ▸ rfl) ?_ schedule locks⟩
      simp [RootTable.setRoot, Function.update_of_ne (Ne.symm same), roots]

end Simulates

/-! ## Whole runs -/

/-- What a root accepted, what was taken from it by clients and by pauses, and which of pause
and unpause came last. -/
structure History where
  accepted : List Event
  taken : List Event
  paused : Bool

/-- The main-loop steps on a root, with what they add to its history. -/
inductive RootStep (root : RootRef) (path : Str) : World σ × History → World σ × History → Prop where
  | accepted {w w' : World σ} {h : History} (event : InEvent) (dir : Str) (round : Round)
      (ran : inotifyHandleRecord event w = .ok (round, w'))
      (target : eventTarget w event.wd = some (dir, root)) (offered : round.offered = some (root, none)) :
      RootStep root path (w, h)
        (w', { h with accepted := h.accepted ++ [makeNode event (some event.name) (some dir)] })
  | passed {w w' : World σ} {h : History} (event : InEvent) (round : Round)
      (ran : inotifyHandleRecord event w = .ok (round, w')) (offered : round.offered ≠ some (root, none)) :
      RootStep root path (w, h) (w', h)
  | getEvents {w w' : World σ} {h : History} (count : Int32) (got : Dequeued) (nonneg : 0 ≤ count.toInt)
      (ran : inotifyGetEvents path count w = .ok (got, w')) :
      RootStep root path (w, h) (w', { h with taken := h.taken ++ got.items })
  | pause {w v u w' : World σ} {h : History} (req : Request) (flushed : Dequeued)
      (asked : requestGetPath req = some path) (pausing : inotifyPauseTree path w = .ok (none, v))
      (flushing : inotifyGetEvents path 0 v = .ok (flushed, u)) (ran : eventPause req w = .ok ((), w')) :
      RootStep root path (w, h) (w', { h with taken := h.taken ++ flushed.items, paused := true })
  | unpause {w w' : World σ} {h : History} (req : Request) (asked : requestGetPath req = some path)
      (ran : eventUnpause req w = .ok ((), w')) : RootStep root path (w, h) (w', { h with paused := false })

/-- Every state of a run is simulated by a bounded queue with the run's history. -/
theorem RootStep.simulates (succeed : AllocationsSucceed σ) {root : RootRef} {path : Str}
    {before after : World σ × History} {q : BoundedQueue Event} (start : Simulates before.1 root path q)
    (history : before.2 = ⟨q.accepted, q.taken, q.paused⟩)
    (run : Relation.ReflTransGen (RootStep root path) before after) :
    ∃ q', Simulates after.1 root path q' ∧ after.2 = ⟨q'.accepted, q'.taken, q'.paused⟩ := by
  induction run with
  | refl => exact ⟨q, start, history⟩
  | tail _ step ih =>
    obtain ⟨q, sim, history⟩ := ih
    cases step with
    | accepted event dir round ran target offered =>
      obtain ⟨round', w', ran', ⟨other, _⟩ | ⟨dir', running, room, target', _, sim'⟩, _⟩ :=
        sim.handleRecord succeed event
      · obtain ⟨rfl, rfl⟩ := Program.ok_unique ran ran'
        exact absurd offered other
      · obtain ⟨rfl, rfl⟩ := Program.ok_unique ran ran'
        obtain ⟨rfl, _⟩ := Prod.mk.inj (Option.some.inj (target.symm.trans target'))
        cases history
        exact ⟨_, sim', rfl⟩
    | passed event round ran offered =>
      obtain ⟨round', w', ran', ⟨_, sim'⟩ | ⟨_, _, _, _, taken, _⟩, _⟩ := sim.handleRecord succeed event
      · obtain ⟨rfl, rfl⟩ := Program.ok_unique ran ran'
        exact ⟨q, sim', history⟩
      · obtain ⟨rfl, rfl⟩ := Program.ok_unique ran ran'
        exact absurd taken offered
    | getEvents count got nonneg ran =>
      obtain ⟨got', w', ran', items, sim'⟩ := sim.getEvents succeed nonneg
      obtain ⟨rfl, rfl⟩ := Program.ok_unique ran ran'
      cases history
      exact ⟨_, sim', by rw [items]; rfl⟩
    | pause req flushed asked pausing flushing ran =>
      obtain ⟨v', flushed', u', w', pausing', flushing', items, ran', sim'⟩ := sim.eventPause succeed asked
      obtain ⟨_, rfl⟩ := Program.ok_unique pausing pausing'
      obtain ⟨rfl, rfl⟩ := Program.ok_unique flushing flushing'
      obtain ⟨_, rfl⟩ := Program.ok_unique ran ran'
      cases history
      exact ⟨_, sim', by rw [items]; rfl⟩
    | unpause req asked ran =>
      obtain ⟨w', ran', sim'⟩ := sim.eventUnpause succeed asked
      obtain ⟨_, rfl⟩ := Program.ok_unique ran ran'
      cases history
      exact ⟨_, sim', rfl⟩

theorem dequeueCount_take (queue : List Event) (count : Int32) :
    queue.take (dequeueCount queue count) =
      if count = 0 then queue else queue.take count.toInt.toNat := by
  unfold dequeueCount
  split
  · exact List.take_length
  · rw [List.take_eq_take_iff]
    omega

/-- From the moment a root is registered, over any sequence of main-loop steps on it, it is
a bounded queue that can be paused. -/
theorem root_is_bounded_queue (succeed : AllocationsSucceed σ) {root : RootRef} {path : Str}
    {start w : World σ} {h : History} (registered : start.roots.inotifyRoots.lookup path = some root)
    (empty : (start.roots.heap root).queue = some [])
    (running : (start.roots.heap root).pause = false) (alone : start.pool.schedule = [])
    (free : start.locks.held .inotify = false)
    (run : Relation.ReflTransGen (RootStep root path) (start, ⟨[], [], false⟩) (w, h)) :
    ∃ queue, (w.roots.heap root).queue = some queue ∧ (w.roots.heap root).pause = h.paused ∧
      h.taken ++ queue = h.accepted ∧ (queue.length : Int) ≤ max (w.roots.heap root).maxEvents.toInt 0 ∧
      (h.paused = true → queue = []) ∧
      (∀ count : Int32, 0 ≤ count.toInt → ∃ got w', inotifyGetEvents path count w = .ok (got, w') ∧
        got.items = if count = 0 then queue else queue.take count.toInt.toNat) ∧
      ∀ event, ∃ round w', inotifyHandleRecord event w = .ok (round, w') ∧
        (∀ code, round.offered = some (root, some code) →
          (w.roots.heap root).maxEvents.toInt ≤ queue.length) ∧
        (h.paused = true → ∀ code, round.offered ≠ some (root, code)) := by
  have fresh : Simulates start root path (.fresh (start.roots.heap root).maxEvents.toInt.toNat) :=
    ⟨registered, empty, running, rfl, alone, free⟩
  obtain ⟨q, sim, history⟩ := RootStep.simulates succeed fresh rfl run
  obtain rfl : h = ⟨q.accepted, q.taken, q.paused⟩ := history
  have sim : Simulates w root path q := sim
  refine ⟨q.items, sim.queue, sim.pause, q.whole, ?_, q.quiet, ?_, ?_⟩
  · have bounded := q.bounded
    rw [sim.capacity] at bounded
    omega
  · intro count nonneg
    obtain ⟨got, w', ran, items, _⟩ := sim.getEvents succeed nonneg
    exact ⟨got, w', ran, items.trans (dequeueCount_take _ _)⟩
  · intro event
    obtain ⟨round, w', ran, _, dropped, quiet⟩ := sim.handleRecord succeed event
    exact ⟨round, w', ran, dropped, quiet⟩

/-- The root "/r" gets an event, is paused, is unpaused and gets another; what arrives in
between is not queued. -/
theorem root_is_bounded_queue_paused :
    ∃ w : World (Script true), (w.roots.heap 0).pause = false ∧
      ∃ got w', inotifyGetEvents (str "/r") 0 w = .ok (got, w') ∧
        got.items = [⟨1, inCreate, 0, 16, some (str "/r"), some (str "third")⟩] := by
  have facts : ((inotifyHandleRecord ⟨1, inCreate, 0, 16, str "first"⟩
      (World.watching (⟨[]⟩ : Script true) (str "/r"))).toOption.bind fun first =>
    (inotifyPauseTree (str "/r") first.2).toOption.bind fun pausing =>
    (inotifyGetEvents (str "/r") 0 pausing.2).toOption.bind fun flushing =>
    (eventPause (.about "pause" "/r") first.2).toOption.bind fun paused =>
    (inotifyHandleRecord ⟨1, inCreate, 0, 16, str "second"⟩ paused.2).toOption.bind fun second =>
    (eventUnpause (.about "unpause" "/r") second.2).toOption.bind fun unpaused =>
    (inotifyHandleRecord ⟨1, inCreate, 0, 16, str "third"⟩ unpaused.2).toOption.map fun third =>
      decide (first.1.offered = some (0, none) ∧ pausing.1 = none ∧ flushing.1.items.length = 1 ∧
        second.1.offered ≠ some (0, none) ∧ eventTarget unpaused.2 1 = some (str "/r", 0) ∧
        third.1.offered = some (0, none))) = some true := by decide +kernel
  obtain ⟨⟨_, w₁⟩, first, facts⟩ := Option.bind_eq_some_iff.mp facts
  obtain ⟨⟨_, v⟩, pausing, facts⟩ := Option.bind_eq_some_iff.mp facts
  obtain ⟨⟨flushed, u⟩, flushing, facts⟩ := Option.bind_eq_some_iff.mp facts
  obtain ⟨⟨_, w₂⟩, paused, facts⟩ := Option.bind_eq_some_iff.mp facts
  obtain ⟨⟨_, w₃⟩, second, facts⟩ := Option.bind_eq_some_iff.mp facts
  obtain ⟨⟨_, w₄⟩, unpaused, facts⟩ := Option.bind_eq_some_iff.mp facts
  obtain ⟨⟨_, w₅⟩, third, facts⟩ := Option.map_eq_some_iff.mp facts
  obtain ⟨accepted, rfl, one, skipped, target, again⟩ := of_decide_eq_true facts
  have before : Relation.ReflTransGen (RootStep 0 (str "/r"))
      (World.watching (⟨[]⟩ : Script true) (str "/r"), ⟨[], [], false⟩) (w₁, _) :=
    .single (.accepted _ (str "/r") _ (Program.ok_of_toOption first) rfl accepted)
  have between := (before.tail (.pause (.about "pause" "/r") flushed rfl (Program.ok_of_toOption pausing)
    (Program.ok_of_toOption flushing) (Program.ok_of_toOption paused))).tail
      (.passed _ _ (Program.ok_of_toOption second) skipped)
  have run := (between.tail (.unpause (.about "unpause" "/r") rfl (Program.ok_of_toOption unpaused))).tail
    (.accepted _ (str "/r") _ (Program.ok_of_toOption third) target again)
  obtain ⟨queue, _, flag, whole, _, _, ask, _⟩ := root_is_bounded_queue (fun _ => rfl) rfl rfl rfl rfl rfl run
  obtain ⟨got, w', asked, all⟩ := ask 0 (by decide)
  obtain ⟨event, only⟩ := List.length_eq_one_iff.mp one
  rw [only] at whole
  exact ⟨w₅, flag, got, w', asked, all.trans ((if_pos rfl).trans (List.cons.inj whole).2)⟩

end Inotispy
