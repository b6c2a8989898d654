import Inotispy.Locks.Signals
import Inotispy.Requests.Interleaving

/-! What every step of the main thread keeps.

A run of the daemon goes from one operation of the main thread to the next, and other threads
and signals come in between. Here are the properties of the tables that no operation breaks,
whatever code it belongs to. The walk over the code is the same for all of them.
-/

set_option autoImplicit false

namespace Inotispy
open Library

variable {σ : Type} [System σ]

/-- What a property must survive for every operation of the main thread to keep it. What is in a
queue is told apart event by event. -/
structure Patient (fits : Event → Prop) (inv : World σ → Prop) : Prop extends StillMute inv where
  alone : ∀ w, inv w → w.pool.schedule = []
  fitting : ∀ (w : World σ) (root : RootRef), inv w → ∀ event ∈ (w.roots.heap root).events, fits event
  queues : ∀ (w : World σ) (root : RootRef) (queue : List Event), inv w → (∀ event ∈ queue, fits event) →
    inv { w with roots := w.roots.setRoot root fun r => { r with queue := r.queue.map fun _ => queue } }
  pauses : ∀ (w : World σ) (root : RootRef) (pause : Bool), inv w →
    inv { w with roots := w.roots.setRoot root fun r => { r with pause := pause } }
  marks : ∀ (w : World σ) (root : RootRef), inv w →
    inv { w with roots := w.roots.setRoot root fun r => { r with destroy := true } }
  outside : ∀ (w : World σ) (s : σ), inv w → inv { w with sys := s }
  thins : ∀ (w : World σ) (watches : WatchTable), Thins w.watches watches → inv w → inv { w with watches := watches }
  uses : ∀ root, Uses inv root
  joins : ∀ (w : World σ) (root : RootRef), inv w →
    inv { w with pool.threads := w.pool.threads ++ [.destroyRoot root] }
  makes : ∀ (w : World σ) (made : Root), inv w → made.queue = some [] →
    inv { w with roots :=
      { w.roots.setRoot w.roots.nextRoot fun _ => made with nextRoot := w.roots.nextRoot + 1 } }
  inserts : ∀ (w : World σ) (path : Str) (root : RootRef), inv w →
    inv { w with roots :=
      { w.roots with
        inotifyRoots := w.roots.inotifyRoots.insert path root
        inotifyNumWatchedRoots := w.roots.inotifyNumWatchedRoots + 1 } }

def EachStep {A : Type} (inv : World σ → Prop) (code : Stepwise.Code σ A) : Prop :=
  Code.Keeps Operation.does (fun d : Daemon σ => inv d.world) code fun _ => True

namespace EachStep

variable {A B : Type} {inv : World σ → Prop}

theorem pure' (a : A) : EachStep inv (pure a : Stepwise.Code σ A) := Code.Keeps.pure' trivial

theorem bind {x : Stepwise.Code σ A} {f : A → Stepwise.Code σ B} (first : EachStep inv x)
    (rest : ∀ a, EachStep inv (f a)) : EachStep inv (x >>= f) :=
  Code.Keeps.bind first fun a _ => rest a

theorem ite' {c : Prop} [Decidable c] {x y : Stepwise.Code σ A} (yes : c → EachStep inv x) (no : ¬c → EachStep inv y) :
    EachStep inv (if c then x else y) := Code.Keeps.ite' yes no

theorem forEach {body : A → Stepwise.Code σ Unit} {items : List A} (each : ∀ a ∈ items, EachStep inv (body a)) :
    EachStep inv (.forEach body items) := Code.Keeps.forEach each

theorem known {x : M σ A} {fact : A → Prop} {f : A → Stepwise.Code σ B} (first : Triple inv x fun a w => inv w ∧ fact a)
    (rest : ∀ a, fact a → EachStep inv (f a)) : EachStep inv (Stepwise.piece x >>= f) := by
  refine Code.Keeps.bind (Code.Keeps.perform ?_) rest
  intro d d' a holds ran
  obtain ⟨w, inner, rfl⟩ := onWorld_eq_ok ran
  exact first d.world holds a w inner

theorem piece {x : M σ A} (keeps : Keeps inv x) : EachStep inv (Stepwise.piece x) := by
  apply Code.Keeps.perform
  intro d d' a holds ran
  obtain ⟨w, inner, rfl⟩ := onWorld_eq_ok ran
  exact ⟨keeps d.world holds a w inner, trivial⟩

theorem read (view : World σ → A) : EachStep inv (Stepwise.piece (Program.read view)) := piece Keeps.read'

end EachStep

namespace Patient

variable {fits : Event → Prop} {inv : World σ → Prop} (patient : Patient fits inv)
include patient

/-! ## Mutexes -/

theorem yieldMain : EachStep inv (.perform .yieldMain) := by
  apply Code.Keeps.perform
  intro d d' a holds ran
  obtain ⟨w, inner, rfl⟩ := onWorld_eq_ok ran
  obtain ⟨_, rfl⟩ := Program.ok_unique (yieldMain_alone (patient.alone d.world holds)) inner
  exact ⟨holds, trivial⟩

theorem lock (mutex : Mutex) : EachStep inv (Stepwise.lock mutex) := by
  apply EachStep.bind patient.yieldMain
  intro _
  exact EachStep.piece (patient.toStill.acquire mutex)

theorem unlock (mutex : Mutex) : EachStep inv (Stepwise.unlock mutex) := by
  refine EachStep.bind ?_ fun _ => patient.yieldMain
  exact EachStep.piece (patient.toStill.release mutex)

theorem unlock_pure {A : Type} (mutex : Mutex) (a : A) :
    EachStep inv (do Stepwise.unlock mutex; return a) :=
  EachStep.bind (patient.unlock mutex) fun _ => .pure' a

theorem piece_unlock {x : M σ Unit} (keeps : Keeps inv x) (mutex : Mutex) :
    EachStep inv (do Stepwise.piece x; Stepwise.unlock mutex) :=
  EachStep.bind (.piece keeps) fun _ => patient.unlock mutex

/-! ## Trees -/

theorem inotifyDumpRoots : EachStep inv Stepwise.inotifyDumpRoots := by
  apply EachStep.bind (patient.lock .inotify)
  intro _
  exact patient.piece_unlock patient.dumpRootsSection .inotify

theorem watchTreeCheck (path : Str) : EachStep inv (Stepwise.watchTreeCheck path) := by
  apply EachStep.bind (patient.lock .inotify)
  intro _
  apply EachStep.bind (.piece (patient.inotifyPathToRoot path))
  intro found
  cases found with
  | some root =>
    apply EachStep.bind (patient.unlock .inotify)
    intro _
    apply EachStep.bind (.read _)
    intro r
    apply EachStep.bind (.piece (Still.deref _))
    intro rootPath
    apply EachStep.ite'
    · intro _
      apply EachStep.ite' <;> exact fun _ => .pure' _
    · exact fun _ => .pure' _
  | none =>
    apply EachStep.bind (.piece (patient.inotifyIsParent path))
    exact fun subPath => patient.unlock_pure .inotify _

theorem makeRoot (path : Str) (mask : UInt32) (maxEvents : Int32) (rewatch : Bool) :
    Keeps inv (makeRoot path mask maxEvents rewatch) := by
  intro w holds made w' ran
  obtain ⟨s, quiet, ⟨_, rfl⟩ | ⟨copy, _, _, _, rfl⟩⟩ := makeRoot_eq_ok ran
  · exact patient.asked quiet holds
  · exact patient.makes { w with sys := s } _ (patient.asked quiet holds) rfl

theorem watchTreeInsert (path : Str) (mask : UInt32) (maxEvents : Int32) (rewatch : Bool) :
    EachStep inv (Stepwise.watchTreeInsert path mask maxEvents rewatch) := by
  apply EachStep.bind (patient.lock .inotify)
  intro _
  apply EachStep.bind (.piece (patient.makeRoot path mask maxEvents rewatch))
  intro made
  cases made with
  | none => exact patient.unlock_pure .inotify _
  | some newRoot =>
    apply EachStep.bind (.piece (Keeps.update' fun w holds => patient.inserts w path newRoot holds))
    exact fun _ => patient.unlock_pure .inotify _

theorem inotifyWatchTree (path : Str) (mask : UInt32) (maxEvents : Int32) (rewatch : Bool) :
    EachStep inv (Stepwise.inotifyWatchTree path mask maxEvents rewatch) := by
  apply EachStep.bind (patient.watchTreeCheck _)
  intro code
  cases code with
  | some err => exact .pure' _
  | none =>
    apply EachStep.bind (.piece (patient.opendir _))
    intro opened
    apply EachStep.ite'
    · exact fun _ => .pure' _
    intro _
    apply EachStep.bind (patient.watchTreeInsert _ mask maxEvents rewatch)
    intro made
    cases made with
    | none => exact .pure' _
    | some newRoot =>
      apply EachStep.bind patient.inotifyDumpRoots
      intro _
      apply EachStep.bind (.read _)
      exact fun r => .piece (patient.doWatchTree _ newRoot false)

theorem inotifyUnwatchTree (path : Str) : EachStep inv (Stepwise.inotifyUnwatchTree path) := by
  apply EachStep.bind (.read _)
  intro found
  cases found with
  | none => exact .pure' _
  | some root =>
    apply EachStep.bind (.read _)
    intro r
    apply EachStep.ite'
    · exact fun _ => .pure' _
    intro _
    apply EachStep.bind (.piece (Keeps.update' fun w holds => patient.marks w root holds))
    intro _
    apply EachStep.bind patient.yieldMain
    intro _
    apply EachStep.bind (.piece (patient.start _ fun w holds => patient.joins w root holds))
    intro started
    apply EachStep.ite' <;> exact fun _ => .pure' _

theorem setPause (pause : Bool) (path : Str) : EachStep inv (Stepwise.setPause pause path) := by
  apply EachStep.bind (patient.lock .inotify)
  intro _
  apply EachStep.bind (.read _)
  intro found
  cases found with
  | none => exact patient.unlock_pure .inotify _
  | some root =>
    apply EachStep.bind (.piece (Keeps.update' fun w holds => patient.pauses w root pause holds))
    exact fun _ => patient.unlock_pure .inotify _

theorem inotifyRewatchRoots : EachStep inv Stepwise.inotifyRewatchRoots := by
  apply EachStep.bind (.read _)
  intro rewatching
  apply EachStep.ite'
  · exact fun _ => .pure' _
  intro _
  apply EachStep.bind (patient.lock .inotify)
  intro _
  apply EachStep.bind (.read _)
  intro roots
  apply EachStep.bind (patient.unlock .inotify)
  intro _
  apply EachStep.forEach
  intro root _
  apply EachStep.bind (.read _)
  intro r
  apply EachStep.bind (.piece (patient.doWatchTree _ root true))
  exact fun _ => .pure' _

/-! ## Queues -/

theorem rmWatch (wd : Int) : Keeps inv (inotifyRmWatch wd) := by
  intro w holds _ w' ran
  cases ran
  exact patient.outside w _ holds

theorem thin {change : WatchTable → WatchTable} (thins : ∀ watches, Thins watches (change watches)) :
    Keeps inv (modifyWatches change) :=
  Keeps.update' fun w holds => patient.thins w _ (thins w.watches) holds

theorem thinning : Thinning inv := .of_thins patient.outside patient.thins

theorem rootQueue (root : RootRef) : Triple inv (rootQueue root) fun queue w => inv w ∧ ∀ event ∈ queue, fits event := by
  intro w holds queue w' ran
  have ran' : (Inotispy.rootQueue root >>= pure) w = .ok (queue, w') := by rwa [bind_pure]
  rw [rootQueue_bind, Program.pure_eq_ok] at ran'
  obtain ⟨rfl, rfl⟩ := ran'
  exact ⟨patient.uses root w holds, patient.fitting w root holds⟩

theorem setRootQueue (root : RootRef) {queue : List Event} (fitting : ∀ event ∈ queue, fits event) :
    Keeps inv (setRootQueue root queue) :=
  Keeps.update' fun w holds => patient.queues w root queue holds fitting

theorem copied (text : Str) : Triple inv (mkString text) fun copy w => inv w ∧ (copy = some text ∨ copy = none) := by
  apply Triple.and (patient.mkString text)
  intro w _ copy w' ran
  have ran' : (mkString text >>= pure) w = .ok (copy, w') := by rwa [bind_pure]
  rw [mkString_bind, Program.pure_eq_ok] at ran'
  rw [ran'.1]
  exact ite_eq_or_eq _ _ _

theorem inotifyEnqueue (root : RootRef) {event : InEvent}
    (new : ∀ name path, name = some event.name ∨ name = none → fits (makeNode event name path)) (path : Str) :
    EachStep inv (Stepwise.inotifyEnqueue root event path) := by
  apply EachStep.bind (patient.lock .inotify)
  intro _
  apply EachStep.known (patient.rootQueue root)
  intro queue fitting
  apply EachStep.bind (.read _)
  intro r
  apply EachStep.ite'
  · exact fun _ => patient.unlock_pure .inotify _
  intro _
  refine EachStep.bind (EachStep.piece patient.malloc) fun allocated => ?_
  apply EachStep.ite'
  · exact fun _ => .pure' _
  intro _
  apply EachStep.known (patient.copied event.name)
  intro name named
  apply EachStep.bind (.piece (patient.mkString _))
  intro copy
  have longer : ∀ queued ∈ queue ++ [makeNode event name copy], fits queued := by
    intro queued member
    rcases List.mem_append.mp member with old | last
    · exact fitting queued old
    · rw [List.mem_singleton.mp last]
      exact new name copy named
  apply EachStep.bind (.piece (patient.setRootQueue root longer))
  exact fun _ => patient.unlock_pure .inotify _

theorem inotifyDequeue (root : RootRef) (count : Int32) : EachStep inv (Stepwise.inotifyDequeue root count) := by
  apply EachStep.bind (patient.lock .inotify)
  intro _
  apply EachStep.known (patient.rootQueue root)
  intro queue fitting
  apply EachStep.ite'
  · exact fun _ => patient.unlock_pure .inotify _
  intro _
  apply EachStep.bind (.piece patient.malloc)
  intro allocated
  apply EachStep.ite'
  · exact fun _ => patient.unlock_pure .inotify _
  intro _
  apply EachStep.bind
  · apply EachStep.piece
    exact patient.setRootQueue root fun event member => fitting event (List.mem_of_mem_drop member)
  · exact fun _ => patient.unlock_pure .inotify _

theorem inotifyGetEvents (path : Str) (count : Int32) : EachStep inv (Stepwise.inotifyGetEvents path count) := by
  apply EachStep.bind (.read _)
  intro found
  cases found with
  | none => exact .pure' _
  | some root => exact patient.inotifyDequeue root count

/-! ## Records -/

theorem handleGone (event : InEvent) (absPath : Option Str) : EachStep inv (Stepwise.handleGone event absPath) := by
  have below (path : Str) : EachStep inv (do
      if hasBit event.mask inMovedFrom then
        let keys ← Stepwise.piece (Program.read (·.watches.inotifyPathToWatch.keys))
        let tmp ← Stepwise.piece (mkString (path ++ str "/"))
        Stepwise.piece (unwatchBelow tmp keys)
      Stepwise.unlock .inotify
      return true) := by
    apply EachStep.ite'
    · intro _
      apply EachStep.bind (.read _)
      intro keys
      apply EachStep.bind (.piece (patient.mkString _))
      intro tmp
      apply EachStep.bind (.piece (unwatchBelow_keeps patient.thinning tmp keys))
      exact fun _ => patient.unlock_pure .inotify _
    · exact fun _ => patient.unlock_pure .inotify _
  apply EachStep.bind (patient.lock .inotify)
  intro _
  apply EachStep.bind (.piece (Still.deref absPath))
  intro path
  apply EachStep.bind (.read _)
  intro found
  cases found with
  | none => exact patient.unlock_pure .inotify _
  | some delete =>
    apply EachStep.bind (.piece (patient.rmWatch delete.wd))
    intro _
    apply EachStep.bind (.piece (patient.thin fun watches => .eraseWd watches delete.wd))
    intro _
    apply EachStep.ite'
    · intro _
      apply EachStep.bind (.piece (patient.thin fun watches => .erasePath watches path))
      exact fun _ => below path
    · exact fun _ => below path

theorem handleDirectory (event : InEvent) (path : Str) (absPath : Option Str) (root : RootRef) :
    EachStep inv (Stepwise.handleDirectory event path absPath root) := by
  apply EachStep.ite'
  · exact fun _ => .pure' _
  intro _
  apply EachStep.ite'
  · intro _
    apply EachStep.ite'
    · exact fun _ => .pure' _
    intro _
    apply EachStep.bind patient.yieldMain
    intro _
    apply EachStep.bind (.piece (patient.doWatchTree absPath root false))
    exact fun _ => .pure' _
  intro _
  apply EachStep.ite'
  · exact fun _ => patient.handleGone event absPath
  · exact fun _ => .pure' _

theorem lookupEvent (wd : Int) : EachStep inv (Stepwise.lookupEvent wd) := by
  apply EachStep.bind (patient.lock .inotify)
  intro _
  apply EachStep.bind (.read _)
  intro known
  cases known with
  | none => exact patient.unlock_pure .inotify _
  | some watch =>
    apply EachStep.bind (.piece patient.malloc)
    intro allocated
    apply EachStep.ite'
    · exact fun _ => patient.unlock_pure .inotify _
    intro _
    apply EachStep.bind (.piece (patient.inotifyPathToRoot watch.path))
    intro found
    cases found with
    | none => exact patient.unlock_pure .inotify _
    | some root =>
      apply EachStep.bind (.read _)
      intro r
      apply EachStep.bind (patient.unlock .inotify)
      intro _
      apply EachStep.ite' <;> exact fun _ => .pure' _

theorem inotifyHandleRecord {event : InEvent} (new : event.len ≠ 0 → skipped event = false →
    ∀ name path, name = some event.name ∨ name = none → fits (makeNode event name path)) :
    EachStep inv (Stepwise.inotifyHandleRecord event) := by
  apply EachStep.ite'
  · exact fun _ => .pure' _
  intro named
  apply EachStep.ite'
  · intro _
    apply EachStep.bind
    · apply EachStep.piece
      exact patient.update (fun _ => ⟨.refl, rfl, rfl, rfl, rfl, rfl⟩) fun _ => rfl
    · exact fun _ => .pure' _
  intro _
  apply EachStep.ite'
  · exact fun _ => .pure' _
  intro heeded
  apply EachStep.bind (patient.lookupEvent event.wd)
  intro target
  cases target with
  | none => exact .pure' _
  | some target =>
    apply EachStep.bind (.piece (patient.mkString _))
    intro absPath
    apply EachStep.bind (patient.handleDirectory event target.1 absPath target.2)
    intro queued
    apply EachStep.ite'
    · exact fun _ => .pure' _
    intro _
    apply EachStep.bind (.read _)
    intro r
    apply EachStep.ite'
    · exact fun _ => .pure' _
    intro _
    apply EachStep.bind (patient.inotifyEnqueue target.2 (new named (eq_false_of_ne_true heeded)) target.1)
    exact fun code => .pure' _

theorem inotifyHandleEvent {events : List InEvent} (new : ∀ event ∈ events, event.len ≠ 0 → skipped event = false →
    ∀ name path, name = some event.name ∨ name = none → fits (makeNode event name path)) :
    EachStep inv (Stepwise.inotifyHandleEvent events) := by
  apply EachStep.forEach
  intro event member
  apply EachStep.bind (patient.inotifyHandleRecord (new event member))
  exact fun _ => .pure' _

/-! ## Requests -/

theorem eventWatch (req : Request) : EachStep inv (Stepwise.eventWatch req) := by
  apply EachStep.bind (.piece (patient.mkString _))
  intro copy
  cases copy with
  | none => exact .piece (patient.replySendError _)
  | some path =>
    apply EachStep.ite'
    · exact fun _ => .piece (patient.replySendError _)
    intro _
    apply EachStep.bind (patient.lock .zmq)
    intro _
    apply EachStep.bind (.read _)
    intro found
    apply EachStep.ite'
    · exact fun _ => patient.piece_unlock (patient.replySendError _) .zmq
    intro _
    apply EachStep.bind (patient.unlock .zmq)
    intro _
    apply EachStep.bind (.read _)
    intro defaultEvents
    apply EachStep.bind (patient.inotifyWatchTree path _ _ _)
    intro code
    cases code with
    | some err => exact .piece (patient.replySendError err)
    | none => exact .piece patient.replySendSuccess

theorem eventSubscribe (req : Request) : EachStep inv (Stepwise.eventSubscribe req) := by
  unfold Stepwise.eventSubscribe
  cases requestGetPath req with
  | none => exact .piece (patient.replySendError _)
  | some path =>
    apply EachStep.bind (patient.lock .zmq)
    intro _
    apply EachStep.bind (.read _)
    intro found
    apply EachStep.ite'
    · exact fun _ => patient.piece_unlock (patient.replySendError _) .zmq
    intro _
    apply EachStep.bind (patient.unlock .zmq)
    exact fun _ => .piece (patient.replySendFormatted _)

theorem eventUnwatch (req : Request) : EachStep inv (Stepwise.eventUnwatch req) := by
  unfold Stepwise.eventUnwatch
  cases requestGetPath req with
  | none => exact .piece (patient.replySendError _)
  | some path =>
    apply EachStep.bind (patient.inotifyUnwatchTree path)
    intro code
    cases code with
    | some err => exact .piece (patient.replySendError err)
    | none => exact .piece patient.replySendSuccess

theorem eventGetQueueSize (req : Request) : EachStep inv (Stepwise.eventGetQueueSize req) := by
  unfold Stepwise.eventGetQueueSize
  cases requestGetPath req with
  | none => exact patient.piece_unlock (patient.replySendError _) .zmq
  | some path =>
    apply EachStep.bind (patient.lock .zmq)
    intro _
    apply EachStep.bind (.read _)
    intro found
    cases found with
    | none => exact patient.piece_unlock (patient.replySendError _) .zmq
    | some root =>
      apply EachStep.bind (.read _)
      intro r
      apply EachStep.ite'
      · exact fun _ => patient.piece_unlock (patient.replySendMessage _) .zmq
      intro _
      apply EachStep.known (patient.rootQueue root)
      exact fun queue _ => patient.piece_unlock (patient.replySendFormatted _) .zmq

theorem eventPause (req : Request) : EachStep inv (Stepwise.eventPause req) := by
  unfold Stepwise.eventPause
  cases requestGetPath req with
  | none => exact .piece (patient.replySendError _)
  | some path =>
    apply EachStep.bind (.read _)
    intro found
    apply EachStep.ite'
    · exact fun _ => .piece (patient.replySendError _)
    intro _
    apply EachStep.bind (patient.setPause true path)
    intro code
    cases code with
    | some err => exact .piece (patient.replySendError err)
    | none =>
      apply EachStep.bind (patient.inotifyGetEvents path 0)
      exact fun _ => .piece patient.replySendSuccess

theorem eventUnpause (req : Request) : EachStep inv (Stepwise.eventUnpause req) := by
  unfold Stepwise.eventUnpause
  cases requestGetPath req with
  | none => exact .piece (patient.replySendError _)
  | some path =>
    apply EachStep.bind (.read _)
    intro found
    apply EachStep.ite'
    · exact fun _ => .piece (patient.replySendError _)
    intro _
    apply EachStep.bind (patient.setPause false path)
    intro code
    cases code with
    | some err => exact .piece (patient.replySendError err)
    | none => exact .piece patient.replySendSuccess

theorem eventGetEvents (req : Request) : EachStep inv (Stepwise.eventGetEvents req) := by
  unfold Stepwise.eventGetEvents
  cases requestGetPath req with
  | none => exact .piece (patient.replySendError _)
  | some path =>
    apply EachStep.bind (.read _)
    intro found
    apply EachStep.ite'
    · exact fun _ => .piece (patient.replySendError _)
    intro _
    apply EachStep.ite'
    · exact fun _ => .piece (patient.replySendError _)
    intro _
    apply EachStep.bind (patient.inotifyGetEvents path _)
    intro taken
    cases taken with
    | failed => exact .piece (patient.replySendError _)
    | null => exact .piece (patient.replySendMessage _)
    | events items =>
      apply EachStep.bind (.piece (StillMute.eventsToJarr items))
      exact fun jarr => .piece (patient.replySendMessage _)

theorem inotifyGetRoots : EachStep inv Stepwise.inotifyGetRoots := by
  apply EachStep.bind (patient.lock .inotify)
  intro _
  apply EachStep.bind (.read _)
  intro keys
  apply EachStep.bind (.piece patient.malloc)
  intro allocated
  apply EachStep.ite'
  · exact fun _ => patient.unlock_pure .inotify _
  intro _
  apply EachStep.bind (.piece (patient.mapM_mkString keys))
  intro roots
  apply EachStep.bind (.piece (patient.mkString _))
  exact fun eol => patient.unlock_pure .inotify _

theorem eventGetRoots : EachStep inv Stepwise.eventGetRoots := by
  apply EachStep.bind (.read _)
  intro count
  apply EachStep.ite'
  · exact fun _ => .piece (patient.replySendMessage _)
  intro _
  apply EachStep.bind patient.inotifyGetRoots
  intro roots
  cases roots with
  | none => exact .piece (patient.replySendError _)
  | some roots =>
    apply EachStep.bind (.piece (StillMute.rootsUntilEol roots))
    exact fun jarr => .piece (patient.replySendMessage _)

theorem zmqDispatchEvent (req : Request) : EachStep inv (Stepwise.zmqDispatchEvent req) := by
  apply EachStep.bind (.piece (Still.deref req.call))
  intro call
  repeat'
    apply EachStep.ite' <;> intro _
  · exact .piece (patient.replySendMessage _)
  · exact .piece patient.eventStatus
  · exact patient.eventWatch req
  · exact patient.eventPause req
  · exact patient.eventUnpause req
  · exact patient.eventSubscribe req
  · exact patient.eventUnwatch req
  · exact patient.eventGetEvents req
  · exact patient.eventGetQueueSize req
  · exact patient.eventGetRoots
  · exact .piece (patient.replySendError _)

theorem requestParse (json : Str) : Keeps inv (requestParse json) := by
  unfold Inotispy.requestParse
  split
  · exact Keeps.pure'
  · exact Keeps.pure'
  split
  · apply Keeps.bind patient.malloc
    intro allocated
    apply Keeps.ite'
    · exact fun _ => Keeps.pure'
    intro _
    apply Keeps.bind (patient.mkString _)
    intro call
    apply Keeps.bind (patient.mkString _)
    exact fun copy => Keeps.pure'
  · exact Keeps.pure'

theorem zmqHandleEvent : EachStep inv Stepwise.zmqHandleEvent := by
  apply EachStep.bind (patient.lock .zmq)
  intro _
  apply EachStep.bind (.piece (patient.socket _))
  intro received
  cases received with
  | none => exact patient.piece_unlock (patient.replySendError _) .zmq
  | some request =>
    apply EachStep.ite'
    · exact fun _ => patient.unlock .zmq
    intro _
    apply EachStep.bind (.piece patient.malloc)
    intro allocated
    apply EachStep.ite'
    · exact fun _ => .piece (patient.replySendError _)
    intro _
    apply EachStep.ite'
    · exact fun _ => patient.unlock .zmq
    intro _
    apply EachStep.ite'
    · exact fun _ => patient.piece_unlock (patient.replySendError _) .zmq
    intro _
    apply EachStep.bind (.piece (patient.requestParse _))
    intro parsed
    cases parsed with
    | failed => exact patient.piece_unlock (patient.replySendError _) .zmq
    | null => exact patient.piece_unlock (patient.replySendError _) .zmq
    | request req =>
      apply EachStep.bind (patient.unlock .zmq)
      exact fun _ => patient.zmqDispatchEvent req

/-! ## Rounds and handlers -/

theorem alarmHandler : EachStep inv Stepwise.alarmHandler := by
  have acquires : EachStep inv (.perform .acquireMain) := by
    apply Code.Keeps.perform
    intro d d' a holds ran
    simp only [Operation.does] at ran
    split at ran
    · cases ran
    · cases ran
      exact ⟨holds, trivial⟩
  have releases : EachStep inv (.perform .releaseMain) := by
    apply Code.Keeps.perform
    intro d d' a holds ran
    cases ran
    exact ⟨holds, trivial⟩
  apply EachStep.bind acquires
  intro _
  exact EachStep.bind patient.inotifyDumpRoots fun _ => releases

theorem sigHandler (signal : Signal) : EachStep inv (Stepwise.sigHandler signal) := by
  have exits : EachStep inv (.perform .exit) := by
    apply Code.Keeps.perform
    intro d d' a holds ran
    cases ran
  cases signal with
  | sighup => exact patient.alarmHandler
  | sigint => exact EachStep.bind patient.inotifyDumpRoots fun _ => exits

omit patient in
theorem ifDue (due : Bool) {code : Stepwise.Code σ Unit} (keeps : EachStep inv code) :
    EachStep inv (Stepwise.ifDue due code) := by
  cases due with
  | false => exact .pure' _
  | true => exact keeps

theorem mainRound {poll : Stepwise.Poll} (new : ∀ event ∈ poll.events, event.len ≠ 0 → skipped event = false →
    ∀ name path, name = some event.name ∨ name = none → fits (makeNode event name path)) :
    EachStep inv (Stepwise.mainRound poll) := by
  apply EachStep.bind (ifDue _ patient.alarmHandler)
  intro _
  apply EachStep.bind
  · apply ifDue
    apply EachStep.bind (.piece patient.inotifyMemclean)
    exact fun _ => patient.inotifyRewatchRoots
  intro _
  apply EachStep.bind (patient.inotifyHandleEvent new)
  intro _
  exact ifDue _ patient.zmqHandleEvent

end Patient

end Inotispy
