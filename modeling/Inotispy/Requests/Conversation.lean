import Inotispy.Requests.Filtering
import Inotispy.Requests.Release

/-! Conversations with clients.

Every message that holds text gets one reply, whatever it asks for and whatever else the daemon is
doing, unless a request is about a root that a thread is just destroying: then the code goes on
with memory that may have been freed.
-/

set_option autoImplicit false

namespace Inotispy
open Library

variable {σ : Type}

/-! ## Calls -/

/-- No thread is destroying a root that is registered at the path, or that the path lies in. The
record of such a root is freed while a request may still look at it; here it is kept. -/
def Undestroyed (path : Str) (w : World σ) : Prop :=
  ∀ root, w.roots.inotifyRoots.lookup path = some root ∨ w.roots.pathToRoot path = some root →
    ∀ thread ∈ w.pool.threads, thread.destroys ≠ some root

theorem Undestroyed.clear {path : Str} {w : World σ} (stays : Undestroyed path w) : Clear path w.roots w.pool.threads :=
  fun root registered => stays root (.inl registered)

structure Call (σ : Type) where
  before : World σ
  after : World σ

namespace Call

def message (call : Call σ) : Option (List Char) := call.before.socket.recv.1

def sent (call : Call σ) : Nat := call.after.socket.replies.length - call.before.socket.replies.length

/-- One reply for a message that was received, none without one. -/
def Lockstep (call : Call σ) : Prop := call.sent = if call.message.isSome then 1 else 0

def HoldsText (call : Call σ) : Prop := ∀ message, call.message = some message → holdsText message = true

/-- What the message asks for is about no root that is being destroyed. -/
def Undestroyed [System σ] (call : Call σ) : Prop :=
  ∀ message req path, call.message = some message →
    requestOf σ (throughBrace (CString.ofBuffer message)) = some req → requestGetPath req = some path →
      Inotispy.Undestroyed path call.before

def Safe (call : Call σ) : Prop :=
  call.before.output.releasedQueueUsed = false → call.after.output.releasedQueueUsed = false

end Call

section
variable [System σ]

/-! ## One call -/

theorem requestParse_asks {json : Str} {parsed : Parsed} {w w' : World σ} (ran : requestParse json w = .ok (parsed, w')) :
    ∃ s, Quiet w.sys s ∧ w' = { w with sys := s } := by
  rw [requestParse_eq] at ran
  cases called : calledObject σ json with
  | none =>
    rw [called] at ran
    obtain ⟨_, rfl⟩ := Program.pure_eq_ok.mp ran
    exact ⟨_, .refl, rfl⟩
  | some found =>
    rw [called, Option.elim_some] at ran
    simp only [malloc_bind, mkString_bind, Program.ite_eq_ok, Program.pure_eq_ok] at ran
    obtain ⟨_, _, rfl⟩ | ⟨_, _, rfl⟩ := ran
    · exact ⟨_, .malloc .refl, rfl⟩
    · exact ⟨_, .malloc (.malloc (.malloc .refl)), rfl⟩

theorem SteadyMute.zmqReceive {inv : World σ → Prop} (steady : SteadyMute inv) : Keeps inv zmqReceive := by
  have still := steady.still
  have parses (json : Str) : Keeps inv (requestParse json) := by
    intro w holds parsed w' ran
    obtain ⟨s, quiet, rfl⟩ := requestParse_asks ran
    exact still.asked quiet holds
  have ends {x : M σ Unit} (kept : Keeps inv x) (found : Option Request) : Keeps inv (do x; return found) :=
    Keeps.bind kept fun _ => Keeps.pure'
  have refuses (err : InotispyError) : Keeps inv (do
      replySendError err
      unlock .zmq
      return (none : Option Request)) := Keeps.bind (still.replySendError err) fun _ => ends (steady.unlock .zmq) none
  unfold Inotispy.zmqReceive
  apply Keeps.bind (steady.lock .zmq)
  intro _
  apply Keeps.bind (still.socket _)
  intro received
  cases received with
  | none => exact refuses _
  | some request =>
    apply Keeps.ite'
    · exact fun _ => ends (steady.unlock .zmq) none
    intro _
    apply Keeps.bind still.malloc
    intro allocated
    apply Keeps.ite'
    · exact fun _ => ends (still.replySendError _) none
    intro _
    apply Keeps.ite'
    · exact fun _ => ends (steady.unlock .zmq) none
    intro _
    apply Keeps.ite'
    · exact fun _ => refuses _
    intro _
    apply Keeps.bind (parses _)
    intro parsed
    cases parsed with
    | failed => exact refuses _
    | null => exact refuses _
    | request req => exact ends (steady.unlock .zmq) _

theorem zmqHandleEvent_eq_ok (succeed : AllocationsSucceed σ) {w w' : World σ} (start : At false false w.socket w)
    (ran : zmqHandleEvent w = .ok ((), w')) :
    ∃ v, zmqReceive w = .ok (w.socket.recv.1.bind fun message => requestOf σ (throughBrace (CString.ofBuffer message)), v) ∧
      ((w.socket.recv.1.bind fun message => requestOf σ (throughBrace (CString.ofBuffer message))).elim (pure ())
        zmqDispatchEvent) v = .ok ((), w') := by
  obtain ⟨v, receiving⟩ := zmqReceive_returns succeed start
  refine ⟨v, receiving, ?_⟩
  rwa [zmqHandleEvent_eq_receive, Program.bind_ok _ _ _ _ _ receiving] at ran

theorem zmqHandleEvent_life (succeed : AllocationsSucceed σ) {w w' : World σ} (start : At false false w.socket w)
    (life : Lifecycle w.roots w.pool.threads) (ran : zmqHandleEvent w = .ok ((), w')) :
    Lifecycle w'.roots w'.pool.threads := by
  obtain ⟨v, receiving, ran⟩ := zmqHandleEvent_eq_ok succeed start ran
  have between := (living_life.toSteadyMute.zmqReceive w ⟨life, trivial⟩ _ v receiving).1
  cases found : w.socket.recv.1.bind fun message => requestOf σ (throughBrace (CString.ofBuffer message)) with
  | none =>
    rw [found] at ran
    obtain ⟨_, rfl⟩ := Program.pure_eq_ok.mp ran
    exact between
  | some req =>
    rw [found] at ran
    have step : ServerStep (.request req) v w' := ⟨trivial, ran⟩
    exact step.life between

/-- A request about a root that stays is served from a queue that is there. -/
theorem zmqHandleEvent_unused (succeed : AllocationsSucceed σ) {w w' : World σ} (start : At false false w.socket w)
    (life : Lifecycle w.roots w.pool.threads) (stays : Call.Undestroyed ⟨w, w'⟩) (unused : w.output.releasedQueueUsed = false)
    (ran : zmqHandleEvent w = .ok ((), w')) : w'.output.releasedQueueUsed = false := by
  obtain ⟨v, receiving, ran⟩ := zmqHandleEvent_eq_ok succeed start ran
  cases found : w.socket.recv.1.bind fun message => requestOf σ (throughBrace (CString.ofBuffer message)) with
  | none =>
    rw [found] at ran
    obtain ⟨_, rfl⟩ := Program.pure_eq_ok.mp ran
    exact (living_life.unused.toSteadyMute.zmqReceive w ⟨⟨life, trivial⟩, unused⟩ _ _ receiving).2
  | some req =>
    obtain ⟨message, received, is⟩ := Option.bind_eq_some_iff.mp found
    rw [found] at ran
    have step : ServerStep (.request req) v w' := ⟨trivial, ran⟩
    -- The path is as clear when the request is dispatched as it was when the message was received.
    cases asked : requestGetPath req with
    | none =>
      have between := living_life.unused.toSteadyMute.zmqReceive w ⟨⟨life, trivial⟩, unused⟩ _ v receiving
      refine (step.unused ?_ between.1.1 between.2).2
      rintro _ path ⟨⟩ _ asked'
      rw [asked] at asked'
      cases asked'
    | some path =>
      have clear := (stays message req path received is asked).clear
      have between := (living_clear path).unused.toSteadyMute.zmqReceive w ⟨⟨life, clear⟩, unused⟩ _ v receiving
      refine (step.unused ?_ between.1.1 between.2).2
      rintro _ path' ⟨⟩ _ asked'
      rw [asked] at asked'
      cases asked'
      exact between.1.2

variable {k : Socket}

/-- One call: it is in lockstep if it started with nothing left to answer and received no
message without text, and then it leaves nothing to answer; a message without text gets no
reply. -/
theorem zmqHandleEvent_lockstep (succeed : AllocationsSucceed σ) {w w' : World σ}
    (start : At false false w.socket w) (ran : zmqHandleEvent w = .ok ((), w')) :
    (∃ k, At false false k w') ∧
      (w.socket.pending = false → Call.HoldsText ⟨w, w'⟩ → w'.socket.pending = false ∧ Call.Lockstep ⟨w, w'⟩) ∧
      (¬Call.HoldsText ⟨w, w'⟩ → w'.socket.replies.length = w.socket.replies.length) := by
  obtain ⟨v, ran', final⟩ := zmqHandleEvent_run succeed start
  obtain ⟨_, rfl⟩ := Program.ok_unique ran ran'
  have text : w.socket.recv.1.all holdsText = true ↔ Call.HoldsText ⟨w, w'⟩ := by
    rw [Option.all_eq_true]
    exact Iff.rfl
  by_cases texts : w.socket.recv.1.all holdsText = true
  · rw [if_pos texts] at final
    obtain ⟨reply, final⟩ := final
    refine ⟨⟨_, final⟩, fun idle _ => ?_, fun none => absurd (text.mp texts) none⟩
    unfold Call.Lockstep Call.sent Call.message
    rw [final.socket]
    cases received : w.socket.recv.1 with
    | none =>
      have idle := Socket.pending_of_recv_none idle received
      rw [Socket.send_idle idle, Socket.replies_recv]
      exact ⟨idle, by simp⟩
    | some message =>
      obtain ⟨answered, one⟩ := Socket.send_pending (Socket.pending_of_recv_some received) reply
      exact ⟨answered, by simp [one, Socket.replies_recv]⟩
  · rw [if_neg texts] at final
    refine ⟨⟨_, final⟩, fun _ yes => absurd (text.mpr yes) texts, fun _ => ?_⟩
    rw [final.socket, Socket.replies_recv]

/-! ## Whole conversations -/

/-- A run of the main loop, with its calls of `zmq_handle_event`. Between two of them clients may
send more, and the daemon may do anything else that sends no reply, gives the mutexes back, leaves
no string missing and lets the roots lead their lives. -/
inductive Converses : World σ → List (Call σ) → World σ → Prop where
  | start (w : World σ) : Converses w [] w
  | handle {w u w' : World σ} {calls : List (Call σ)} (before : Converses w calls u)
      (ran : zmqHandleEvent u = .ok ((), w')) : Converses w (calls ++ [⟨u, w'⟩]) w'
  | between {w u w' : World σ} {calls : List (Call σ)} (before : Converses w calls u)
      (replies : w'.socket.replies = u.socket.replies) (pending : w'.socket.pending = u.socket.pending)
      (inotify : w'.locks.inotify = false) (zmq : w'.locks.zmq = false) (whole : Whole w')
      (life : Lifecycle w'.roots w'.pool.threads) : Converses w calls w'

theorem Converses.invariant (succeed : AllocationsSucceed σ) {w w' : World σ} {calls : List (Call σ)}
    (start : At false false w.socket w) (life : Lifecycle w.roots w.pool.threads) (idle : w.socket.pending = false)
    (run : Converses w calls w') :
    At false false w'.socket w' ∧ Lifecycle w'.roots w'.pool.threads ∧
      ((∀ call ∈ calls, call.HoldsText) → w'.socket.pending = false ∧ ∀ call ∈ calls, call.Lockstep) ∧
      (∀ call ∈ calls, ¬call.HoldsText → call.sent = 0) ∧ ∀ call ∈ calls, call.Undestroyed → call.Safe := by
  induction run with
  | start => exact ⟨start, life, fun _ => ⟨idle, by simp⟩, by simp, by simp⟩
  | handle before ran ih =>
    rename_i u w' calls
    obtain ⟨holds, life, good, bad, safe⟩ := ih
    obtain ⟨⟨k, next⟩, lockstep, silent⟩ := zmqHandleEvent_lockstep succeed holds ran
    have here : Call.mk u w' ∈ calls ++ [⟨u, w'⟩] := List.mem_append_right _ (List.mem_singleton.mpr rfl)
    have each {so : Call σ → Prop} (all : ∀ call ∈ calls, so call) (last : so ⟨u, w'⟩) :
        ∀ call ∈ calls ++ [⟨u, w'⟩], so call := by
      intro call member
      rcases List.mem_append.mp member with old | new
      · exact all call old
      · exact List.mem_singleton.mp new ▸ last
    refine ⟨⟨next.inotify, next.zmq, rfl, next.whole⟩, zmqHandleEvent_life succeed holds life ran, fun texts => ?_, ?_, ?_⟩
    · obtain ⟨idle, before⟩ := good fun call member => texts call (List.mem_append_left _ member)
      obtain ⟨idle, last⟩ := lockstep idle (texts _ here)
      exact ⟨idle, each before last⟩
    · refine each bad fun none => ?_
      rw [Call.sent, silent none, Nat.sub_self]
    · exact each safe fun stays unused => zmqHandleEvent_unused succeed holds life stays unused ran
  -- There is no new call, and whether a reply is due has not changed.
  | between before replies pending inotify zmq whole life ih =>
    obtain ⟨_, _, good, bad, safe⟩ := ih
    exact ⟨⟨inotify, zmq, rfl, whole⟩, life, pending ▸ good, bad, safe⟩

end

def World.receiving (messages : List (Option (List Char))) : World Reader :=
  { World.initial ⟨⟩ with socket := ⟨messages, false, []⟩ }

theorem Call.undestroyed_of_idle {call : Call σ} [System σ]
    (idle : ∀ thread ∈ call.before.pool.threads, thread.destroys = none) : call.Undestroyed := by
  intro _ _ _ _ _ _ root _ thread member mine
  rw [idle thread member] at mine
  cases mine

/-- A text that is no JSON, a request to watch "/a" and one for the events in it. -/
def threeMessages : List (Option (List Char)) :=
  [some (str "hello"), some (str "\x7b\"call\":\"watch\",\"path\":\"/a\"\x7d"),
    some (str "\x7b\"call\":\"get_events\",\"path\":\"/a\"\x7d")]

end Inotispy
