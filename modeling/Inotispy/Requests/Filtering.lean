import Inotispy.Requests.Lockstep
import Inotispy.Requests.Texts

/-! Which messages reach the dispatcher.

Before it is parsed a message is cut after its first closing brace, wherever that stands. So
the object that a client sends comes through exactly when no other brace stands before the
one that closes it.
-/

set_option autoImplicit false

namespace Inotispy
open Library
open JsonText (IsObject IsIncomplete)

variable {σ : Type} [System σ]

/-! ## The filter -/

/-- The text up to the first closing brace, and the whole text if there is none. -/
def throughBrace : Str → Str
  | [] => []
  | c :: rest => if c = '\x7d' then [c] else c :: throughBrace rest

theorem throughBrace_append {before : Str} (first : '\x7d' ∉ before) (rest : Str) :
    throughBrace (before ++ '\x7d' :: rest) = before ++ ['\x7d'] := by
  induction before with
  | nil => rfl
  | cons c before ih =>
    obtain ⟨other, later⟩ := not_or.mp (List.mem_cons.not.mp first)
    rw [List.cons_append, throughBrace, if_neg (Ne.symm other), ih later, List.cons_append]

/-- Past the brace the loop writes one null byte, which ends it. -/
theorem junkLoop_nil (rounds : Nat) (json : Str) (i : Nat) (enough : json.length ≤ i + rounds) :
    junkLoop rounds json i true = json.take i := by
  cases rounds with
  | zero => exact (List.take_of_length_le enough).symm
  | succ rounds =>
    rw [junkLoop]
    split
    · next inside =>
      rw [if_pos rfl]
      -- The string now ends at `i`, so the next round is the last.
      cases rounds with
      | zero => rfl
      | succ rounds =>
        have ended : ¬i + 1 < (json.take i).length := by
          rw [List.length_take]
          omega
        rw [junkLoop, if_neg ended]
    · next outside => exact (List.take_of_length_le (Nat.le_of_not_lt outside)).symm

theorem junkLoop_through {rounds : Nat} {before rest : Str} (enough : rest.length ≤ rounds) :
    junkLoop rounds (before ++ rest) before.length false = before ++ throughBrace rest := by
  induction rounds generalizing before rest with
  | zero =>
    cases List.length_eq_zero_iff.mp (Nat.le_zero.mp enough)
    rfl
  | succ rounds ih =>
    cases rest with
    | nil => simp [junkLoop, throughBrace]
    | cons c rest =>
      have left : rest.length ≤ rounds := Nat.le_of_succ_le_succ enough
      have inside : before.length < (before ++ c :: rest).length := by simp
      have here : (before ++ c :: rest).getD before.length '\x00' = c := by simp
      rw [junkLoop, if_pos inside, if_neg Bool.false_ne_true, here, throughBrace]
      by_cases brace : c = '\x7d'
      · have cut := junkLoop_nil rounds (before ++ c :: rest) (before.length + 1) (by simp; omega)
        rw [if_pos brace, beq_iff_eq.mpr brace, cut]
        simp [List.take_append, List.take_of_length_le]
      · have more := @ih (before ++ [c]) rest left
        rw [if_neg brace, beq_false_of_ne brace]
        simpa using more

theorem junkLoop_eq (json : Str) : junkLoop json.length json 0 false = throughBrace json :=
  @junkLoop_through json.length [] json (Nat.le_refl _)

/-! ## What is dispatched -/

/-- `zmq_handle_event` up to the dispatcher: the request that it hands on, if any. -/
def zmqReceive : M σ (Option Request) := do
  lock .zmq
  let some request ← modifySocket Socket.recv
    | replySendError .zeromqReconnect
      unlock .zmq
      return none
  if request.length = 0 then
    unlock .zmq
    return none
  if !(← malloc) then
    replySendError .memoryAllocation
    return none
  let json := CString.ofBuffer request
  if json.length = 0 then
    unlock .zmq
    return none
  let json := junkLoop json.length json 0 false
  if !looksLikeJson json then
    replySendError .jsonInvalid
    unlock .zmq
    return none
  match ← requestParse json with
  | .failed =>
    replySendError .memoryAllocation
    unlock .zmq
    return none
  | .null =>
    replySendError .jsonParse
    unlock .zmq
    return none
  | .request req =>
    unlock .zmq
    return some req

theorem zmqHandleEvent_eq_receive :
    (zmqHandleEvent : M σ Unit) = (do
      let found ← zmqReceive
      found.elim (pure ()) zmqDispatchEvent) := by
  -- The two take the same branches; where the one ends, the other answers `none`.
  unfold zmqHandleEvent zmqReceive
  rw [bind_assoc]
  congr 1
  funext _
  rw [bind_assoc]
  congr 1
  funext received
  cases received with
  | none => simp only [bind_assoc, pure_bind, Option.elim_none, bind_pure_unit]
  | some request =>
    by_cases empty : request.length = 0
    · simp only [empty, if_true, bind_assoc, pure_bind, Option.elim_none, bind_pure_unit]
    simp only [empty, if_false]
    rw [bind_assoc]
    congr 1
    funext allocated
    cases allocated with
    | false =>
      simp only [Bool.not_false, if_true, bind_assoc, pure_bind, Option.elim_none, bind_pure_unit]
    | true =>
    by_cases null : (CString.ofBuffer request).length = 0
    · simp only [Bool.not_true, Bool.false_eq_true, if_false, null, if_true, bind_assoc, pure_bind, Option.elim_none,
        bind_pure_unit]
    simp only [Bool.not_true, Bool.false_eq_true, if_false, null]
    generalize junkLoop (CString.ofBuffer request).length (CString.ofBuffer request) 0 false = json
    cases looksLikeJson json with
    | false => simp only [Bool.not_false, if_true, bind_assoc, pure_bind, Option.elim_none, bind_pure_unit]
    | true =>
      simp only [Bool.not_true, Bool.false_eq_true, if_false, bind_assoc]
      congr 1
      funext parsed
      cases parsed with
      | failed => simp only [bind_assoc, pure_bind, Option.elim_none, bind_pure_unit]
      | null => simp only [bind_assoc, pure_bind, Option.elim_none, bind_pure_unit]
      | request req => simp only [bind_assoc, pure_bind, Option.elim_some]

def Json.string? : Json → Option Str
  | .string text => some text
  | _ => none

def Parsed.request? : Parsed → Option Request
  | .request req => some req
  | _ => none

def calledObject (σ : Type) [System σ] (json : Str) : Option (Json × Str) :=
  (System.jsonTokenerParse (σ := σ) json).bind fun jobj =>
    ((jobj.objectGet (str "call")).bind Json.string?).map fun call => (jobj, call)

theorem requestParse_eq (json : Str) :
    (requestParse json : M σ Parsed) = (calledObject σ json).elim (pure Parsed.null) fun found => do
      if !(← malloc) then return Parsed.failed
      let call ← mkString (CString.ofBuffer found.2)
      let copy ← mkString json
      return Parsed.request { call := call, json := copy, parser := found.1 } := by
  unfold requestParse calledObject
  cases System.jsonTokenerParse (σ := σ) json with
  | none => rfl
  | some jobj =>
    cases jobj with
    | object members =>
      cases found : (Json.object members).objectGet (str "call") with
      | none => simp [found]
      | some call => cases call <;> simp [found, Json.string?]
    | _ => rfl

/-- The request that a text is taken for while allocations succeed. -/
def requestOf (σ : Type) [System σ] (json : Str) : Option Request :=
  if looksLikeJson json then
    (calledObject σ json).map fun found =>
      { call := some (CString.ofBuffer found.2), json := some json, parser := found.1 }
  else none

section
variable {i z : Bool} {k : Socket} (succeed : AllocationsSucceed σ)
include succeed

theorem requestParse_returns {json : Str} (looks : looksLikeJson json = true) :
    Returns (At (σ := σ) i z k) (requestParse json) fun parsed w => parsed.request? = requestOf σ json ∧ At i z k w := by
  rw [requestParse_eq, requestOf, if_pos looks]
  cases calledObject σ json with
  | none => exact Returns.pure' fun _ start => ⟨rfl, start⟩
  | some found =>
    apply Returns.bind (malloc_stays succeed)
    intro allocated
    apply Returns.given
    rintro rfl
    apply Returns.bind (mkString_stays succeed _)
    intro made
    apply Returns.given
    rintro rfl
    apply Returns.bind (mkString_stays succeed _)
    intro copy
    apply Returns.given
    rintro rfl
    exact Returns.pure' fun _ start => ⟨rfl, start⟩

theorem zmqReceive_returns {w : World σ} (start : At false false k w) :
    ∃ v, zmqReceive w =
      .ok (k.recv.1.bind fun message => requestOf σ (throughBrace (CString.ofBuffer message)), v) := by
  obtain ⟨_, v, locking, locked⟩ := lock_zmq succeed w start
  have finish {x : M σ (Option Request)} {found : Option Request}
      (returns : Returns (At false true k.recv.2) x fun answer _ => answer = found) :
      ∃ v', x { v with socket := k.recv.2 } = .ok (found, v') := by
    obtain ⟨_, v', ran, rfl⟩ := returns { v with socket := k.recv.2 }
      ⟨locked.inotify, locked.zmq, rfl, locked.whole.of_same rfl rfl⟩
    exact ⟨v', ran⟩
  rw [zmqReceive, Program.bind_ok _ _ _ _ _ locking, modifySocket_bind, locked.socket]
  cases k.recv.1 with
  | none =>
    apply finish
    apply Returns.bind (replySendError_sends succeed _)
    intro _
    apply Returns.bind (unlock_zmq_answered succeed)
    intro _
    exact Returns.pure' fun _ _ => rfl
  | some message =>
    rw [Option.bind_some]
    apply finish
    apply Returns.ite'
    · intro empty
      rw [List.length_eq_zero_iff.mp empty]
      apply Returns.bind (unlock_zmq succeed)
      intro _
      exact Returns.pure' fun _ _ => rfl
    intro _
    apply Returns.bind (malloc_stays succeed)
    intro allocated
    apply Returns.given
    rintro rfl
    apply Returns.ite'
    · intro never
      cases never
    intro _
    apply Returns.ite'
    · intro empty
      rw [List.length_eq_zero_iff.mp empty]
      apply Returns.bind (unlock_zmq succeed)
      intro _
      exact Returns.pure' fun _ _ => rfl
    intro _
    rw [junkLoop_eq]
    apply Returns.ite'
    · intro refused
      have none : requestOf σ (throughBrace (CString.ofBuffer message)) = none := if_neg (by simpa using refused)
      apply Returns.bind (replySendError_sends succeed _)
      intro _
      apply Returns.bind (unlock_zmq_answered succeed)
      intro _
      exact Returns.pure' fun _ _ => none.symm
    intro looks
    apply Returns.bind (requestParse_returns succeed (by simpa using looks))
    intro parsed
    apply Returns.given
    intro is
    cases parsed with
    | request req =>
      apply Returns.bind (unlock_zmq succeed)
      intro _
      exact Returns.pure' fun _ _ => is
    | _ =>
      apply Returns.bind (replySendError_sends succeed _)
      intro _
      apply Returns.bind (unlock_zmq_answered succeed)
      intro _
      exact Returns.pure' fun _ _ => is

end

/-! ## Objects -/

/-- What is assumed of json-c: it reads complete objects and reports incomplete ones. Which control
characters it lets pass in strings is left open, but for the null byte that ends its input. -/
structure ReadsJson (σ : Type) [System σ] (takes : Char → Bool) : Prop where
  null : takes '\x00' = false
  complete : ∀ text members, IsObject takes text members →
    System.jsonTokenerParse (σ := σ) text = some (.object members)
  incomplete : ∀ text, IsIncomplete takes text → System.jsonTokenerParse (σ := σ) text = none

/-- A call of `zmq_handle_event` comes to dispatch a request. -/
def Dispatches (w : World σ) (req : Request) : Prop := ∃ v, zmqReceive w = .ok (some req, v)

theorem Dispatches.runs {w : World σ} {req : Request} (dispatches : Dispatches w req) :
    ∃ v, zmqHandleEvent w = zmqDispatchEvent req v := by
  obtain ⟨v, ran⟩ := dispatches
  exact ⟨v, by rw [zmqHandleEvent_eq_receive, Program.bind_ok _ _ _ _ _ ran, Option.elim_some]⟩

theorem dispatches_iff {k : Socket} (succeed : AllocationsSucceed σ) {w : World σ} (start : At false false k w)
    {message : List Char} (received : k.recv.1 = some message) (req : Request) :
    Dispatches w req ↔ requestOf σ (throughBrace (CString.ofBuffer message)) = some req := by
  obtain ⟨v, ran⟩ := zmqReceive_returns succeed start
  rw [received, Option.bind_some] at ran
  constructor
  · rintro ⟨v', ran'⟩
    exact (Program.ok_unique ran ran').1
  · intro is
    exact ⟨v, is ▸ ran⟩

theorem requestOf_object {takes : Char → Bool} {text call : Str} {members : List (Str × Json)}
    (parsed : System.jsonTokenerParse (σ := σ) text = some (.object members)) (object : IsObject takes text members)
    (called : (Json.object members).objectGet (str "call") = some (.string call)) :
    requestOf σ text = some { call := some (CString.ofBuffer call), json := some text, parser := .object members } := by
  obtain ⟨body, rfl⟩ := object.ends
  have looks : looksLikeJson (body ++ ['\x7d']) = true := by simp [looksLikeJson]
  rw [requestOf, if_pos looks, calledObject, parsed, Option.bind_some, called]
  rfl

theorem requestOf_incomplete {takes : Char → Bool} (reads : ReadsJson σ takes) {text : Str}
    (incomplete : IsIncomplete takes text) : requestOf σ text = none := by
  unfold requestOf calledObject
  rw [reads.incomplete text incomplete]
  split <;> rfl

/-- The object that a client sends is dispatched exactly when its text has no closing brace
before the last. -/
theorem request_reaches_dispatcher_iff {takes : Char → Bool} (reads : ReadsJson σ takes) (succeed : AllocationsSucceed σ)
    {k : Socket} {w : World σ} (start : At false false k w) {text junk : Str} {members : List (Str × Json)}
    (object : IsObject takes text members) {call : Str}
    (called : (Json.object members).objectGet (str "call") = some (.string call))
    (received : k.recv.1 = some (text ++ junk)) :
    (∃ req, Dispatches w req ∧ req.parser = .object members) ↔ '\x7d' ∉ text.dropLast := by
  simp only [dispatches_iff succeed start received, CString.ofBuffer_append (object.null_free reads.null)]
  obtain ⟨body, rfl⟩ := object.ends
  rw [List.dropLast_concat, List.append_assoc, List.singleton_append]
  constructor
  · rintro ⟨req, dispatched, _⟩ inside
    -- The text is cut inside, and json-c reports that it ends too early.
    obtain ⟨before, after, rfl, first⟩ := List.eq_append_cons_of_mem inside
    have incomplete : IsIncomplete takes (before ++ ['\x7d']) :=
      ⟨after ++ ['\x7d'], members, by simp, by simpa using object⟩
    rw [List.append_assoc, List.cons_append, throughBrace_append first, requestOf_incomplete reads incomplete] at dispatched
    cases dispatched
  · intro last
    rw [throughBrace_append last, requestOf_object (reads.complete _ _ object) object called]
    exact ⟨_, rfl, rfl⟩

/-! ## On a computed json-c -/

/-- An outside whose json-c is the reader itself, and where nothing else is of interest. -/
structure Reader where

instance : System Reader where
  malloc s := (true, s)
  pthreadCreate s := (true, s)
  opendir s _ := (true, s)
  readdir s _ := (some [], s)
  lstat s _ := (.dir, s)
  statIsDir s _ := (true, s)
  inotifyAddWatch s _ _ := (1, s)
  inotifyRmWatch s _ := (0, s)
  fopenDump s := (true, s)
  getpid _ := 1
  uptime _ := 0
  jsonTokenerParse := JsonText.value? (fun _ => false) .start
  jsonObjectToJsonString _ := []

theorem Reader.reads : ReadsJson Reader fun _ => false where
  null := rfl
  complete text members object := JsonText.value?_eq_some.mpr ⟨text, [], members, (List.append_nil text).symm, object, rfl⟩
  incomplete _ incomplete := incomplete.value?

def World.sent (message : Str) : World Reader :=
  { World.initial ⟨⟩ with socket := ⟨[some message], false, []⟩ }

theorem World.sent_at (message : Str) :
    At false false ⟨[some message], false, []⟩ (World.sent message) :=
  ⟨rfl, rfl, rfl, fun _ => rfl, fun _ _ member => absurd member List.not_mem_nil, fun _ member => absurd member List.not_mem_nil⟩

theorem World.sent_received (message : Str) : (⟨[some message], false, []⟩ : Socket).recv.1 = some message := rfl

theorem object_before_junk_dispatched :
    ∃ req, Dispatches (World.sent (str "\x7b\"call\":\"ping\"\x7d" ++ str "ab\x7d")) req ∧
      req.parser = .object [(str "call", .string (str "ping"))] := by
  have object : IsObject (fun _ => false) (str "\x7b\"call\":\"ping\"\x7d") [(str "call", .string (str "ping"))] := rfl
  exact (request_reaches_dispatcher_iff Reader.reads (fun _ => rfl) (World.sent_at _) object rfl rfl).mpr (by decide)

/-- A request for a directory with a closing brace in its name is JSON, and no request for the daemon. -/
theorem brace_in_path_not_dispatched :
    IsObject (fun _ => false) (str "\x7b\"call\":\"watch\",\"path\":\"/a\x7db\"\x7d")
        [(str "call", .string (str "watch")), (str "path", .string (str "/a\x7db"))] ∧
      ¬∃ req, Dispatches (World.sent (str "\x7b\"call\":\"watch\",\"path\":\"/a\x7db\"\x7d")) req := by
  refine ⟨rfl, ?_⟩
  rintro ⟨req, dispatches⟩
  rw [dispatches_iff (fun _ => rfl) (World.sent_at _) rfl] at dispatches
  cases dispatches

end Inotispy
