import Inotispy.Locks.Balance
import Inotispy.Model.InPlace
import Inotispy.Requests.Addressing
import Inotispy.Requests.Filtering

/-! Which texts are handed to the parser.

The loop that cuts a message ends with the text up to its first closing brace. The test behind it
refuses a text only if both braces are missing, so that one of them is enough to get through.
-/

set_option autoImplicit false

namespace Inotispy
open Library

/-! ## The loop -/

section
variable {text before rest : Str} {c : Char} (after : List Char) {i : Int}

theorem junkRound_over (plain : '\x00' ∉ text) (place : i = text.length) (nil : Bool) :
    junkRound (i, nil) (text ++ '\x00' :: after) = .ok (.inr (), text ++ '\x00' :: after) := by
  have ended : ¬i < text.length := by omega
  rw [junkRound, Program.bind_ok _ _ _ _ _ (OnBuffer.strlen_terminated plain after), if_neg ended, Program.pure_apply]

variable (plain : '\x00' ∉ before ++ c :: rest) (place : i = before.length)
include plain place

theorem junkRound_read :
    junkRound (i, false) (before ++ c :: rest ++ '\x00' :: after) =
      .ok (.inl (i + 1, c == '\x7d'), before ++ c :: rest ++ '\x00' :: after) := by
  have inside : i < (before ++ c :: rest).length := by
    rw [List.length_append, List.length_cons]
    omega
  rw [junkRound, Program.bind_ok _ _ _ _ _ (OnBuffer.strlen_terminated plain after), if_pos inside,
    if_neg Bool.false_ne_true, List.append_assoc, List.cons_append, Program.bind_ok _ _ _ _ _ (OnBuffer.get_at place),
    Program.pure_apply]

theorem junkRound_cut :
    junkRound (i, true) (before ++ c :: rest ++ '\x00' :: after) =
      .ok (.inl (i + 1, true), before ++ '\x00' :: (rest ++ '\x00' :: after)) := by
  have inside : i < (before ++ c :: rest).length := by
    rw [List.length_append, List.length_cons]
    omega
  rw [junkRound, Program.bind_ok _ _ _ _ _ (OnBuffer.strlen_terminated plain after), if_pos inside,
    if_pos rfl, List.append_assoc, List.cons_append, Program.bind_ok _ _ _ _ _ (OnBuffer.put_at place),
    Program.pure_apply]

end

theorem junkLoop_past {before rest : Str} (plain : '\x00' ∉ before ++ rest) (after : List Char) :
    ∃ buffer, Ends junkRound ((before.length : Int), true) (before ++ rest ++ '\x00' :: after) () buffer ∧
      CString.ofBuffer buffer = before := by
  have start : '\x00' ∉ before := fun inside => plain (List.mem_append_left _ inside)
  cases rest with
  | nil =>
    rw [List.append_nil]
    exact ⟨_, .last (junkRound_over after start rfl true), CString.ofBuffer_terminated start after⟩
  | cons c rest =>
    refine ⟨before ++ '\x00' :: (rest ++ '\x00' :: after), ?_, CString.ofBuffer_terminated start _⟩
    apply Ends.step (junkRound_cut after plain rfl)
    -- The index has moved past the new end of the string.
    refine .last ?_
    have ended : ¬((before.length : Int) + 1 < before.length) := by omega
    rw [junkRound, Program.bind_ok _ _ _ _ _ (OnBuffer.strlen_terminated start _), if_neg ended, Program.pure_apply]

theorem junkLoop_ends {before rest : Str} (plain : '\x00' ∉ before ++ rest) (after : List Char) :
    ∃ buffer, Ends junkRound ((before.length : Int), false) (before ++ rest ++ '\x00' :: after) () buffer ∧
      CString.ofBuffer buffer = before ++ throughBrace rest := by
  induction rest generalizing before with
  | nil =>
    rw [List.append_nil] at plain
    rw [throughBrace, List.append_nil]
    exact ⟨_, .last (junkRound_over after plain rfl false), CString.ofBuffer_terminated plain after⟩
  | cons c rest ih =>
    have read := junkRound_read after plain rfl
    have split : before ++ c :: rest = (before ++ [c]) ++ rest := by rw [List.append_assoc, List.singleton_append]
    have place : (before.length : Int) + 1 = (before ++ [c]).length := by simp
    rw [split, place] at read
    rw [split] at plain ⊢
    rw [throughBrace]
    by_cases brace : c = '\x7d'
    · obtain ⟨buffer, ends, cut⟩ := junkLoop_past plain after
      rw [beq_iff_eq.mpr brace] at read
      rw [if_pos brace]
      exact ⟨buffer, .step read ends, cut⟩
    · obtain ⟨buffer, ends, cut⟩ := ih plain
      rw [beq_false_of_ne brace] at read
      rw [if_neg brace]
      exact ⟨buffer, .step read ends, by rw [cut, List.append_assoc, List.singleton_append]⟩

/-- The loop stays inside the message and ends, with the text up to the first closing brace. -/
theorem junkLoop_message (message : List Char) :
    ∃ buffer, Ends junkRound (0, false) (message ++ ['\x00']) () buffer ∧
      CString.ofBuffer buffer = throughBrace (CString.ofBuffer message) := by
  obtain ⟨after, whole⟩ := CString.terminator message
  obtain ⟨buffer, ends, cut⟩ := @junkLoop_ends [] (CString.ofBuffer message) (CString.null_not_mem_ofBuffer message) after
  rw [List.nil_append] at ends cut
  exact ⟨buffer, whole ▸ ends, cut⟩

/-! ## The test -/

def Framed (text : Str) : Prop := text.head? = some '\x7b' ∧ text.getLast? = some '\x7d'

instance (text : Str) : Decidable (Framed text) := inferInstanceAs (Decidable (_ ∧ _))

theorem head?_throughBrace (text : Str) : (throughBrace text).head? = text.head? := by
  cases text with
  | nil => rfl
  | cons c rest =>
    rw [throughBrace]
    split <;> rfl

theorem getLast?_throughBrace (text : Str) : (throughBrace text).getLast? = some '\x7d' ↔ '\x7d' ∈ text := by
  induction text with
  | nil => simp [throughBrace]
  | cons c rest ih =>
    rw [throughBrace]
    by_cases brace : c = '\x7d'
    · simp [brace]
    · rw [if_neg brace, List.mem_cons, ← ih]
      cases rest with
      | nil => simpa [throughBrace] using eq_comm
      | cons d rest =>
        have more : throughBrace (d :: rest) ≠ [] := by
          rw [throughBrace]
          split <;> simp
        rw [List.getLast?_cons_of_ne_nil more]
        simp [Ne.symm brace]

theorem framed_throughBrace (text : Str) :
    Framed (throughBrace text) ↔ text.head? = some '\x7b' ∧ '\x7d' ∈ text := by
  rw [Framed, head?_throughBrace, getLast?_throughBrace]

theorem looksLikeJson_throughBrace {text : Str} (some_text : text ≠ []) :
    looksLikeJson (throughBrace text) = true ↔ text.head? = some '\x7b' ∨ '\x7d' ∈ text := by
  rw [← head?_throughBrace, ← getLast?_throughBrace]
  have nonempty : throughBrace text ≠ [] := by
    intro empty
    have head := head?_throughBrace text
    rw [empty] at head
    exact some_text (List.head?_eq_none_iff.mp head.symm)
  simp [looksLikeJson, nonempty, or_iff_not_imp_left]

/-! ## The handler -/

variable {σ : Type} [System σ]

/-- `zmq_handle_event` with any function in the place of `request_parse`, to see what that is given. -/
def zmqHandleEventWith (parse : Str → M σ Parsed) : M σ Unit := do
  lock .zmq
  let some request ← modifySocket Socket.recv
    | replySendError .zeromqReconnect
      unlock .zmq
  if request.length = 0 then return ← unlock .zmq
  if !(← malloc) then return ← replySendError .memoryAllocation
  if (CString.ofBuffer request).length = 0 then return ← unlock .zmq
  if !looksLikeJson (messageText request) then
    replySendError .jsonInvalid
    return ← unlock .zmq
  answerParsed (← parse (messageText request))

theorem zmqHandleEventWith_requestParse : zmqHandleEventWith requestParse = (zmqHandleEvent : M σ Unit) := by
  rw [zmqHandleEvent_eq, zmqHandleEventWith]
  congr 1
  funext _
  congr 1
  funext received
  cases received with
  | none => rfl
  | some request =>
    unfold answerMessage
    rfl

/-- What the comment in `zmq_handle_event` says of a message: it is cut behind its first closing
brace, and what is left is parsed if it stands between braces, and refused otherwise. -/
structure JunkFiltered (w : World σ) (message : List Char) : Prop where
  cut : ∃ buffer, Ends junkRound (0, false) (message ++ ['\x00']) () buffer ∧
    CString.ofBuffer buffer = throughBrace (CString.ofBuffer message)
  parsed : Framed (throughBrace (CString.ofBuffer message)) → ∃ v : World σ, ∀ parse,
    zmqHandleEventWith parse w = (do
      let parsed ← parse (throughBrace (CString.ofBuffer message))
      answerParsed parsed : M σ Unit) v
  refused : ¬Framed (throughBrace (CString.ofBuffer message)) → ∃ w' : World σ,
    (∀ parse, zmqHandleEventWith parse w = .ok ((), w')) ∧ Sent (errorText .jsonInvalid) w.socket w'.socket

omit [System σ] in
theorem ofBuffer_ne_nil {message : List Char} (text : holdsText message = true) : CString.ofBuffer message ≠ [] := by
  cases message with
  | nil => cases text
  | cons first rest =>
    have some_text : first ≠ '\x00' := by simpa [holdsText] using text
    simp [CString.ofBuffer, some_text]

section
variable (succeed : AllocationsSucceed σ) {k : Socket} {w : World σ} (start : At false false k w) {message : List Char}
  (received : k.recv.1 = some message) (text : holdsText message = true)
include succeed start received text

theorem zmqHandleEventWith_text : ∃ v : World σ, At false true k.recv.2 v ∧ ∀ parse, zmqHandleEventWith parse w =
    (if looksLikeJson (throughBrace (CString.ofBuffer message)) = true then do
      let parsed ← parse (throughBrace (CString.ofBuffer message))
      answerParsed parsed
    else do
      replySendError .jsonInvalid
      unlock .zmq : M σ Unit) v := by
  obtain ⟨_, v, locking, locked⟩ := lock_zmq succeed w start
  have taken : At false true k.recv.2 { v with sys := (System.malloc v.sys).2, socket := k.recv.2 } :=
    ⟨locked.inotify, locked.zmq, rfl, locked.whole.of_same rfl rfl⟩
  refine ⟨_, taken, fun parse => ?_⟩
  have filled : message.length ≠ 0 := by
    rintro empty
    rw [List.length_eq_zero_iff.mp empty] at text
    cases text
  have some_text : (CString.ofBuffer message).length ≠ 0 := fun empty =>
    ofBuffer_ne_nil text (List.length_eq_zero_iff.mp empty)
  rw [zmqHandleEventWith, Program.bind_ok _ _ _ _ _ locking, modifySocket_bind, locked.socket, received]
  simp only [filled, some_text, if_false, malloc_bind, succeed v.sys, Bool.not_true, Bool.false_eq_true, messageText,
    junkLoop_eq]
  cases looksLikeJson (throughBrace (CString.ofBuffer message)) <;> rfl

theorem zmqHandleEventWith_refused (fails : ¬looksLikeJson (throughBrace (CString.ofBuffer message)) = true) :
    ∃ w' : World σ, (∀ parse, zmqHandleEventWith parse w = .ok ((), w')) ∧
      Sent (errorText .jsonInvalid) w.socket w'.socket := by
  obtain ⟨v, reached, same⟩ := zmqHandleEventWith_text succeed start received text
  obtain ⟨s, replying⟩ := replySendFormatted_run succeed (errorText .jsonInvalid) v
  have replying : replySendError .jsonInvalid v = _ := replying
  have sent : At false true (k.recv.2.send (errorText .jsonInvalid)).2
      { v with sys := s, socket := (v.socket.send (errorText .jsonInvalid)).2 } :=
    ⟨reached.inotify, reached.zmq, by rw [← reached.socket], reached.whole.of_same rfl rfl⟩
  obtain ⟨_, w', unlocking, final⟩ := unlock_zmq succeed _ sent
  refine ⟨w', fun parse => ?_, ?_⟩
  · rw [same, if_neg fails, Program.bind_ok _ _ _ _ _ replying]
    exact unlocking
  · rw [final.socket, start.socket, Sent, ← Socket.replies_recv k]
    exact sent_send (Socket.pending_of_recv_some received) _

/-- With one of the two braces alone a text is parsed, whatever the parser does with it. -/
theorem JunkFiltered.braces (filtered : JunkFiltered w message) :
    (CString.ofBuffer message).head? = some '\x7b' ↔ '\x7d' ∈ CString.ofBuffer message := by
  by_contra odd
  have looks : looksLikeJson (throughBrace (CString.ofBuffer message)) = true := by
    rw [looksLikeJson_throughBrace (ofBuffer_ne_nil text)]
    tauto
  have unframed : ¬Framed (throughBrace (CString.ofBuffer message)) := by
    rw [framed_throughBrace]
    tauto
  obtain ⟨v, _, same⟩ := zmqHandleEventWith_text succeed start received text
  obtain ⟨w', refused, _⟩ := filtered.refused unframed
  have stops := refused fun _ => Program.fault .nullDeref
  rw [same, if_pos looks] at stops
  cases stops

/-- The handler does with a message what the comment says exactly when it begins with an opening
brace if and only if it has a closing one. -/
theorem junk_filtered_iff :
    JunkFiltered w message ↔
      ((CString.ofBuffer message).head? = some '\x7b' ↔ '\x7d' ∈ CString.ofBuffer message) := by
  have passes := looksLikeJson_throughBrace (ofBuffer_ne_nil text)
  constructor
  · exact JunkFiltered.braces succeed start received text
  · intro both
    obtain ⟨v, _, same⟩ := zmqHandleEventWith_text succeed start received text
    refine ⟨junkLoop_message message, fun framed => ⟨v, fun parse => ?_⟩, fun unframed => ?_⟩
    · rw [framed_throughBrace] at framed
      rw [same, if_pos (passes.mpr (.inl framed.1))]
    · rw [framed_throughBrace] at unframed
      exact zmqHandleEventWith_refused succeed start received text (by rw [passes]; tauto)

end

theorem junk_behind_object_filtered :
    JunkFiltered (World.sent (str "\x7b\"call\":\"ping\"\x7dab\x7d")) (str "\x7b\"call\":\"ping\"\x7dab\x7d") :=
  (junk_filtered_iff (fun _ => rfl) (World.sent_at _) (World.sent_received _) rfl).mpr (by decide)

/-- A text without an opening brace is handed to the parser. -/
theorem unopened_text_parsed :
    (∃ v : World Reader, ∀ parse, zmqHandleEventWith parse (World.sent (str "hello\x7d")) = (do
        let parsed ← parse (str "hello\x7d")
        answerParsed parsed : M Reader Unit) v) ∧
      ¬Framed (str "hello\x7d") ∧ ¬JunkFiltered (World.sent (str "hello\x7d")) (str "hello\x7d") := by
  refine ⟨?_, by decide, fun filtered => ?_⟩
  · obtain ⟨v, _, same⟩ := zmqHandleEventWith_text (fun _ => rfl) (World.sent_at (str "hello\x7d"))
      (World.sent_received _) rfl
    exact ⟨v, same⟩
  · have braces := filtered.braces (fun _ => rfl) (World.sent_at _) (World.sent_received _) rfl
    revert braces
    decide

end Inotispy
