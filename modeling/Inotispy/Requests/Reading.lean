import Inotispy.Requests.Listing
import Inotispy.Requests.Options
import Inotispy.Requests.Printing

/-! What the client reads in the replies.

The daemon formats some of its replies by hand and has json-c print the others. All of them
are texts of objects, and the client tells an error from the rest by the member "error".
-/

set_option autoImplicit false

namespace Inotispy
open Library
open JsonText (IsObject)

variable {σ : Type} [System σ] {takes : Char → Bool}

/-- What is assumed of json-c besides: what it prints for an object is the text of that object. -/
structure PrintsJson (σ : Type) [System σ] (takes : Char → Bool) : Prop where
  exact : ∀ members, (Json.object members).Printable →
    IsObject takes (System.jsonObjectToJsonString (σ := σ) (.object members)) members

/-! ## Replies as objects -/

def errorMembers (err : InotispyError) : List (Str × Json) :=
  [(str "error", .object [(str "code", .int err.code), (str "message", .string (errorToString err))])]

theorem errorToString_plain (err : InotispyError) :
    ∀ c ∈ errorToString err, c ≠ '"' ∧ c ≠ '\\' ∧ 0x20 ≤ c.toNat := by
  have all : (errorToString err).all (fun c => decide (c ≠ '"' ∧ c ≠ '\\' ∧ 0x20 ≤ c.toNat)) = true := by
    cases err <;> decide +kernel
  exact fun c inside => of_decide_eq_true (List.all_eq_true.mp all c inside)

theorem isObject_error (err : InotispyError) : IsObject takes (errorText err) (errorMembers err) := by
  have plain : ∀ c ∈ errorToString err, JsonText.plain takes c = true := by
    intro c inside
    obtain ⟨quote, backslash, visible⟩ := errorToString_plain err c inside
    simp [JsonText.plain, quote, backslash, visible]
  have shape : errorText err = str "\x7b\"error\": \x7b\"code\":" ++ ((percentD err.code ++ [',']) ++
      (str " \"message\":\"" ++ (errorToString err ++ str "\"\x7d\x7d"))) := by
    simp [errorText, str]
  rw [IsObject, shape, JsonText.run_append, JsonText.run_append]
  change JsonText.run takes (JsonText.run takes
    (.reading [.object [] (str "code"), .object [] (str "error")] .value) (percentD err.code ++ [','])) _ = _
  rw [JsonText.run_percentD _ rfl, JsonText.run_append]
  change JsonText.run takes (.reading [.object [(str "code", .int err.code)] (str "message"), .object [] (str "error")]
    (.string false [] .none)) _ = _
  rw [JsonText.run_append, JsonText.run_plain plain, List.nil_append]
  change JsonText.State.finished [(str "error", .object [(str "code", .int err.code),
    (str "message", .string (JsonText.textOf ((errorToString err).map .byte)))])] = _
  rw [JsonText.textOf_bytes]
  rfl

theorem isObject_success : IsObject takes successText [(str "success", .int 1)] := rfl

theorem isObject_empty : IsObject takes emptyData [(str "data", .array [])] := rfl

theorem isObject_data (value : Int) : IsObject takes (dataReply value) [(str "data", .int value)] := by
  rw [IsObject, dataReply, List.append_assoc, JsonText.run_append]
  exact JsonText.run_percentD value rfl

theorem printable_strings (texts : List Str) : (Json.array (texts.map .string)).Printable := by
  constructor
  intro item member
  obtain ⟨text, _, rfl⟩ := List.mem_map.mp member
  exact .string text

theorem printable_event (event : Event) : (eventJobj event).Printable := by
  constructor
  · split
    · exact (by decide : [str "name", str "path", str "mask", str "cookie"].Nodup)
    · exact (by decide : [str "name", str "path", str "mask"].Nodup)
  · intro member inside
    split at inside <;>
      · simp only [List.cons_append, List.nil_append, List.mem_cons, List.not_mem_nil, or_false] at inside
        rcases inside with rfl | rfl | rfl | rfl <;> constructor

theorem printable_events (items : List Event) : (Json.array (items.map eventJobj)).Printable := by
  constructor
  intro item member
  obtain ⟨event, _, rfl⟩ := List.mem_map.mp member
  exact printable_event event

theorem printable_data {items : List Json} (all : (Json.array items).Printable) :
    (Json.object [(str "data", .array items)]).Printable := by
  refine .object (List.nodup_singleton _) fun member inside => ?_
  rw [List.mem_singleton.mp inside]
  exact all

theorem isObject_events (prints : PrintsJson σ takes) (items : List Event) :
    IsObject takes (eventsText σ items) [(str "data", .array (items.map eventJobj))] := by
  unfold eventsText
  split
  · next empty =>
    rw [empty]
    exact isObject_empty
  · exact prints.exact _ (printable_data (printable_events items))

theorem isObject_roots (prints : PrintsJson σ takes) (roots : List Str) :
    IsObject takes (rootsText (σ := σ) roots) [(str "data", .array (roots.map .string))] :=
  prints.exact _ (printable_data (printable_strings roots))

/-! ## Replies as they are read -/

namespace Inotispyctl

variable (implements : ImplementsJson σ takes) (otherInt : Json → Int32) {text : Str} {members : List (Str × Json)}
  (object : IsObject takes text members)
include implements object

theorem parseJson_object : parseJson σ text = .ok (.object members) := by
  rw [parseJson, (implements.exact text members).mpr ⟨text, [], (List.append_nil _).symm, object⟩]

theorem ofBuffer_object : CString.ofBuffer text = text :=
  CString.ofBuffer_of_plain (object.null_free implements.null)

theorem getReply_object (fine : (Json.object members).objectGet (str "error") = none) :
    getReply σ otherInt text = .ok text := by
  simp only [getReply, ofBuffer_object implements object, handleError, parseJson_object implements object, bind,
    Except.bind, fine]
  rfl

theorem confirm_object (fine : (Json.object members).objectGet (str "error") = none) (before path after : Str) :
    confirm σ otherInt before path after text = .ok (before ++ path ++ after) := by
  rw [confirm, getReply_object implements otherInt object fine]
  rfl

end Inotispyctl

def printedError (err : InotispyError) : Str :=
  str "ERROR: " ++ percentD err.code ++ str ": " ++ errorToString err ++ str "\n"

namespace Inotispyctl

variable (implements : ImplementsJson σ takes) (otherInt : Json → Int32)
include implements

theorem getReply_error (err : InotispyError) : getReply σ otherInt (errorText err) = .error (printedError err) := by
  have object : IsObject takes (errorText err) (errorMembers err) := isObject_error err
  have code : Json.getInt err.code = Int32.ofInt err.code := by cases err <;> rfl
  have small : (Int32.ofInt err.code).toInt = err.code := by cases err <;> rfl
  have message : CString.ofBuffer (errorToString err) = errorToString err :=
    CString.ofBuffer_of_plain fun null => absurd (errorToString_plain err _ null).2.2 (by decide)
  have found : (Json.object (errorMembers err)).objectGet (str "error") =
      some (.object [(str "code", .int err.code), (str "message", .string (errorToString err))]) := rfl
  have first : (Json.object [(str "code", .int err.code), (str "message", .string (errorToString err))]).objectGet
      (str "code") = some (.int err.code) := rfl
  have second : (Json.object [(str "code", .int err.code), (str "message", .string (errorToString err))]).objectGet
      (str "message") = some (.string (errorToString err)) := rfl
  simp only [getReply, ofBuffer_object implements object, handleError, parseJson_object implements object, bind,
    Except.bind, found, first, second, getInt, getString, code, small, message, percentS]
  rfl

theorem queueSize_data (value : Int) : queueSize σ otherInt (dataReply value) = .ok (Json.getInt value) := by
  have object : IsObject takes (dataReply value) [(str "data", .int value)] := isObject_data value
  rw [queueSize, getReply_object implements otherInt object rfl]
  simp only [bind, Except.bind, parseJson_object implements object]
  rfl

theorem eventsListed_array {text : Str} {events : List Json} (object : IsObject takes text [(str "data", .array events)]) :
    eventsListed σ otherInt text = .ok (printEvents σ otherInt events) := by
  rw [eventsListed, getReply_object implements otherInt object rfl]
  simp only [bind, Except.bind, parseJson_object implements object]
  rfl

theorem rootsListed_array {text : Str} {roots : List Json} (object : IsObject takes text [(str "data", .array roots)]) :
    rootsListed σ otherInt text = .ok (printRoots σ roots) := by
  rw [rootsListed, getReply_object implements otherInt object rfl]
  simp only [bind, Except.bind, parseJson_object implements object]
  rfl

end Inotispyctl

/-! ## Lines -/

def Event.line (event : Event) : Str :=
  CString.ofBuffer (event.path.getD []) ++ str "/" ++ CString.ofBuffer (event.name.getD []) ++ str "  " ++
    percentD event.mask.toInt32.toInt ++ str "\n"

def linesOr (none : Str) (lines : List Str) : Str := if lines = [] then none else lines.flatten

theorem fmtEvent_eventJobj (otherInt : Json → Int32) (event : Event) :
    Inotispyctl.fmtEvent σ otherInt (eventJobj event) ++ str "\n" = event.line := by
  have name : (eventJobj event).objectGet (str "name") = some (.string (event.name.getD [])) := rfl
  have path : (eventJobj event).objectGet (str "path") = some (.string (event.path.getD [])) := rfl
  have mask : (eventJobj event).objectGet (str "mask") = some (.int event.mask.toInt32.toInt) := rfl
  simp only [Inotispyctl.fmtEvent, name, path, mask, Inotispyctl.getString, Inotispyctl.getInt, getInt_toInt, percentS,
    Event.line]

theorem printEvents_eventJobj (otherInt : Json → Int32) (items : List Event) :
    Inotispyctl.printEvents σ otherInt (items.map eventJobj) =
      linesOr (str "There are no events at this time\n") (items.map Event.line) := by
  cases items with
  | nil => rfl
  | cons event rest =>
    change ((event :: rest).map eventJobj).flatMap (fun item => Inotispyctl.fmtEvent σ otherInt item ++ str "\n") = _
    rw [List.flatMap_map, linesOr, if_neg (by simp), List.flatMap_def]
    simp only [fmtEvent_eventJobj]

def rootLine (path : Str) : Str := CString.ofBuffer path ++ str "\n"

theorem printRoots_strings (roots : List Str) : Inotispyctl.printRoots σ (roots.map .string) =
    linesOr (str "There are no currently watched roots\n") (roots.map rootLine) := by
  cases roots with
  | nil => rfl
  | cons root rest =>
    change ((root :: rest).map Json.string).flatMap (fun item => percentS (Inotispyctl.getString σ (some item)) ++ str "\n") = _
    rw [List.flatMap_map, linesOr, if_neg (by simp), List.flatMap_def]
    rfl

end Inotispy
