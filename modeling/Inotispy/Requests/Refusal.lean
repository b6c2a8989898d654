import Inotispy.Library.Token
import Inotispy.Requests.Addressing
import Inotispy.Roots.Overlap
import Inotispy.Roots.Ownership
import Inotispy.Roots.Retrying
import Inotispy.Threads.Whole

/-! Why a watch request is refused.

A request is refused by an early test in its handler, which does not tell a root that is
being destroyed from a live one, and by two searches through all roots, which take a
path that stands in the middle of another one for a directory above it.
-/

set_option autoImplicit false

namespace Inotispy
open Library
open Library.Path (Ancestor)

variable {σ : Type} [System σ]

/-! ## Replies to a watch request -/

omit [System σ] in
theorem ofDigitChars_percentD (n : Nat) (rest : Str) (other : ∀ c ∈ rest.head?, c.isDigit = false) :
    Nat.ofDigitChars 10 ((percentD n ++ rest).takeWhile Char.isDigit) 0 = n := by
  have text : percentD n = Nat.toDigits 10 n := Nat.toList_repr
  have ends : rest.takeWhile Char.isDigit = [] := by
    cases rest with
    | nil => rfl
    | cons c rest => exact List.takeWhile_cons_of_neg (by simp [other c rfl])
  rw [text, List.takeWhile_append_of_pos (CString.isDigit_toDigits n), ends, List.append_nil,
    Nat.ofDigitChars_ten_toDigits]

theorem InotispyError.code_injective : Function.Injective InotispyError.code := by
  have decode (err : InotispyError) : InotispyError.ofNat err.code = err := by cases err <;> rfl
  intro a b same
  rw [← decode a, ← decode b, same]

theorem errorText_injective : Function.Injective errorText := by
  intro a b same
  -- The number of the code stands between two fixed texts.
  have numbers (err : InotispyError) : Nat.ofDigitChars 10 (((errorText err).drop 18).takeWhile Char.isDigit) 0 =
      err.code := by
    have shape : errorText err = str "\x7b\"error\": \x7b\"code\":" ++ (percentD err.code ++
        (str ", \"message\":\"" ++ errorToString err ++ str "\"\x7d\x7d")) := by
      simp only [errorText, List.append_assoc]
    rw [shape, List.drop_left' (by decide)]
    exact ofDigitChars_percentD err.code _ (by simp [str])
  apply InotispyError.code_injective
  rw [← numbers a, ← numbers b, same]

def watchReply : Option InotispyError → Str
  | none => successText
  | some err => errorText err

theorem watchReply_injective : Function.Injective watchReply := by
  intro a b same
  match a, b, same with
  | none, none, _ => rfl
  | none, some err, same => exact absurd same.symm (errorText_ne_success err)
  | some err, none, same => exact absurd same (errorText_ne_success err)
  | some err, some err', same => exact congrArg some (errorText_injective same)

theorem sent_watchReply_iff {answer other : Option InotispyError} {before after : Socket}
    (sent : Sent (watchReply answer) before after) : Sent (watchReply other) before after ↔ other = answer := by
  constructor
  · intro sent'
    have texts := List.append_cancel_left (sent'.symm.trans sent)
    exact watchReply_injective (List.cons.inj texts).1
  · rintro rfl
    exact sent

/-! ## What the replies should say -/

def RootTable.Above (roots : RootTable) (path : Str) : Prop := ∃ key ∈ roots.inotifyRoots.keys, Ancestor key path

def RootTable.Below (roots : RootTable) (path : Str) : Prop := ∃ key ∈ roots.inotifyRoots.keys, Ancestor path key

/-- Each reply is given exactly for the reason that it names. -/
structure TrueReason (roots : RootTable) (path : Str) (opens : Bool) (replied : Option InotispyError → Prop) : Prop where
  watched : replied (some .inotifyRootAlreadyWatched) ↔
    ∃ root, roots.inotifyRoots.lookup path = some root ∧ (roots.heap root).destroy = false
  dying : replied (some .inotifyRootBeingDestroyed) ↔
    ∃ root, roots.inotifyRoots.lookup path = some root ∧ (roots.heap root).destroy = true
  child : replied (some .inotifyChildOfRoot) ↔ roots.Above path
  parent : replied (some .inotifyParentOfRoot) ↔ roots.Below path ∧ ¬roots.Above path
  missing : replied (some .inotifyRootDoesNotExist) ↔
    (roots.inotifyRoots.lookup path = none ∧ ¬roots.Above path ∧ ¬roots.Below path) ∧ opens = false
  success : replied none ↔
    (roots.inotifyRoots.lookup path = none ∧ ¬roots.Above path ∧ ¬roots.Below path) ∧ opens = true

/-- The tests of the code see what they are meant to see: a path that is a root is that of a
live one, with no other above or below it; and for one that is none, unless "/" is a root, a
root's path and a slash occur in it only if some root lies above it, and otherwise the path
and a slash occur in a root's path exactly if it lies above some root. -/
structure SeenTruly (roots : RootTable) (path : Str) : Prop where
  root : ∀ root, roots.inotifyRoots.lookup path = some root →
    (roots.heap root).destroy = false ∧ ¬roots.Above path ∧ ¬roots.Below path
  above : roots.inotifyRoots.lookup path = none → str "/" ∉ roots.inotifyRoots.keys →
    (∃ key ∈ roots.inotifyRoots.keys, key ++ str "/" <:+: path) → roots.Above path
  below : roots.inotifyRoots.lookup path = none → str "/" ∉ roots.inotifyRoots.keys →
    (∀ key ∈ roots.inotifyRoots.keys, ¬key ++ str "/" <:+: path) →
    ((∃ key ∈ roots.inotifyRoots.keys, path ++ str "/" <:+: key) ↔ roots.Below path)

def RootTable.watchAnswer (roots : RootTable) (path : Str) (opens : Bool) : Option InotispyError :=
  if (roots.inotifyRoots.lookup path).isSome then some .inotifyRootAlreadyWatched
  else if (roots.pathToRoot path).isSome then some .inotifyChildOfRoot
  else if (roots.isParent path).isSome then some .inotifyParentOfRoot
  else if opens then none else some .inotifyRootDoesNotExist

/-- For a path that is no root the first search finds one exactly if "/" is a root or a root's path
and a slash occur in the path. -/
theorem pathToRoot_isSome_iff {roots : RootTable} {path : Str} (new : roots.inotifyRoots.lookup path = none) :
    (roots.pathToRoot path).isSome ↔ str "/" ∈ roots.inotifyRoots.keys ∨
      ∃ key ∈ roots.inotifyRoots.keys, key ++ str "/" <:+: path := by
  have unregistered := (GHashTable.lookup_eq_none_iff _ _).mp new
  constructor
  · intro found
    obtain ⟨root, found⟩ := Option.isSome_iff_exists.mp found
    obtain ⟨key, registered, how⟩ := pathToRoot_eq_some found
    have member := (GHashTable.mem_keys_iff _ _).mpr ⟨root, registered⟩
    rcases how with rfl | ⟨_, same | inside⟩
    · exact .inl member
    · exact absurd (same ▸ member) unregistered
    · exact .inr ⟨key, member, inside⟩
  · intro how
    rw [← Option.ne_none_iff_isSome]
    intro missing
    obtain ⟨noTop, unmatched⟩ := pathToRoot_eq_none missing
    rcases how with top | ⟨key, member, inside⟩
    · exact noTop top
    · exact unmatched key member (.inr inside)

theorem isParent_isSome_iff (roots : RootTable) (path : Str) :
    (roots.isParent path).isSome ↔ ∃ key ∈ roots.inotifyRoots.keys, path ++ str "/" <:+: key := by
  simp [RootTable.isParent, List.find?_isSome]

/-- The answer is given for its true reason exactly when the tests see truly. -/
theorem watchAnswer_true_iff (roots : RootTable) (path : Str) (opens : Bool) :
    TrueReason roots path opens (· = roots.watchAnswer path opens) ↔ SeenTruly roots path := by
  -- The cases are the answers of the code: the path is a root, the first search finds one, or the
  -- second does, or neither.
  cases registered : roots.inotifyRoots.lookup path with
  | some root =>
    have answer : roots.watchAnswer path opens = some .inotifyRootAlreadyWatched := by
      simp [RootTable.watchAnswer, registered]
    rw [answer]
    constructor
    · intro reason
      obtain ⟨_, is, live⟩ := reason.watched.mp rfl
      rw [registered] at is
      cases is
      have free : ¬roots.Above path := fun above => by cases reason.child.mpr above
      refine ⟨fun other is => ?_, fun none => ?_, fun none => ?_⟩
      · rw [registered] at is
        cases is
        exact ⟨live, free, fun below => by cases reason.parent.mpr ⟨below, free⟩⟩
      · rw [registered] at none
        cases none
      · rw [registered] at none
        cases none
    · intro seen
      obtain ⟨live, notAbove, notBelow⟩ := seen.root root registered
      constructor <;> simp [registered, live, notAbove, notBelow]
  | none =>
    have unregistered := (GHashTable.lookup_eq_none_iff _ _).mp registered
    by_cases above : str "/" ∈ roots.inotifyRoots.keys ∨ ∃ key ∈ roots.inotifyRoots.keys, key ++ str "/" <:+: path
    · have answer : roots.watchAnswer path opens = some .inotifyChildOfRoot := by
        simp [RootTable.watchAnswer, registered, (pathToRoot_isSome_iff registered).mpr above]
      rw [answer]
      constructor
      · intro reason
        have found := reason.child.mp rfl
        refine ⟨fun root is => ?_, fun _ _ _ => found, fun _ noTop outside => ?_⟩
        · rw [registered] at is
          cases is
        · obtain ⟨key, member, inside⟩ := above.resolve_left noTop
          exact absurd inside (outside key member)
      · intro seen
        have found : roots.Above path := by
          by_cases top : str "/" ∈ roots.inotifyRoots.keys
          · have differs : path ≠ str "/" := fun same => unregistered (same ▸ top)
            exact ⟨str "/", top, .inl ⟨rfl, differs⟩⟩
          · exact seen.above registered top (above.resolve_left top)
        constructor <;> simp [registered, found]
    · obtain ⟨noTop, outside⟩ := not_or.mp above
      have outside : ∀ key ∈ roots.inotifyRoots.keys, ¬key ++ str "/" <:+: path :=
        fun key member inside => outside ⟨key, member, inside⟩
      have notAbove : ¬roots.Above path := by
        rintro ⟨key, member, ⟨rfl, _⟩ | start⟩
        · exact noTop member
        · exact outside key member start.isInfix
      have search : (roots.pathToRoot path).isSome = false :=
        eq_false_of_ne_true (mt (pathToRoot_isSome_iff registered).mp above)
      have seen_iff : SeenTruly roots path ↔
          ((∃ key ∈ roots.inotifyRoots.keys, path ++ str "/" <:+: key) ↔ roots.Below path) := by
        constructor
        · intro seen
          exact seen.below registered noTop outside
        · intro parent
          refine ⟨fun root is => ?_, fun _ _ => ?_, fun _ _ _ => parent⟩
          · rw [registered] at is
            cases is
          · rintro ⟨key, member, inside⟩
            exact absurd inside (outside key member)
      rw [seen_iff, ← isParent_isSome_iff]
      cases parent : (roots.isParent path).isSome with
      | true =>
        have answer : roots.watchAnswer path opens = some .inotifyParentOfRoot := by
          simp [RootTable.watchAnswer, registered, search, parent]
        rw [answer]
        constructor
        · intro reason
          exact iff_of_true rfl (reason.parent.mp rfl).1
        · intro same
          have found := same.mp rfl
          constructor <;> simp [registered, found, notAbove]
      | false =>
        have answer : roots.watchAnswer path opens = if opens then none else some .inotifyRootDoesNotExist := by
          simp [RootTable.watchAnswer, registered, search, parent]
        rw [answer]
        constructor
        · intro reason
          refine iff_of_false (by decide) fun below => ?_
          have parent := reason.parent.mpr ⟨below, notAbove⟩
          cases opens <;> cases parent
        · intro same
          have notBelow : ¬roots.Below path := fun below => by cases same.mpr below
          cases opens <;> constructor <;> simp [registered, notAbove, notBelow]

/-! ## The handler -/

section
variable (succeed : AllocationsSucceed σ) {w : World σ} (alone : w.pool.schedule = [])
  (free : w.locks.held .inotify = false) {path : Str}
include succeed alone free

theorem watchTreeCheck_run (registered : Registered w.roots) (new : w.roots.inotifyRoots.lookup path = none) :
    ∃ s, watchTreeCheck path w =
      .ok (if (w.roots.pathToRoot path).isSome then some .inotifyChildOfRoot
        else if (w.roots.isParent path).isSome then some .inotifyParentOfRoot else none, { w with sys := s }) := by
  rw [watchTreeCheck, lock_bind alone free]
  obtain ⟨s, searching⟩ := inotifyPathToRoot_run succeed path { w with locks := w.locks.set .inotify true }
  rw [Program.bind_ok _ _ _ _ _ searching]
  cases found : w.roots.pathToRoot path with
  | some root =>
    obtain ⟨key, known, _⟩ := pathToRoot_eq_some found
    have named := registered.named key root known
    have differs : path ≠ key := by
      rintro rfl
      rw [new] at known
      cases known
    refine ⟨s, ?_⟩
    simp only [unlock_bind, alone, getRoot_bind, named, deref, Program.pure_bind_apply, Locks.unlock_set free,
      if_neg differs]
    rfl
  | none =>
    obtain ⟨t, asking⟩ := inotifyIsParent_run succeed path { w with locks := w.locks.set .inotify true, sys := s }
    refine ⟨t, ?_⟩
    dsimp only
    rw [Program.bind_ok _ _ _ _ _ asking]
    simp only [unlock_bind, alone, Locks.unlock_set free, Program.pure_apply]
    cases w.roots.isParent path <;> rfl

theorem watchTreeInsert_run (path : Str) (mask : UInt32) (maxEvents : Int32) (rewatch : Bool) :
    ∃ root s roots, watchTreeInsert path mask maxEvents rewatch w =
        .ok (some root, { w with sys := s, roots := roots }) ∧ (roots.heap root).destroy = false := by
  rw [watchTreeInsert, lock_bind alone free]
  simp only [makeRoot, bind_assoc, malloc_bind, succeed w.sys, mkString_bind_allocated succeed,
    Program.read_bind_apply, modifyRoots_bind, Program.pure_bind_apply, Bool.not_true, Bool.false_eq_true, if_false,
    unlock_bind, alone, Locks.unlock_set free, Program.pure_apply]
  exact ⟨_, _, _, rfl, by simp [RootTable.setRoot]⟩

omit succeed in
theorem inotifyDumpRoots_run : ∃ s text, inotifyDumpRoots w = .ok ((), { w with sys := s, output.dumpFile := text }) := by
  rw [inotifyDumpRoots, lock_bind alone free]
  obtain ⟨⟨_, v⟩, dump⟩ := dumpRootsSection_returns (w := { w with locks := w.locks.set .inotify true })
  rw [Program.bind_ok _ _ _ _ _ dump]
  obtain ⟨text, rfl⟩ := dumpRootsSection_eq_ok dump
  refine ⟨(System.fopenDump w.sys).2, text, ?_⟩
  have unlocked := unlock_bind (w := { w with
      locks := w.locks.set .inotify true
      sys := (System.fopenDump w.sys).2
      output.dumpFile := text }) alone .inotify (pure : Unit → M σ Unit)
  rw [bind_pure] at unlocked
  rw [unlocked, Program.pure_apply]
  simp only [Locks.unlock_set free]

omit alone free in
theorem doWatchTree_run (starts : ∀ s : σ, (System.pthreadCreate s).1 = true) {root : RootRef}
    (live : (w.roots.heap root).destroy = false) (path : Option Str) (cleanup : Bool) :
    ∃ w', doWatchTree path root cleanup w = .ok (none, w') ∧ w'.socket = w.socket := by
  simp only [doWatchTree, getRoot_bind, live, Bool.false_eq_true, if_false, malloc_bind, succeed w.sys, Bool.not_true,
    mkString_bind_allocated succeed, spawn_bind, starts, if_true]
  exact ⟨_, rfl, rfl⟩

theorem inotifyWatchTree_run (starts : ∀ s : σ, (System.pthreadCreate s).1 = true) (registered : Registered w.roots)
    (new : w.roots.inotifyRoots.lookup path = none) (trimmed : trimSlash path = path) {openable : Bool}
    (opens : ∀ s : σ, (System.opendir s path).1 = openable) (mask : UInt32) (maxEvents : Int32) (rewatch : Bool) :
    ∃ w', inotifyWatchTree path mask maxEvents rewatch w = .ok (w.roots.watchAnswer path openable, w') ∧
      w'.socket = w.socket := by
  obtain ⟨s, checking⟩ := watchTreeCheck_run succeed alone free registered new
  rw [inotifyWatchTree, trimmed]
  simp only [Program.bind_ok _ _ _ _ _ checking, RootTable.watchAnswer, new, Option.isSome_none, Bool.false_eq_true,
    if_false]
  cases above : (w.roots.pathToRoot path).isSome with
  | true => exact ⟨_, rfl, rfl⟩
  | false =>
  cases below : (w.roots.isParent path).isSome with
  | true => exact ⟨_, rfl, rfl⟩
  | false =>
  simp only [Bool.false_eq_true, if_false, opendir_bind, opens]
  cases openable with
  | false => exact ⟨_, rfl, rfl⟩
  | true =>
    simp only [Bool.not_true, Bool.false_eq_true, if_false, if_true]
    obtain ⟨root, t, roots, inserting, live⟩ := watchTreeInsert_run succeed
      (w := { w with sys := (System.opendir s path).2 }) alone free path mask maxEvents rewatch
    rw [Program.bind_ok _ _ _ _ _ inserting]
    obtain ⟨u, text, dumping⟩ := inotifyDumpRoots_run (w := { w with sys := t, roots := roots }) alone free
    dsimp only
    rw [Program.bind_ok _ _ _ _ _ dumping, getRoot_bind]
    exact doWatchTree_run succeed (w := { w with sys := u, roots := roots, output.dumpFile := text }) starts live _ false

theorem eventWatch_run (zmqFree : w.locks.held .zmq = false) (starts : ∀ s : σ, (System.pthreadCreate s).1 = true)
    (registered : Registered w.roots) {req : Request} (asked : requestGetPath req = some path)
    (absolute : path.head? = some '/') {openable : Bool} (opens : ∀ s : σ, (System.opendir s path).1 = openable)
    (pending : w.socket.pending = true) :
    ∃ w', eventWatch req w = .ok ((), w') ∧ Sent (watchReply (w.roots.watchAnswer path openable)) w.socket w'.socket := by
  have send (text : Str) {v : World σ} (same : v.socket = w.socket) : Sent text w.socket (v.socket.send text).2 :=
    same ▸ sent_send pending text
  simp only [eventWatch, asked, percentS, mkString_bind_allocated succeed, absolute, ne_eq, not_true_eq_false, if_false]
  rw [lock_bind (by exact alone) (by exact zmqFree)]
  simp only [inotifyIsRoot, Program.read_bind_apply]
  cases known : w.roots.inotifyRoots.lookup path with
  | some root =>
    have answer : w.roots.watchAnswer path openable = some .inotifyRootAlreadyWatched := by
      simp [RootTable.watchAnswer, known]
    simp only [Option.isSome_some, if_true]
    obtain ⟨s, run⟩ := replySendFormatted_run succeed (errorText .inotifyRootAlreadyWatched)
      { w with sys := (System.malloc w.sys).2, locks := w.locks.set .zmq true }
    have run : replySendError .inotifyRootAlreadyWatched _ = _ := run
    rw [Program.bind_ok _ _ _ _ _ run]
    have unlocked := unlock_bind (w := { w with
      sys := s
      locks := w.locks.set .zmq true
      socket := (w.socket.send (errorText .inotifyRootAlreadyWatched)).2 }) alone .zmq (pure : Unit → M σ Unit)
    rw [bind_pure] at unlocked
    exact ⟨_, unlocked, answer ▸ send _ rfl⟩
  | none =>
    simp only [Option.isSome_none, Bool.false_eq_true, if_false]
    rw [unlock_bind (by exact alone)]
    simp only [Locks.unlock_set zmqFree, Program.read_bind_apply]
    have trimmed := trimSlash_of_asked asked
    obtain ⟨v, watching, same⟩ := inotifyWatchTree_run succeed (w := { w with sys := (System.malloc w.sys).2 }) alone
      free starts registered known trimmed opens _ _ _
    rw [Program.bind_ok _ _ _ _ _ watching]
    cases w.roots.watchAnswer path openable with
    | some err =>
      obtain ⟨s, run⟩ := replySendFormatted_run succeed (errorText err) v
      exact ⟨_, run, send _ same⟩
    | none =>
      obtain ⟨s, run⟩ := replySendMessage_run succeed successText v
      exact ⟨_, run, send _ same⟩

omit succeed alone free in
/-- A watch request is answered with the true reason exactly when the tests of the code see
truly what lies above and below its path. -/
theorem watch_refused_truly_iff (succeed : AllocationsSucceed σ) (starts : ∀ s : σ, (System.pthreadCreate s).1 = true)
    {w : World σ} (alone : w.pool.schedule = []) (inotifyFree : w.locks.held .inotify = false)
    (zmqFree : w.locks.held .zmq = false) (reachable : ∃ u : World σ, Reachable u ∧ u.roots = w.roots)
    (pending : w.socket.pending = true) {req : Request} {path : Str} (asked : requestGetPath req = some path)
    (absolute : path.head? = some '/') {openable : Bool} (opens : ∀ s : σ, (System.opendir s path).1 = openable) :
    ∃ w', eventWatch req w = .ok ((), w') ∧
      (TrueReason w.roots path openable (fun answer => Sent (watchReply answer) w.socket w'.socket) ↔
        SeenTruly w.roots path) := by
  obtain ⟨u, reached, same⟩ := reachable
  have registered : Registered w.roots := same ▸ (reached.traced succeed).registered
  obtain ⟨w', ran, sent⟩ := eventWatch_run succeed alone inotifyFree zmqFree starts registered asked absolute opens pending
  have replied : (fun answer => Sent (watchReply answer) w.socket w'.socket) =
      (· = w.roots.watchAnswer path openable) := by
    funext answer
    exact propext (sent_watchReply_iff sent)
  refine ⟨w', ran, ?_⟩
  rw [replied]
  exact watchAnswer_true_iff w.roots path openable

end

def askedBeside : World (Script true) := { World.oneRoot (str "/b") with socket := ⟨[], true, []⟩ }

theorem askedBeside_reachable : ∃ u : World (Script true), Reachable u ∧ u.roots = askedBeside.roots := by
  have ran : inotifyWatchTree (str "/b") inotifyDefaultMask 65536 false (World.initial ⟨[]⟩) =
      .ok (none, World.oneRoot (str "/b")) := rfl
  exact ⟨_, ⟨_, .single (.step (.watch ran))⟩, rfl⟩

theorem askedBeside_keys : askedBeside.roots.inotifyRoots.keys = [str "/b"] := by decide

/-- "/b/c" lies below the root: the request is refused for that. -/
theorem path_below_root_refused :
    ∃ w', eventWatch (.about "watch" "/b/c") askedBeside = .ok ((), w') ∧
      Sent (errorText .inotifyChildOfRoot) askedBeside.socket w'.socket := by
  have asked : requestGetPath (.about "watch" "/b/c") = some (str "/b/c") := rfl
  obtain ⟨w', ran, iff⟩ := watch_refused_truly_iff (fun _ => rfl) (fun _ => rfl) rfl rfl rfl askedBeside_reachable rfl
    asked rfl (fun _ => rfl)
  have above : askedBeside.roots.Above (str "/b/c") :=
    ⟨str "/b", by rw [askedBeside_keys]; exact List.mem_singleton_self _, .inr (by decide)⟩
  have seen : SeenTruly askedBeside.roots (str "/b/c") := by
    refine ⟨fun root is => ?_, fun _ _ _ => above, fun _ _ outside => ?_⟩
    · cases is
    · exact absurd (by decide) (outside (str "/b") (by rw [askedBeside_keys]; exact List.mem_singleton_self _))
  exact ⟨w', ran, (iff.mpr seen).child.mpr above⟩

/-- "/a/b/c" is refused because "/b/" occurs in it, though no root lies above it. -/
theorem unrelated_path_refused :
    (∃ u : World (Script true), Reachable u ∧ u.roots = askedBeside.roots) ∧
      ∃ w', eventWatch (.about "watch" "/a/b/c") askedBeside = .ok ((), w') ∧
        Sent (errorText .inotifyChildOfRoot) askedBeside.socket w'.socket ∧ ¬askedBeside.roots.Above (str "/a/b/c") ∧
        ¬TrueReason askedBeside.roots (str "/a/b/c") true
          (fun answer => Sent (watchReply answer) askedBeside.socket w'.socket) := by
  have notAbove : ¬askedBeside.roots.Above (str "/a/b/c") := by
    rintro ⟨key, member, above⟩
    rw [askedBeside_keys, List.mem_singleton] at member
    subst member
    exact absurd above (by decide)
  obtain ⟨w', ran, sent⟩ : ∃ w', eventWatch (.about "watch" "/a/b/c") askedBeside = .ok ((), w') ∧
      Sent (errorText .inotifyChildOfRoot) askedBeside.socket w'.socket := ⟨_, rfl, rfl⟩
  exact ⟨askedBeside_reachable, w', ran, sent, notAbove, fun reason => notAbove (reason.child.mp sent)⟩

end Inotispy
