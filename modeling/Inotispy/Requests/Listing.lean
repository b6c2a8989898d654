import Inotispy.Requests.Whole
import Inotispy.Roots.Lifecycle

/-! What get_roots answers.

The number of roots is kept apart from their table, and the destroy thread of a root takes
one off when it takes the root out; so the two agree only because no root is given a second
destroy thread. The roots whose destroy threads were started are collected along a run.
-/

set_option autoImplicit false

namespace Inotispy
open Library

variable {σ : Type} [System σ]

/-- The roots that got a destroy thread in a step. A request starts the thread last. -/
def startedIn (w w' : World σ) : List RootRef :=
  (w'.pool.threads.drop w.pool.threads.length).filterMap Thread.destroys

/-- A state of the daemon, with the roots whose destroy threads were started on the way. -/
inductive ServedAfter : List RootRef → World σ → Prop where
  | start (sys : σ) : ServedAfter [] (World.initial sys)
  | step {started : List RootRef} {action : Action} {w w' : World σ} (before : ServedAfter started w)
      (next : ServerStep action w w') : ServedAfter (started ++ startedIn w w') w'

/-- The destroy threads that were started, up to the middle of a step that began with `known` threads. -/
structure Recorded (started : List RootRef) (known : Nat) (roots : RootTable) (threads : List Thread) : Prop where
  long : known ≤ threads.length
  once : (started ++ (threads.drop known).filterMap Thread.destroys).Nodup
  made : ∀ root ∈ started ++ (threads.drop known).filterMap Thread.destroys, root < roots.nextRoot
  -- Its destroy thread is still at work, or has taken the root out.
  ended : ∀ root ∈ started ++ (threads.drop known).filterMap Thread.destroys,
    (∀ key, roots.inotifyRoots.lookup key ≠ some root) ∨ ∃ thread ∈ threads, thread.destroys = some root

theorem filterMap_set_sublist {A B : Type} (f : A → Option B) {old new : A} (same : f new = f old ∨ f new = none) :
    ∀ (items : List A) (index : Nat), items[index]? = some old →
      ((items.set index new).filterMap f).Sublist (items.filterMap f)
  | [], _, at_ => by cases at_
  | first :: rest, 0, at_ => by
    cases at_
    rw [List.set_cons_zero, List.filterMap_cons, List.filterMap_cons]
    rcases same with same | none
    · rw [same]
    · rw [none]
      cases f old with
      | none => exact List.Sublist.refl _
      | some value => exact List.sublist_cons_self _ _
  | first :: rest, index + 1, at_ => by
    have later := filterMap_set_sublist f same rest index at_
    rw [List.set_cons_succ, List.filterMap_cons, List.filterMap_cons]
    split
    · exact later
    · exact later.cons_cons _

namespace Recorded

variable {started : List RootRef} {known : Nat} {roots after : RootTable} {threads : List Thread}

theorem step (recorded : Recorded started known roots threads) {index : Nat} {thread next : Thread}
    (found : threads[index]? = some thread) (effect : LifeEffect thread next roots after)
    (life : Lifecycle roots threads) : Recorded started known after (threads.set index next) := by
  have same : next.destroys = thread.destroys ∨ next.destroys = none := by
    cases effect with
    | stays same => exact .inl same
    | frees root mine same => exact .inl (same.trans mine.symm)
    | removes root path mine done named => exact .inr done
  have fewer : (started ++ ((threads.set index next).drop known).filterMap Thread.destroys).Sublist
      (started ++ (threads.drop known).filterMap Thread.destroys) := by
    apply List.Sublist.append_left
    rw [List.drop_set]
    split
    · exact List.Sublist.refl _
    · apply filterMap_set_sublist Thread.destroys same
      rw [List.getElem?_drop, Nat.add_sub_cancel' (by omega)]
      exact found
  have nextRoot : after.nextRoot = roots.nextRoot := by cases effect <;> rfl
  constructor
  · rw [List.length_set]
    exact recorded.long
  · exact fewer.nodup recorded.once
  · intro root member
    rw [nextRoot]
    exact recorded.made root (fewer.subset member)
  · intro root member
    have kept : ∀ key, after.inotifyRoots.lookup key = some root → roots.inotifyRoots.lookup key = some root := by
      intro key
      cases effect with
      | stays => exact id
      | frees => exact id
      | removes _ path => exact (Shrinks.remove roots path).kept key root
    by_cases registered : ∃ key, after.inotifyRoots.lookup key = some root
    · obtain ⟨key, at_⟩ := registered
      rcases recorded.ended root (fewer.subset member) with gone | destroyer
      · exact absurd (kept key at_) (gone key)
      · exact .inr (effect.keeps_destroyer found life at_ destroyer)
    · exact .inl fun key at_ => registered ⟨key, at_⟩

theorem spawn (recorded : Recorded started known roots threads) {thread : Thread} (plain : thread.destroys = none) :
    Recorded started known roots (threads ++ [thread]) := by
  have same : ((threads ++ [thread]).drop known).filterMap Thread.destroys =
      (threads.drop known).filterMap Thread.destroys := by
    rw [List.drop_append_of_le_length recorded.long, List.filterMap_append]
    simp [plain]
  constructor
  · simp only [List.length_append]
    exact Nat.le_add_right_of_le recorded.long
  · rw [same]
    exact recorded.once
  · rw [same]
    exact recorded.made
  · rw [same]
    intro root member
    refine (recorded.ended root member).imp_right ?_
    rintro ⟨other, inside, mine⟩
    exact ⟨other, List.mem_append_left _ inside, mine⟩

theorem join (recorded : Recorded started known roots threads) (life : Lifecycle roots threads) {root : RootRef}
    (marked : Marked root roots threads) : Recorded started known roots (threads ++ [.destroyRoot root]) := by
  obtain ⟨key, registered⟩ := marked.registered
  have longer : started ++ ((threads ++ [Thread.destroyRoot root]).drop known).filterMap Thread.destroys =
      (started ++ (threads.drop known).filterMap Thread.destroys) ++ [root] := by
    rw [List.drop_append_of_le_length recorded.long, List.filterMap_append, List.append_assoc]
    rfl
  have new : root ∉ started ++ (threads.drop known).filterMap Thread.destroys := by
    intro member
    rcases recorded.ended root member with gone | ⟨other, inside, mine⟩
    · exact gone key registered
    · exact marked.unserved other inside mine
  constructor
  · simp only [List.length_append]
    exact Nat.le_add_right_of_le recorded.long
  · rw [longer, List.nodup_append]
    refine ⟨recorded.once, List.nodup_singleton root, ?_⟩
    intro other member last is
    rw [List.mem_singleton.mp is]
    rintro rfl
    exact new member
  · rw [longer]
    intro other member
    rcases List.mem_append.mp member with old | last
    · exact recorded.made other old
    · rw [List.mem_singleton.mp last]
      exact life.made key root registered
  · rw [longer]
    intro other member
    rcases List.mem_append.mp member with old | last
    · refine (recorded.ended other old).imp_right ?_
      rintro ⟨thread, inside, mine⟩
      exact ⟨thread, List.mem_append_left _ inside, mine⟩
    · right
      rw [List.mem_singleton.mp last]
      exact ⟨_, List.mem_append_right _ (List.mem_singleton_self _), rfl⟩

theorem register (recorded : Recorded started known roots threads) (path : Str) (made : Root) :
    Recorded started known (roots.register path made) threads := by
  refine ⟨recorded.long, recorded.once, fun root member => Nat.lt_succ_of_lt (recorded.made root member), ?_⟩
  intro root member
  refine (recorded.ended root member).imp_left fun gone key at_ => ?_
  simp only [RootTable.register, GHashTable.lookup_insert_if] at at_
  split at at_
  · exact Nat.ne_of_lt (recorded.made root member) (Option.some.inj at_).symm
  · exact gone key at_

end Recorded

theorem living_recorded (started : List RootRef) (known : Nat) :
    Living fun w : World σ =>
      Lifecycle w.roots w.pool.threads ∧ Recorded started known w.roots w.pool.threads := by
  apply Living.of_roots (Recorded started known)
  · exact fun roots threads thread plain recorded => recorded.spawn plain
  · exact fun found effect life recorded => recorded.step found effect life
  · exact fun roots threads path made _ _ recorded => recorded.register path made
  · exact fun roots threads root change _ recorded => ⟨recorded.long, recorded.once, recorded.made, recorded.ended⟩

theorem ServerStep.recorded {action : Action} {w w' : World σ} (step : ServerStep action w w')
    {started : List RootRef} {known : Nat} (life : Lifecycle w.roots w.pool.threads)
    (recorded : Recorded started known w.roots w.pool.threads) :
    Lifecycle w'.roots w'.pool.threads ∧ Recorded started known w'.roots w'.pool.threads := by
  have living := living_recorded (σ := σ) started known
  refine step.keeps ⟨life, recorded⟩ living.toSteadyMute (fun req _ => ?_) living.watches living.records
  apply living.serves
  · intro _ path _
    apply living.unwatches
    · intro w root holds _ _
      exact ⟨holds.1.mark root, holds.2.long, holds.2.once, holds.2.made, holds.2.ended⟩
    · exact fun w root holds marked => ⟨holds.1.join marked, holds.2.join holds.1 marked⟩
  · exact fun _ path count _ => living.gets (fun _ _ => id) path count

/-- In no run is a second destroy thread started for a root. -/
theorem ServedAfter.recorded {started : List RootRef} {w : World σ} (run : ServedAfter started w) :
    Lifecycle w.roots w.pool.threads ∧ Recorded started w.pool.threads.length w.roots w.pool.threads := by
  induction run with
  | start sys =>
    refine ⟨.initial sys, Nat.le_refl _, ?_, ?_, ?_⟩ <;> simp [World.initial]
  | step before next ih =>
    obtain ⟨life, recorded⟩ := next.recorded ih.1 ih.2
    refine ⟨life, Nat.le_refl _, ?_, ?_, ?_⟩
    · simpa [startedIn] using recorded.once
    · simpa [startedIn] using recorded.made
    · simpa [startedIn] using recorded.ended

/-! ## In the middle of a request -/

/-- The points of a watch or unwatch request at which the main thread holds no mutex, and
the states between the turns that the other threads take there. -/
inductive Inside (w : World σ) : World σ → Prop where
  | start : Inside w w
  | checked {path : Str} {v u : World σ} (before : Inside w v)
      (ran : watchTreeCheck (trimSlash path) v = .ok (none, u)) : Inside w u
  | registered {path : Str} {mask : UInt32} {maxEvents : Int32} {rewatch : Bool} {v u t w' : World σ}
      {made : Option RootRef} (before : Inside w v) (absolute : path.head? = some '/')
      (checked : watchTreeCheck (trimSlash path) v = .ok (none, u))
      (opened : opendir (trimSlash path) u = .ok (true, t))
      (ran : watchTreeInsert (trimSlash path) mask maxEvents rewatch t = .ok (made, w')) : Inside w w'
  | dumped {v u : World σ} (before : Inside w v) (ran : inotifyDumpRoots v = .ok ((), u)) : Inside w u
  | marked {path : Str} {root : RootRef} {v : World σ} (before : Inside w v)
      (found : v.roots.inotifyRoots.lookup (trimLastSlash path) = some root)
      (running : (v.roots.heap root).destroy = false) :
      Inside w { v with roots := v.roots.setRoot root fun r => { r with destroy := true } }
  | turn {index : Nat} {v u : World σ} (before : Inside w v) (ran : runThread index v = .ok ((), u)) : Inside w u

theorem Inside.life {w v : World σ} (inside : Inside w v) (life : Lifecycle w.roots w.pool.threads) :
    Lifecycle v.roots v.pool.threads := by
  have living := living_life (σ := σ)
  have steady := living.toSteady
  induction inside with
  | start => exact life
  | checked before ran ih => exact (living.checks _ _ ⟨ih, trivial⟩ _ _ ran).1.1
  | @registered path _ _ _ _ _ _ _ _ before absolute checked opened ran ih =>
    obtain ⟨holds, new⟩ := living.checks _ _ ⟨ih, trivial⟩ _ _ checked
    have unregistered := steady.and (steady_unregistered (trimSlash path))
    have opened := unregistered.still.opendir _ _ ⟨holds, new rfl⟩ _ _ opened
    refine (watchTreeInsert_triple steady unregistered ?_ _ _ _ _ opened _ _ ran).1
    exact fun w holds new made is _ => living.registers w _ made holds new (trimSlash_absolute absolute) is
  | dumped before ran ih => exact (steady.inotifyDumpRoots _ ⟨ih, trivial⟩ _ _ ran).1
  | marked before found running ih => exact ih.mark _
  | turn before ran ih => exact steady_life.run _ _ ih _ _ ran

/-! ## The reply -/

/-- `{"data":[...]}` with the given paths, as json-c prints it. -/
def rootsText (roots : List Str) : Str :=
  System.jsonObjectToJsonString (σ := σ) (.object [(str "data", .array (roots.map .string))])

inductive RootsReply (before : Socket) (u : World σ) : Socket → Prop where
  | listed (roots : List Str) (reply : Str) (once : roots.Nodup)
      (all : ∀ key, key ∈ roots ↔ ∃ root, u.roots.inotifyRoots.lookup key = some root)
      (lists : reply = rootsText (σ := σ) roots ∨ (roots = [] ∧ reply = emptyData)) :
      RootsReply before u (before.send reply).2
  | failed (refused : ¬AllocationsSucceed σ) : RootsReply before u (before.send (errorText .memoryAllocation)).2
  | silent (refused : ¬AllocationsSucceed σ) : RootsReply before u before

theorem mapM_mkString_eq_ok {keys : List Str} {copies : List (Option Str)} {w w' : World σ}
    (ran : keys.mapM mkString w = .ok (copies, w')) :
    List.Forall₂ (fun key copy => copy = some key ∨ copy = none) keys copies ∧
      ∃ s, w' = { w with sys := s } := by
  induction keys generalizing copies w with
  | nil =>
    rw [List.mapM_nil] at ran
    obtain ⟨rfl, rfl⟩ := Program.pure_eq_ok.mp ran
    exact ⟨.nil, _, rfl⟩
  | cons key keys ih =>
    simp only [List.mapM_cons, mkString_bind] at ran
    obtain ⟨later, v, rest, ran⟩ := Program.bind_eq_ok ran
    obtain ⟨rfl, rfl⟩ := Program.pure_eq_ok.mp ran
    obtain ⟨copied, s, rfl⟩ := ih rest
    exact ⟨.cons (ite_eq_or_eq _ _ _) copied, s, rfl⟩

omit [System σ] in
/-- The list is read up to its last entry, as no root is called "EOL". -/
theorem rootsUntilEol_eq_ok {keys : List Str} {copies : List (Option Str)} {jarr : List Json} {w w' : World σ}
    (copied : List.Forall₂ (fun key copy => copy = some key ∨ copy = none) keys copies)
    (absolute : ∀ key ∈ keys, key.head? = some '/') {eol : Option Str} (last : eol = some (str "EOL") ∨ eol = none)
    (ran : rootsUntilEol (copies ++ [eol]) w = .ok (jarr, w')) : jarr = keys.map .string ∧ w' = w := by
  induction copied generalizing jarr with
  | nil =>
    simp only [List.nil_append, rootsUntilEol, deref_bind_eq_ok, Program.ite_eq_ok, Program.pure_eq_ok] at ran
    obtain ⟨path, is, ⟨_, rfl, rfl⟩ | ⟨other, _⟩⟩ := ran
    · exact ⟨rfl, rfl⟩
    · rcases last with rfl | rfl
      · cases is
        exact absurd rfl other
      · cases is
  | @cons key copy keys copies first _ ih =>
    simp only [List.cons_append, rootsUntilEol, deref_bind_eq_ok, Program.ite_eq_ok] at ran
    obtain ⟨path, is, ran⟩ := ran
    obtain rfl : path = key := by
      rcases first with rfl | rfl <;> cases is
      rfl
    obtain ⟨isEol, _⟩ | ⟨_, ran⟩ := ran
    · have slash := absolute path List.mem_cons_self
      rw [isEol] at slash
      cases slash
    · obtain ⟨later, v, rest, ran⟩ := Program.bind_eq_ok ran
      obtain ⟨rfl, rfl⟩ := Program.pure_eq_ok.mp ran
      obtain ⟨rfl, rfl⟩ := ih (fun key member => absolute key (List.mem_cons_of_mem _ member)) rest
      exact ⟨rfl, rfl⟩

theorem inotifyGetRoots_eq_ok {w v : World σ} {roots : Option (List (Option Str))}
    (ran : inotifyGetRoots w = .ok (roots, v)) :
    ∃ u, yieldMain w = .ok ((), u) ∧ v.socket = w.socket ∧ ((roots = none ∧ ¬AllocationsSucceed σ) ∨
      ∃ copies eol, roots = some (copies ++ [eol]) ∧
        List.Forall₂ (fun key copy => copy = some key ∨ copy = none) u.roots.inotifyRoots.keys copies ∧
        (eol = some (str "EOL") ∨ eol = none)) := by
  have same := Steady.of_socket (σ := σ) (· = w.socket)
  simp only [inotifyGetRoots, lock, bind_assoc] at ran
  obtain ⟨_, u, yielding, ran⟩ := Program.bind_eq_ok ran
  have socket := same.yieldMain w rfl () u yielding
  simp only [acquire_bind_eq_ok, Program.read_bind_apply, malloc_bind, Program.ite_eq_ok] at ran
  obtain ⟨_, ⟨failed, ran⟩ | ⟨_, ran⟩⟩ := ran
  · obtain ⟨rfl, after⟩ := same.of_unlock_pure ran socket
    exact ⟨u, yielding, after, .inl ⟨rfl, fun succeed => by simp [succeed u.sys] at failed⟩⟩
  · obtain ⟨copies, t, copying, ran⟩ := Program.bind_eq_ok ran
    obtain ⟨copied, s, rfl⟩ := mapM_mkString_eq_ok copying
    simp only [mkString_bind] at ran
    obtain ⟨rfl, after⟩ := same.of_unlock_pure ran socket
    exact ⟨u, yielding, after, .inr ⟨copies, _, rfl, copied, ite_eq_or_eq _ _ _⟩⟩

theorem eventGetRoots_replies {w w' : World σ} {a : Unit} (life : Lifecycle w.roots w.pool.threads)
    (ran : eventGetRoots w = .ok (a, w')) :
    ∃ u, (u = w ∨ yieldMain w = .ok ((), u)) ∧ RootsReply w.socket u w'.socket := by
  simp only [eventGetRoots, Program.read_bind_apply, Program.ite_eq_ok] at ran
  obtain ⟨few, ran⟩ | ⟨_, ran⟩ := ran
  · refine ⟨w, .inl rfl, ?_⟩
    have none : w.roots.inotifyRoots.keys = [] := by
      have counted := life.count
      rw [← List.length_eq_zero_iff]
      omega
    rcases replySendMessage_socket ran with sent | ⟨same, refused⟩
    · rw [sent]
      refine .listed [] emptyData List.nodup_nil (fun key => ?_) (.inr ⟨rfl, rfl⟩)
      rw [← GHashTable.mem_keys_iff, none]
    · rw [same]
      exact .silent refused
  · obtain ⟨roots, v, getting, ran⟩ := Program.bind_eq_ok ran
    obtain ⟨u, yielding, socket, listed⟩ := inotifyGetRoots_eq_ok getting
    refine ⟨u, .inr yielding, ?_⟩
    rw [← socket]
    rcases listed with ⟨rfl, refused⟩ | ⟨copies, eol, rfl, copied, last⟩
    · rcases replySendError_socket ran with sent | ⟨same, _⟩
      · rw [sent]
        exact .failed refused
      · rw [same]
        exact .silent refused
    · dsimp only at ran
      obtain ⟨jarr, t, reading, sending⟩ := Program.bind_eq_ok ran
      have absolute := (steady_life.yieldMain w life () u yielding).absolute
      obtain ⟨rfl, rfl⟩ := rootsUntilEol_eq_ok copied absolute last reading
      rcases replySendMessage_socket sending with sent | ⟨same, refused⟩
      · rw [sent]
        refine .listed u.roots.inotifyRoots.keys _ u.roots.inotifyRoots.nodupKeys (fun key => ?_) (.inl rfl)
        exact GHashTable.mem_keys_iff _ key
      · rw [same]
        exact .silent refused

theorem ServedAfter.sound (succeed : AllocationsSucceed σ) {started : List RootRef} {w : World σ}
    (run : ServedAfter started w) : Sound w := by
  induction run with
  | start sys => exact .initial sys
  | step before next ih => exact next.sound succeed ih

/-- In all states of a run, those within a watch or unwatch request included, the number of
roots is that of the table's entries, and no root was given a second destroy thread; get_roots
lists the table as it is when it is read. -/
theorem get_roots_exact {started : List RootRef} {w : World σ} (run : ServedAfter started w) :
    (∀ v, Inside w v → v.roots.inotifyNumWatchedRoots = v.roots.inotifyRoots.keys.length) ∧ started.Nodup ∧
      (∀ w', eventGetRoots w = .ok ((), w') →
        ∃ u, (u = w ∨ yieldMain w = .ok ((), u)) ∧ RootsReply w.socket u w'.socket) ∧
      (AllocationsSucceed σ → ∃ w', eventGetRoots w = .ok ((), w')) := by
  obtain ⟨life, recorded⟩ := run.recorded
  refine ⟨fun v inside => (inside.life life).count, ?_, fun w' ran => eventGetRoots_replies life ran, ?_⟩
  · have once := recorded.once
    rw [List.nodup_append] at once
    exact once.1
  · intro succeed
    have sound := run.sound succeed
    obtain ⟨_, w', ran, _⟩ := eventGetRoots_sends succeed w ⟨sound.inotify, sound.zmq, rfl, sound.whole⟩
    exact ⟨w', ran⟩

theorem get_roots_exact_unwatched_twice :
    ∃ w : World (Script true), ServedAfter [0] w ∧
      w.roots.inotifyNumWatchedRoots = w.roots.inotifyRoots.keys.length := by
  have watched := (ServedAfter.start (⟨[]⟩ : Script true)).step
    (⟨trivial, rfl⟩ : ServerStep (.request (.about "watch" "/a")) _ _)
  have unwatched := watched.step (⟨trivial, rfl⟩ : ServerStep (.request (.about "unwatch" "/a")) _ _)
  have again := unwatched.step (⟨trivial, rfl⟩ : ServerStep (.request (.about "unwatch" "/a")) _ _)
  exact ⟨_, again, (get_roots_exact again).1 _ .start⟩

end Inotispy
