import Inotispy.Model.PidFile

/-! At most one daemon: what the pid file ensures, and under which starts.

Between looking at the file and writing it a start takes many steps, and nothing locks the file. So starts must not
overlap. Given that, a start that goes past `check_pid` has seen that nobody serves, and it stays so until it serves
itself. A start during the service of another runs into the pid in the file.
-/

set_option autoImplicit false

namespace Inotispy
open Library

namespace PidFile

/-! ## The pid in the file -/

theorem firstLine_of_short {text : Str} (short : text.length ≤ lineRoom) (single : '\n' ∉ text) : firstLine text = text := by
  have all : text.takeWhile (· ≠ '\n') = text :=
    List.takeWhile_eq_self_iff.mpr fun c member => by simpa using ne_of_mem_of_not_mem member single
  simp only [firstLine, List.take_of_length_le short, all, single, if_false, List.append_nil]

/-- The room of `check_pid` is enough for the largest pid of the kernel, and not for one digit more. -/
theorem length_percentD {pid : Nat} : (percentD pid).length ≤ lineRoom ↔ pid < 10 ^ lineRoom := by
  have digits : percentD pid = Nat.toDigits 10 pid := CString.toList_toString_ofNat pid
  rw [digits]
  exact Nat.length_toDigits_le_iff (by decide) (by decide)

theorem pidOf_percentD {pid : Nat} (small : pid < 2 ^ 22) : pidOf (percentD pid) = some (Int32.ofInt pid) := by
  have whole : ∀ c ∈ percentD pid, c ≠ '\n' ∧ c ≠ '\x00' := fun c member =>
    ⟨by rintro rfl; exact CString.not_mem_toString _ (by decide) member,
      by rintro rfl; exact CString.not_mem_toString _ (by decide) member⟩
  have line : CString.ofBuffer (firstLine (percentD pid)) = percentD pid := by
    rw [firstLine_of_short (length_percentD.mpr (by change _ < 10000000; omega)) fun member => (whole _ member).1 rfl]
    exact CString.ofBuffer_of_plain fun member => (whole _ member).2 rfl
  have last : (percentD pid).getLast? ≠ some '\n' := fun is => (whole _ (List.mem_of_getLast? is)).1 rfl
  have value : (Int32.ofInt pid).toInt = pid := Int32.toInt_ofInt_of_le (by omega) (by omega)
  have some_ : percentD pid ≠ [] := CString.toString_ne_nil pid
  have read : CString.atoi (percentD pid) = Int32.ofInt pid := by
    have read := CString.atoi_toString (Int32.ofInt pid)
    rwa [value] at read
  simp only [pidOf, line, if_neg some_, if_neg last, read]

/-! ## The states of the processes -/

/-- From `check_pid` up to the end of `write_pid` -/
def Phase.starting : Phase → Bool
  | .serving | .foreground | .leaving => false
  | _ => true

/-- A start in this phase still runs into the pid of `server`, or it is none. -/
def Machine.Blocked (m : Machine) (server : Nat) : Phase → Prop
  | .checking => True
  | .reading inode => m.file = some inode
  | .probing found => found.toInt = server
  | phase => phase.starting = false

def Machine.Names (m : Machine) (pid : Nat) : Prop := ∃ inode, m.file = some inode ∧ m.contents inode = percentD pid

structure Exclusive (m : Machine) : Prop where
  known : ∀ {pid phase}, m.phase pid = some phase → m.alive pid = true ∧ 0 < pid ∧ pid < 2 ^ 22
  starter : ∀ {p q phase other}, m.phase p = some phase → m.phase q = some other → phase.starting = true →
    other.starting = true → p = q
  named : ∀ {pid}, m.phase pid = some .serving → m.Names pid
  blocked : ∀ {server pid phase}, m.phase server = some .serving → m.phase pid = some phase → m.Blocked server phase
  opened : ∀ {pid inode}, m.phase pid = some (.opened inode) → m.file = some inode ∧ m.contents inode = []

theorem Machine.of_gone {m : Machine} {pid q : Nat} {phase : Phase} (is : (m.gone pid).phase q = some phase) :
    q ≠ pid ∧ m.phase q = some phase := by
  have away : q ≠ pid := by
    rintro rfl
    exact absurd ((Function.update_self q _ _).symm.trans is) (by rintro ⟨⟩)
  exact ⟨away, (Function.update_of_ne away _ _).symm.trans is⟩

namespace Exclusive

variable {m : Machine} (sound : Exclusive m)
include sound

theorem past {server pid : Nat} {phase : Phase} (serves : m.phase server = some .serving)
    (at_ : m.phase pid = some phase) : phase ≠ .stale ∧ phase ≠ .checked ∧ phase ≠ .writing ∧
      ∀ inode, phase ≠ .opened inode := by
  have blocked := sound.blocked serves at_
  refine ⟨?_, ?_, ?_, fun inode => ?_⟩ <;> rintro rfl <;> cases blocked

theorem server {p q : Nat} (first : m.phase p = some .serving) (second : m.phase q = some .serving) : p = q := by
  obtain ⟨inode, file, text⟩ := sound.named first
  obtain ⟨other, file', text'⟩ := sound.named second
  obtain rfl := Option.some.inj (file.symm.trans file')
  have same := congrArg pidOf (text.symm.trans text')
  rw [pidOf_percentD (sound.known first).2.2, pidOf_percentD (sound.known second).2.2] at same
  have value {pid : Nat} (small : pid < 2 ^ 22) : (Int32.ofInt pid).toInt = pid :=
    Int32.toInt_ofInt_of_le (by omega) (by omega)
  have equal := congrArg Int32.toInt (Option.some.inj same)
  rw [value (sound.known first).2.2, value (sound.known second).2.2] at equal
  exact Int.ofNat.inj equal

theorem fewer {phases : Nat → Option Phase} {alive : Nat → Bool}
    (still : ∀ {pid phase}, phases pid = some phase → m.phase pid = some phase ∧ alive pid = true) :
    Exclusive { m with phase := phases, alive } where
  known is := ⟨(still is).2, (sound.known (still is).1).2⟩
  starter is other := sound.starter (still is).1 (still other).1
  named is := sound.named (still is).1
  blocked is other := sound.blocked (still is).1 (still other).1
  opened is := sound.opened (still is).1

theorem gone (pid : Nat) : Exclusive (m.gone pid) := by
  refine sound.fewer fun {q other} is => ?_
  obtain ⟨away, before⟩ := Machine.of_gone is
  exact ⟨before, (Function.update_of_ne away _ _).trans (sound.known before).1⟩

theorem refile {file : Option Nat} {contents : Nat → Str} {inodes : Nat}
    (unserved : ∀ pid, m.phase pid ≠ some .serving) (closed : ∀ pid inode, m.phase pid ≠ some (.opened inode)) :
    Exclusive { m with file, contents, inodes } where
  known is := sound.known is
  starter is other := sound.starter is other
  named is := absurd is (unserved _)
  blocked is _ := absurd is (unserved _)
  opened is := absurd is (closed _ _)

end Exclusive

structure Admits (m : Machine) (pid : Nat) (now : Phase) : Prop where
  alone : now.starting = true → ∀ {q phase}, q ≠ pid → m.phase q = some phase → phase.starting = false
  refused : ∀ {server}, server ≠ pid → m.phase server = some .serving → m.Blocked server now
  named : now = .serving → m.Names pid
  first : now = .serving → ∀ {q phase}, q ≠ pid → m.phase q = some phase → m.Blocked pid phase
  opened : ∀ {inode}, now = .opened inode → m.file = some inode ∧ m.contents inode = []

theorem Exclusive.put {m : Machine} {pid : Nat} {now : Phase} {alive : Nat → Bool} (sound : Exclusive m)
    (admits : Admits m pid now) (range : 0 < pid ∧ pid < 2 ^ 22) (lives : alive pid = true)
    (others : ∀ q, m.alive q = true → alive q = true) :
    Exclusive { m with phase := Function.update m.phase pid (some now), alive } := by
  have cases_ {q : Nat} {phase : Phase} (is : Function.update m.phase pid (some now) q = some phase) :
      q = pid ∧ phase = now ∨ q ≠ pid ∧ m.phase q = some phase := by
    by_cases same : q = pid
    · subst same
      rw [Function.update_self] at is
      exact .inl ⟨rfl, (Option.some.inj is).symm⟩
    · rw [Function.update_of_ne same] at is
      exact .inr ⟨same, is⟩
  constructor
  case known =>
    intro q phase is
    obtain ⟨rfl, rfl⟩ | ⟨_, before⟩ := cases_ is
    · exact ⟨lives, range⟩
    · exact ⟨others _ (sound.known before).1, (sound.known before).2⟩
  case starter =>
    intro p q phase other is is' starting starting'
    obtain ⟨rfl, rfl⟩ | ⟨away, before⟩ := cases_ is <;> obtain ⟨rfl, rfl⟩ | ⟨away', before'⟩ := cases_ is'
    · rfl
    · exact absurd starting' (by rw [admits.alone starting away' before']; decide)
    · exact absurd starting (by rw [admits.alone starting' away before]; decide)
    · exact sound.starter before before' starting starting'
  case named =>
    intro q is
    obtain ⟨rfl, serving⟩ | ⟨_, before⟩ := cases_ is
    · exact admits.named serving.symm
    · exact sound.named before
  case blocked =>
    intro server q phase is is'
    obtain ⟨rfl, serving⟩ | ⟨away, before⟩ := cases_ is <;> obtain ⟨rfl, rfl⟩ | ⟨away', before'⟩ := cases_ is'
    · rw [← serving]
      rfl
    · exact admits.first serving.symm away' before'
    · exact admits.refused away before
    · exact sound.blocked before before'
  case opened =>
    intro q inode is
    obtain ⟨rfl, opens⟩ | ⟨_, before⟩ := cases_ is
    · exact admits.opened opens.symm
    · exact sound.opened before

/-! ## One step -/

theorem Machine.Blocked.of_idle {m : Machine} {server : Nat} {phase : Phase} (idle : phase.starting = false) :
    m.Blocked server phase := by
  cases phase <;> first | exact idle | cases idle

@[simp] theorem Machine.enter_enter (m : Machine) (pid : Nat) (first second : Phase) :
    (m.enter pid first).enter pid second = m.enter pid second := by
  simp only [enter, Function.update_idem]

@[simp] theorem Machine.gone_enter (m : Machine) (pid : Nat) (phase : Phase) : (m.enter pid phase).gone pid = m.gone pid := by
  simp only [enter, gone, Function.update_idem]

namespace Exclusive

variable {m : Machine} (sound : Exclusive m) {pid : Nat} {phase : Phase} (at_ : m.phase pid = some phase)
include sound at_

theorem alone (starting : phase.starting = true) {q : Nat} {other : Phase} (away : q ≠ pid)
    (is : m.phase q = some other) : other.starting = false := by
  cases value : other.starting with
  | false => rfl
  | true => exact absurd (sound.starter is at_ value starting) away

theorem enter {now : Phase} (admits : Admits m pid now) : Exclusive (m.enter pid now) :=
  sound.put admits (sound.known at_).2 (sound.known at_).1 fun _ => id

theorem proceed (starting : phase.starting = true) {now : Phase} (waits : now ≠ .serving) (closed : ∀ inode, now ≠ .opened inode)
    (refused : ∀ {server}, m.phase server = some .serving → m.Blocked server now) : Exclusive (m.enter pid now) :=
  sound.enter at_
    { alone := fun _ => sound.alone at_ starting
      refused := fun _ => refused
      named := fun is => absurd is waits
      first := fun is => absurd is waits
      opened := fun is => absurd is (closed _) }

theorem handle {file : Option Nat} {contents : Nat → Str} {inodes : Nat}
    (unserved : ∀ q, q ≠ pid → m.phase q ≠ some .serving)
    (closed : ∀ q, q ≠ pid → ∀ inode, m.phase q ≠ some (.opened inode)) :
    Exclusive ({ m with file, contents, inodes }.enter pid .leaving) := by
  have leaves : Exclusive (m.enter pid .leaving) := by
    refine sound.enter at_ ⟨?_, fun _ _ => rfl, ?_, ?_, fun is => ?_⟩
    case refine_4 => cases is
    all_goals rintro ⟨⟩
  have other {q : Nat} {now : Phase} (busy : now ≠ .leaving) (is : (m.enter pid .leaving).phase q = some now) :
      q ≠ pid ∧ m.phase q = some now := by
    have away : q ≠ pid := by
      rintro rfl
      exact busy (Option.some.inj ((Function.update_self q _ _).symm.trans is)).symm
    exact ⟨away, (Function.update_of_ne away _ _).symm.trans is⟩
  exact leaves.refile
    (fun q is => have ⟨away, before⟩ := other (by decide) is; unserved q away before)
    (fun q inode is => have ⟨away, before⟩ := other (by rintro ⟨⟩) is; closed q away inode before)

theorem handle_alone (starting : phase.starting = true) (unserved : ∀ q, m.phase q ≠ some .serving)
    {file : Option Nat} {contents : Nat → Str} {inodes : Nat} {now : Phase}
    (named : now = .serving → ∃ inode, file = some inode ∧ contents inode = percentD pid)
    (opened : ∀ {inode}, now = .opened inode → file = some inode ∧ contents inode = []) :
    Exclusive ({ m with file, contents, inodes }.enter pid now) := by
  rw [← Machine.enter_enter _ pid .leaving]
  have idle {q : Nat} {other : Phase} (away : q ≠ pid)
      (is : Function.update m.phase pid (some .leaving) q = some other) : m.phase q = some other ∧ other.starting = false := by
    rw [Function.update_of_ne away] at is
    exact ⟨is, sound.alone at_ starting away is⟩
  have handled : Exclusive ({ m with file, contents, inodes }.enter pid .leaving) :=
    sound.handle at_ (fun q _ => unserved q)
      fun _ away _ is => Bool.noConfusion (sound.alone at_ starting away is)
  exact handled.enter (Function.update_self ..)
    { alone := fun _ {_ _} away is => (idle away is).2
      refused := fun away is => absurd (idle away is).1 (unserved _)
      named := named
      first := fun _ {_ _} away is => .of_idle (idle away is).2
      opened := opened }

end Exclusive

theorem Machine.create_spec (m : Machine) : ∃ inode contents inodes,
    m.create = ({ m with file := some inode, contents, inodes }, inode) ∧ contents inode = [] := by
  unfold Machine.create
  cases is : m.file with
  | some inode => exact ⟨inode, _, m.inodes, rfl, Function.update_self ..⟩
  | none => exact ⟨m.inodes, _, _, rfl, Function.update_self ..⟩

theorem Exclusive.go {m next : Machine} {pid : Nat} (sound : Exclusive m) (ran : m.go pid = some next) :
    Exclusive next := by
  unfold Machine.go at ran
  cases at_ : m.phase pid with
  | none =>
    rw [at_] at ran
    cases ran
  | some phase =>
    rw [at_] at ran
    cases phase with
    | checking =>
      cases is : m.file with
      | none =>
        simp only [is, Option.some.injEq] at ran
        subst ran
        refine sound.proceed at_ rfl (by decide) (by rintro _ ⟨⟩) fun serves => ?_
        obtain ⟨inode, file, _⟩ := sound.named serves
        exact absurd (file.symm.trans is) (by rintro ⟨⟩)
      | some inode =>
        simp only [is, Option.some.injEq] at ran
        subst ran
        exact sound.proceed at_ rfl (by rintro ⟨⟩) (by rintro _ ⟨⟩) fun _ => is
    | reading inode =>
      cases found : pidOf (m.contents inode) with
      | none =>
        simp only [found, Option.some.injEq] at ran
        exact ran ▸ sound.gone pid
      | some value =>
        simp only [found, Option.some.injEq] at ran
        subst ran
        refine sound.proceed at_ rfl (by rintro ⟨⟩) (by rintro _ ⟨⟩) fun {server} serves => ?_
        obtain ⟨named, file, text⟩ := sound.named serves
        obtain rfl := Option.some.inj (file.symm.trans (sound.blocked serves at_))
        have small := (sound.known serves).2.2
        rw [text, pidOf_percentD small, Option.some.injEq] at found
        subst found
        exact Int32.toInt_ofInt_of_le (by omega) (by omega)
    | probing found =>
      simp only [Option.some.injEq] at ran
      subst ran
      split
      · exact sound.gone pid
      · next absent =>
        refine sound.proceed at_ rfl (by decide) (by rintro _ ⟨⟩) fun {server} serves => ?_
        -- The process that serves is in /proc
        obtain ⟨alive, positive, _⟩ := sound.known serves
        have value : found.toInt = server := sound.blocked serves at_
        refine absurd ?_ absent
        simp only [Machine.listed, value, Int.toNat_natCast, alive, Bool.and_true, decide_eq_true_eq]
        omega
    | stale =>
      have unserved (q : Nat) : m.phase q ≠ some .serving := fun serves => (sound.past serves at_).1 rfl
      simp only [Option.some.injEq] at ran
      subst ran
      split
      · exact sound.handle_alone at_ rfl unserved (by rintro ⟨⟩) (by rintro _ ⟨⟩)
      · exact sound.gone pid
    | checked | serving | foreground | leaving => cases ran
    | writing =>
      have unserved (q : Nat) : m.phase q ≠ some .serving := fun serves => (sound.past serves at_).2.2.1 rfl
      obtain ⟨inode, contents, inodes, created, empty⟩ := m.create_spec
      simp only [created, Option.some.injEq] at ran
      subst ran
      refine sound.handle_alone at_ rfl unserved (by rintro ⟨⟩) fun is => ?_
      cases is
      exact ⟨rfl, empty⟩
    | opened inode =>
      have unserved (q : Nat) : m.phase q ≠ some .serving := fun serves => (sound.past serves at_).2.2.2 inode rfl
      obtain ⟨file, empty⟩ := sound.opened at_
      simp only [Option.some.injEq] at ran
      subst ran
      refine sound.handle_alone at_ rfl unserved (fun _ => ⟨inode, file, ?_⟩) (by rintro _ ⟨⟩)
      rw [Function.update_self, empty, List.drop_nil, List.append_nil]

/-- A daemon is started when no other start is under way. An instance that is no daemon has the pid file removed too
when it is interrupted, so this is left out. -/
def Orderly (m : Machine) : Move → Prop
  | .launch _ true => ∀ pid phase, m.phase pid = some phase → phase.starting = false
  | .interrupt pid => m.phase pid = some .serving
  | _ => True

theorem of_hands {m : Machine} {pid : Nat} (hands : m.hands pid = true) : 0 < pid ∧ pid < 2 ^ 22 := by
  simp only [Machine.hands, Bool.and_eq_true, decide_eq_true_eq] at hands
  exact hands.1

theorem alive_joined {alive : Nat → Bool} (pid q : Nat) (lives : alive q = true) :
    Function.update alive pid true q = true := by
  by_cases same : q = pid
  · rw [same, Function.update_self]
  · rwa [Function.update_of_ne same]

theorem Exclusive.born {m : Machine} {pid : Nat} {now : Phase} (sound : Exclusive m) (admits : Admits m pid now)
    (range : 0 < pid ∧ pid < 2 ^ 22) : Exclusive (m.born pid now) :=
  sound.put admits range (Function.update_self ..) fun q => alive_joined pid q

theorem Exclusive.launch {m : Machine} {pid : Nat} {daemon : Bool} (sound : Exclusive m)
    (orderly : Orderly m (.launch pid daemon)) (range : 0 < pid ∧ pid < 2 ^ 22) :
    Exclusive (m.born pid (if daemon then .checking else .foreground)) := by
  refine sound.born ?_ range
  cases daemon with
  | false =>
    refine ⟨?_, fun _ _ => rfl, ?_, ?_, fun is => ?_⟩
    case refine_4 => cases is
    all_goals rintro ⟨⟩
  | true =>
    refine ⟨fun _ {_ _} _ is => orderly _ _ is, fun _ _ => trivial, ?_, ?_, fun is => ?_⟩
    case refine_3 => cases is
    all_goals rintro ⟨⟩

/-- The child goes on as the only start, in place of its parent. -/
theorem Exclusive.daemon {m : Machine} {pid child : Nat} (sound : Exclusive m) (at_ : m.phase pid = some .checked)
    (range : 0 < child ∧ child < 2 ^ 22) : Exclusive ((m.gone pid).born child .writing) := by
  refine (sound.gone pid).born ⟨fun _ {q phase} _ is => ?_, fun {server} _ serves => ?_, ?_, ?_, fun is => ?_⟩ range
  case refine_1 =>
    obtain ⟨away, before⟩ := Machine.of_gone is
    exact sound.alone at_ rfl away before
  case refine_2 => exact absurd rfl (sound.past (Machine.of_gone serves).2 at_).2.1
  case refine_5 => cases is
  all_goals rintro ⟨⟩

theorem Exclusive.step {m next : Machine} {move : Move} (sound : Exclusive m) (orderly : Orderly m move)
    (ran : m.step move = some next) : Exclusive next := by
  cases move with
  | go pid => exact sound.go ran
  | launch pid daemon =>
    simp only [Machine.step] at ran
    split at ran
    case isFalse => cases ran
    case isTrue hands => exact Option.some.inj ran ▸ sound.launch orderly (of_hands hands)
  | daemon pid child =>
    simp only [Machine.step] at ran
    split at ran
    case isFalse => cases ran
    case isTrue ready => exact Option.some.inj ran ▸ sound.daemon ready.1 (of_hands ready.2)
  | interrupt pid =>
    have serves : m.phase pid = some .serving := orderly
    simp only [Machine.step, serves, true_or, if_true, Option.some.injEq] at ran
    subst ran
    refine sound.handle serves (fun q away serves' => away (sound.server serves' serves)) fun q _ inode opened => ?_
    exact (sound.past serves opened).2.2.2 inode rfl
  | exit pid =>
    simp only [Machine.step] at ran
    cases at_ : m.phase pid with
    | none => simp [at_] at ran
    | some phase =>
      simp only [at_, Option.isSome_some, if_true, Option.some.injEq] at ran
      exact ran ▸ sound.gone pid
  | appear pid =>
    simp only [Machine.step] at ran
    split at ran
    case isFalse => cases ran
    case isTrue hands =>
      cases ran
      exact sound.fewer fun is => ⟨is, alive_joined _ _ (sound.known is).1⟩
  | vanish pid =>
    simp only [Machine.step] at ran
    split at ran
    case isFalse => cases ran
    case isTrue outside =>
      cases ran
      refine sound.fewer fun {q phase} is => ⟨is, ?_⟩
      have away : q ≠ pid := by
        rintro rfl
        rw [is] at outside
        cases outside
      rw [Function.update_of_ne away]
      exact (sound.known is).1

/-! ## Runs -/

def Tidy : Machine → List Move → Prop
  | _, [] => True
  | m, move :: moves => Orderly m move ∧ ∀ next, m.step move = some next → Tidy next moves

theorem Exclusive.run {m last : Machine} {moves : List Move} (sound : Exclusive m) (tidy : Tidy m moves)
    (ran : m.run moves = some last) : Exclusive last := by
  induction moves generalizing m with
  | nil =>
    cases ran
    exact sound
  | cons move moves ih =>
    obtain ⟨next, stepped, rest⟩ := Option.bind_eq_some_iff.mp ran
    exact ih (sound.step tidy.1 stepped) (tidy.2 next stepped) rest

theorem Exclusive.initial {m : Machine} (idle : ∀ pid, m.phase pid = none) : Exclusive m := by
  constructor <;> intros <;> simp_all

theorem Exclusive.refuses {m : Machine} (sound : Exclusive m) {server pid : Nat}
    (serves : m.phase server = some .serving) (at_ : m.phase pid = some .checking) :
    m.run [.go pid, .go pid, .go pid] = some (m.gone pid) := by
  obtain ⟨inode, file, text⟩ := sound.named serves
  obtain ⟨alive, positive, small⟩ := sound.known serves
  have opens : m.go pid = some (m.enter pid (.reading inode)) := by simp only [Machine.go, at_, file]
  have value : (Int32.ofInt server).toInt = server := Int32.toInt_ofInt_of_le (by omega) (by omega)
  have reads : (m.enter pid (.reading inode)).go pid = some (m.enter pid (.probing (Int32.ofInt server))) := by
    simp only [Machine.go, Machine.enter, Function.update_self, text, pidOf_percentD small, Function.update_idem]
  have listed : (m.enter pid (.probing (Int32.ofInt server))).listed (Int32.ofInt server) = true := by
    simpa [Machine.listed, value, Machine.enter, alive] using positive
  have ends : (m.enter pid (.probing (Int32.ofInt server))).go pid = some (m.gone pid) := by
    have probes : (m.enter pid (.probing (Int32.ofInt server))).phase pid = some (.probing (Int32.ofInt server)) :=
      Function.update_self ..
    simp only [Machine.go, probes, listed, if_true, Machine.gone_enter]
  simp only [Machine.run, Machine.step, opens, reads, ends, Option.bind_some]

/-- The next turn of a start takes it towards its end: it opens the file, reads the server's pid, or finds that in /proc. -/
def Machine.GivesWay (m : Machine) (server pid : Nat) : Phase → Prop
  | .checking => ∃ inode, m.file = some inode ∧ m.go pid = some (m.enter pid (.reading inode))
  | .reading _ => m.go pid = some (m.enter pid (.probing (Int32.ofInt server)))
  | .probing _ => m.go pid = some (m.gone pid)
  | _ => False

/-- Whatever happens between the turns of a start, each finds the pid of a process that serves. -/
theorem Exclusive.gives_way {m : Machine} (sound : Exclusive m) {server pid : Nat} {phase : Phase}
    (serves : m.phase server = some .serving) (at_ : m.phase pid = some phase) (starting : phase.starting = true) :
    m.GivesWay server pid phase := by
  obtain ⟨inode, file, text⟩ := sound.named serves
  obtain ⟨alive, positive, small⟩ := sound.known serves
  have blocked := sound.blocked serves at_
  cases phase with
  | checking => exact ⟨inode, file, by simp only [Machine.go, at_, file]⟩
  | reading other =>
    obtain rfl := Option.some.inj (file.symm.trans blocked)
    simp only [Machine.GivesWay, Machine.go, at_, text, pidOf_percentD small]
  | probing found =>
    have value : found.toInt = server := blocked
    have listed : m.listed found = true := by
      simp only [Machine.listed, value, Int.toNat_natCast, alive, Bool.and_true, decide_eq_true_eq]
      omega
    simp only [Machine.GivesWay, Machine.go, at_, listed, if_true]
  | _ => exact absurd (starting.symm.trans blocked) (by decide)

/-- However the processes take turns, crash and die, and whatever pids other programs are given in between: where no two
starts overlap, there is at most one daemon that serves; the pid file then holds its pid; and any further start finds it
there and gives up. -/
theorem one_daemon_at_a_time {m last : Machine} {moves : List Move} (idle : ∀ pid, m.phase pid = none)
    (tidy : Tidy m moves) (ran : m.run moves = some last) :
    (∀ p q, last.phase p = some .serving → last.phase q = some .serving → p = q) ∧
    ∀ server, last.phase server = some .serving → last.Names server ∧
      (∀ pid, last.phase pid = some .checking → last.run [.go pid, .go pid, .go pid] = some (last.gone pid)) ∧
      ∀ pid phase, last.phase pid = some phase → phase.starting = true → last.GivesWay server pid phase := by
  have sound := (Exclusive.initial idle).run tidy ran
  exact ⟨fun _ _ first second => sound.server first second,
    fun _ serves => ⟨sound.named serves, fun _ at_ => sound.refuses serves at_,
      fun _ _ at_ starting => sound.gives_way serves at_ starting⟩⟩

/-- Nothing of the program runs, and the file is left from a process that died. -/
def left : Machine := ⟨some 0, fun _ => str "77", 1, fun _ => false, fun _ => none⟩

/-- Of two starts that overlap, one may remove the file that the other has written. -/
example : (left.run [.launch 20 true, .go 20, .go 20, .go 20, .launch 10 true, .go 10, .go 10, .go 10, .go 10,
    .daemon 10 11, .go 11, .go 11, .go 20, .daemon 20 21, .go 21, .go 21]).map (fun m => (m.phase 11, m.phase 21)) =
      some (some .serving, some .serving) := by decide

/-- The stale file is removed and the daemon serves. A second start has read the file when another program appears. -/
theorem one_daemon_at_a_time_second_start : ∃ last,
    left.run [.launch 1 true, .go 1, .go 1, .go 1, .go 1, .daemon 1 2, .go 2, .go 2, .launch 3 true, .go 3, .appear 9,
      .go 3] = some last ∧
    last.phase 2 = some .serving ∧ last.Names 2 ∧ last.go 3 = some (last.gone 3) := by
  have tidy : Tidy left [.launch 1 true, .go 1, .go 1, .go 1, .go 1, .daemon 1 2, .go 2, .go 2, .launch 3 true, .go 3,
      .appear 9, .go 3] := by
    refine ⟨by rintro _ _ ⟨⟩, ?_⟩
    rintro _ ⟨⟩
    iterate 7
      refine ⟨trivial, ?_⟩
      rintro _ ⟨⟩
    refine ⟨fun pid phase is => ?_, ?_⟩
    · rcases pid with _ | _ | _ | pid
      case succ.succ.zero =>
        cases is
        rfl
      all_goals cases is
    rintro _ ⟨⟩
    iterate 3
      refine ⟨trivial, ?_⟩
      rintro _ ⟨⟩
    exact trivial
  have all := one_daemon_at_a_time (fun _ => rfl) tidy rfl
  exact ⟨_, rfl, rfl, (all.2 2 rfl).1, (all.2 2 rfl).2.2 3 _ rfl rfl⟩

end PidFile
end Inotispy
