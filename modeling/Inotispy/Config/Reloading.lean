import Inotispy.Library.Latest
import Inotispy.Model.Config
import Inotispy.Model.Script

/-! What a reloaded configuration file leaves of its earlier versions.

A setting that a version does not give, or gives wrongly, stays as it was. The defaults are only
set at the start, so that a version settles all of logging only if the one that is in force for the
settings it leaves out is the default.
-/

set_option autoImplicit false

namespace Inotispy
open Library

/-! ## What a version gives -/

namespace KeyFile

def logLevel (keyfile : KeyFile) : Option LogLevel := (keyfile.string (str "log_level")).bind Config.levelOf

def logFile (keyfile : KeyFile) : Option Str := (keyfile.string (str "log_file")).filter (· ≠ str "false")

def logSyslog (keyfile : KeyFile) : Option Bool := keyfile.boolean (str "log_syslog")

def loggingEnabled (keyfile : KeyFile) : Option Bool := (keyfile.string (str "log_file")).map (· ≠ str "false")

end KeyFile

structure Logging where
  level : LogLevel
  file : Str
  syslog : Bool
  enabled : Bool
  deriving DecidableEq, Repr

namespace Logging

def after (versions : List KeyFile) : Logging where
  level := settled .notice (versions.map KeyFile.logLevel)
  file := settled Config.logFile (versions.map KeyFile.logFile)
  syslog := settled false (versions.map KeyFile.logSyslog)
  enabled := settled true (versions.map KeyFile.loggingEnabled)

def next (logging : Logging) (keyfile : KeyFile) : Logging where
  level := keyfile.logLevel.getD logging.level
  file := keyfile.logFile.getD logging.file
  syslog := keyfile.logSyslog.getD logging.syslog
  enabled := keyfile.loggingEnabled.getD logging.enabled

theorem after_concat (versions : List KeyFile) (keyfile : KeyFile) :
    after (versions ++ [keyfile]) = (after versions).next keyfile := by
  simp only [after, next, List.map_append, List.map_singleton, settled_concat]

end Logging

/-- What holds of each logging setting, with how it is given and what its default is. -/
def EachSetting (holds : ∀ {A : Type}, (KeyFile → Option A) → A → Prop) : Prop :=
  holds KeyFile.logLevel .notice ∧ holds KeyFile.logFile Config.logFile ∧
    holds KeyFile.logSyslog false ∧ holds KeyFile.loggingEnabled true

theorem Logging.after_forgets {versions : List KeyFile} {keyfile : KeyFile} :
    Logging.after (versions ++ [keyfile]) = Logging.after [keyfile] ↔
      EachSetting fun given default =>
        (given keyfile).isSome ∨ ∀ value ∈ latest (versions.map given), value = default := by
  simp only [Logging.after, Logging.mk.injEq, List.map_append, List.map_singleton, settled_forgets, EachSetting]

theorem Logging.after_nil_eq {keyfile : KeyFile} :
    Logging.after [] = Logging.after [keyfile] ↔
      EachSetting fun given default => ∀ value ∈ given keyfile, value = default := by
  have one : ∀ {A : Type} (given : Option A) (default : A),
      settled default [] = settled default [given] ↔ ∀ value ∈ given, value = default := by
    intro A given default
    rw [eq_comm, show settled default [] = default from rfl, settled_eq_default]
    cases given <;> simp [latest]
  simp only [Logging.after, Logging.mk.injEq, List.map_nil, List.map_singleton, one, EachSetting]

/-! ## The functions -/

namespace InotispyConfig

def Logs (config : InotispyConfig) (logging : Logging) : Prop :=
  config.logLevel = logging.level ∧ config.logFile = some logging.file ∧
    config.logSyslog = logging.syslog ∧ config.loggingEnabled = logging.enabled

def SameLogging (one other : InotispyConfig) : Prop :=
  one.logLevel = other.logLevel ∧ one.logFile = other.logFile ∧
    one.logSyslog = other.logSyslog ∧ one.loggingEnabled = other.loggingEnabled

theorem Logs.sameLogging_iff {one other : InotispyConfig} {logging logging' : Logging} (logs : one.Logs logging)
    (logs' : other.Logs logging') : one.SameLogging other ↔ logging = logging' := by
  obtain ⟨level, file, syslog, enabled⟩ := logs
  obtain ⟨level', file', syslog', enabled'⟩ := logs'
  cases logging
  cases logging'
  simp only [SameLogging, level, level', file, file', syslog, syslog', enabled, enabled', Option.some.injEq,
    Logging.mk.injEq]

end InotispyConfig

namespace Config

variable {σ : Type} [System σ]

def Loaded (mtime : Int) (logging : Logging) (p : Process σ) : Prop :=
  p.config.path.isSome ∧ p.config.mtime = mtime ∧ p.config.Logs logging

def Unloaded (p : Process σ) : Prop := p.config.path = none ∧ p.config.Logs (Logging.after [])

variable {mtime : Int} {logging : Logging} {keyfile : KeyFile}

omit [System σ] in
theorem modify_keeps {holds : Process σ → Prop} {change : InotispyConfig → InotispyConfig}
    (same : ∀ p, holds p → holds { p with config := change p.config }) :
    Returns holds (modify change) fun _ => holds := .update' same

omit [System σ] in
theorem setLogSyslog_returns : Returns (Loaded (σ := σ) mtime logging) (setLogSyslog keyfile)
    fun _ => Loaded mtime { logging with syslog := keyfile.logSyslog.getD logging.syslog } := by
  unfold setLogSyslog KeyFile.logSyslog
  cases keyfile.boolean (str "log_syslog") with
  | none => exact .pure' fun _ => id
  | some value => exact .update' fun p ⟨path, time, level, file, _, enabled⟩ => ⟨path, time, level, file, rfl, enabled⟩

omit [System σ] in
theorem setLogLevel_returns : Returns (Loaded (σ := σ) mtime logging) (setLogLevel keyfile)
    fun _ => Loaded mtime { logging with level := keyfile.logLevel.getD logging.level } := by
  unfold setLogLevel KeyFile.logLevel
  cases keyfile.string (str "log_level") with
  | none => exact .pure' fun _ => id
  | some value =>
    dsimp only [Option.bind_some]
    cases levelOf value with
    | none => exact .pure' fun _ => id
    | some level => exact .update' fun p ⟨path, time, _, file, syslog, enabled⟩ => ⟨path, time, rfl, file, syslog, enabled⟩

variable (succeed : AllocationsSucceed σ)
include succeed

theorem mkString_returns {pre : Process σ → Prop} (ignores : ∀ p sys, pre p → pre { p with sys := sys }) (text : Str) :
    Returns pre (mkString text) fun made p => made = some text ∧ pre p :=
  fun p start => ⟨_, _, rfl, if_pos (succeed p.sys), ignores p _ start⟩

theorem setLogFile_returns : Returns (Loaded (σ := σ) mtime logging) (setLogFile keyfile)
    fun _ => Loaded mtime { logging with
      file := keyfile.logFile.getD logging.file
      enabled := keyfile.loggingEnabled.getD logging.enabled } := by
  unfold setLogFile KeyFile.logFile KeyFile.loggingEnabled
  cases keyfile.string (str "log_file") with
  | none => exact .pure' fun _ => id
  | some value =>
    by_cases off : value = str "false"
    · simp only [off, if_true]
      exact .update' fun p ⟨path, time, level, file, syslog, _⟩ => ⟨path, time, level, file, syslog, rfl⟩
    · have named : (some value).filter (· ≠ str "false") = some value := by simp [off]
      have turnOn : Returns (Loaded (σ := σ) mtime logging) (modify ({ · with loggingEnabled := true }))
          fun _ => Loaded mtime { logging with enabled := true } :=
        .update' fun p ⟨path, time, level, file, syslog, _⟩ => ⟨path, time, level, file, syslog, rfl⟩
      simp only [off, named, Option.map_some, Option.getD_some, ne_eq, not_false_eq_true, decide_true, if_false]
      refine .bind turnOn fun _ => .bind (mkString_returns succeed (fun _ _ => id) value) fun made => .given ?_
      rintro rfl
      exact .update' fun p ⟨path, time, level, _, syslog, enabled⟩ => ⟨path, time, level, rfl, syslog, enabled⟩

omit [System σ] succeed in
theorem initLogger_returns {disk : Disk} : Returns (Loaded (σ := σ) mtime logging) (initLogger disk) fun _ => Loaded mtime logging :=
  .bind (.read' fun _ => id) fun _ => .bind (.update' fun _ => id) fun _ => .pure' fun _ => id

theorem reloadConfig_loaded {disk : Disk} (loads : disk.keyfile = some keyfile) :
    Returns (Loaded (σ := σ) mtime logging) (reloadConfig disk) fun code p => code = 0 ∧ Loaded disk.mtime (logging.next keyfile) p := by
  have named : Returns (Loaded (σ := σ) mtime logging) (Program.read (·.config.path) : Setup σ (Option Str))
      fun path p => path.isSome ∧ Loaded mtime logging p := .read' fun p start => ⟨start.1, start⟩
  unfold reloadConfig
  rw [loads]
  refine .bind named fun path => .given fun found => ?_
  obtain ⟨path, rfl⟩ := Option.isSome_iff_exists.mp found
  have touch : Returns (Loaded (σ := σ) mtime logging) (modify ({ · with mtime := disk.mtime }))
      fun _ => Loaded disk.mtime logging := .update' fun p ⟨path, _, logs⟩ => ⟨path, rfl, logs⟩
  refine .bind touch fun _ => ?_
  refine .bind (setLogFile_returns succeed) fun _ => .bind setLogLevel_returns fun _ => ?_
  refine .bind setLogSyslog_returns fun _ => .bind initLogger_returns fun _ => ?_
  exact .pure' fun p start => ⟨rfl, start⟩

omit succeed in
theorem reloadConfig_unloaded (disk : Disk) :
    Returns (Unloaded (σ := σ)) (reloadConfig disk) fun code p => code = 1 ∧ Unloaded p := by
  have unnamed : Returns (Unloaded (σ := σ)) (Program.read (·.config.path) : Setup σ (Option Str))
      fun path p => path = none ∧ Unloaded p := .read' fun p start => ⟨start.1, start⟩
  unfold reloadConfig
  refine .bind unnamed fun path => .given ?_
  rintro rfl
  refine .bind (modify_keeps fun _ => id) fun _ => ?_
  exact .pure' fun p start => ⟨rfl, start⟩

/-! ## The start -/

def Started (p : Process σ) : Prop :=
  p.config.logLevel = .notice ∧ p.config.logSyslog = false ∧ p.config.loggingEnabled = true

def Defaults (p : Process σ) : Prop := p.config.Logs (Logging.after [])

theorem assignDefaults_returns : Returns (fun _ : Process σ => True) assignDefaults fun _ => Defaults := by
  have first : Returns (fun _ : Process σ => True) (modify fun config =>
      { config with
        zmqUri := some zmqUri
        logLevel := .notice
        logSyslog := false
        maxInotifyEvents := 65536
        memcleanFreq := 600
        silent := false
        loggingEnabled := true }) fun _ => Started := .update' fun p _ => ⟨rfl, rfl, rfl⟩
  refine .bind first fun _ => .bind (mkString_returns succeed (fun _ _ => id) logFile) fun file => .given ?_
  rintro rfl
  exact .update' fun p ⟨level, syslog, enabled⟩ => ⟨level, rfl, syslog, enabled⟩

theorem setZmqUri_returns : Returns (Loaded (σ := σ) mtime logging) (setZmqUri keyfile) fun _ => Loaded mtime logging := by
  unfold setZmqUri
  cases keyfile.string (str "zmq_uri") with
  | none => exact .pure' fun _ => id
  | some value => exact .bind (mkString_returns succeed (fun _ _ => id) value) fun _ => .given fun _ => modify_keeps fun _ => id

omit [System σ] succeed in
theorem setMaxInotifyEvents_returns :
    Returns (Loaded (σ := σ) mtime logging) (setMaxInotifyEvents keyfile) fun _ => Loaded mtime logging := by
  unfold setMaxInotifyEvents
  cases keyfile.integer (str "max_inotify_events") with
  | none => exact .pure' fun _ => id
  | some value => exact modify_keeps fun _ => id

omit [System σ] succeed in
theorem setMemcleanFreq_returns :
    Returns (Loaded (σ := σ) mtime logging) (setMemcleanFreq keyfile) fun _ => Loaded mtime logging := by
  unfold setMemcleanFreq
  cases keyfile.integer (str "memclean_freq") with
  | none => exact .pure' fun _ => id
  | some value => exact .ite' (fun _ => modify_keeps fun _ => id) fun _ => .pure' fun _ => id

omit [System σ] succeed in
theorem setSilent_returns (silent : Bool) :
    Returns (Loaded (σ := σ) mtime logging) (setSilent silent keyfile) fun _ => Loaded mtime logging := by
  unfold setSilent
  refine .ite' (fun _ => modify_keeps fun _ => id) fun _ => ?_
  cases keyfile.boolean (str "silent") with
  | none => exact .pure' fun _ => id
  | some value => exact modify_keeps fun _ => id

variable (sysconfdir : Str) (silent : Bool) (configFile : Option Str) {disk : Disk}

theorem initConfig_unloaded (fails : disk.keyfile = none) : Returns (fun _ : Process σ => True)
    (initConfig sysconfdir silent configFile disk) fun code p => code = 1 ∧ Unloaded p := by
  have forget : Returns (Defaults (σ := σ)) (modify ({ · with path := none })) fun _ => Unloaded :=
    .update' fun p logs => ⟨rfl, logs⟩
  unfold initConfig
  refine .bind (assignDefaults_returns succeed) fun _ =>
    .bind (mkString_returns succeed (fun _ _ => id) _) fun confFile => .given ?_
  rintro rfl
  rw [fails]
  exact .bind forget fun _ => .pure' fun p start => ⟨rfl, start⟩

theorem initConfig_loaded (loads : disk.keyfile = some keyfile) : Returns (fun _ : Process σ => True)
    (initConfig sysconfdir silent configFile disk) fun code p => code = 0 ∧ Loaded disk.mtime (Logging.after [keyfile]) p := by
  have remember : Returns (Defaults (σ := σ))
      (modify ({ · with path := some (configFile.getD (sysconfdir ++ str "/inotispy.conf")), mtime := disk.mtime }))
      fun _ => Loaded disk.mtime (Logging.after []) := .update' fun p logs => ⟨rfl, rfl, logs⟩
  unfold initConfig
  refine .bind (assignDefaults_returns succeed) fun _ =>
    .bind (mkString_returns succeed (fun _ _ => id) _) fun confFile => .given ?_
  rintro rfl
  rw [loads]
  refine .bind remember fun _ => .bind (setZmqUri_returns succeed) fun _ => ?_
  refine .bind (setLogFile_returns succeed) fun _ => .bind setLogLevel_returns fun _ => ?_
  refine .bind setLogSyslog_returns fun _ => .bind setMaxInotifyEvents_returns fun _ => ?_
  refine .bind setMemcleanFreq_returns fun _ => .bind (setSilent_returns silent) fun _ => ?_
  rw [← List.nil_append [keyfile], Logging.after_concat]
  exact .pure' fun p start => ⟨rfl, start⟩

/-! ## Runs -/

def versions (disks : List Disk) : List KeyFile := disks.filterMap (·.keyfile)

/-- The start on one version of the file, and `reload_config` on later ones. -/
def initAndReload (initial : Disk) (later : List Disk) : Setup σ Unit := do
  let _ ← initConfig sysconfdir silent configFile initial
  Program.forEach (fun disk => do let _ ← reloadConfig disk) later

omit succeed in
theorem reloads_unloaded (later : List Disk) : Returns (Unloaded (σ := σ))
    (Program.forEach (fun disk => do let _ ← reloadConfig disk) later) fun _ => Unloaded :=
  .forEach fun disk _ => .bind (reloadConfig_unloaded disk) fun _ => .pure' fun _ final => final.2

theorem reloads_loaded {later : List Disk} (load : ∀ disk ∈ later, disk.keyfile.isSome) (earlier : List KeyFile) :
    Returns (fun p : Process σ => ∃ mtime, Loaded mtime (Logging.after earlier) p)
      (Program.forEach (fun disk => do let _ ← reloadConfig disk) later)
      fun _ p => ∃ mtime, Loaded mtime (Logging.after (earlier ++ versions later)) p := by
  induction later generalizing earlier with
  | nil =>
    rw [versions, List.filterMap_nil, List.append_nil]
    exact .pure' fun _ => id
  | cons disk later ih =>
    obtain ⟨keyfile, loads⟩ := Option.isSome_iff_exists.mp (load disk List.mem_cons_self)
    have one : Returns (fun p : Process σ => ∃ mtime, Loaded mtime (Logging.after earlier) p)
        (do let _ ← reloadConfig disk) fun _ p => ∃ mtime, Loaded mtime (Logging.after (earlier ++ [keyfile])) p := by
      rintro p ⟨mtime, start⟩
      obtain ⟨code, q, ran, _, final⟩ := reloadConfig_loaded succeed loads p start
      rw [← Logging.after_concat] at final
      exact ⟨(), q, Program.bind_ok _ _ _ _ _ ran, _, final⟩
    have split : earlier ++ versions (disk :: later) = earlier ++ [keyfile] ++ versions later := by
      rw [versions, List.filterMap_cons_some loads, List.append_assoc]
      rfl
    rw [split]
    exact .bind one fun _ => ih (fun disk member => load disk (List.mem_cons_of_mem _ member)) _

/-! ## The handler -/

omit [System σ] succeed in
theorem configHasAnUpdate_newer {disk : Disk} (newer : mtime < disk.mtime) (known : mtime ≠ 0) :
    Returns (Loaded (σ := σ) mtime logging) (configHasAnUpdate disk)
      fun update p => update = true ∧ Loaded mtime logging p := by
  rintro p ⟨path, rfl, logs⟩
  obtain ⟨name, named⟩ := Option.isSome_iff_exists.mp path
  refine ⟨_, p, rfl, ?_, path, rfl, logs⟩
  simp [named, getMtime, known, newer]

theorem handleUpdates_newer {disk : Disk} (newer : mtime < disk.mtime) (known : mtime ≠ 0)
    (loads : disk.keyfile = some keyfile) :
    Returns (Loaded (σ := σ) mtime logging) (handleUpdates disk) fun _ => Loaded disk.mtime (logging.next keyfile) := by
  unfold handleUpdates
  refine .bind (configHasAnUpdate_newer newer known) fun _ => .given ?_
  rintro rfl
  refine .bind (reloadConfig_loaded succeed loads) fun _ => .given ?_
  rintro rfl
  exact .update' fun _ => id

theorem handleUpdates_run {disks : List Disk} (load : ∀ disk ∈ disks, disk.keyfile.isSome)
    (newer : (mtime :: disks.map (·.mtime)).Pairwise (· < ·)) (known : 0 < mtime) (earlier : List KeyFile) :
    Returns (Loaded (σ := σ) mtime (Logging.after earlier)) (Program.forEach handleUpdates disks)
      fun _ p => ∃ mtime, Loaded mtime (Logging.after (earlier ++ versions disks)) p := by
  induction disks generalizing mtime earlier with
  | nil =>
    rw [versions, List.filterMap_nil, List.append_nil]
    exact .pure' fun _ final => ⟨_, final⟩
  | cons disk disks ih =>
    obtain ⟨keyfile, loads⟩ := Option.isSome_iff_exists.mp (load disk List.mem_cons_self)
    obtain ⟨first, rest⟩ := List.pairwise_cons.mp newer
    have next : mtime < disk.mtime := first _ List.mem_cons_self
    have still : 0 < disk.mtime := by omega
    have one : Returns (Loaded (σ := σ) mtime (Logging.after earlier)) (handleUpdates disk) fun _ =>
        Loaded disk.mtime ((Logging.after earlier).next keyfile) :=
      handleUpdates_newer succeed next (by omega) loads
    have split : earlier ++ versions (disk :: disks) = earlier ++ [keyfile] ++ versions disks := by
      rw [versions, List.filterMap_cons_some loads, List.append_assoc]
      rfl
    rw [← Logging.after_concat] at one
    rw [split]
    exact .bind one fun _ => ih (fun disk member => load disk (List.mem_cons_of_mem _ member)) rest still _

/-! ## Forgetting -/

/-- After the last version the logging is that of a fresh start on it. -/
def ForgetsPast (initial : Disk) (later : List Disk) (last : Disk) (p q : Process σ) : Prop :=
  ∃ r s code, initAndReload sysconfdir silent configFile initial (later ++ [last]) p = .ok ((), r) ∧
    initConfig sysconfdir silent configFile last q = .ok (code, s) ∧ r.config.SameLogging s.config

/-- The last version gives each setting, or else what was last given before it is the default. If
nothing was loaded at the start, it gives nothing but defaults. -/
def SettlesLogging (initial : Disk) (later : List Disk) (keyfile : KeyFile) : Prop :=
  match initial.keyfile with
  | some first => EachSetting fun given default =>
    (given keyfile).isSome ∨ ∀ value ∈ latest ((first :: versions later).map given), value = default
  | none => EachSetting fun given default => ∀ value ∈ given keyfile, value = default

variable {initial last : Disk} {later : List Disk} (load : ∀ disk ∈ later, disk.keyfile.isSome)
  (given : last.keyfile = some keyfile) (p q : Process σ)
include load given

theorem initAndReload_logs : ∃ r, initAndReload sysconfdir silent configFile initial (later ++ [last]) p = .ok ((), r) ∧
    r.config.Logs (Logging.after (initial.keyfile.elim [] fun first => first :: versions later ++ [keyfile])) := by
  cases loads : initial.keyfile with
  | none =>
    obtain ⟨code, r, started, _, unloaded⟩ :=
      initConfig_unloaded succeed sysconfdir silent configFile loads p trivial
    obtain ⟨_, s, ran, final⟩ := reloads_unloaded (later ++ [last]) r unloaded
    exact ⟨s, (Program.bind_ok _ _ _ _ _ started).trans ran, final.2⟩
  | some first =>
    have every : ∀ disk ∈ later ++ [last], disk.keyfile.isSome := by
      intro disk member
      rcases List.mem_append.mp member with before | is
      · exact load disk before
      · rw [List.mem_singleton.mp is, given]
        rfl
    obtain ⟨code, r, started, _, loaded⟩ := initConfig_loaded succeed sysconfdir silent configFile loads p trivial
    obtain ⟨_, s, ran, _, _, _, final⟩ := reloads_loaded succeed every [first] r ⟨_, loaded⟩
    have all : [first] ++ versions (later ++ [last]) = first :: versions later ++ [keyfile] := by
      rw [versions, List.filterMap_append, List.filterMap_cons_some given]
      rfl
    rw [all] at final
    exact ⟨s, (Program.bind_ok _ _ _ _ _ started).trans ran, final⟩

theorem forgetsPast_iff_logging : ForgetsPast sysconfdir silent configFile initial later last p q ↔
    Logging.after (initial.keyfile.elim [] fun first => first :: versions later ++ [keyfile]) =
      Logging.after [keyfile] := by
  obtain ⟨r, ran, logs⟩ : ∃ r, initAndReload sysconfdir silent configFile initial (later ++ [last]) p = .ok ((), r) ∧ _ :=
    initAndReload_logs succeed sysconfdir silent configFile load given p
  obtain ⟨code, s, fresh, _, _, _, logs'⟩ := initConfig_loaded succeed sysconfdir silent configFile given q trivial
  rw [← logs.sameLogging_iff logs']
  constructor
  · rintro ⟨r', s', _, ran', fresh', same⟩
    obtain ⟨_, rfl⟩ := Program.ok_unique ran ran'
    obtain ⟨_, rfl⟩ := Program.ok_unique fresh fresh'
    exact same
  · exact fun same => ⟨r, s, code, ran, fresh, same⟩

/-- Reloading forgets the earlier versions of the file exactly when the last one settles logging. -/
theorem reload_forgets_iff :
    ForgetsPast sysconfdir silent configFile initial later last p q ↔ SettlesLogging initial later keyfile := by
  rw [forgetsPast_iff_logging succeed sysconfdir silent configFile load given, SettlesLogging]
  cases initial.keyfile with
  | none => exact Logging.after_nil_eq
  | some first => exact Logging.after_forgets

/-! ## Two versions -/

end Config

def Disk.holding (mtime : Int) (values : List (String × String)) : Disk where
  mtime := mtime
  keyfile := some
    { string := fun key => (values.find? (str ·.1 = key)).map (str ·.2)
      boolean := fun _ => none
      integer := fun _ => none }
  opens := fun _ => true

def Process.blank : Process (Script true) where
  config := ⟨none, 0, none, .error, none, true, false, 0, 0, true⟩
  log := ⟨.error, none⟩
  sys := ⟨[]⟩

namespace Config

theorem complete_version_forgets : ForgetsPast (str "/etc") false none
    (Disk.holding 1 [("log_level", "debug"), ("log_file", "/tmp/a")]) [Disk.holding 2 [("log_file", "false")]]
    (Disk.holding 3 [("log_level", "warn"), ("log_file", "/tmp/b")]) Process.blank Process.blank :=
  (reload_forgets_iff (fun _ => rfl) _ _ _ (by simp [Disk.holding]) rfl _ _).mpr ⟨.inl rfl, .inl rfl, .inr nofun, .inl rfl⟩

/-- A level that is no longer given stays, and so does the name of a log that is turned off. -/
theorem dropped_level_stays :
    ¬ForgetsPast (str "/etc") false none (Disk.holding 1 [("log_level", "debug")]) [] (Disk.holding 2 [])
        Process.blank Process.blank ∧
      ¬ForgetsPast (str "/etc") false none (Disk.holding 1 [("log_file", "/tmp/a")]) []
        (Disk.holding 2 [("log_file", "false")]) Process.blank Process.blank := by
  constructor
  · rw [forgetsPast_iff_logging (fun _ => rfl) _ _ _ (by simp) rfl]
    decide
  · rw [forgetsPast_iff_logging (fun _ => rfl) _ _ _ (by simp) rfl]
    decide

end Config
end Inotispy
