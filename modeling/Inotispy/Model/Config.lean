import Inotispy.Model.Primitives

/-! The configuration: `config.c` over GLib's key files, and `init_logger`. -/

set_option autoImplicit false

namespace Inotispy
open Library

inductive LogLevel where
  | error | warn | notice | debug | trace
  deriving DecidableEq, Repr

/-- A loaded `GKeyFile`: what its group "global" has under a key that can be read as a string, as a
boolean or as an integer. -/
structure KeyFile where
  string : Str → Option Str
  boolean : Str → Option Bool
  integer : Str → Option Int32

/-- What is on the disk at one time: when the configuration file was modified, which is 0 if `stat`
fails, what it loads as, and which files open for appending. -/
structure Disk where
  mtime : Int
  keyfile : Option KeyFile
  opens : Str → Bool

structure InotispyConfig where
  path : Option Str
  mtime : Int
  zmqUri : Option Str
  logLevel : LogLevel
  logFile : Option Str
  logSyslog : Bool
  loggingEnabled : Bool
  maxInotifyEvents : Int32
  memcleanFreq : Int32
  silent : Bool
  deriving DecidableEq, Repr

/-- The two variables of `log.c`. A log that could not be opened is null. -/
structure Logger where
  logLevel : LogLevel
  logger : Option Str
  deriving DecidableEq, Repr

/-- The part of the process that the configuration is about. Before `init_config` the memory of
`CONFIG` holds anything. -/
structure Process (σ : Type) where
  config : InotispyConfig
  log : Logger
  sys : σ

namespace Config

variable {σ : Type} [System σ]

abbrev Setup (σ : Type) := Program Fault (Process σ)

omit [System σ] in
def modify (change : InotispyConfig → InotispyConfig) : Setup σ Unit :=
  Program.update fun p => { p with config := change p.config }

def mkString (text : Str) : Setup σ (Option Str) := fun p =>
  .ok (if (System.malloc p.sys).1 then some text else none, { p with sys := (System.malloc p.sys).2 })

def zmqUri : Str := str "tcp://*:5559"

def logFile : Str := str "/var/log/inotispy.log"

def setLogSyslog (keyfile : KeyFile) : Setup σ Unit := do
  let some value := keyfile.boolean (str "log_syslog") | return
  modify ({ · with logSyslog := value })

/-- `_set_log_file`. Turning the log off leaves the name of its file. -/
def setLogFile (keyfile : KeyFile) : Setup σ Unit := do
  let some value := keyfile.string (str "log_file") | return
  if value = str "false" then modify ({ · with loggingEnabled := false })
  else
    modify ({ · with loggingEnabled := true })
    let logFile ← mkString value
    modify ({ · with logFile := logFile })

/-- The comparisons of `_set_log_level` -/
def levelOf (value : Str) : Option LogLevel :=
  if value = str "trace" then some .trace
  else if value = str "debug" then some .debug
  else if value = str "notice" then some .notice
  else if value = str "warn" then some .warn
  else if value = str "error" then some .error
  else none

def setLogLevel (keyfile : KeyFile) : Setup σ Unit := do
  let some value := keyfile.string (str "log_level") | return
  let some level := levelOf value | return
  modify ({ · with logLevel := level })

def getMtime (disk : Disk) : Option Str → Int
  | some _ => disk.mtime
  | none => 0

/-- `init_logger`, which returns whether the log opens. -/
def initLogger (disk : Disk) : Setup σ Bool := do
  let config ← Program.read (·.config)
  let logger := config.logFile.filter disk.opens
  Program.update ({ · with log := ⟨config.logLevel, logger⟩ })
  return logger.isSome

/-- The defaults in `init_config`. What it prints is left out. -/
def assignDefaults : Setup σ Unit := do
  modify fun config =>
    { config with
      zmqUri := some zmqUri
      logLevel := .notice
      logSyslog := false
      maxInotifyEvents := 65536
      memcleanFreq := 600
      silent := false
      loggingEnabled := true }
  let file ← mkString logFile
  modify ({ · with logFile := file })

/-- "zmq_uri" in `init_config` -/
def setZmqUri (keyfile : KeyFile) : Setup σ Unit := do
  let some value := keyfile.string (str "zmq_uri") | return
  let uri ← mkString value
  modify ({ · with zmqUri := uri })

/-- "max_inotify_events" in `init_config` -/
def setMaxInotifyEvents (keyfile : KeyFile) : Setup σ Unit := do
  let some value := keyfile.integer (str "max_inotify_events") | return
  modify ({ · with maxInotifyEvents := value })

/-- "memclean_freq" in `init_config` -/
def setMemcleanFreq (keyfile : KeyFile) : Setup σ Unit := do
  let some value := keyfile.integer (str "memclean_freq") | return
  if 0 ≤ value then modify ({ · with memcleanFreq := value })

/-- "silent" in `init_config`, which the command line may have set. -/
def setSilent (silent : Bool) (keyfile : KeyFile) : Setup σ Unit := do
  if silent then modify ({ · with silent := true })
  else if let some value := keyfile.boolean (str "silent") then modify ({ · with silent := value })

/-- `init_config`. The directory is the one that was configured at build time. The value is 1 if the
defaults are used. -/
def initConfig (sysconfdir : Str) (silent : Bool) (configFile : Option Str) (disk : Disk) : Setup σ Int := do
  assignDefaults
  let some confFile ← mkString (configFile.getD (sysconfdir ++ str "/inotispy.conf"))
    -- GLib refuses a null name without an error, whose text is printed all the same.
    | Program.fault .nullDeref
  let some keyfile := disk.keyfile
    | modify ({ · with path := none })
      return 1
  modify ({ · with path := some confFile, mtime := disk.mtime })
  setZmqUri keyfile
  setLogFile keyfile
  setLogLevel keyfile
  setLogSyslog keyfile
  setMaxInotifyEvents keyfile
  setMemcleanFreq keyfile
  setSilent silent keyfile
  return 0

/-- `reload_config`. A null path does not load. -/
def reloadConfig (disk : Disk) : Setup σ Int := do
  let path ← Program.read (·.config.path)
  modify ({ · with mtime := getMtime disk path })
  let (some _, some keyfile) := (path, disk.keyfile) | return 1
  setLogFile keyfile
  setLogLevel keyfile
  setLogSyslog keyfile
  let _ ← initLogger disk
  return 0

def configHasAnUpdate (disk : Disk) : Setup σ Bool := do
  let config ← Program.read (·.config)
  return config.mtime ≠ 0 && config.mtime < getMtime disk config.path

/-- What `alarm_handler` does about the configuration. -/
def handleUpdates (disk : Disk) : Setup σ Unit := do
  if ← configHasAnUpdate disk then
    if (← reloadConfig disk) = 0 then
      -- `set_log_level`, for which every level is in range
      Program.update fun p => { p with log.logLevel := p.config.logLevel }

end Config
end Inotispy
