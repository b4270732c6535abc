import Fion.Cpp.Strings
import Fion.Machine.Reach
import Fion.Data.LastWins

/-!
# The logger

`Logger` passes messages on to `syslog`, which has a mask of its own for the priorities it
accepts.  `set_level` and `init` set the mask, and `log` compares the level before it calls
`syslog` at all.

The two filters never disagree, from the first call on and whether the logger is initialised
or not, so that the comparison saves calls and nothing else.  What is sent is what was logged at
the level that was set last or a more severe one (`logger_run`).

The identity that `openlog` keeps a pointer to is left out.
-/

namespace Fion.Logging

open Cpp (Bytes)

/-! ## syslog -/

def LOG_EMERG : UInt32 := 0

def LOG_ALERT : UInt32 := 1

def LOG_CRIT : UInt32 := 2

def LOG_ERR : UInt32 := 3

def LOG_WARNING : UInt32 := 4

def LOG_NOTICE : UInt32 := 5

def LOG_INFO : UInt32 := 6

def LOG_DEBUG : UInt32 := 7

def LOG_PID : UInt32 := 0x01

def LOG_PERROR : UInt32 := 0x20

def LOG_USER : UInt32 := 0x08

/-- The mask of one priority. -/
def LOG_MASK (priority : UInt32) : UInt32 := 1 <<< priority

/-- The mask of a priority and the more severe ones. -/
def LOG_UPTO (priority : UInt32) : UInt32 := (1 <<< (priority + 1)) - 1

/-- A message that went out. -/
structure Sent where
  options : UInt32
  facility : UInt32
  priority : UInt32
  text : Bytes
deriving DecidableEq

/-- The log of a process.  Before `setlogmask` is called, every priority is accepted. -/
structure Syslog where
  options : UInt32 := 0
  facility : UInt32 := LOG_USER
  mask : UInt32 := 0xff
  sent : List Sent := []

namespace Syslog

/-- `openlog`.  What a system makes of a number that is no facility is left out: here it is
stored like the others, and no result depends on it. -/
def openlog (s : Syslog) (options facility : UInt32) : Syslog :=
  { s with options := options, facility := facility }

def setlogmask (s : Syslog) (mask : UInt32) : Syslog := { s with mask := mask }

/-- `closelog` closes the descriptor, which the next message opens again. -/
def closelog (s : Syslog) : Syslog := s

/-- `syslog` with the format `"%s"` and a string that ends at its first zero byte. -/
def syslog (s : Syslog) (priority : UInt32) (message : Bytes) : Syslog :=
  if s.mask &&& LOG_MASK priority = 0 then s
  else
    { s with
      sent := s.sent ++ [{ options := s.options, facility := s.facility, priority := priority,
                           text := message.takeWhile (· ≠ 0) }] }

end Syslog

/-! ## Levels -/

inductive LogLevel where
  | emergency
  | alert
  | critical
  | error
  | warning
  | notice
  | info
  | debug
deriving DecidableEq

namespace LogLevel

/-- `static_cast<int>` -/
def toInt : LogLevel → Int
  | .emergency => 0
  | .alert => 1
  | .critical => 2
  | .error => 3
  | .warning => 4
  | .notice => 5
  | .info => 6
  | .debug => 7

/-- `to_priority` -/
def toPriority : LogLevel → UInt32
  | .emergency => LOG_EMERG
  | .alert => LOG_ALERT
  | .critical => LOG_CRIT
  | .error => LOG_ERR
  | .warning => LOG_WARNING
  | .notice => LOG_NOTICE
  | .info => LOG_INFO
  | .debug => LOG_DEBUG

/-- `to_mask` -/
def toMask : LogLevel → UInt32
  | .emergency => LOG_MASK LOG_EMERG
  | .alert => LOG_MASK LOG_EMERG ||| LOG_MASK LOG_ALERT
  | .critical => LOG_UPTO LOG_CRIT
  | .error => LOG_UPTO LOG_ERR
  | .warning => LOG_UPTO LOG_WARNING
  | .notice => LOG_UPTO LOG_NOTICE
  | .info => LOG_UPTO LOG_INFO
  | .debug => LOG_UPTO LOG_DEBUG

/-- The mask of a level rejects what is less severe. -/
theorem toMask_rejects_iff (level level' : LogLevel) :
    level.toMask &&& LOG_MASK level'.toPriority = 0 ↔ level.toInt < level'.toInt := by
  cases level <;> cases level' <;> decide

end LogLevel

/-! ## The class -/

/-- The state of `Logger` and of the log behind it. -/
structure Logger where
  currentLevel : LogLevel := .debug
  initialized : Bool := false
  sink : Syslog := {}

/-- A call of a member function. -/
inductive LoggerCall where
  | init (facility : UInt32) (logToStderr : Bool)
  | shutdown
  | setLevel (level : LogLevel)
  | log (level : LogLevel) (message : Bytes)

namespace Logger

/-- `init` -/
def init (l : Logger) (facility : UInt32) (logToStderr : Bool) : Logger :=
  if l.initialized then l
  else
    { l with
      initialized := true
      sink := (l.sink.openlog (if logToStderr then LOG_PID ||| LOG_PERROR else LOG_PID)
        facility).setlogmask l.currentLevel.toMask }

/-- `shutdown` -/
def shutdown (l : Logger) : Logger :=
  if !l.initialized then l else { l with initialized := false, sink := l.sink.closelog }

/-- `set_level` -/
def setLevel (l : Logger) (level : LogLevel) : Logger :=
  { l with currentLevel := level, sink := l.sink.setlogmask level.toMask }

/-- `log` without the comparison. -/
def pass (l : Logger) (level : LogLevel) (message : Bytes) : Logger :=
  { l with sink := l.sink.syslog level.toPriority message }

/-- `log` -/
def log (l : Logger) (level : LogLevel) (message : Bytes) : Logger :=
  if level.toInt > l.currentLevel.toInt then l else l.pass level message

/-- One call. -/
def next (l : Logger) : LoggerCall → Logger
  | .init facility logToStderr => l.init facility logToStderr
  | .shutdown => l.shutdown
  | .setLevel level => l.setLevel level
  | .log level message => l.log level message

/-- One call, without the comparison. -/
def nextPlain (l : Logger) : LoggerCall → Logger
  | .log level message => l.pass level message
  | call => l.next call

/-! ## The two filters -/

/-- The log accepts what the logger would pass on. -/
def Masked (l : Logger) : Prop := l.sink.mask = l.currentLevel.toMask

theorem masked_empty : ({} : Logger).Masked := by
  show (0xff : UInt32) = LogLevel.debug.toMask
  decide

theorem mask_pass (l : Logger) (level : LogLevel) (message : Bytes) :
    (l.pass level message).sink.mask = l.sink.mask := by
  simp only [pass, Syslog.syslog]
  split <;> rfl

/-- Every call keeps it so. -/
theorem Masked.next {l : Logger} (h : l.Masked) (call : LoggerCall) : (l.next call).Masked := by
  cases call with
  | init facility logToStderr =>
      simp only [Logger.next, init]
      split
      · exact h
      · rfl
  | shutdown =>
      simp only [Logger.next, shutdown]
      split
      · exact h
      · exact h
  | setLevel level => rfl
  | log level message =>
      simp only [Logger.next, log]
      split
      · exact h
      · exact (mask_pass l level message).trans h

/-- The log rejects exactly what the comparison drops. -/
theorem Masked.log_eq_pass {l : Logger} (h : l.Masked) (level : LogLevel) (message : Bytes) :
    l.log level message = l.pass level message := by
  by_cases hlevel : level.toInt > l.currentLevel.toInt
  · have hrejects : l.sink.mask &&& LOG_MASK level.toPriority = 0 := by
      rw [h]
      exact (LogLevel.toMask_rejects_iff _ _).mpr hlevel
    rw [log, if_pos hlevel, pass, Syslog.syslog, if_pos hrejects]
  · rw [log, if_neg hlevel]

/-! ## Runs -/

/-- What is done with and without the comparison is the same. -/
theorem Masked.foldl_next {l : Logger} (h : l.Masked) (calls : List LoggerCall) :
    calls.foldl Logger.next l = calls.foldl Logger.nextPlain l ∧
      (calls.foldl Logger.next l).Masked := by
  induction calls generalizing l with
  | nil => exact ⟨rfl, h⟩
  | cons call calls ih =>
      have hsame : l.next call = l.nextPlain call := by
        cases call with
        | log level message => exact h.log_eq_pass level message
        | init | shutdown | setLevel => rfl
      rw [List.foldl_cons, List.foldl_cons, ← hsame]
      exact ih (h.next call)

/-- The level that a call sets. -/
def setsLevel : LoggerCall → Option LogLevel
  | .setLevel level => some level
  | .init .. | .shutdown | .log .. => none

/-- The level that was set last, and the most verbose one before that. -/
def lastLevel (calls : List LoggerCall) : LogLevel :=
  (calls.filterMap setsLevel).getLast?.getD .debug

theorem currentLevel_next (l : Logger) (call : LoggerCall) :
    (l.next call).currentLevel = (setsLevel call).getD l.currentLevel := by
  cases call with
  | init facility logToStderr =>
      simp only [next, init]
      split <;> rfl
  | shutdown =>
      simp only [next, shutdown]
      split <;> rfl
  | setLevel level => rfl
  | log level message =>
      simp only [next, log]
      split <;> rfl

/-- Behind any calls: the state is the one there would be if `log` left it to the mask what is
dropped, and a message is sent exactly when its level is the one set last or a more severe
one, up to its first zero byte and with the priority of its level. -/
theorem logger_run (calls : List LoggerCall) (level : LogLevel) (message : Bytes) :
    let l := calls.foldl next {}
    l = calls.foldl nextPlain {} ∧
      (l.log level message).sink.sent = l.sink.sent ++
        if level.toInt ≤ (lastLevel calls).toInt then
          [{ options := l.sink.options, facility := l.sink.facility, priority := level.toPriority,
             text := message.takeWhile (· ≠ 0) }]
        else [] := by
  intro l
  obtain ⟨hsame, hmasked⟩ := masked_empty.foldl_next calls
  have hlevel : l.currentLevel = lastLevel calls :=
    LastWins.lookup_foldl currentLevel setsLevel currentLevel_next {} calls
  refine ⟨hsame, ?_⟩
  rw [log, hlevel]
  by_cases hless : level.toInt ≤ (lastLevel calls).toInt
  · have haccepts : ¬ l.sink.mask &&& LOG_MASK level.toPriority = 0 := by
      rw [hmasked, hlevel, LogLevel.toMask_rejects_iff]
      exact Int.not_lt.mpr hless
    rw [if_neg (Int.not_lt.mpr hless), if_pos hless, pass, Syslog.syslog, if_neg haccepts]
  · rw [if_pos (Int.not_le.mp hless), if_neg hless, List.append_nil]

end Logger

end Fion.Logging
