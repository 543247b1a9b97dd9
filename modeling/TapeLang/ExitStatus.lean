/-!
How a process ended, from the status word that waiting for it gives: the low seven bits hold the
signal that ended it, or zero if it exited by itself, and then the next byte holds its exit code.
-/
namespace TapeLang

structure ExitStatus where
  word : Nat
  deriving DecidableEq, Repr, Inhabited

namespace ExitStatus

def signal (s : ExitStatus) : Nat := s.word % 128

def code (s : ExitStatus) : Nat := s.word / 256 % 256

def coreDumped (s : ExitStatus) : Bool := s.word / 128 % 2 = 1

def isSuccess (s : ExitStatus) : Bool := s.word = 0

def signalName : Nat → String
  | 1 => " (SIGHUP)"
  | 2 => " (SIGINT)"
  | 3 => " (SIGQUIT)"
  | 4 => " (SIGILL)"
  | 5 => " (SIGTRAP)"
  | 6 => " (SIGABRT)"
  | 7 => " (SIGBUS)"
  | 8 => " (SIGFPE)"
  | 9 => " (SIGKILL)"
  | 10 => " (SIGUSR1)"
  | 11 => " (SIGSEGV)"
  | 12 => " (SIGUSR2)"
  | 13 => " (SIGPIPE)"
  | 14 => " (SIGALRM)"
  | 15 => " (SIGTERM)"
  | 16 => " (SIGSTKFLT)"
  | 17 => " (SIGCHLD)"
  | 18 => " (SIGCONT)"
  | 19 => " (SIGSTOP)"
  | 20 => " (SIGTSTP)"
  | 21 => " (SIGTTIN)"
  | 22 => " (SIGTTOU)"
  | 23 => " (SIGURG)"
  | 24 => " (SIGXCPU)"
  | 25 => " (SIGXFSZ)"
  | 26 => " (SIGVTALRM)"
  | 27 => " (SIGPROF)"
  | 28 => " (SIGWINCH)"
  | 29 => " (SIGIO)"
  | 30 => " (SIGPWR)"
  | 31 => " (SIGSYS)"
  | _ => ""

/-- The status in words. A word whose low seven bits are all set is of a process that was only
stopped, or continued. -/
def describe (s : ExitStatus) : String :=
  if s.signal = 0 then s!"exit status: {s.code}"
  else if s.signal < 127 then
    let core := if s.coreDumped then " (core dumped)" else ""
    s!"signal: {s.signal}{signalName s.signal}{core}"
  else if s.word % 256 = 127 then
    s!"stopped (not terminated) by signal: {s.code}{signalName s.code}"
  else if s.word = 65535 then "continued (WIFCONTINUED)"
  else
    let hex := String.ofList (Nat.toDigits 16 s.word)
    s!"unrecognised wait status: {s.word} 0x{hex}"

end ExitStatus

end TapeLang
