import StyleMigration.Command.Shell.Process

/-!
Signals: their names and numbers, and what a shell does when one comes.
-/

set_option autoImplicit false

namespace StyleMigration.Command.Shell

open Text

/-- The names of the signals in the order of their numbers, from one on. -/
def signalNames : List String :=
  ["HUP", "INT", "QUIT", "ILL", "TRAP", "ABRT", "BUS", "FPE", "KILL", "USR1", "SEGV", "USR2",
    "PIPE", "ALRM", "TERM", "STKFLT", "CHLD", "CONT", "STOP", "TSTP", "TTIN", "TTOU", "URG", "XCPU",
    "XFSZ", "VTALRM", "PROF", "WINCH", "IO", "PWR", "SYS"]

/-- The number of a signal, given by its number or its name. Zero is none. -/
def signalNumber? (word : Octets) : Option Nat :=
  match Octets.toNat? word with
  | some number => if number ≤ 64 then some number else none
  | none =>
    let name := (String.ofList word).toUpper
    if name = "EXIT" then some 0
    else if signalNames.contains name then some (signalNames.idxOf name + 1)
    else none

/-- The name by which an action for a signal is kept. -/
def signalName (number : Nat) : String :=
  if number = 0 then "EXIT" else signalNames.getD (number - 1) (toString number)

/-- The signals that do nothing unless an action is set for them. -/
def isHarmless (signal : Nat) : Bool :=
  [17, 18, 23, 28].contains signal

/-- What comes of a signal that is sent to some processes: whether one of them is this shell. -/
def isSentToSelf (process : Process) (targets : List Octets) : Bool :=
  targets.any fun target => target == Octets.ofNat process.number || target == ['0']

end StyleMigration.Command.Shell
