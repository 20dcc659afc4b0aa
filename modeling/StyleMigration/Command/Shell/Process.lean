import StyleMigration.Command.Shell.Reader
import StyleMigration.Command.Utility.Basic

/-!
A shell at work: its variables, arguments and functions, the files around it, and where its
descriptors lead. Input is a row of texts of which each can be read up, and output is a row of texts
that grow.
-/

set_option autoImplicit false

namespace StyleMigration.Command.Shell

open Text Utility

structure Variable where
  value : Octets
  isExported : Bool
  isFixed : Bool

/-- What a descriptor leads to. -/
inductive Channel where
  | input (index : Nat)
  | output (index : Nat)
  | messages
  /-- A file that is written at its end. -/
  | file (key : Key)
  | nothing
  deriving DecidableEq

structure Process where
  tree : FileTree
  directory : String
  bindings : List (String × Variable)
  name : Octets
  arguments : List Octets
  functions : List (String × Script)
  status : Nat
  /-- The letters of the options that are set. -/
  options : List Char
  channels : List (Nat × Channel)
  inputs : List Octets
  outputs : List Octets
  /-- What is run when a signal comes, or at the exit, by the name of the signal. -/
  traps : List (String × Octets)
  /-- Whether a failure is expected, so that it does not end the script. -/
  isTested : Bool
  /-- How many loops are open. -/
  loops : Nat
  /-- How many functions are running. -/
  calls : Nat
  /-- The variables that the innermost function hides, with what they were before. -/
  hidden : List (String × Option Variable)
  /-- The status of the last command that was run for its output. -/
  substituted? : Option Nat
  /-- The status of the last command that nobody waited for. -/
  background? : Option Nat
  /-- The signal that ended the last program, if one did. -/
  signal? : Option Nat
  /-- The number of the shell. -/
  number : Nat
  /-- Whether `echo` reads escapes. -/
  readsEscapes : Bool

/-- Why a script does not go on with its next command. -/
inductive Stop where
  | exits (status : Nat)
  /-- A signal ends the shell that the script belongs to. -/
  | killed (signal : Nat)
  /-- A signal ends the program that has taken the place of the shell at hand. -/
  | dies (signal : Nat)
  | returns
  | breaks (levels : Nat)
  | continues (levels : Nat)
  deriving DecidableEq, Repr

/-- What a shell does, which can stop it. -/
abbrev Act := EStateM Stop Process

namespace Process

def valueIn? (process : Process) (name : String) : Option Octets :=
  (process.bindings.lookup name).map (·.value)

/-- Where the variables are split. -/
def separators (process : Process) : Octets :=
  (process.valueIn? "IFS").getD [' ', '\t', '\n']

def has (process : Process) (option : Char) : Bool :=
  process.options.contains option

/-- The value of a parameter that is no list. -/
def parameter? (process : Process) (name : Octets) : Option Octets :=
  match name with
  | ['#'] => some (Octets.ofNat process.arguments.length)
  | ['?'] => some (Octets.ofNat process.status)
  | ['$'] => some (Octets.ofNat process.number)
  | ['-'] => some process.options
  | ['!'] => process.background?.map fun _ => Octets.ofNat (process.number + 1)
  | ['0'] => some process.name
  | name =>
    match Octets.toNat? name with
    | some number => process.arguments[number - 1]?
    | none => process.valueIn? (String.ofList name)

def channel? (process : Process) (descriptor : Nat) : Option Channel :=
  process.channels.lookup descriptor

/-- Makes a descriptor lead somewhere. -/
def connect (process : Process) (descriptor : Nat) (channel : Channel) : Process :=
  { process with
    channels := (descriptor, channel) :: process.channels.filter (·.1 != descriptor) }

def disconnect (process : Process) (descriptor : Nat) : Process :=
  { process with channels := process.channels.filter (·.1 != descriptor) }

/-- Adds a text to read, as the target of a descriptor. -/
def connectInput (process : Process) (descriptor : Nat) (text : Octets) : Process :=
  { process with inputs := process.inputs ++ [text] }.connect descriptor
    (.input process.inputs.length)

/-- What is left to read from a descriptor. -/
def input (process : Process) (descriptor : Nat) : Octets :=
  match process.channel? descriptor with
  | some (.input index) => process.inputs.getD index []
  | _ => []

def setInput (process : Process) (descriptor : Nat) (text : Octets) : Process :=
  match process.channel? descriptor with
  | some (.input index) => { process with inputs := process.inputs.set index text }
  | _ => process

/-- Writes to a descriptor. -/
def write (process : Process) (descriptor : Nat) (text : Octets) : Process :=
  match process.channel? descriptor with
  | some (.output index) => { process with outputs := process.outputs.modify index (· ++ text) }
  | some (.file key) =>
    match process.tree.get? key with
    | some (.file bytes) =>
      { process with tree := process.tree.set key (.file (bytes ++ text.toBytes)) }
    | _ => process
  | _ => process

/-- The work that a program would start with here. -/
def task (process : Process) : Task :=
  { tree := process.tree
    directory := process.directory
    input := process.input 0
    output := []
    messages := []
    status := 0 }

/-- Takes over what a program has done. -/
def resume (process : Process) (task : Task) : Process :=
  let process := { process with tree := task.tree, status := task.status }
  ((process.setInput 0 task.input).write 1 task.output).write 2 task.messages

/-- Gives a variable its value; one that is fixed keeps what it has. -/
def assign? (process : Process) (name : String) (value : Octets) : Option Process :=
  let old := (process.bindings.lookup name).getD ⟨[], process.has 'a', false⟩
  if old.isFixed then
    none
  else
    some { process with
      bindings := (name, { old with value }) :: process.bindings.filter (·.1 != name) }

end Process

/-- Says that something went wrong. -/
def complain (message : String) : Act Unit :=
  modify fun process =>
    process.write 2 (process.name ++ Octets.ofString (": 1: " ++ message ++ "\n"))

/-- Ends the script because of an error in it. -/
def fail {α : Type} (message : String) : Act α := do
  complain message
  throw (.exits 2)

def setStatus (status : Nat) : Act Unit :=
  modify fun process => { process with status }

/-- Gives a variable its value. -/
def assign (name : String) (value : Octets) : Act Unit := do
  match (← get).assign? name value with
  | some process => set process
  | none => fail (name ++ ": is read only")

/-- Runs something on its own: of what it does to the shell only the files, what was read and what
was printed stay, and its status. A signal to the shell still ends it. -/
def isolated (act : Act Unit) : Act Unit := do
  let saved ← get
  let after (process : Process) (status : Nat) : Process :=
    { saved with
      tree := process.tree, inputs := process.inputs, outputs := process.outputs, status }
  match act.run { saved with traps := [], loops := 0 } with
  | .ok _ process => set (after process process.status)
  | .error (.exits status) process => set (after process status)
  | .error (.dies signal) process => set (after process (128 + signal))
  | .error (.killed signal) process =>
    set (after process (128 + signal))
    throw (.killed signal)
  | .error _ process => set (after process process.status)

/-- What something prints when it runs on its own. -/
def captured (act : Act Unit) : Act Octets := do
  let saved ← get
  let index := saved.outputs.length
  set ({ saved with outputs := saved.outputs ++ [[]] }.connect 1 (.output index))
  isolated act
  let process ← get
  let output := process.outputs.getD index []
  set { process with outputs := process.outputs.take index, channels := saved.channels }
  return output

/-- Runs something where failures are expected. -/
def tested (act : Act Unit) : Act Unit := do
  let before := (← get).isTested
  modify fun process => { process with isTested := true }
  act
  modify fun process => { process with isTested := before }

/-- Ends the script after a failure, if it should end then. -/
def checkFailure : Act Unit := do
  let process ← get
  if process.status ≠ 0 ∧ process.has 'e' ∧ !process.isTested then throw (.exits process.status)

end StyleMigration.Command.Shell
