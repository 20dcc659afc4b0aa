import StyleMigration.Command.Shell.Word

/-!
Scripts: simple commands with their words and redirections, and the ways to put commands together.
-/

set_option autoImplicit false

namespace StyleMigration.Command.Shell

open Text

/-- What a redirection does with its descriptor. -/
inductive Direction where
  | read
  | write
  | append
  /-- Reads and writes, and makes the file if it is not there. -/
  | update
  /-- Makes the descriptor another name for the one that the target tells. -/
  | duplicate
  deriving DecidableEq, Repr

/-- Where the input or the output of a command goes. -/
inductive Redirection where
  | path (descriptor : Nat) (direction : Direction) (target : Word)
  /-- Lines of the script as input. -/
  | lines (descriptor : Nat) (content : Word)
  deriving DecidableEq, Repr

inductive Script where
  | simple (assignments : List (String × Word)) (words : List Word)
      (redirections : List Redirection)
  /-- Commands of which each reads what the one before it prints. -/
  | pipeline (negated : Bool) (commands : List Script)
  | andThen (first second : Script)
  | orElse (first second : Script)
  /-- A command that nobody waits for. -/
  | background (command : Script)
  | sequence (commands : List Script)
  | subshell (body : Script)
  | branch (condition yes no : Script)
  | loop (isUntil : Bool) (condition body : Script)
  /-- Runs the body for each word, or for each argument if no words are given. -/
  | each (name : String) (words : Option (List Word)) (body : Script)
  | choose (word : Word) (branches : List (List Word × Script))
  | define (name : String) (body : Script)
  | redirected (command : Script) (redirections : List Redirection)

end StyleMigration.Command.Shell
