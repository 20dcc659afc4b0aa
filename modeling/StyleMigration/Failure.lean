import StyleMigration.Instances

/-!
Why a migration fails. Every failure ends the run; nothing is tried again.
-/

set_option autoImplicit false

namespace StyleMigration

/-- Why the system refused to read, write, remove or start something. -/
inductive IoCause where
  | notFound
  | permissionDenied
  | notDirectory
  | isDirectory
  | tooManyLinks
  | nameTooLong
  /-- The bytes of a file are not UTF-8. -/
  | notText
  | other (text : String)
  deriving DecidableEq, Repr

def IoCause.message : IoCause → String
  | notFound => "No such file or directory (os error 2)"
  | permissionDenied => "Permission denied (os error 13)"
  | notDirectory => "Not a directory (os error 20)"
  | isDirectory => "Is a directory (os error 21)"
  | tooManyLinks => "Too many levels of symbolic links (os error 40)"
  | nameTooLong => "File name too long (os error 36)"
  | notText => "stream did not contain valid UTF-8"
  | other text => text

inductive Failure where
  | malformedStyle (path reason : String)
  | unknownLanguage (path language : String)
  | ambiguousSelector (path selector : String)
  | overlap (start cursor : Nat)
  | outOfBounds (start stop length : Nat)
  /-- An outside program ended with another code than zero; `none` stands for a signal. -/
  | processFailed (code : Option Int)
  | io (path : String) (cause : IoCause)
  | discovery (root : String) (cause : IoCause)
  | unparsed (path message : String)
  /-- Staging files that could not be removed. -/
  | leftover (paths : List String)
  deriving DecidableEq, Repr

def Failure.message : Failure → String
  | malformedStyle path reason => "malformed style element in " ++ path ++ ": " ++ reason
  | unknownLanguage path language =>
    "unknown style language '" ++ language ++ "' in " ++ path
  | ambiguousSelector path selector =>
    "some but not all selectors end on a deep pseudo-class, cannot fix automatically in " ++ path ++
      ": " ++ selector
  | overlap start cursor =>
    "replacements overlap: replacement starting at " ++ toString start ++ " precedes cursor " ++
      toString cursor
  | outOfBounds start stop length =>
    "replacement " ++ toString start ++ ".." ++ toString stop ++
      " is out of bounds for text of length " ++ toString length
  | processFailed code =>
    "process exited with code " ++ (code.map (toString ·)).getD "<signal>"
  | io path cause => "I/O failure on " ++ path ++ ": " ++ cause.message
  | discovery root cause =>
    "file discovery failed: " ++ root ++ ": IO error for operation on " ++ root ++ ": " ++
      cause.message
  | unparsed path message => "failed to parse " ++ path ++ ": " ++ message
  | leftover paths => "failed to remove staging file(s): " ++ ", ".intercalate paths

/-- What has two parts succeeds just if both of them do. -/
theorem bind_eq_ok_iff {ε α β : Type} {first : Except ε α} {next : α → Except ε β} {result : β} :
    (first >>= next) = .ok result ↔ ∃ between, first = .ok between ∧ next between = .ok result := by
  cases first with
  | error failure => exact ⟨nofun, nofun⟩
  | ok between => exact ⟨fun h => ⟨between, rfl, h⟩, fun ⟨_, rfl, h⟩ => h⟩

theorem mapError_eq_ok_iff {ε δ α : Type} {outcome : Except ε α} {f : ε → δ} {result : α} :
    outcome.mapError f = .ok result ↔ outcome = .ok result := by
  cases outcome with
  | error failure => exact ⟨nofun, nofun⟩
  | ok other => exact ⟨fun h => congrArg Except.ok (Except.ok.inj h),
      fun h => congrArg Except.ok (Except.ok.inj h)⟩

end StyleMigration
