import StyleMigration.Command.Shell.Lexeme

/-!
Reading scripts. A word of its own keeps its place in the language only where a command can start.
-/

set_option autoImplicit false

namespace StyleMigration.Command.Shell

open Text

/-- The words that close a part of a command. -/
def isClosingWord (word : String) : Bool :=
  ["then", "else", "elif", "fi", "do", "done", "esac", "\x7d"].contains word

/-- The words that open a command of several parts. -/
def isOpeningWord (word : String) : Bool :=
  ["if", "while", "until", "for", "case", "!", "\x7b"].contains word

/-- Whether a text can be the name of a variable or a function. -/
def isName (name : String) : Bool :=
  name.toList.head?.any isNameStart && name.toList.all isNameChar

/-- The text of the first lexeme, if that is a plain word. -/
def plainWord? : List Lexeme → Option String
  | .word word :: _ => word.literal?
  | _ => none

def skipLineEnds : List Lexeme → List Lexeme
  | .lineEnd :: lexemes => skipLineEnds lexemes
  | lexemes => lexemes

/-- What follows a certain plain word. -/
def afterWord? (word : String) (lexemes : List Lexeme) : Option (List Lexeme) :=
  if plainWord? lexemes = some word then some lexemes.tail else none

/-- What follows a certain sign. -/
def afterSign? (sign : String) : List Lexeme → Option (List Lexeme)
  | .sign sign' :: lexemes => if sign = sign' then some lexemes else none
  | _ => none

/-- Whether no command can start here. -/
def isClosed (lexemes : List Lexeme) : Bool :=
  match lexemes with
  | [] => true
  | .sign sign :: _ => sign != "("
  | lexemes => (plainWord? lexemes).any isClosingWord

/-- The name and the value of an assignment, if a word is one. -/
def assignment? : Word → Option (String × Word)
  | .text false text :: word =>
    let name := text.takeWhile isNameChar
    match text.dropWhile isNameChar with
    | '=' :: rest =>
      if text.head?.any isNameStart then
        some (String.ofList name, if rest.isEmpty then word else .text false rest :: word)
      else none
    | _ => none
  | _ => none

/-- A simple command under construction. -/
structure Simple where
  assignments : List (String × Word)
  words : List Word
  redirections : List Redirection

/-- Takes the parts of a simple command. -/
def takeSimple? : Simple → List Lexeme → Option (Simple × List Lexeme)
  | command, .word word :: lexemes =>
    match if command.words.isEmpty then assignment? word else none with
    | some item =>
      takeSimple? { command with assignments := command.assignments ++ [item] } lexemes
    | none => takeSimple? { command with words := command.words ++ [word] } lexemes
  | command, .redirect descriptor direction :: .word target :: lexemes =>
    let redirection := .path descriptor direction target
    takeSimple? { command with redirections := command.redirections ++ [redirection] } lexemes
  | _, .redirect _ _ :: _ => none
  | command, .lines descriptor content :: lexemes =>
    let redirection := .lines descriptor content
    takeSimple? { command with redirections := command.redirections ++ [redirection] } lexemes
  | _, .unclosed :: _ => none
  | command, lexemes => some (command, lexemes)

/-- Takes the redirections after a command. -/
def takeRedirections? : List Lexeme → Option (List Redirection × List Lexeme)
  | .redirect descriptor direction :: .word target :: lexemes =>
    (takeRedirections? lexemes).map fun (others, rest) =>
      (.path descriptor direction target :: others, rest)
  | .redirect _ _ :: _ => none
  | .lines descriptor content :: lexemes =>
    (takeRedirections? lexemes).map fun (others, rest) =>
      (.lines descriptor content :: others, rest)
  | lexemes => some ([], lexemes)

/-- The words of a list up to what is none. -/
def takeWords : List Lexeme → List Word × List Lexeme
  | .word word :: lexemes =>
    let (words, rest) := takeWords lexemes
    (word :: words, rest)
  | lexemes => ([], lexemes)

/-- Passes over a separator and line ends. -/
def skipSeparators (lexemes : List Lexeme) : List Lexeme :=
  skipLineEnds ((afterSign? ";" (skipLineEnds lexemes)).getD lexemes)

/-- The patterns of a branch, through the closing parenthesis. -/
def takePatterns? : (fuel : Nat) → List Lexeme → Option (List Word × List Lexeme)
  | 0, _ => none
  | fuel + 1, lexemes =>
    match lexemes with
    | .word word :: .sign "|" :: rest =>
      (takePatterns? fuel rest).map fun (words, rest) => (word :: words, rest)
    | .word word :: .sign ")" :: rest => some ([word], rest)
    | _ => none

mutual

/-- Commands up to a word or sign that closes the list. -/
def takeList? : (fuel : Nat) → List Lexeme → Option (List Script × List Lexeme)
  | 0, _ => none
  | fuel + 1, lexemes =>
    let lexemes := skipLineEnds lexemes
    if isClosed lexemes then
      some ([], lexemes)
    else do
      let (command, rest) ← takeAndOr? fuel lexemes
      let (command, rest) := match rest with
        | .sign "&" :: rest => (Script.background command, Lexeme.lineEnd :: rest)
        | .sign ";" :: rest => (command, Lexeme.lineEnd :: rest)
        | rest => (command, rest)
      match rest with
      | .lineEnd :: rest =>
        let (commands, rest) ← takeList? fuel rest
        return (command :: commands, rest)
      | rest => return ([command], rest)

/-- A list of at least one command. -/
def takeBody? : (fuel : Nat) → List Lexeme → Option (Script × List Lexeme)
  | 0, _ => none
  | fuel + 1, lexemes => do
    let (commands, rest) ← takeList? fuel lexemes
    if commands.isEmpty then none else return (.sequence commands, rest)

/-- Commands joined by `&&` and `||`. -/
def takeAndOr? : (fuel : Nat) → List Lexeme → Option (Script × List Lexeme)
  | 0, _ => none
  | fuel + 1, lexemes => do
    let (first, rest) ← takePipeline? fuel lexemes
    takeJoined? fuel first rest

/-- The commands that are joined to one. -/
def takeJoined? : (fuel : Nat) → Script → List Lexeme → Option (Script × List Lexeme)
  | 0, _, _ => none
  | fuel + 1, first, lexemes =>
    match lexemes with
    | .sign "&&" :: rest => do
      let (second, rest) ← takePipeline? fuel (skipLineEnds rest)
      takeJoined? fuel (.andThen first second) rest
    | .sign "||" :: rest => do
      let (second, rest) ← takePipeline? fuel (skipLineEnds rest)
      takeJoined? fuel (.orElse first second) rest
    | lexemes => some (first, lexemes)

/-- Commands joined by `|`, perhaps with the status turned round. -/
def takePipeline? : (fuel : Nat) → List Lexeme → Option (Script × List Lexeme)
  | 0, _ => none
  | fuel + 1, lexemes => do
    let (negated, lexemes) := match afterWord? "!" lexemes with
      | some rest => (true, rest)
      | none => (false, lexemes)
    let (commands, rest) ← takePiped? fuel lexemes
    match negated, commands with
    | false, [command] => return (command, rest)
    | negated, commands => return (.pipeline negated commands, rest)

def takePiped? : (fuel : Nat) → List Lexeme → Option (List Script × List Lexeme)
  | 0, _ => none
  | fuel + 1, lexemes => do
    let (command, rest) ← takeCommand? fuel lexemes
    match rest with
    | .sign "|" :: rest =>
      let (commands, rest) ← takePiped? fuel (skipLineEnds rest)
      return (command :: commands, rest)
    | rest => return ([command], rest)

/-- One command with its redirections. -/
def takeCommand? : (fuel : Nat) → List Lexeme → Option (Script × List Lexeme)
  | 0, _ => none
  | fuel + 1, lexemes =>
    let redirected (taken : Option (Script × List Lexeme)) : Option (Script × List Lexeme) := do
      let (command, rest) ← taken
      let (redirections, rest) ← takeRedirections? rest
      return (if redirections.isEmpty then command else .redirected command redirections, rest)
    match lexemes with
    | .sign "(" :: rest => redirected do
      let (body, rest) ← takeBody? fuel rest
      return (.subshell body, ← afterSign? ")" rest)
    | .word name :: .sign "(" :: .sign ")" :: rest => do
      let (body, rest) ← takeCommand? fuel (skipLineEnds rest)
      let name ← name.literal?
      if isName name then return (.define name body, rest) else none
    | lexemes =>
      match plainWord? lexemes with
      | some "if" => redirected (takeBranch? fuel lexemes.tail)
      | some "while" => redirected (takeLoop? fuel false lexemes.tail)
      | some "until" => redirected (takeLoop? fuel true lexemes.tail)
      | some "for" => redirected (takeEach? fuel lexemes.tail)
      | some "case" => redirected (takeChoice? fuel lexemes.tail)
      | some "\x7b" => redirected do
        let (body, rest) ← takeBody? fuel lexemes.tail
        return (body, ← afterWord? "\x7d" rest)
      | plain? =>
        if plain?.any isClosingWord || isClosed lexemes then none
        else do
          let (command, rest) ← takeSimple? ⟨[], [], []⟩ lexemes
          if command.assignments.isEmpty && command.words.isEmpty &&
              command.redirections.isEmpty then none
          else return (.simple command.assignments command.words command.redirections, rest)

/-- A branch after its `if` or `elif`. -/
def takeBranch? : (fuel : Nat) → List Lexeme → Option (Script × List Lexeme)
  | 0, _ => none
  | fuel + 1, lexemes => do
    let (condition, rest) ← takeBody? fuel lexemes
    let (yes, rest) ← takeBody? fuel (← afterWord? "then" rest)
    match plainWord? rest with
    | some "elif" =>
      let (no, rest) ← takeBranch? fuel rest.tail
      return (.branch condition yes no, rest)
    | some "else" =>
      let (no, rest) ← takeBody? fuel rest.tail
      return (.branch condition yes no, ← afterWord? "fi" rest)
    | _ => return (.branch condition yes (.sequence []), ← afterWord? "fi" rest)

def takeLoop? : (fuel : Nat) → Bool → List Lexeme → Option (Script × List Lexeme)
  | 0, _, _ => none
  | fuel + 1, isUntil, lexemes => do
    let (condition, rest) ← takeBody? fuel lexemes
    let (body, rest) ← takeBody? fuel (← afterWord? "do" rest)
    return (.loop isUntil condition body, ← afterWord? "done" rest)

def takeEach? : (fuel : Nat) → List Lexeme → Option (Script × List Lexeme)
  | 0, _ => none
  | fuel + 1, lexemes => do
    let name ← plainWord? lexemes
    let rest := lexemes.tail
    let (words, rest) := match afterWord? "in" (skipLineEnds rest) with
      | some rest =>
        let (words, rest) := takeWords rest
        (some words, rest)
      | none => (none, rest)
    let rest ← match words, rest with
      | some _, .sign ";" :: rest | some _, .lineEnd :: rest => some rest
      | some _, _ => none
      | none, rest => some (skipSeparators rest)
    let (body, rest) ← takeBody? fuel (← afterWord? "do" (skipLineEnds rest))
    if isName name then return (.each name words body, ← afterWord? "done" rest) else none

def takeChoice? : (fuel : Nat) → List Lexeme → Option (Script × List Lexeme)
  | 0, _ => none
  | fuel + 1, lexemes =>
    match lexemes with
    | .word word :: rest => do
      let rest ← afterWord? "in" (skipLineEnds rest)
      let (branches, rest) ← takeBranches? fuel (skipLineEnds rest)
      return (.choose word branches, rest)
    | _ => none

/-- The branches of a choice, through its end. -/
def takeBranches? : (fuel : Nat) → List Lexeme → Option (List (List Word × Script) × List Lexeme)
  | 0, _ => none
  | fuel + 1, lexemes =>
    match afterWord? "esac" lexemes with
    | some rest => some ([], rest)
    | none => do
      let lexemes := (afterSign? "(" lexemes).getD lexemes
      let (patterns, rest) ← takePatterns? (lexemes.length + 1) lexemes
      let (commands, rest) ← takeList? fuel rest
      let (others, rest) ← match rest with
        | .sign ";;" :: rest => takeBranches? fuel (skipLineEnds rest)
        | rest => (afterWord? "esac" rest).map fun rest => ([], rest)
      return ((patterns, .sequence commands) :: others, rest)

end

/-- The next line of a script: its command, if there is one, and the lexemes after it. -/
def takeLine? : (fuel : Nat) → List Script → List Lexeme → Option (Script × List Lexeme)
  | 0, _, _ => none
  | fuel + 1, commands, lexemes => do
    let (command, rest) ← takeAndOr? fuel lexemes
    let add (command : Script) (rest : List Lexeme) : Option (Script × List Lexeme) :=
      match rest with
      | [] | .lineEnd :: _ => some (.sequence (commands ++ [command]), rest)
      | rest => takeLine? fuel (commands ++ [command]) rest
    match rest with
    | .sign "&" :: rest => add (.background command) rest
    | .sign ";" :: rest => add command rest
    | [] | .lineEnd :: _ => some (.sequence (commands ++ [command]), rest)
    | _ => none

/-- The next line of a script that has a command. -/
def nextLine? (lexemes : List Lexeme) : Option (Script × List Lexeme) :=
  takeLine? (8 * lexemes.length + 16) [] lexemes

/-- Whether all lines of a script can be read. -/
def isReadable : (fuel : Nat) → List Lexeme → Bool
  | 0, _ => false
  | fuel + 1, lexemes =>
    let lexemes := skipLineEnds lexemes
    if lexemes.isEmpty then true
    else
      match nextLine? lexemes with
      | some (_, rest) => isReadable fuel rest
      | none => false

end StyleMigration.Command.Shell
