import StyleMigration.Command.Utility.Condition
import StyleMigration.Command.Utility.Edit
import StyleMigration.Command.Utility.Expr
import StyleMigration.Command.Utility.FileWork
import StyleMigration.Command.Utility.Print

/-!
The small programs by their names.
-/

set_option autoImplicit false

namespace StyleMigration.Command.Utility

open Text

/-- What a program does with its words. -/
abbrev Program := Task → List Octets → Task

/-- Whether a word is a time to wait, with a unit or without. -/
def isDuration (word : Octets) : Bool :=
  let digits := word.takeWhile fun c => c.isDigit || c == '.'
  digits.any Char.isDigit && digits.count '.' ≤ 1 &&
    [[], ['s'], ['m'], ['h'], ['d']].contains (word.drop digits.length)

/-- Waits, which takes no time here. -/
def sleep : Program := fun task words =>
  if words.isEmpty then task.complain "sleep" "missing operand" 1
  else if words.all isDuration then task
  else task.complain "sleep" "invalid time interval" 1

/-- The programs of every system that need nothing but files and input. -/
def program? (name : String) : Option Program :=
  match name with
  | "true" => some fun task _ => task
  | "false" => some fun task _ => task.finish 1
  | "echo" => some fun task words => task.print (Print.programText words)
  | "printf" => some (Print.printf .program)
  | "test" => some (Condition.run true)
  | "[" => some (Condition.runBracket true)
  | "expr" => some Expr.run
  | "cat" => some FileWork.cat
  | "rm" => some FileWork.rm
  | "rmdir" => some FileWork.rmdir
  | "mkdir" => some FileWork.mkdir
  | "touch" => some FileWork.touch
  | "truncate" => some FileWork.truncate
  | "mv" => some FileWork.mv
  | "readlink" => some FileWork.readlink
  | "cp" => some FileWork.cp
  | "ln" => some FileWork.ln
  | "ls" => some FileWork.ls
  | "tee" => some FileWork.tee
  | "basename" => some FileWork.basename
  | "dirname" => some FileWork.dirname
  | "chmod" => some FileWork.chmod
  | "cmp" | "diff" => some FileWork.cmp
  | "find" => some FileWork.find
  | "head" => some Filter.head
  | "tail" => some Filter.tail
  | "wc" => some Filter.wc
  | "sort" => some Filter.sort
  | "uniq" => some Filter.uniq
  | "tr" => some Filter.tr
  | "cut" => some Filter.cut
  | "rev" => some Filter.rev
  | "tac" => some Filter.tac
  | "nl" => some Filter.nl
  | "seq" => some Filter.seq
  | "grep" => some Filter.grep
  | "egrep" => some fun task words => Filter.grep task (['-', 'E'] :: words)
  | "fgrep" => some fun task words => Filter.grep task (['-', 'F'] :: words)
  | "sed" => some Edit.run
  | "sleep" => some sleep
  | "sync" | "date" | "id" | "hostname" => some fun task _ => task
  | "whoami" => some fun task _ => task.print "root\n".toList
  | "uname" => some fun task _ => task.print "Linux\n".toList
  | _ => none

end StyleMigration.Command.Utility
