import StyleMigration.Text.Blank
import StyleMigration.Toml.Reader

/-!
What a migration is told by its user: a settings file in TOML, and one value of the environment. A
file with any fault counts as absent.
-/

set_option autoImplicit false

namespace StyleMigration

structure Settings where
  /-- How many files the division command gets at a time, where zero stands for the default. -/
  maxEntries : Nat
  /-- The division command and its first arguments. -/
  command : List String
  componentExtension : String
  stylesheetExtensions : List String
  /-- Whether the division command is run at all. -/
  runDivision : Bool
  deriving DecidableEq, Repr

namespace Settings

/-- The name of the settings file. -/
def fileName : String := "vue-style-migrate.toml"

/-- The name of the environment value that sets how many files a batch has. -/
def maxEntriesVariable : String := "SASS_MIGRATOR_MAX_ENTRIES"

def defaultMaxEntries : Nat := 20

def default : Settings where
  maxEntries := defaultMaxEntries
  command := ["npx", "sass-migrator"]
  componentExtension := "vue"
  stylesheetExtensions := ["scss", "sass"]
  runDivision := true

/-- The setting with a name, or the default if the file does not have it. -/
def get? {α : Type} (items : Toml.Items) (name : String) (read : Toml.Value → Option α)
    (otherwise : α) : Option α :=
  match items.lookup name with
  | none => some otherwise
  | some (.value value) => read value
  | some _ => none

/-- The settings in a file, unless a setting has a value of another type. -/
def ofToml? (text : List Char) : Option Settings := do
  let items ← Toml.read? text
  return {
    maxEntries :=
      ← get? items "sass_migrator_max_entries" Toml.Value.toNat? default.maxEntries
    command := ← get? items "sass_migrator_command" Toml.Value.toStrings? default.command
    componentExtension :=
      ← get? items "component_extension" Toml.Value.toString? default.componentExtension
    stylesheetExtensions :=
      ← get? items "stylesheet_extensions" Toml.Value.toStrings? default.stylesheetExtensions
    runDivision := ← get? items "run_division" Toml.Value.toBool? default.runDivision
  }

/-- The settings in the text of a file, if there is one. -/
def ofFile (text : Option (List Char)) : Settings :=
  (text.bind ofToml?).getD default

/-- A positive number of at most 64 bits in decimal digits, with blanks around it and a plus sign
before it allowed. -/
def readMaxEntries (text : List Char) : Option Nat :=
  let digits := match Text.trim text with
    | '+' :: digits => digits
    | digits => digits
  if digits.isEmpty || !digits.all Char.isDigit then
    none
  else
    let number := Toml.decimalOf digits
    if 0 < number ∧ number < Nat.pow 2 64 then some number else none

/-- The settings with the environment value in force, where it can be read. -/
def withEnvironment (settings : Settings) (value : Option String) : Settings :=
  match value.bind fun text => readMaxEntries text.toList with
  | some maxEntries => { settings with maxEntries }
  | none => settings

/-- How many files a batch has, which is never zero. -/
def batchSize (settings : Settings) : Nat :=
  if settings.maxEntries = 0 then defaultMaxEntries else settings.maxEntries

end Settings

end StyleMigration
