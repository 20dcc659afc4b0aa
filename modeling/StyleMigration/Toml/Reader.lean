import StyleMigration.Toml.Scalar

/-!
Reading a TOML document. A document is a row of lines, each with a key and its value, a header that
opens a table, or nothing. No key and no table may be given twice.
-/

set_option autoImplicit false

namespace StyleMigration.Toml

/-- How a table came to be. -/
inductive Origin where
  /-- By a header of its own. -/
  | header
  /-- As part of the path in the header of another table. -/
  | path
  /-- As part of the path in a key. -/
  | dotted
  deriving DecidableEq, Repr

/-- What a name in a table stands for. -/
inductive Item where
  | value (value : Value)
  | table (origin : Origin) (items : List (String × Item))
  /-- Tables with one header, the last one first. -/
  | tables (tables : List (List (String × Item)))

abbrev Items := List (String × Item)

namespace Items

/-- Puts an item in the place of the one with a name, or at the end. -/
def set (items : Items) (name : String) (item : Item) : Items :=
  match items with
  | [] => [(name, item)]
  | (other, old) :: items =>
    if other = name then (name, item) :: items else (other, old) :: set items name item

/-- Changes the table at the end of a path in a header, with the tables on the way. -/
def update? (change : Items → Option Items) (items : Items) : List String → Option Items
  | [] => change items
  | name :: path =>
    match items.lookup name with
    | none => (update? change [] path).map fun inner => items.set name (.table .path inner)
    | some (.table origin inner) =>
      (update? change inner path).map fun inner => items.set name (.table origin inner)
    | some (.tables (last :: others)) =>
      (update? change last path).map fun last => items.set name (.tables (last :: others))
    | some (.tables []) | some (.value _) => none

/-- Gives a key its value. A path in the key leads through tables that keys opened, or opens them.
It can also pass through a table that only the path of a header opened and through the last one of
a row of tables, but not end there. -/
def insert? (items : Items) (key : String) (value : Value) : (path : List String) → Option Items
  | [] => if (items.lookup key).isSome then none else some (items.set key (.value value))
  | name :: path =>
    match items.lookup name with
    | none =>
      (insert? [] key value path).map fun inner => items.set name (.table .dotted inner)
    | some (.table .dotted inner) =>
      (insert? inner key value path).map fun inner => items.set name (.table .dotted inner)
    | some (.table .path inner) =>
      if path.isEmpty then none
      else (insert? inner key value path).map fun inner => items.set name (.table .path inner)
    | some (.tables (last :: others)) =>
      if path.isEmpty then none
      else (insert? last key value path).map fun last => items.set name (.tables (last :: others))
    | some _ => none

/-- Opens a table by its header. -/
def open? (name : String) (items : Items) : Option Items :=
  match items.lookup name with
  | none => some (items.set name (.table .header []))
  | some (.table .path inner) => some (items.set name (.table .header inner))
  | some _ => none

/-- Opens a further table of a row of tables. -/
def openNext? (name : String) (items : Items) : Option Items :=
  match items.lookup name with
  | none => some (items.set name (.tables [[]]))
  | some (.tables tables) => some (items.set name (.tables ([] :: tables)))
  | some _ => none

end Items

def isBareKeyChar (c : Char) : Bool :=
  c.isAlphanum || c == '-' || c == '_'

/-- One name of a key. -/
def takeName? (text : List Char) : Option (String × List Char) :=
  match text with
  | '"' :: rest => (takeBasic? rest).map fun (name, rest) => (String.ofList name, rest)
  | '\'' :: rest => (takeLiteral? rest).map fun (name, rest) => (String.ofList name, rest)
  | text =>
    let name := text.takeWhile isBareKeyChar
    if name.isEmpty then none else some (String.ofList name, text.dropWhile isBareKeyChar)

/-- Keys have fewer names than this, and arrays and inline tables are nested less deep. -/
def maxDepth : Nat := 80

/-- Names with dots between them: those on the way, the last one, and the rest after the spaces that
follow. -/
def takeNames? (text : List Char) : Option (List String × String × List Char) := do
  let (name, rest) ← takeName? (skipWhite text)
  match skipWhite rest with
  | '.' :: rest =>
    if _h : rest.length < text.length then
      let (path, last, rest) ← takeNames? rest
      return (name :: path, last, rest)
    else
      none
  | rest => return ([], name, rest)
termination_by text.length

/-- A key: the names on the way, the last name, and the rest after the spaces that follow. -/
def takeKey? (text : List Char) : Option (List String × String × List Char) :=
  (takeNames? text).filter fun (path, _, _) => path.length + 1 < maxDepth

/-- What follows a comment at the front of a text, or the text itself; nothing if the comment has a
character that it may not have. -/
def afterComment? : List Char → Option (List Char)
  | '#' :: text =>
    let rest := text.dropWhile isPrintable
    match rest with
    | [] | '\n' :: _ | '\r' :: '\n' :: _ => some rest
    | _ => none
  | text => some text

/-- What follows the spaces, comments and line ends between the items of an array. -/
def skipLines? (text : List Char) : Option (List Char) := do
  let rest ← afterComment? (skipWhite text)
  match afterLineEnd? rest with
  | some rest => if _h : rest.length < text.length then skipLines? rest else none
  | none => return rest
termination_by text.length

/-- How deep arrays and inline tables may be nested inside one, if there may be one at all. -/
def deeper? : (depth : Nat) → Option Nat
  | 0 | 1 => none
  | depth + 2 => some (depth + 1)

/-- The inline tables read so far, as items of which those that keys opened can grow. -/
abbrev InlineItems := Items

mutual

/-- A value in which arrays and inline tables are nested less than `depth` deep. -/
def takeValue? (depth : Nat) : (fuel : Nat) → List Char → Option (Value × List Char)
  | 0, _ => none
  | fuel + 1, text =>
    match text with
    | '[' :: rest => do
      let (items, rest) ← takeItems? (← deeper? depth) fuel (← skipLines? rest)
      return (.array items, rest)
    | '{' :: rest => do
      let depth ← deeper? depth
      match skipWhite rest with
      | '}' :: rest => some (.table, rest)
      | rest => (takePairs? depth fuel [] rest).map fun rest => (.table, rest)
    | '"' :: _ | '\'' :: _ =>
      (takeString? text).map fun (string, rest) => (.string (String.ofList string), rest)
    | text =>
      let (word, rest) := takeWord text
      (wordValue? word).map fun value => (value, rest)

/-- The items of an array, after the spaces before the next one, through its closing bracket. -/
def takeItems? (depth : Nat) : (fuel : Nat) → List Char → Option (List Value × List Char)
  | 0, _ => none
  | fuel + 1, text =>
    match text with
    | ']' :: rest => some ([], rest)
    | text => do
      let (item, rest) ← takeValue? depth fuel text
      match ← skipLines? rest with
      | ',' :: rest =>
        let (items, rest) ← takeItems? depth fuel (← skipLines? rest)
        return (item :: items, rest)
      | ']' :: rest => return ([item], rest)
      | _ => none

/-- The pairs of an inline table, through its closing brace. Its keys are checked like those of any
other table. -/
def takePairs? (depth : Nat) : (fuel : Nat) → InlineItems → List Char → Option (List Char)
  | 0, _, _ => none
  | fuel + 1, items, text => do
    let (path, key, rest) ← takeKey? text
    let (value, rest) ← takeValue? depth fuel (skipWhite (← takeChar? (· == '=') rest))
    let items ← Items.insert? items key value path
    match skipWhite rest with
    | ',' :: rest => takePairs? depth fuel items rest
    | '}' :: rest => return rest
    | _ => none

end

/-- A document under construction: the items of the root and the path of the table that is open. -/
structure Document where
  root : Items
  current : List String

/-- A header, after its first bracket. -/
def Document.openTable? (document : Document) (text : List Char) :
    Option (Document × List Char) := do
  let isNext := text.head? == some '['
  let (path, name, rest) ← takeKey? (if isNext then text.tail else text)
  let rest ← takeChar? (· == ']') rest
  let rest ← if isNext then takeChar? (· == ']') rest else some rest
  let change := if isNext then Items.openNext? name else Items.open? name
  let root ← Items.update? change document.root path
  return (⟨root, path ++ [name]⟩, rest)

/-- A key and its value. -/
def Document.addPair? (document : Document) (text : List Char) :
    Option (Document × List Char) := do
  let (path, key, rest) ← takeKey? text
  let afterSign := skipWhite (← takeChar? (· == '=') rest)
  let (value, rest) ← takeValue? maxDepth (afterSign.length + 1) afterSign
  let root ← Items.update? (Items.insert? · key value path) document.root document.current
  return ({ document with root }, rest)

/-- Reads the lines of a document from `text` on. -/
def Document.addLines? (document : Document) (text : List Char) : Option Document := do
  let start := skipWhite text
  let (document, rest) ← match start with
    | [] | '#' :: _ | '\n' :: _ | '\r' :: _ => some (document, start)
    | '[' :: rest => document.openTable? rest
    | text => document.addPair? text
  match ← afterComment? (skipWhite rest) with
  | [] => return document
  | rest =>
    let next ← afterLineEnd? rest
    if _h : next.length < text.length then document.addLines? next else none
termination_by text.length

/-- The items of a document, unless it is at fault. A byte order mark may stand in front. -/
def read? (text : List Char) : Option Items :=
  let text := if text.head? = some '\ufeff' then text.tail else text
  ((Document.mk [] []).addLines? text).map (·.root)

end StyleMigration.Toml
