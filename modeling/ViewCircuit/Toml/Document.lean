import ViewCircuit.Toml.Date
import ViewCircuit.Toml.Value

/-! TOML documents: the table that a text describes. -/
namespace ViewCircuit.Toml

open ViewCircuit.Text (isPlain)

/-- How a table came to be: named by a header, passed by one on the way down, or by a dotted key. -/
inductive Origin where
  | header | passed | dotted
  deriving DecidableEq, Repr

/-- A table under construction. Rows of a repeated table are held with the newest first. -/
inductive Node where
  | leaf (value : Setting)
  | table (origin : Origin) (entries : List (String × Node))
  | rows (tables : List (List (String × Node)))
  deriving Repr, Inhabited

abbrev Entries := List (String × Node)

namespace Node

mutual
def setting : Node → Setting
  | .leaf value => value
  | .table _ entries => .table (settings entries)
  | .rows tables => .list (rowSettings tables).reverse
def settings : List (String × Node) → List (String × Setting)
  | [] => []
  | (key, node) :: rest => (key, node.setting) :: settings rest
def rowSettings : List (List (String × Node)) → List Setting
  | [] => []
  | row :: rest => .table (settings row) :: rowSettings rest
end

end Node

namespace Entries

/-- Adds a value under a key. A dotted key makes tables of its own and adds to no other, which
`mine` tells of the table at hand. -/
def assign (value : Setting) (mine : Bool) : List String → Entries → Option Entries
  | [], _ => none
  | [key], entries =>
    if mine && (Setting.find? entries key).isNone then some (entries ++ [(key, .leaf value)])
    else none
  | key :: path, entries =>
    match Setting.find? entries key with
    | none => (assign value true path []).map fun inner => entries ++ [(key, .table .dotted inner)]
    | some (.table .header _) | some (.leaf _) | some (.rows []) => none
    | some (.table origin inner) =>
      (assign value (origin == .dotted) path inner).map fun inner =>
        Setting.put entries key (.table origin inner)
    | some (.rows (last :: earlier)) =>
      (assign value false path last).map fun last =>
        Setting.put entries key (.rows (last :: earlier))

/-- Works on the entries that a path leads to, making the tables on the way. -/
def descend (change : Entries → Option Entries) : List String → Entries → Option Entries
  | [], entries => change entries
  | key :: path, entries =>
    match Setting.find? entries key with
    | none => (descend change path []).map fun inner => entries ++ [(key, .table .passed inner)]
    | some (.leaf _) | some (.rows []) => none
    | some (.table origin inner) =>
      (descend change path inner).map fun inner => Setting.put entries key (.table origin inner)
    | some (.rows (last :: earlier)) =>
      (descend change path last).map fun last => Setting.put entries key (.rows (last :: earlier))

/-- Opens the table of a header, which no other statement may have defined. -/
def openTable (key : String) (entries : Entries) : Option Entries :=
  match Setting.find? entries key with
  | none => some (entries ++ [(key, .table .header [])])
  | some (.table .passed inner) => some (Setting.put entries key (.table .header inner))
  | some _ => none

/-- Opens a new row of a repeated table. -/
def openRow (key : String) (entries : Entries) : Option Entries :=
  match Setting.find? entries key with
  | none => some (entries ++ [(key, .rows [[]])])
  | some (.rows tables) => some (Setting.put entries key (.rows ([] :: tables)))
  | some _ => none

end Entries

/-- What may stand between the items of a list. -/
def skipSpace : (fuel : Nat) → List Char → List Char
  | 0, cs => cs
  | fuel + 1, cs =>
    match skipBlank cs with
    | '#' :: rest => skipSpace fuel (rest.dropWhile isPlain)
    | rest =>
      match newline? rest with
      | some rest => skipSpace fuel rest
      | none => rest

mutual
/-- One value; `fuel` bounds the calls and `depth` the nesting. A date is a table without
entries. -/
def value? : (fuel depth : Nat) → List Char → Option (Setting × List Char)
  | 0, _, _ => none
  | fuel + 1, depth, cs =>
    match cs, depth with
    | '\"' :: _, _ | '\'' :: _, _ => (string? cs).map fun (s, rest) => (.text s, rest)
    | '[' :: _, 0 | '\x7b' :: _, 0 => none
    | '[' :: rest, depth + 1 =>
      (items? fuel depth rest).map fun (items, rest) => (.list items, rest)
    | '\x7b' :: rest, depth + 1 =>
      match skipBlank rest with
      | '\x7d' :: rest => some (.table [], rest)
      | rest => (pairs? fuel depth [] rest).map fun (entries, rest) =>
        (.table (Node.settings entries), rest)
    | _, _ =>
      match moment? cs with
      | some rest => some (.table [], rest)
      | none => (word? (cs.takeWhile isWordChar)).map fun v => (v, cs.dropWhile isWordChar)
/-- The items of a list up to its closing bracket, which may follow a comma. -/
def items? : (fuel depth : Nat) → List Char → Option (List Setting × List Char)
  | 0, _, _ => none
  | fuel + 1, depth, cs =>
    match skipSpace cs.length cs with
    | ']' :: rest => some ([], rest)
    | rest => do
      let (v, rest) ← value? fuel depth rest
      match skipSpace rest.length rest with
      | ',' :: rest => (items? fuel depth rest).map fun (vs, rest) => (v :: vs, rest)
      | ']' :: rest => return ([v], rest)
      | _ => none
/-- The entries of a table on one line up to its closing brace. -/
def pairs? : (fuel depth : Nat) → Entries → List Char → Option (Entries × List Char)
  | 0, _, _, _ => none
  | fuel + 1, depth, done, cs => do
    let (key, v, rest) ← pair? fuel depth cs
    let done ← done.assign v true key
    match skipBlank rest with
    | ',' :: rest => pairs? fuel depth done rest
    | '\x7d' :: rest => return (done, rest)
    | _ => none
def pair? : (fuel depth : Nat) → List Char → Option (List String × Setting × List Char)
  | 0, _, _ => none
  | fuel + 1, depth, cs => do
    let (key, rest) ← key? cs
    match rest with
    | '=' :: rest => (value? fuel depth (skipBlank rest)).map fun (v, rest) => (key, v, rest)
    | _ => none
end

/-- So many lists and tables may be nested in a value. -/
def valueDepth : Nat := 79

inductive Statement where
  | empty
  | table (path : List String) (key : String)
  | row (path : List String) (key : String)
  | entry (key : List String) (value : Setting)
  deriving Repr

/-- The key of a header and the text after its closing bracket. -/
def header? (cs : List Char) : Option (List String × String × List Char) := do
  let (key, rest) ← key? cs
  match rest with
  | ']' :: rest => return (key.dropLast, ← key.getLast?, rest)
  | _ => none

def statement? (cs : List Char) : Option (Statement × List Char) :=
  match skipBlank cs with
  | '[' :: '[' :: rest => do
    let (path, key, rest) ← header? rest
    match rest with
    | ']' :: rest => return (.row path key, rest)
    | _ => none
  | '[' :: rest => (header? rest).map fun (path, key, rest) => (.table path key, rest)
  | rest =>
    match rest with
    | [] | '#' :: _ | '\n' :: _ | '\r' :: _ => some (.empty, rest)
    | _ =>
      (pair? (2 * rest.length + 2) valueDepth rest).map fun (key, v, rest) => (.entry key v, rest)

/-- The statements of a text, one a line. -/
def statements? : (fuel : Nat) → List Char → Option (List Statement)
  | 0, _ => none
  | fuel + 1, cs => do
    let (s, rest) ← statement? cs
    let rest := match skipBlank rest with
      | '#' :: rest => rest.dropWhile isPlain
      | rest => rest
    match newline? rest, rest with
    | some rest, _ => return s :: (← statements? fuel rest)
    | none, [] => return [s]
    | none, _ => none

/-- A document so far: its entries and the table that the last header opened. -/
structure Draft where
  root : Entries := []
  path : List String := []

def Draft.add (d : Draft) : Statement → Option Draft
  | .empty => some d
  | .table path key => do
    return ⟨← Entries.descend (Entries.openTable key) path d.root, path ++ [key]⟩
  | .row path key => do
    return ⟨← Entries.descend (Entries.openRow key) path d.root, path ++ [key]⟩
  | .entry key value => do
    return { d with root := ← Entries.descend (Entries.assign value true key) d.path d.root }

/-- The table of a whole text; `none` for a syntax error or a key that is set twice. -/
def parse? (text : String) : Option Setting := do
  let cs := match text.toList with
    | '\ufeff' :: rest => rest
    | cs => cs
  let draft ← (← statements? (cs.length + 1) cs).foldlM Draft.add {}
  return .table (Node.settings draft.root)

end ViewCircuit.Toml
