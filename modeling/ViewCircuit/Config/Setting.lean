import ViewCircuit.Config

/-! Trees of settings, laid over one another, and the configuration that a tree stands for. -/
namespace ViewCircuit

/-- A written setting. Nothing here is set by a number, so its value is not kept. -/
inductive Setting where
  | flag (value : Bool)
  | text (value : String)
  | number
  | list (items : List Setting)
  | table (entries : List (String × Setting))
  deriving Repr, Inhabited

namespace Setting

/-- The value of the first entry with the key. -/
def find? {α : Type} (entries : List (String × α)) (key : String) : Option α :=
  (entries.find? fun e => e.1 == key).map Prod.snd

/-- Sets an entry, in place when it is there. -/
def put {α : Type} (entries : List (String × α)) (key : String) (value : α) : List (String × α) :=
  match entries with
  | [] => [(key, value)]
  | e :: rest => if e.1 = key then (key, value) :: rest else e :: put rest key value

@[simp] theorem find?_put_self {α : Type} (entries : List (String × α)) (key : String) (value : α) :
    find? (put entries key value) key = some value := by
  induction entries with
  | nil => simp [find?, put]
  | cons e rest ih =>
    by_cases h : e.1 = key
    · simp [find?, put, h]
    · simpa [find?, put, h] using ih

mutual
/-- The first tree laid over the second: tables are joined, anything else is replaced. -/
def onto : Setting → Setting → Setting
  | .table above, .table below => .table (ontoEntries above below)
  | above, _ => above
def ontoEntries : List (String × Setting) → List (String × Setting) → List (String × Setting)
  | [], below => below
  | (key, value) :: rest, below =>
    ontoEntries rest <| put below key <|
      match find? below key with
      | some old => value.onto old
      | none => value
end

def empty : Setting := .table []

@[simp] theorem empty_onto (entries : List (String × Setting)) :
    empty.onto (.table entries) = .table entries := by
  simp [empty, onto, ontoEntries]

/-- Fields are found by name in a table and by place in a list. -/
def get? (names : List String) (key : String) : Setting → Option Setting
  | .table entries => find? entries key
  | .list items => items[names.idxOf key]?
  | _ => none

def isRecord : Setting → Bool
  | .table _ | .list _ => true
  | _ => false

def flag? : Setting → Option Bool
  | .flag b => some b
  | _ => none

def text? : Setting → Option String
  | .text s => some s
  | _ => none

/-- A field with a default for its absence. -/
def fieldD? {α : Type} (names : List String) (key : String) (default : α)
    (read : Setting → Option α) (s : Setting) : Option α :=
  match s.get? names key with
  | none => some default
  | some v => read v

end Setting

def OptimizerConfig.ofSetting? (s : Setting) : Option OptimizerConfig := do
  if !s.isRecord then none
  else return {
    incrementalize := ← s.fieldD? fields "incrementalize" false Setting.flag?
    simplifyFunctions := ← s.fieldD? fields "simplify_functions" true Setting.flag?
    optimize := ← s.fieldD? fields "optimize" true Setting.flag? }

def LoggingConfig.ofSetting? (s : Setting) : Option LoggingConfig := do
  if !s.isRecord then none
  else return {
    level := ← s.fieldD? fields "level" "info" Setting.text?
    format := ← s.fieldD? fields "format" "text" Setting.text? }

/-- The configuration of a tree of settings. Keys it does not know are passed over. -/
def Config.ofSetting? (s : Setting) : Option Config := do
  if !s.isRecord then none
  else return {
    optimizer := ← s.fieldD? fields "optimizer" {} OptimizerConfig.ofSetting?
    logging := ← s.fieldD? fields "logging" {} LoggingConfig.ofSetting? }

end ViewCircuit
