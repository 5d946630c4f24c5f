import ViewCircuit.Expr.Collect

/-! A stack of scopes, each saying what becomes of the names bound in it. -/
namespace ViewCircuit

/-- What a scope says of a name. -/
inductive Binding where
  /-- Occurrences are replaced by an expression. -/
  | replace (replacement : Expr)
  /-- The binder got another name, and so do its occurrences. -/
  | rename (fresh : String)
  /-- Bound again here; occurrences stay. -/
  | shadow

/-- Names that are replaced, binders that got another name, and names that are bound again, each in
a collection of its own; and the free variables of all that was ever substituted. -/
structure Scope where
  replacements : List (String × Expr)
  renames : List (String × String)
  tombstones : List String
  free : List String

structure Scopes where
  /-- Innermost first. -/
  stack : List Scope

namespace Scope

def empty : Scope := ⟨[], [], [], []⟩

section Entries

variable {α : Type}

/-- The entries of all other keys. -/
def without (key : String) (entries : List (String × α)) : List (String × α) :=
  entries.filter fun e => e.1 != key

/-- The entries with one for the key, in place of any that it had. -/
def insert (key : String) (value : α) (entries : List (String × α)) : List (String × α) :=
  (key, value) :: without key entries

end Entries

/-- From here on the name is replaced. -/
def substitute (s : Scope) (name : String) (replacement : Expr) : Scope where
  tombstones := s.tombstones.filter (· != name)
  renames := without name s.renames
  free := replacement.freeVariables ++ s.free
  replacements := insert name replacement s.replacements

/-- From here on the name stays as it is. -/
def tombstone (s : Scope) (name : String) : Scope :=
  { s with
    replacements := without name s.replacements
    renames := without name s.renames
    tombstones := s.tombstones.insert name }

/-- From here on the name goes by another one. -/
def rename (s : Scope) (name fresh : String) : Scope :=
  { s with
    replacements := without name s.replacements
    tombstones := s.tombstones.filter (· != name)
    renames := insert name fresh s.renames }

/-- What the scope says of a name: a tombstone goes before a replacement, and that before a new
name. -/
def binding? (s : Scope) (name : String) : Option Binding :=
  if s.tombstones.contains name then some .shadow
  else
    match s.replacements.lookup name with
    | some replacement => some (.replace replacement)
    | none => (s.renames.lookup name).map .rename

/-- Whether a binder of that name would catch a variable of a replacement or of a renamed binder. -/
def catches (s : Scope) (name : String) : Bool :=
  s.free.contains name || s.renames.any fun e => e.2 == name

end Scope

namespace Scopes

def empty : Scopes := ⟨[]⟩

def depth (s : Scopes) : Nat := s.stack.length

def push (s : Scopes) : Scopes := ⟨.empty :: s.stack⟩

def pop (s : Scopes) : Except CompileError Scopes :=
  match s.stack with
  | [] => .error (.invariant .popEmpty)
  | _ :: rest => .ok ⟨rest⟩

def modifyInnermost (s : Scopes) (f : Scope → Scope) : Except CompileError Scopes :=
  match s.stack with
  | [] => .error (.invariant .noScope)
  | top :: rest => .ok ⟨f top :: rest⟩

def substitute (s : Scopes) (name : String) (replacement : Expr) : Except CompileError Scopes :=
  s.modifyInnermost fun scope => scope.substitute name replacement

def tombstone (s : Scopes) (name : String) : Except CompileError Scopes :=
  s.modifyInnermost fun scope => scope.tombstone name

def rename (s : Scopes) (name fresh : String) : Except CompileError Scopes :=
  s.modifyInnermost fun scope => scope.rename name fresh

/-- What the innermost scope that says something of a name says; none for a free name. -/
def lookup? (s : Scopes) (name : String) : Option Binding :=
  s.stack.findSome? fun scope => scope.binding? name

def wouldCapture (s : Scopes) (name : String) : Bool := s.stack.any fun scope => scope.catches name

/-- Names that a fresh binder must not take. -/
def taken (s : Scopes) : List String :=
  s.stack.flatMap fun scope => scope.free ++ scope.renames.map Prod.snd

def mustBeEmpty (s : Scopes) : Except CompileError Unit :=
  if s.stack.isEmpty then .ok () else .error (.invariant (.scopesOpen s.depth))

end Scopes
end ViewCircuit
