import ViewCircuit.Double
import ViewCircuit.Primitive

/-! Typed expressions: every node carries its form and the type it was built with. -/
namespace ViewCircuit

structure Param where
  name : String
  ty : Ty
  deriving DecidableEq

mutual
/-- `null` of a nullable type is its empty option, of the NULL type the untyped NULL. Integers take
their width from the type of the node. -/
inductive Literal where
  | null
  | bool (value : Bool)
  | int (value : Int)
  | float (value : Double)
  | decimal (text : String)
  | string (value : String)
  | date (days : Int)
  | timestamp (millis : Int)
  | interval (millis : Int)
  | usize (value : Nat)
  | zset (rows : List (Expr × Int))
  | vec (items : List Expr)

inductive Pattern where
  | ident (name : String) (mutable : Bool)
  | wildcard
  | tuple (items : List Pattern)
  | some (inner : Pattern)
  | literal (value : Literal)

/-- A block is a chain of bindings and statements that ends in an optional result. A binding is
visible in the rest of the chain, and not in its own initial value. -/
inductive Block where
  | done (result : Option Expr)
  | bind (name : String) (ty : Ty) (mutable : Bool) (init : Option Expr) (rest : Block)
  | exec (statement : Expr) (rest : Block)

inductive Form where
  | literal (value : Literal)
  | var (name : String)
  | field (base : Expr) (index : Nat)
  | unary (op : UnaryOp) (operand : Expr)
  | binary (op : BinaryOp) (left right : Expr)
  | apply (function : Expr) (args : List Expr)
  | call (function : String) (args : List Expr)
  | closure (params : List Param) (body : Expr)
  | tuple (fields : List Expr)
  | rawTuple (fields : List Expr)
  | struct (name : String) (fields : List Expr)
  | block (body : Block)
  | ite (condition yes no : Expr)
  | cases (scrutinee : Expr) (arms : List (Pattern × Expr))
  | cast (operand : Expr)
  | isNull (operand : Expr)
  | borrow (operand : Expr)
  | deref (operand : Expr)
  | range (start stop : Option Expr) (inclusive : Bool)
  | some (operand : Expr)
  /-- Initial accumulator, step from accumulator, row and weight, and last step. -/
  | fold (zero increment post : Expr)

structure Expr where
  form : Form
  ty : Ty
end

deriving instance BEq for Expr, Form, Block, Pattern, Literal

namespace Pattern

mutual
/-- Names bound by the pattern, from left to right. -/
def bindings : Pattern → List String
  | .ident name _ => [name]
  | .tuple items => bindingsAll items
  | .some inner => inner.bindings
  | .wildcard | .literal _ => []
def bindingsAll : List Pattern → List String
  | [] => []
  | p :: ps => p.bindings ++ bindingsAll ps
end

mutual
/-- The pattern with its names changed. -/
def rename (f : String → String) : Pattern → Pattern
  | .ident name mutable => .ident (f name) mutable
  | .tuple items => .tuple (renameAll f items)
  | .some inner => .some (inner.rename f)
  | .wildcard => .wildcard
  | .literal value => .literal value
def renameAll (f : String → String) : List Pattern → List Pattern
  | [] => []
  | p :: ps => p.rename f :: renameAll f ps
end

mutual
theorem bindings_rename (f : String → String) : ∀ p : Pattern,
    (p.rename f).bindings = p.bindings.map f
  | .ident _ _ => rfl
  | .tuple items => by simpa [rename, bindings] using bindingsAll_renameAll f items
  | .some inner => by simpa [rename, bindings] using bindings_rename f inner
  | .wildcard | .literal _ => rfl
theorem bindingsAll_renameAll (f : String → String) : ∀ ps : List Pattern,
    bindingsAll (renameAll f ps) = (bindingsAll ps).map f
  | [] => rfl
  | p :: ps => by simp [renameAll, bindingsAll, bindings_rename f p, bindingsAll_renameAll f ps]
end

end Pattern

namespace Expr

/-- The value of a boolean literal. -/
def boolLiteral? (e : Expr) : Option Bool :=
  match e.form with
  | .literal (.bool b) => some b
  | _ => none

def isNullLiteral (e : Expr) : Bool :=
  match e.form with
  | .literal .null => true
  | _ => false

/-- Parameters and body of a literal closure. -/
def closure? (e : Expr) : Option (List Param × Expr) :=
  match e.form with
  | .closure params body => some (params, body)
  | _ => none

/-- What a function returns, or a fold after its last step. -/
def resultType? (e : Expr) : Option Ty :=
  match e.ty.kind with
  | .function _ result => some result
  | .user "Fold" args => args[2]?
  | _ => none

mutual
/-- Variables that occur outside the reach of a binder of their name. Literals inside patterns are
constants and count for none. -/
def free : Expr → List String
  | ⟨.var name, _⟩ => [name]
  | ⟨.literal (.zset rows), _⟩ => freeRows rows
  | ⟨.literal (.vec items), _⟩ => freeAll items
  | ⟨.literal _, _⟩ => []
  | ⟨.field e _, _⟩ | ⟨.unary _ e, _⟩ | ⟨.cast e, _⟩ | ⟨.isNull e, _⟩ | ⟨.borrow e, _⟩
  | ⟨.deref e, _⟩ | ⟨.some e, _⟩ => e.free
  | ⟨.binary _ l r, _⟩ => l.free ++ r.free
  | ⟨.apply f args, _⟩ => f.free ++ freeAll args
  | ⟨.call _ es, _⟩ | ⟨.tuple es, _⟩ | ⟨.rawTuple es, _⟩ | ⟨.struct _ es, _⟩ => freeAll es
  | ⟨.closure params body, _⟩ => body.free.filter fun x => !(params.map Param.name).contains x
  | ⟨.block body, _⟩ => freeBlock body
  | ⟨.ite c y n, _⟩ => c.free ++ y.free ++ n.free
  | ⟨.cases e arms, _⟩ => e.free ++ freeArms arms
  | ⟨.range start stop _, _⟩ => freeOption start ++ freeOption stop
  | ⟨.fold z i p, _⟩ => z.free ++ i.free ++ p.free
def freeAll : List Expr → List String
  | [] => []
  | e :: es => e.free ++ freeAll es
def freeOption : Option Expr → List String
  | none => []
  | some e => e.free
def freeRows : List (Expr × Int) → List String
  | [] => []
  | (e, _) :: rows => e.free ++ freeRows rows
def freeArms : List (Pattern × Expr) → List String
  | [] => []
  | (p, e) :: arms => (e.free.filter fun x => !p.bindings.contains x) ++ freeArms arms
def freeBlock : Block → List String
  | .done result => freeOption result
  | .bind name _ _ init rest => freeOption init ++ (freeBlock rest).filter fun x => x != name
  | .exec e rest => e.free ++ freeBlock rest
end

end Expr
end ViewCircuit
