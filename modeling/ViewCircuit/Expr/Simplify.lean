import ViewCircuit.Expr.Build
import ViewCircuit.Expr.BottomUp

/-! Local simplifications, tried once at every node after its parts. -/
namespace ViewCircuit.Expr

/-- A literal on one side of a logical operator: the absorbing value decides alone, the other one
leaves the other side. -/
def absorb? (absorbing : Bool) (literal other : Expr) : Option Expr :=
  match literal.boolLiteral? with
  | none => none
  | some b =>
    if b == absorbing then some (Expr.bool absorbing)
    else if other.ty.same Ty.bool then some other
    else none

/-- A branch that stands for a conditional of type `ty`; it is wrapped when only the other branch
was nullable. -/
def chosen? (ty : Ty) (branch : Expr) : Option Expr :=
  if branch.ty.same ty then some branch
  else if ty.same branch.ty.nullable then (someOf branch).toOption
  else none

/-- The simplification that applies at a node, if one does. -/
def simpler? (e : Expr) : Option Expr :=
  match e.form with
  | .isNull operand => if operand.ty.mayBeNull then none else some (Expr.bool false)
  | .cast operand =>
    if operand.ty.isNullType && operand.isNullLiteral && e.ty.mayBeNull then some (noneOf e.ty)
    else none
  | .ite condition yes no =>
    match condition.boolLiteral? with
    | none => none
    | some b => chosen? e.ty (if b then yes else no)
  | .binary op left right =>
    if op.isLogical && e.ty.same Ty.bool then
      let absorbing := op == .or
      (absorb? absorbing left right).or (absorb? absorbing right left)
    else none
  | _ => none

def simplify (e : Expr) : Reduct Expr := e.bottomUp simpler?

end ViewCircuit.Expr
