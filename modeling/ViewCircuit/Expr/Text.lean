import ViewCircuit.Double.Shortest
import ViewCircuit.Expr

/-! Expressions, patterns and literals as they are printed in circuit listings. -/
namespace ViewCircuit

open Ty (commas)

mutual
def Literal.text : Literal → String
  | .null => "None"
  | .bool b => if b then "true" else "false"
  | .int i => toString i
  | .float x => x.text
  | .decimal s => "Decimal::from_str(" ++ Text.quoted s ++ ")"
  | .string s => "String::from(" ++ Text.quoted s ++ ")"
  | .date d => "Date::new(" ++ toString d ++ ")"
  | .timestamp t => "Timestamp::new(" ++ toString t ++ ")"
  | .interval i => "ShortInterval::new(" ++ toString i ++ ")"
  | .usize n => toString n ++ "usize"
  | .zset rows => "zset!(" ++ commas (Expr.rowTexts rows) ++ ")"
  | .vec items => "vec!(" ++ commas (Expr.texts items) ++ ")"

def Pattern.text : Pattern → String
  | .ident name mutable => (if mutable then "mut " else "") ++ name
  | .wildcard => "_"
  | .tuple items => "(" ++ commas (Pattern.texts items) ++ ")"
  | .some inner => "Some(" ++ inner.text ++ ")"
  | .literal value => value.text

def Pattern.texts : List Pattern → List String
  | [] => []
  | p :: ps => p.text :: Pattern.texts ps

def Expr.text : Expr → String
  | ⟨.literal .null, ty⟩ => if ty.isNullType then "null" else "None::<" ++ ty.nonNull.text ++ ">"
  | ⟨.literal value, _⟩ => value.text
  | ⟨.var name, _⟩ => name
  | ⟨.field base index, _⟩ => base.text ++ "." ++ toString index
  | ⟨.unary op operand, _⟩ => "(" ++ op.symbol ++ operand.text ++ ")"
  | ⟨.binary op left right, _⟩ =>
    if op.isNative then "(" ++ left.text ++ " " ++ op.symbol ++ " " ++ right.text ++ ")"
    else op.symbol ++ "(" ++ left.text ++ ", " ++ right.text ++ ")"
  | ⟨.apply function args, _⟩ => "(" ++ function.text ++ ")(" ++ commas (Expr.texts args) ++ ")"
  | ⟨.call function args, _⟩ => function ++ "(" ++ commas (Expr.texts args) ++ ")"
  | ⟨.closure params body, _⟩ =>
    "move |" ++ commas (params.map fun p => p.name ++ ": " ++ p.ty.text) ++ "| " ++ body.text
  | ⟨.tuple fields, _⟩ =>
    "Tuple" ++ toString fields.length ++ "::new(" ++ commas (Expr.texts fields) ++ ")"
  | ⟨.rawTuple fields, _⟩ =>
    "(" ++ commas (Expr.texts fields) ++ (if fields.length = 1 then "," else "") ++ ")"
  | ⟨.struct name fields, _⟩ => name ++ "::new(" ++ commas (Expr.texts fields) ++ ")"
  | ⟨.block body, _⟩ => "\x7b " ++ Block.text body ++ "\x7d"
  | ⟨.ite condition yes no, _⟩ =>
    "if " ++ condition.text ++ " \x7b " ++ yes.text ++ " \x7d else \x7b " ++ no.text ++ " \x7d"
  | ⟨.cases scrutinee arms, _⟩ =>
    "match " ++ scrutinee.text ++ " \x7b " ++ String.join (Expr.armTexts arms) ++ "\x7d"
  | ⟨.cast operand, ty⟩ => "(" ++ operand.text ++ " as " ++ ty.text ++ ")"
  | ⟨.isNull operand, _⟩ => operand.text ++ ".is_none()"
  | ⟨.borrow operand, _⟩ => "&" ++ operand.text
  | ⟨.deref operand, _⟩ => "(*" ++ operand.text ++ ")"
  | ⟨.range start stop inclusive, _⟩ =>
    Expr.optionText start ++ (if inclusive then "..=" else "..") ++ Expr.optionText stop
  | ⟨.some operand, _⟩ => "Some(" ++ operand.text ++ ")"
  | ⟨.fold zero increment post, _⟩ =>
    "Fold::with_output(" ++ zero.text ++ ", " ++ increment.text ++ ", " ++ post.text ++ ")"

def Expr.texts : List Expr → List String
  | [] => []
  | e :: es => e.text :: Expr.texts es

def Expr.optionText : Option Expr → String
  | none => ""
  | some e => e.text

def Expr.rowTexts : List (Expr × Int) → List String
  | [] => []
  | (e, w) :: rows => (e.text ++ " => " ++ toString w) :: Expr.rowTexts rows

def Expr.armTexts : List (Pattern × Expr) → List String
  | [] => []
  | (p, e) :: arms => (p.text ++ " => " ++ e.text ++ ", ") :: Expr.armTexts arms

def Block.text : Block → String
  | .done none => ""
  | .done (some e) => e.text ++ " "
  | .bind name ty mutable init rest =>
    "let " ++ (if mutable then "mut " else "") ++ name ++ ": " ++ ty.text ++
      (match init with
      | none => ""
      | some e => " = " ++ e.text) ++ "; " ++ Block.text rest
  | .exec e rest => e.text ++ "; " ++ Block.text rest
end

end ViewCircuit
