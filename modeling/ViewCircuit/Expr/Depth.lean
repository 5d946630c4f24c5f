import ViewCircuit.Expr

/-! How deep expressions nest, counted along the parts that a traversal enters. -/
namespace ViewCircuit.Expr

mutual
/-- One more than the deepest part. Literals inside patterns are constants and count for none. -/
def depth : Expr → Nat
  | ⟨.literal (.zset rows), _⟩ => depthRows rows + 1
  | ⟨.literal (.vec items), _⟩ => depthAll items + 1
  | ⟨.literal _, _⟩ | ⟨.var _, _⟩ => 1
  | ⟨.field e _, _⟩ | ⟨.unary _ e, _⟩ | ⟨.cast e, _⟩ | ⟨.isNull e, _⟩ | ⟨.borrow e, _⟩
  | ⟨.deref e, _⟩ | ⟨.some e, _⟩ => e.depth + 1
  | ⟨.binary _ l r, _⟩ => max l.depth r.depth + 1
  | ⟨.apply f args, _⟩ => max f.depth (depthAll args) + 1
  | ⟨.call _ es, _⟩ | ⟨.tuple es, _⟩ | ⟨.rawTuple es, _⟩ | ⟨.struct _ es, _⟩ => depthAll es + 1
  | ⟨.closure _ body, _⟩ => body.depth + 1
  | ⟨.block body, _⟩ => depthBlock body + 1
  | ⟨.ite c y n, _⟩ => max c.depth (max y.depth n.depth) + 1
  | ⟨.cases e arms, _⟩ => max e.depth (depthArms arms) + 1
  | ⟨.range start stop _, _⟩ => max (depthOption start) (depthOption stop) + 1
  | ⟨.fold z i p, _⟩ => max z.depth (max i.depth p.depth) + 1
def depthAll : List Expr → Nat
  | [] => 0
  | e :: es => max e.depth (depthAll es)
def depthOption : Option Expr → Nat
  | none => 0
  | some e => e.depth
def depthRows : List (Expr × Int) → Nat
  | [] => 0
  | (e, _) :: rows => max e.depth (depthRows rows)
def depthArms : List (Pattern × Expr) → Nat
  | [] => 0
  | (_, e) :: arms => max e.depth (depthArms arms)
def depthBlock : Block → Nat
  | .done result => depthOption result
  | .bind _ _ _ init rest => max (depthOption init) (depthBlock rest)
  | .exec e rest => max e.depth (depthBlock rest)
end

end ViewCircuit.Expr
