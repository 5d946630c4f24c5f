import Mathlib.Tactic.SplitIfs
import ViewCircuit.Proofs.Head
import ViewCircuit.Proofs.Value

/-! Evaluation of expressions: call by value with lexical scoping. A binding is visible to what
follows it, and a later binding of a name shadows an earlier one. -/
namespace ViewCircuit

/-- What is left to the runtime: native operators, library functions and conversions. -/
inductive Instruction where
  | unary (op : UnaryOp)
  | binary (op : BinaryOp)
  | call (function : String) (result : Ty)
  | cast (target : Ty)

/-- The runtime; it fails on operands it does not take. -/
abbrev Runtime := Instruction → List Val → Option Val

/-- The runtime computes on data only. -/
def Runtime.run (rt : Runtime) (i : Instruction) (vs : List Val) : Option Val :=
  if Val.allData vs then (rt i vs).filter Val.isData else none

/-- The value of a literal without parts, under the type of its node. -/
def Literal.atom? : Literal → Ty → Option Atom
  | .null, _ => some .null
  | .bool b, _ => some (.bool b)
  | .int i, ⟨.integer width, _⟩ => some (.int width i)
  | .float x, ⟨.float, _⟩ => some (.float x)
  | .float x, ⟨.double, _⟩ => some (.double x)
  | .decimal text, ⟨.decimal precision scale, _⟩ => some (.decimal precision scale text)
  | .string s, _ => some (.string s)
  | .date days, _ => some (.date days)
  | .timestamp millis, _ => some (.timestamp millis)
  | .interval millis, _ => some (.interval millis)
  | .usize n, _ => some (.usize n)
  | _, _ => none

namespace Val

/-- A position of a tuple, looking through one reference. -/
def field? (v : Val) (index : Nat) : Option Val :=
  match v with
  | node .tuple parts | node .ref [node .tuple parts] => parts[index]?
  | _ => none

def deref? : Val → Option Val
  | node .ref [v] => some v
  | _ => none

end Val

/-- A logical operator on booleans decides by itself, all else is left to the runtime. -/
def BinaryOp.eval (rt : Runtime) (op : BinaryOp) (v w : Val) : Option Val :=
  match op, v, w with
  | .and, .atom (.bool a), .atom (.bool b) => some (Val.bool (a && b))
  | .or, .atom (.bool a), .atom (.bool b) => some (Val.bool (a || b))
  | op, v, w => rt.run (.binary op) [v, w]

/-- NULL stays NULL in a nullable type and has no place in any other. -/
def Val.cast (rt : Runtime) (v : Val) (target : Ty) : Option Val :=
  if v.isNull then if target.mayBeNull then some Val.null else none
  else rt.run (.cast target) [v]

/-- The value of a head under the type of its node, from the values of its parts. -/
def Head.combine (rt : Runtime) (ty : Ty) : Head → List Val → Option Val
  | .literal value, _ => (value.atom? ty).map Val.atom
  | .zset weights, vs => Option.some (Val.node (.zset weights) vs)
  | .vec, vs => Option.some (Val.node .vec vs)
  | .field index, [v] => v.field? index
  | .unary op, [v] => rt.run (.unary op) [v]
  | .binary op, [v, w] => op.eval rt v w
  | .call function, vs => rt.run (.call function ty) vs
  | .tuple, vs | .rawTuple, vs | .struct _, vs => Option.some (Val.tuple vs)
  | .cast, [v] => v.cast rt ty
  | .isNull, [v] => Option.some (Val.bool v.isNull)
  | .borrow, [v] => Option.some (Val.ref v)
  | .deref, [v] => v.deref?
  | .range hasStart hasStop inclusive, vs =>
    Option.some (Val.node (.range hasStart hasStop inclusive) vs)
  | .some, [v] => Option.some v
  | .fold, vs => Option.some (Val.node .fold vs)
  | _, _ => none

/-- Whether a literal of a pattern matches a value. A NaN matches nothing, and neither do literals
with parts. -/
def Literal.matches : Literal → Atom → Bool
  | .null, .null => true
  | .bool a, .bool b => a == b
  | .int i, .int _ j => i == j
  | .float x, .float y | .float x, .double y => x.numEq y
  | .decimal s, .decimal _ _ t => s == t
  | .string s, .string t => s == t
  | .date a, .date b => a == b
  | .timestamp a, .timestamp b => a == b
  | .interval a, .interval b => a == b
  | .usize a, .usize b => a == b
  | _, _ => false

/-- Values by name, the latest binding first. -/
abbrev Env := List (String × Val)

/-- The environment in which a name has no value. -/
def Env.hide (ρ : Env) (name : String) : Env := ρ.filter fun b => b.1 != name

theorem lookup_cons_eq {α : Type} {entry : String × α} {entries : List (String × α)} {x : String} :
    (entry :: entries).lookup x = if x = entry.1 then some entry.2 else entries.lookup x := by
  rw [List.lookup_cons]
  by_cases h : x = entry.1
  · simp [h]
  · have hne : (x == entry.1) = false := by simp [h]
    simp [h, hne]

theorem lookup_filter_ne {α : Type} {entries : List (String × α)} {x y : String} :
    (entries.filter fun entry => entry.1 != x).lookup y =
      if y = x then none else entries.lookup y := by
  induction entries with
  | nil => simp
  | cons entry entries ih =>
    by_cases hb : entry.1 = x
    · have hdrop : (entry.1 != x) = false := by simp [hb]
      rw [List.filter_cons, hdrop, if_neg (by simp), ih, lookup_cons_eq, hb]
      split <;> rfl
    · have hkeep : (entry.1 != x) = true := by simp [hb]
      rw [List.filter_cons, hkeep, if_pos rfl, lookup_cons_eq, lookup_cons_eq, ih]
      split_ifs with hy hx
      · exact absurd (hy.symm.trans hx) hb
      · rfl
      · rfl
      · rfl

theorem mem_of_lookup {α : Type} {entries : List (String × α)} {x : String} {a : α}
    (h : entries.lookup x = some a) : (x, a) ∈ entries := by
  induction entries with
  | nil => cases h
  | cons entry entries ih =>
    rw [lookup_cons_eq] at h
    split_ifs at h with hx
    · obtain rfl := Option.some.inj h
      simp [hx]
    · exact List.mem_cons_of_mem _ (ih h)

theorem Env.lookup_hide {ρ : Env} {x y : String} :
    (ρ.hide x).lookup y = if y = x then none else ρ.lookup y :=
  lookup_filter_ne

namespace Pattern

mutual
/-- The bindings of a match, from left to right. -/
def bind? : Pattern → Val → Option (List (String × Val))
  | .ident name _, v => .some [(name, v)]
  | .wildcard, _ => .some []
  | .tuple items, .node .tuple parts => bindAll? items parts
  | .some inner, v => if v.isNull then none else inner.bind? v
  | .literal value, .atom a => if value.matches a then .some [] else none
  | _, _ => none
def bindAll? : List Pattern → List Val → Option (List (String × Val))
  | [], [] => .some []
  | p :: ps, v :: vs => do return (← p.bind? v) ++ (← bindAll? ps vs)
  | _, _ => none
end

end Pattern

/-- The bindings and the body of the first arm that matches. -/
def firstMatch : List (Pattern × Expr) → Val → Option (Env × Expr)
  | [], _ => none
  | (p, body) :: arms, v =>
    match p.bind? v with
    | some bindings => some (bindings.reverse, body)
    | none => firstMatch arms v

/-- A closure over an environment. -/
def Env.close (ρ : Env) (params : List Param) (body : Expr) : Val :=
  .closure (ρ.map Prod.fst) (ρ.map Prod.snd) params body

/-- The environment and the body of a call. -/
def Val.enter? (f : Val) (args : List Val) : Option (Env × Expr) :=
  match f with
  | closure names values params body =>
    if params.length = args.length then
      some (((params.map Param.name).zip args).reverse ++ names.zip values, body)
    else none
  | _ => none

theorem Val.enter?_eq_some {f : Val} {args : List Val} {ρ : Env} {body : Expr} :
    f.enter? args = some (ρ, body) ↔ ∃ names values params,
      f = closure names values params body ∧ params.length = args.length ∧
      ρ = ((params.map Param.name).zip args).reverse ++ names.zip values := by
  unfold enter?
  split
  · rename_i names values params body'
    split
    · rename_i hlength
      constructor
      · rintro ⟨⟩
        exact ⟨names, values, params, rfl, hlength, rfl⟩
      · rintro ⟨_, _, _, hf, _, rfl⟩
        cases hf
        rfl
    · rename_i hlength
      constructor
      · rintro ⟨⟩
      · rintro ⟨_, _, _, hf, hlength', _⟩
        cases hf
        exact absurd hlength' hlength
  · rename_i hf
    constructor
    · rintro ⟨⟩
    · rintro ⟨names, values, params, rfl, _⟩
      exact absurd rfl (hf _ _ _ _)

section Step

variable (rt : Runtime) (f : Env → Expr → Option (Val × Nat))

/-- Values of parts, and the number of calls they took together. -/
def evalAll (ρ : Env) : List Expr → Option (List Val × Nat)
  | [] => some ([], 0)
  | e :: es => do
    let (v, k) ← f ρ e
    let (vs, l) ← evalAll ρ es
    return (v :: vs, k + l)

def evalBlock (ρ : Env) : Block → Option (Val × Nat)
  | .done none => some (Val.unit, 0)
  | .done (some e) => f ρ e
  | .bind name _ _ none rest => evalBlock (ρ.hide name) rest
  | .bind name _ _ (some e) rest => do
    let (v, k) ← f ρ e
    let (w, l) ← evalBlock ((name, v) :: ρ) rest
    return (w, k + l)
  | .exec e rest => do
    let (_, k) ← f ρ e
    let (w, l) ← evalBlock ρ rest
    return (w, k + l)

/-- One level: `f` does the parts. -/
def evalNode (ρ : Env) (e : Expr) : Option (Val × Nat) :=
  match e.form with
  | .var name => (ρ.lookup name).map fun v => (v, 0)
  | .closure params body => some (ρ.close params body, 0)
  | .apply function args => do
    let (c, k) ← f ρ function
    let (vs, l) ← evalAll f ρ args
    let (ρ', body) ← c.enter? vs
    let (v, m) ← f ρ' body
    return (v, k + l + m + 1)
  | .block body => evalBlock f ρ body
  | .ite condition yes no => do
    let (c, k) ← f ρ condition
    let b ← c.bool?
    let (v, l) ← f ρ (if b then yes else no)
    return (v, k + l)
  | .cases scrutinee arms => do
    let (s, k) ← f ρ scrutinee
    let (bindings, body) ← firstMatch arms s
    let (v, l) ← f (bindings ++ ρ) body
    return (v, k + l)
  | form => do
    let (head, parts) ← form.head?
    let (vs, k) ← evalAll f ρ parts
    let v ← head.combine rt e.ty vs
    return (v, k)

end Step

/-- Evaluates within a bound on the nesting of expressions and calls. -/
def eval (rt : Runtime) : Nat → Env → Expr → Option (Val × Nat)
  | 0, _, _ => none
  | fuel + 1, ρ, e => evalNode rt (eval rt fuel) ρ e

/-- The expression evaluates to the value, with that many calls. -/
def Evals (rt : Runtime) (ρ : Env) (e : Expr) (v : Val) (k : Nat) : Prop :=
  ∃ fuel, eval rt fuel ρ e = some (v, k)

def EvalsAll (rt : Runtime) (ρ : Env) (es : List Expr) (vs : List Val) (k : Nat) : Prop :=
  ∃ fuel, evalAll (eval rt fuel) ρ es = some (vs, k)

def EvalsBlock (rt : Runtime) (ρ : Env) (b : Block) (v : Val) (k : Nat) : Prop :=
  ∃ fuel, evalBlock (eval rt fuel) ρ b = some (v, k)

variable {rt : Runtime} {f g : Env → Expr → Option (Val × Nat)} {ρ : Env} {e : Expr} {v : Val}
  {k : Nat}

section Monotone

/-- Whatever the first evaluator finds, the second finds as well. -/
def Refines (f g : Env → Expr → Option (Val × Nat)) : Prop :=
  ∀ ρ e r, f ρ e = some r → g ρ e = some r

theorem evalAll_cons {es : List Expr} {r : List Val × Nat} :
    evalAll f ρ (e :: es) = some r ↔ ∃ v k vs l, f ρ e = some (v, k) ∧
      evalAll f ρ es = some (vs, l) ∧ (v :: vs, k + l) = r := by
  simp [evalAll, Option.bind_eq_some_iff]

theorem evalBlock_bind {name : String} {ty : Ty} {m : Bool} {rest : Block} {r : Val × Nat} :
    evalBlock f ρ (.bind name ty m (some e) rest) = some r ↔ ∃ v k w l, f ρ e = some (v, k) ∧
      evalBlock f ((name, v) :: ρ) rest = some (w, l) ∧ (w, k + l) = r := by
  simp [evalBlock, Option.bind_eq_some_iff]

theorem evalBlock_exec {rest : Block} {r : Val × Nat} :
    evalBlock f ρ (.exec e rest) = some r ↔ ∃ v k w l, f ρ e = some (v, k) ∧
      evalBlock f ρ rest = some (w, l) ∧ (w, k + l) = r := by
  simp [evalBlock, Option.bind_eq_some_iff]

theorem Refines.evalAll (h : Refines f g) {es : List Expr} {r : List Val × Nat}
    (hr : evalAll f ρ es = some r) : evalAll g ρ es = some r := by
  induction es generalizing r with
  | nil => exact hr
  | cons e es ih =>
    obtain ⟨v, k, vs, l, hv, hvs, rfl⟩ := evalAll_cons.1 hr
    exact evalAll_cons.2 ⟨v, k, vs, l, h ρ e _ hv, ih hvs, rfl⟩

theorem Refines.evalBlock (h : Refines f g) : ∀ (b : Block) (ρ : Env) (r : Val × Nat),
    evalBlock f ρ b = some r → evalBlock g ρ b = some r
  | .done none, _, _, hr => hr
  | .done (some e), ρ, r, hr => h ρ e r hr
  | .bind name _ _ none rest, ρ, r, hr => Refines.evalBlock h rest (ρ.hide name) r hr
  | .bind name _ _ (some e) rest, ρ, r, hr => by
    obtain ⟨v, k, w, l, hv, hw, rfl⟩ := evalBlock_bind.1 hr
    exact evalBlock_bind.2 ⟨v, k, w, l, h ρ e _ hv, Refines.evalBlock h rest _ _ hw, rfl⟩
  | .exec e rest, ρ, r, hr => by
    obtain ⟨v, k, w, l, hv, hw, rfl⟩ := evalBlock_exec.1 hr
    exact evalBlock_exec.2 ⟨v, k, w, l, h ρ e _ hv, Refines.evalBlock h rest _ _ hw, rfl⟩

variable {ty : Ty} {r : Val × Nat}

theorem evalNode_apply {function : Expr} {args : List Expr} :
    evalNode rt f ρ ⟨.apply function args, ty⟩ = some r ↔ ∃ c k vs l ρ' body v m,
      f ρ function = some (c, k) ∧ evalAll f ρ args = some (vs, l) ∧
      c.enter? vs = some (ρ', body) ∧ f ρ' body = some (v, m) ∧ (v, k + l + m + 1) = r := by
  simp [evalNode, Option.bind_eq_some_iff]

theorem evalNode_ite {condition yes no : Expr} :
    evalNode rt f ρ ⟨.ite condition yes no, ty⟩ = some r ↔ ∃ b k v l,
      f ρ condition = some (Val.bool b, k) ∧ f ρ (if b then yes else no) = some (v, l) ∧
      (v, k + l) = r := by
  simp only [evalNode, Option.bind_eq_bind, Option.bind_eq_some_iff, Prod.exists,
    Val.bool?_eq_some]
  constructor
  · rintro ⟨_, k, hc, b, rfl, v, l, hv, hr⟩
    exact ⟨b, k, v, l, hc, hv, by simpa using hr⟩
  · rintro ⟨b, k, v, l, hc, hv, rfl⟩
    exact ⟨_, k, hc, b, rfl, v, l, hv, rfl⟩

theorem evalNode_cases {scrutinee : Expr} {arms : List (Pattern × Expr)} :
    evalNode rt f ρ ⟨.cases scrutinee arms, ty⟩ = some r ↔ ∃ s k bindings body v l,
      f ρ scrutinee = some (s, k) ∧ firstMatch arms s = some (bindings, body) ∧
      f (bindings ++ ρ) body = some (v, l) ∧ (v, k + l) = r := by
  simp [evalNode, Option.bind_eq_some_iff]

theorem evalNode_head {head : Head} {parts : List Expr} (h : e.form.head? = some (head, parts)) :
    evalNode rt f ρ e = some r ↔ ∃ vs k v, evalAll f ρ parts = some (vs, k) ∧
      head.combine rt e.ty vs = some v ∧ (v, k) = r := by
  obtain ⟨form, ty⟩ := e
  cases form with
  | var | apply | closure | block | ite | cases => cases h
  | _ =>
    simp only [evalNode]
    simp only at h
    rw [h]
    simp [Option.bind_eq_some_iff]

theorem Refines.evalNode (h : Refines f g) : Refines (evalNode rt f) (evalNode rt g) := by
  rintro ρ ⟨form, ty⟩ r hr
  cases form with
  | var | closure => exact hr
  | apply function args =>
    obtain ⟨c, k, vs, l, ρ', body, v, m, hc, hvs, henter, hv, rfl⟩ := evalNode_apply.1 hr
    exact evalNode_apply.2
      ⟨c, k, vs, l, ρ', body, v, m, h _ _ _ hc, h.evalAll hvs, henter, h _ _ _ hv, rfl⟩
  | block body => exact h.evalBlock body ρ r hr
  | ite condition yes no =>
    obtain ⟨b, k, v, l, hc, hv, rfl⟩ := evalNode_ite.1 hr
    exact evalNode_ite.2 ⟨b, k, v, l, h _ _ _ hc, h _ _ _ hv, rfl⟩
  | cases scrutinee arms =>
    obtain ⟨s, k, bindings, body, v, l, hs, hmatch, hv, rfl⟩ := evalNode_cases.1 hr
    exact evalNode_cases.2 ⟨s, k, bindings, body, v, l, h _ _ _ hs, hmatch, h _ _ _ hv, rfl⟩
  | literal value =>
    cases value <;>
    · obtain ⟨vs, k, v, hvs, hv, rfl⟩ := (evalNode_head rfl).1 hr
      exact (evalNode_head rfl).2 ⟨vs, k, v, h.evalAll hvs, hv, rfl⟩
  | _ =>
    obtain ⟨vs, k, v, hvs, hv, rfl⟩ := (evalNode_head rfl).1 hr
    exact (evalNode_head rfl).2 ⟨vs, k, v, h.evalAll hvs, hv, rfl⟩

theorem eval_refines_succ (rt : Runtime) (n : Nat) : Refines (eval rt n) (eval rt (n + 1)) := by
  induction n with
  | zero =>
    intro ρ e r hr
    cases hr
  | succ n ih => exact ih.evalNode

/-- More fuel keeps a finished evaluation. -/
theorem eval_refines (rt : Runtime) {m n : Nat} (h : m ≤ n) : Refines (eval rt m) (eval rt n) := by
  induction h with
  | refl => exact fun _ _ _ hr => hr
  | step _ ih => exact fun ρ e r hr => eval_refines_succ rt _ ρ e r (ih ρ e r hr)

end Monotone

section Rules

variable {ty : Ty}

theorem evals_iff : Evals rt ρ e v k ↔ ∃ n, evalNode rt (eval rt n) ρ e = some (v, k) := by
  constructor
  · rintro ⟨fuel, h⟩
    cases fuel with
    | zero => cases h
    | succ n => exact ⟨n, h⟩
  · rintro ⟨n, h⟩
    exact ⟨n + 1, h⟩

theorem evalsAll_nil {vs : List Val} : EvalsAll rt ρ [] vs k ↔ vs = [] ∧ k = 0 := by
  simp [EvalsAll, evalAll, eq_comm]

theorem evalsAll_cons {es : List Expr} {ws : List Val} :
    EvalsAll rt ρ (e :: es) ws k ↔ ∃ v l vs m, Evals rt ρ e v l ∧ EvalsAll rt ρ es vs m ∧
      ws = v :: vs ∧ k = l + m := by
  constructor
  · rintro ⟨n, h⟩
    obtain ⟨v, l, vs, m, hv, hvs, hr⟩ := evalAll_cons.1 h
    obtain ⟨rfl, rfl⟩ := Prod.mk.inj hr
    exact ⟨v, l, vs, m, ⟨n, hv⟩, ⟨n, hvs⟩, rfl, rfl⟩
  · rintro ⟨v, l, vs, m, ⟨n, hv⟩, ⟨n', hvs⟩, rfl, rfl⟩
    refine ⟨max n n', evalAll_cons.2 ⟨v, l, vs, m, ?_, ?_, rfl⟩⟩
    · exact eval_refines rt (Nat.le_max_left n n') ρ e _ hv
    · exact (eval_refines rt (Nat.le_max_right n n')).evalAll hvs

theorem EvalsAll.mem {es : List Expr} {vs : List Val} (h : EvalsAll rt ρ es vs k) (hv : v ∈ vs) :
    ∃ e l, e ∈ es ∧ Evals rt ρ e v l := by
  induction es generalizing vs k with
  | nil =>
    obtain ⟨rfl, -⟩ := evalsAll_nil.1 h
    cases hv
  | cons e es ih =>
    obtain ⟨u, l, us, m, hu, hus, rfl, -⟩ := evalsAll_cons.1 h
    rcases List.mem_cons.1 hv with rfl | hv
    · exact ⟨e, l, by simp, hu⟩
    · obtain ⟨e', l', he', hv'⟩ := ih hus hv
      exact ⟨e', l', by simp [he'], hv'⟩

/-- The value of each part stands at its place. -/
theorem EvalsAll.getElem? {es : List Expr} {vs : List Val} (h : EvalsAll rt ρ es vs k) {n : Nat}
    (he : es[n]? = some e) : ∃ v l, vs[n]? = some v ∧ Evals rt ρ e v l := by
  induction es generalizing n vs k with
  | nil => cases he
  | cons e' es ih =>
    obtain ⟨v, l, vs, m, hv, hvs, rfl, -⟩ := evalsAll_cons.1 h
    cases n with
    | zero =>
      obtain rfl := Option.some.inj he
      exact ⟨v, l, rfl, hv⟩
    | succ n => exact ih hvs he

theorem evals_var {name : String} :
    Evals rt ρ ⟨.var name, ty⟩ v k ↔ ρ.lookup name = some v ∧ k = 0 := by
  simp only [evals_iff, evalNode, Option.map_eq_some_iff, Prod.mk.injEq, exists_const]
  constructor
  · rintro ⟨w, hw, rfl, rfl⟩
    exact ⟨hw, rfl⟩
  · rintro ⟨hv, rfl⟩
    exact ⟨v, hv, rfl, rfl⟩

theorem evals_closure {params : List Param} {body : Expr} :
    Evals rt ρ ⟨.closure params body, ty⟩ v k ↔ v = ρ.close params body ∧ k = 0 := by
  simp [evals_iff, evalNode, eq_comm]

theorem evals_head {head : Head} {parts : List Expr} (h : e.form.head? = some (head, parts)) :
    Evals rt ρ e v k ↔
      ∃ vs, EvalsAll rt ρ parts vs k ∧ head.combine rt e.ty vs = some v := by
  rw [evals_iff]
  constructor
  · rintro ⟨n, hn⟩
    obtain ⟨vs, l, w, hvs, hw, hr⟩ := (evalNode_head h).1 hn
    obtain ⟨rfl, rfl⟩ := Prod.mk.inj hr
    exact ⟨vs, ⟨n, hvs⟩, hw⟩
  · rintro ⟨vs, ⟨n, hvs⟩, hv⟩
    exact ⟨n, (evalNode_head h).2 ⟨vs, k, v, hvs, hv, rfl⟩⟩

theorem evals_head_one {head : Head} {part : Expr} (h : e.form.head? = some (head, [part])) :
    Evals rt ρ e v k ↔ ∃ w, Evals rt ρ part w k ∧ head.combine rt e.ty [w] = some v := by
  rw [evals_head h]
  constructor
  · rintro ⟨_, hparts, hv⟩
    obtain ⟨w, l, _, _, hw, hnil, rfl, rfl⟩ := evalsAll_cons.1 hparts
    obtain ⟨rfl, rfl⟩ := evalsAll_nil.1 hnil
    exact ⟨w, hw, hv⟩
  · rintro ⟨w, hw, hv⟩
    exact ⟨[w], evalsAll_cons.2 ⟨w, k, [], 0, hw, evalsAll_nil.2 ⟨rfl, rfl⟩, rfl, rfl⟩, hv⟩

theorem evals_head_two {head : Head} {left right : Expr} {u : Val}
    (h : e.form.head? = some (head, [left, right])) :
    Evals rt ρ e u k ↔ ∃ v l w m, Evals rt ρ left v l ∧ Evals rt ρ right w m ∧
      head.combine rt e.ty [v, w] = some u ∧ k = l + m := by
  rw [evals_head h]
  constructor
  · rintro ⟨_, hparts, hu⟩
    obtain ⟨v, l, _, m, hv, hrest, rfl, rfl⟩ := evalsAll_cons.1 hparts
    obtain ⟨w, m, _, _, hw, hnil, rfl, rfl⟩ := evalsAll_cons.1 hrest
    obtain ⟨rfl, rfl⟩ := evalsAll_nil.1 hnil
    exact ⟨v, l, w, m, hv, hw, hu, rfl⟩
  · rintro ⟨v, l, w, m, hv, hw, hu, rfl⟩
    exact ⟨[v, w], evalsAll_cons.2 ⟨v, l, [w], m, hv, evalsAll_cons.2
      ⟨w, m, [], 0, hw, evalsAll_nil.2 ⟨rfl, rfl⟩, rfl, rfl⟩, rfl, rfl⟩, hu⟩

theorem evals_apply {function : Expr} {args : List Expr} :
    Evals rt ρ ⟨.apply function args, ty⟩ v k ↔ ∃ c l vs m ρ' body n, Evals rt ρ function c l ∧
      EvalsAll rt ρ args vs m ∧ c.enter? vs = some (ρ', body) ∧ Evals rt ρ' body v n ∧
      k = l + m + n + 1 := by
  rw [evals_iff]
  constructor
  · rintro ⟨fuel, h⟩
    obtain ⟨c, l, vs, m, ρ', body, w, n, hc, hvs, henter, hw, hr⟩ := evalNode_apply.1 h
    obtain ⟨rfl, rfl⟩ := Prod.mk.inj hr
    exact ⟨c, l, vs, m, ρ', body, n, ⟨fuel, hc⟩, ⟨fuel, hvs⟩, henter, ⟨fuel, hw⟩, rfl⟩
  · rintro ⟨c, l, vs, m, ρ', body, n, ⟨x, hc⟩, ⟨y, hvs⟩, henter, ⟨z, hv⟩, rfl⟩
    refine ⟨max x (max y z),
      evalNode_apply.2 ⟨c, l, vs, m, ρ', body, v, n, ?_, ?_, henter, ?_, rfl⟩⟩
    · exact eval_refines rt (by omega) ρ function _ hc
    · exact (eval_refines rt (by omega)).evalAll hvs
    · exact eval_refines rt (by omega) ρ' body _ hv

theorem evals_block {body : Block} :
    Evals rt ρ ⟨.block body, ty⟩ v k ↔ EvalsBlock rt ρ body v k := by
  rw [evals_iff]
  rfl

theorem evals_ite {condition yes no : Expr} :
    Evals rt ρ ⟨.ite condition yes no, ty⟩ v k ↔ ∃ b l m, Evals rt ρ condition (Val.bool b) l ∧
      Evals rt ρ (if b then yes else no) v m ∧ k = l + m := by
  rw [evals_iff]
  constructor
  · rintro ⟨n, h⟩
    obtain ⟨b, l, w, m, hc, hw, hr⟩ := evalNode_ite.1 h
    obtain ⟨rfl, rfl⟩ := Prod.mk.inj hr
    exact ⟨b, l, m, ⟨n, hc⟩, ⟨n, hw⟩, rfl⟩
  · rintro ⟨b, l, m, ⟨n, hc⟩, ⟨n', hv⟩, rfl⟩
    refine ⟨max n n', evalNode_ite.2 ⟨b, l, v, m, ?_, ?_, rfl⟩⟩
    · exact eval_refines rt (Nat.le_max_left n n') ρ condition _ hc
    · exact eval_refines rt (Nat.le_max_right n n') ρ _ _ hv

theorem evals_cases {scrutinee : Expr} {arms : List (Pattern × Expr)} :
    Evals rt ρ ⟨.cases scrutinee arms, ty⟩ v k ↔ ∃ s l bindings body m,
      Evals rt ρ scrutinee s l ∧ firstMatch arms s = some (bindings, body) ∧
      Evals rt (bindings ++ ρ) body v m ∧ k = l + m := by
  rw [evals_iff]
  constructor
  · rintro ⟨n, h⟩
    obtain ⟨s, l, bindings, body, w, m, hs, hmatch, hw, hr⟩ := evalNode_cases.1 h
    obtain ⟨rfl, rfl⟩ := Prod.mk.inj hr
    exact ⟨s, l, bindings, body, m, ⟨n, hs⟩, hmatch, ⟨n, hw⟩, rfl⟩
  · rintro ⟨s, l, bindings, body, m, ⟨n, hs⟩, hmatch, ⟨n', hv⟩, rfl⟩
    refine ⟨max n n', evalNode_cases.2 ⟨s, l, bindings, body, v, m, ?_, hmatch, ?_, rfl⟩⟩
    · exact eval_refines rt (Nat.le_max_left n n') ρ scrutinee _ hs
    · exact eval_refines rt (Nat.le_max_right n n') _ body _ hv

theorem evalsBlock_done_none : EvalsBlock rt ρ (.done none) v k ↔ v = Val.unit ∧ k = 0 := by
  simp [EvalsBlock, evalBlock, eq_comm]

theorem evalsBlock_hide {name : String} {m : Bool} {rest : Block} :
    EvalsBlock rt ρ (.bind name ty m none rest) v k ↔ EvalsBlock rt (ρ.hide name) rest v k :=
  Iff.rfl

theorem evalsBlock_bind {name : String} {mutable : Bool} {rest : Block} :
    EvalsBlock rt ρ (.bind name ty mutable (some e) rest) v k ↔ ∃ w l m, Evals rt ρ e w l ∧
      EvalsBlock rt ((name, w) :: ρ) rest v m ∧ k = l + m := by
  constructor
  · rintro ⟨n, h⟩
    obtain ⟨w, l, u, m, hw, hu, hr⟩ := evalBlock_bind.1 h
    obtain ⟨rfl, rfl⟩ := Prod.mk.inj hr
    exact ⟨w, l, m, ⟨n, hw⟩, ⟨n, hu⟩, rfl⟩
  · rintro ⟨w, l, m, ⟨n, hw⟩, ⟨n', hv⟩, rfl⟩
    refine ⟨max n n', evalBlock_bind.2 ⟨w, l, v, m, ?_, ?_, rfl⟩⟩
    · exact eval_refines rt (Nat.le_max_left n n') ρ e _ hw
    · exact (eval_refines rt (Nat.le_max_right n n')).evalBlock _ _ _ hv

theorem evalsBlock_exec {rest : Block} :
    EvalsBlock rt ρ (.exec e rest) v k ↔ ∃ w l m, Evals rt ρ e w l ∧
      EvalsBlock rt ρ rest v m ∧ k = l + m := by
  constructor
  · rintro ⟨n, h⟩
    obtain ⟨w, l, u, m, hw, hu, hr⟩ := evalBlock_exec.1 h
    obtain ⟨rfl, rfl⟩ := Prod.mk.inj hr
    exact ⟨w, l, m, ⟨n, hw⟩, ⟨n, hu⟩, rfl⟩
  · rintro ⟨w, l, m, ⟨n, hw⟩, ⟨n', hv⟩, rfl⟩
    refine ⟨max n n', evalBlock_exec.2 ⟨w, l, v, m, ?_, ?_, rfl⟩⟩
    · exact eval_refines rt (Nat.le_max_left n n') ρ e _ hw
    · exact (eval_refines rt (Nat.le_max_right n n')).evalBlock _ _ _ hv

end Rules

/-- Evaluation has one outcome. -/
theorem Evals.unique {w : Val} {l : Nat} (hv : Evals rt ρ e v k) (hw : Evals rt ρ e w l) :
    v = w ∧ k = l := by
  obtain ⟨n, hv⟩ := hv
  obtain ⟨n', hw⟩ := hw
  have hv' := eval_refines rt (Nat.le_max_left n n') ρ e _ hv
  have hw' := eval_refines rt (Nat.le_max_right n n') ρ e _ hw
  exact Prod.mk.inj (Option.some.inj (hv'.symm.trans hw'))

end ViewCircuit
