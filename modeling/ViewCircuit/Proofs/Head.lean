import ViewCircuit.Expr.Reduce
import ViewCircuit.Expr.Simplify

/-! The forms that evaluate all their parts and then combine the values. Each is a head over the
list of its parts, so that what holds of all of them is said once. -/
namespace ViewCircuit

/-- What a form with evaluated parts does with their values. -/
inductive Head where
  | literal (value : Literal)
  | zset (weights : List Int)
  | vec
  | field (index : Nat)
  | unary (op : UnaryOp)
  | binary (op : BinaryOp)
  | call (function : String)
  | tuple
  | rawTuple
  | struct (name : String)
  | cast
  | isNull
  | borrow
  | deref
  | range (hasStart hasStop inclusive : Bool)
  | some
  | fold

/-- Head and parts of a form; none for variables, applications and the forms that bind or branch. -/
def Form.head? : Form → Option (Head × List Expr)
  | .literal (.zset rows) => .some (.zset (rows.map Prod.snd), rows.map Prod.fst)
  | .literal (.vec items) => .some (.vec, items)
  | .literal value => .some (.literal value, [])
  | .field base index => .some (.field index, [base])
  | .unary op operand => .some (.unary op, [operand])
  | .binary op left right => .some (.binary op, [left, right])
  | .call function args => .some (.call function, args)
  | .tuple fields => .some (.tuple, fields)
  | .rawTuple fields => .some (.rawTuple, fields)
  | .struct name fields => .some (.struct name, fields)
  | .cast operand => .some (.cast, [operand])
  | .isNull operand => .some (.isNull, [operand])
  | .borrow operand => .some (.borrow, [operand])
  | .deref operand => .some (.deref, [operand])
  | .range start stop inclusive =>
    .some (.range start.isSome stop.isSome inclusive, start.toList ++ stop.toList)
  | .some operand => .some (.some, [operand])
  | .fold zero increment post => .some (.fold, [zero, increment, post])
  | .var _ | .apply .. | .closure .. | .block _ | .ite .. | .cases .. => none

/-- The form of a head over other parts. -/
def Head.build : Head → List Expr → Form
  | .literal value, _ => .literal value
  | .zset weights, es => .literal (.zset (es.zip weights))
  | .vec, es => .literal (.vec es)
  | .field index, [base] => .field base index
  | .unary op, [operand] => .unary op operand
  | .binary op, [left, right] => .binary op left right
  | .call function, es => .call function es
  | .tuple, es => .tuple es
  | .rawTuple, es => .rawTuple es
  | .struct name, es => .struct name es
  | .cast, [operand] => .cast operand
  | .isNull, [operand] => .isNull operand
  | .borrow, [operand] => .borrow operand
  | .deref, [operand] => .deref operand
  | .range true true inclusive, [start, stop] => .range (.some start) (.some stop) inclusive
  | .range true false inclusive, [start] => .range (.some start) none inclusive
  | .range false true inclusive, [stop] => .range none (.some stop) inclusive
  | .range false false inclusive, [] => .range none none inclusive
  | .some, [operand] => .some operand
  | .fold, [zero, increment, post] => .fold zero increment post
  | _, es => .tuple es

variable {form : Form} {h : Head} {es es' : List Expr}

theorem build_of_head? (hform : form.head? = some (h, es)) : h.build es = form := by
  cases form with
  | literal value =>
    cases value <;> simp only [Form.head?, Option.some.injEq, Prod.mk.injEq] at hform <;>
      obtain ⟨rfl, rfl⟩ := hform
    case zset rows => simp [Head.build, ← List.zip_of_prod rfl rfl]
    all_goals rfl
  | range start stop inclusive =>
    simp only [Form.head?, Option.some.injEq, Prod.mk.injEq] at hform
    obtain ⟨rfl, rfl⟩ := hform
    cases start <;> cases stop <;> rfl
  | var | apply | closure | block | ite | cases => cases hform
  | _ =>
    simp only [Form.head?, Option.some.injEq, Prod.mk.injEq] at hform
    obtain ⟨rfl, rfl⟩ := hform
    rfl

/-- Parts can be exchanged for as many others. -/
theorem head?_build (hform : form.head? = some (h, es)) (hlen : es'.length = es.length) :
    (h.build es').head? = some (h, es') := by
  cases form with
  | literal value =>
    cases value <;> simp only [Form.head?, Option.some.injEq, Prod.mk.injEq] at hform <;>
      obtain ⟨rfl, rfl⟩ := hform
    case zset rows =>
      simp only [List.length_map] at hlen
      simp [Head.build, Form.head?, List.map_fst_zip, List.map_snd_zip, hlen]
    case vec => rfl
    all_goals
      rw [List.length_nil, List.length_eq_zero_iff] at hlen
      subst hlen
      rfl
  | range start stop inclusive =>
    simp only [Form.head?, Option.some.injEq, Prod.mk.injEq] at hform
    obtain ⟨rfl, rfl⟩ := hform
    cases start <;> cases stop <;> simp only [Option.toList, List.length_append,
      List.length_nil, List.length_singleton] at hlen
    case none.none =>
      match es', hlen with
      | [], _ => rfl
    case some.some =>
      match es', hlen with
      | [_, _], _ => rfl
    all_goals
      match es', hlen with
      | [_], _ => rfl
  | var | apply | closure | block | ite | cases => cases hform
  | call | tuple | rawTuple | struct =>
    simp only [Form.head?, Option.some.injEq, Prod.mk.injEq] at hform
    obtain ⟨rfl, rfl⟩ := hform
    rfl
  | field | unary | cast | isNull | borrow | deref | some =>
    simp only [Form.head?, Option.some.injEq, Prod.mk.injEq] at hform
    obtain ⟨rfl, rfl⟩ := hform
    match es', hlen with
    | [_], _ => rfl
  | binary =>
    simp only [Form.head?, Option.some.injEq, Prod.mk.injEq] at hform
    obtain ⟨rfl, rfl⟩ := hform
    match es', hlen with
    | [_, _], _ => rfl
  | fold =>
    simp only [Form.head?, Option.some.injEq, Prod.mk.injEq] at hform
    obtain ⟨rfl, rfl⟩ := hform
    match es', hlen with
    | [_, _, _], _ => rfl

theorem mem_freeAll {x : String} {es : List Expr} :
    x ∈ Expr.freeAll es ↔ ∃ e ∈ es, x ∈ e.free := by
  induction es with
  | nil => simp [Expr.freeAll]
  | cons e es ih => simp [Expr.freeAll, ih]

theorem depth_le_depthAll {e : Expr} {es : List Expr} (h : e ∈ es) :
    e.depth ≤ Expr.depthAll es := by
  induction es with
  | nil => cases h
  | cons e' es ih =>
    unfold Expr.depthAll
    rcases List.mem_cons.1 h with rfl | h
    · exact Nat.le_max_left _ _
    · exact Nat.le_trans (ih h) (Nat.le_max_right _ _)

theorem freeRows_eq (rows : List (Expr × Int)) :
    Expr.freeRows rows = Expr.freeAll (rows.map Prod.fst) := by
  induction rows with
  | nil => rfl
  | cons row rows ih => simp [Expr.freeRows, Expr.freeAll, ih]

theorem depthRows_eq (rows : List (Expr × Int)) :
    Expr.depthRows rows = Expr.depthAll (rows.map Prod.fst) := by
  induction rows with
  | nil => rfl
  | cons row rows ih => simp [Expr.depthRows, Expr.depthAll, ih]

/-- Free variables and depth of a node are those of its parts. -/
theorem free_depth_of_head? {e : Expr} (h' : e.form.head? = some (h, es)) :
    e.free = Expr.freeAll es ∧ e.depth = Expr.depthAll es + 1 := by
  obtain ⟨form, ty⟩ := e
  cases form with
  | literal value =>
    cases value <;> obtain ⟨rfl, rfl⟩ := Prod.mk.inj (Option.some.inj h')
    case zset rows => simp [Expr.free, Expr.depth, freeRows_eq, depthRows_eq]
    case vec items => simp [Expr.free, Expr.depth]
    all_goals simp [Expr.free, Expr.depth, Expr.freeAll, Expr.depthAll]
  | var | apply | closure | block | ite | cases => cases h'
  | range start stop inclusive =>
    obtain ⟨rfl, rfl⟩ := Prod.mk.inj (Option.some.inj h')
    cases start <;> cases stop <;>
      simp [Expr.free, Expr.depth, Expr.freeAll, Expr.depthAll, Expr.freeOption, Expr.depthOption]
  | _ =>
    obtain ⟨rfl, rfl⟩ := Prod.mk.inj (Option.some.inj h')
    simp [Expr.free, Expr.depth, Expr.freeAll, Expr.depthAll]

end ViewCircuit
