import ViewCircuit.Proofs.Related

/-! Well-typed expressions and the values of their types. -/
namespace ViewCircuit

open List (Forall₂)

/-- An atom under a type: NULL needs a nullable one, all others a type of their kind. -/
def Atom.Fits (a : Atom) (t : Ty) : Prop :=
  match a with
  | .null => t.mayBeNull
  | .bool _ => t.kind = .bool
  | .int width _ => t.kind = .integer width
  | .float _ => t.kind = .float
  | .double _ => t.kind = .double
  | .decimal precision scale _ => t.kind = .decimal precision scale
  | .string _ => t.kind = .string
  | .date _ => t.kind = .date
  | .timestamp _ => t.kind = .timestamp
  | .interval _ => t.kind = .interval
  | .usize _ => t.kind = .usize

/-- Types of variables, the latest binding first. -/
abbrev TyEnv := List (String × Ty)

def Param.entry (p : Param) : String × Ty := (p.name, p.ty)

mutual
/-- The names a pattern binds, with their types when it is matched against a type. -/
def Pattern.types? : Pattern → Ty → Option TyEnv
  | .ident name _, t => Option.some [(name, t)]
  | .tuple items, t => t.tupleFields?.bind (Pattern.typesAll? items)
  | .some inner, t => inner.types? t.nonNull
  | .wildcard, _ | .literal _, _ => Option.some []
def Pattern.typesAll? : List Pattern → List Ty → Option TyEnv
  | [], [] => Option.some []
  | p :: ps, t :: ts => do return (← p.types? t) ++ (← Pattern.typesAll? ps ts)
  | _, _ => none
end

mutual
/-- Every node has the type its constructor computes, every literal belongs to its type, every
variable has the type of its binder, and no variable or parameter has the wildcard type. -/
inductive WellTyped : TyEnv → Expr → Prop
  | literal {Γ : TyEnv} {value : Literal} {a : Atom} {t : Ty} : value.atom? t = some a →
      a.Fits t → WellTyped Γ (Expr.literal value t)
  | zset {Γ : TyEnv} {element : Ty} {rows : List (Expr × Int)} {e : Expr} :
      (∀ row ∈ rows, WellTyped Γ row.1) → Expr.zset element rows = .ok e → WellTyped Γ e
  | vec {Γ : TyEnv} {element : Ty} {items : List Expr} {e : Expr} :
      (∀ item ∈ items, WellTyped Γ item) → Expr.vec element items = .ok e → WellTyped Γ e
  | var {Γ : TyEnv} {name : String} {t : Ty} : Γ.lookup name = some t → t.isAny = false →
      WellTyped Γ (Expr.var name t)
  | field {Γ : TyEnv} {base e : Expr} {index : Nat} : WellTyped Γ base →
      Expr.field base index = .ok e → WellTyped Γ e
  | borrow {Γ : TyEnv} {operand : Expr} : WellTyped Γ operand →
      WellTyped Γ (Expr.borrow operand)
  | deref {Γ : TyEnv} {operand e : Expr} : WellTyped Γ operand → Expr.deref operand = .ok e →
      WellTyped Γ e
  | unary {Γ : TyEnv} {op : UnaryOp} {operand e : Expr} : WellTyped Γ operand →
      Expr.unary op operand = .ok e → WellTyped Γ e
  | binary {Γ : TyEnv} {op : BinaryOp} {left right e : Expr} : WellTyped Γ left →
      WellTyped Γ right → Expr.binary op left right = .ok e → WellTyped Γ e
  | call {Γ : TyEnv} {function : String} {args : List Expr} {result : Ty} :
      (∀ arg ∈ args, WellTyped Γ arg) → WellTyped Γ (Expr.call function args result)
  | apply {Γ : TyEnv} {function e : Expr} {args : List Expr} : WellTyped Γ function →
      (∀ arg ∈ args, WellTyped Γ arg) → Expr.apply function args = .ok e → WellTyped Γ e
  | closure {Γ : TyEnv} {params : List Param} {body : Expr} :
      (∀ p ∈ params, p.ty.isAny = false) →
      WellTyped ((params.map Param.entry).reverse ++ Γ) body →
      WellTyped Γ (Expr.closure params body)
  | tuple {Γ : TyEnv} {fields : List Expr} : (∀ field ∈ fields, WellTyped Γ field) →
      WellTyped Γ (Expr.tuple fields)
  | rawTuple {Γ : TyEnv} {fields : List Expr} : (∀ field ∈ fields, WellTyped Γ field) →
      WellTyped Γ (Expr.rawTuple fields)
  | struct {Γ : TyEnv} {ty : Ty} {fields : List Expr} {e : Expr} :
      (∀ field ∈ fields, WellTyped Γ field) → Expr.struct ty fields = .ok e → WellTyped Γ e
  | some {Γ : TyEnv} {operand e : Expr} : WellTyped Γ operand → Expr.someOf operand = .ok e →
      WellTyped Γ e
  | block {Γ : TyEnv} {body : Block} : WellTypedBlock Γ body → WellTyped Γ (Expr.block body)
  | ite {Γ : TyEnv} {condition yes no e : Expr} : WellTyped Γ condition → WellTyped Γ yes →
      WellTyped Γ no → Expr.ite condition yes no = .ok e → WellTyped Γ e
  | cases {Γ : TyEnv} {scrutinee e : Expr} {arms : List (Pattern × Expr)} :
      WellTyped Γ scrutinee → WellTypedArms Γ scrutinee.ty arms →
      Expr.cases scrutinee arms = .ok e → WellTyped Γ e
  | cast {Γ : TyEnv} {operand : Expr} {ty : Ty} : WellTyped Γ operand →
      WellTyped Γ (Expr.cast operand ty)
  | isNull {Γ : TyEnv} {operand : Expr} : WellTyped Γ operand → WellTyped Γ (Expr.isNull operand)
  | range {Γ : TyEnv} {start stop : Option Expr} {inclusive : Bool} {e : Expr} :
      (∀ part ∈ start.toList ++ stop.toList, WellTyped Γ part) →
      Expr.range start stop inclusive = .ok e → WellTyped Γ e
  | fold {Γ : TyEnv} {row : Ty} {zero increment post e : Expr} : WellTyped Γ zero →
      WellTyped Γ increment → WellTyped Γ post → Expr.fold row zero increment post = .ok e →
      WellTyped Γ e

/-- The parts of a block, each under the bindings before it. -/
inductive WellTypedBlock : TyEnv → Block → Prop
  | unit {Γ : TyEnv} : WellTypedBlock Γ (.done none)
  | result {Γ : TyEnv} {e : Expr} : WellTyped Γ e → WellTypedBlock Γ (.done (some e))
  | declare {Γ : TyEnv} {name : String} {ty : Ty} {mutable : Bool} {rest : Block} :
      WellTypedBlock ((name, ty) :: Γ) rest → WellTypedBlock Γ (.bind name ty mutable none rest)
  | bind {Γ : TyEnv} {name : String} {ty : Ty} {mutable : Bool} {init : Expr} {rest : Block} :
      WellTyped Γ init → init.ty = ty → WellTypedBlock ((name, ty) :: Γ) rest →
      WellTypedBlock Γ (.bind name ty mutable (some init) rest)
  | exec {Γ : TyEnv} {statement : Expr} {rest : Block} : WellTyped Γ statement →
      WellTypedBlock Γ rest → WellTypedBlock Γ (.exec statement rest)

/-- The arms of a match against a type, each under what its pattern binds. -/
inductive WellTypedArms : TyEnv → Ty → List (Pattern × Expr) → Prop
  | nil {Γ : TyEnv} {t : Ty} : WellTypedArms Γ t []
  | cons {Γ Δ : TyEnv} {t : Ty} {p : Pattern} {body : Expr} {arms : List (Pattern × Expr)} :
      p.types? t = some Δ → WellTyped (Δ.reverse ++ Γ) body → WellTypedArms Γ t arms →
      WellTypedArms Γ t ((p, body) :: arms)
end

/-- The values of a type. NULL belongs to the nullable types; the wildcard and the types of the
runtime library hold every other value, the wildcard without a NULL behind its references. -/
inductive Val.HasTy : Val → Ty → Prop
  | atom {a : Atom} {t : Ty} : a.Fits t → HasTy (.atom a) t
  | tuple {vs : List Val} {t : Ty} {ts : List Ty} : t.tupleFields? = some ts →
      Forall₂ HasTy vs ts → HasTy (.node .tuple vs) t
  | struct {vs : List Val} {name : String} {fields : List (String × Ty)} {n : Bool} :
      Forall₂ HasTy vs (fields.map Prod.snd) → HasTy (.node .tuple vs) ⟨.struct name fields, n⟩
  | vec {vs : List Val} {element : Ty} {n : Bool} : (∀ v ∈ vs, HasTy v element) →
      HasTy (.node .vec vs) ⟨.vec element, n⟩
  | zset {vs : List Val} {weights : List Int} {element : Ty} {n : Bool} :
      (∀ v ∈ vs, HasTy v element) → HasTy (.node (.zset weights) vs) ⟨.zset element, n⟩
  | ref {v : Val} {t : Ty} {n : Bool} : HasTy v t → HasTy (.node .ref [v]) ⟨.ref t, n⟩
  | closure {names : List String} {values : List Val} {params : List Param} {body : Expr}
      {Γ : TyEnv} {n : Bool} :
      (∀ x v t, (names.zip values).lookup x = some v → Γ.lookup x = some t → HasTy v t) →
      (∀ p ∈ params, p.ty.isAny = false) →
      WellTyped ((params.map Param.entry).reverse ++ Γ) body →
      HasTy (.closure names values params body) ⟨.function (params.map Param.ty) body.ty, n⟩
  | any {v : Val} {n : Bool} : v.isNull = false → (∀ u, v.deref? ≠ some u) → HasTy v ⟨.any, n⟩
  | anyRef {v : Val} {n : Bool} : HasTy v Ty.any → HasTy (.node .ref [v]) ⟨.any, n⟩
  | user {v : Val} {name : String} {args : List Ty} {n : Bool} : v.isNull = false →
      HasTy v ⟨.user name args, n⟩
  | indexed {v : Val} {key value : Ty} {n : Bool} : v.isNull = false →
      HasTy v ⟨.indexedZSet key value, n⟩

/-- Every variable with a type and a value has a value of its type. -/
def EnvTyped (Γ : TyEnv) (ρ : Env) : Prop :=
  ∀ x v t, ρ.lookup x = some v → Γ.lookup x = some t → v.HasTy t

/-- Operand and result types of an instruction. -/
inductive Instruction.Sig : Instruction → List Ty → Ty → Prop
  | not {t : Ty} : t.isBool → Sig (.unary .not) [t] t
  | neg {t : Ty} : t.isNumeric → Sig (.unary .neg) [t] t
  | binary {op : BinaryOp} {s t : Ty} {p : Primitive} : Primitive.binary op s t = .ok p →
      Sig (.binary op) [s, t] p.result
  | call {function : String} {ts : List Ty} {t : Ty} : Sig (.call function t) ts t
  | cast {s t : Ty} : Sig (.cast t) [s] t

/-- What the runtime returns has the declared type. -/
def Runtime.Typed (rt : Runtime) : Prop :=
  ∀ i ts t vs v, Instruction.Sig i ts t → Forall₂ Val.HasTy vs ts → rt i vs = some v → v.HasTy t

namespace Val.HasTy

variable {v : Val} {t : Ty}

/-- NULL is a value of the nullable types only. -/
theorem isNull_eq_false (h : v.HasTy t) (ht : t.mayBeNull = false) : v.isNull = false := by
  cases h with
  | @atom a _ ha => cases a <;> simp_all [Atom.Fits, Val.isNull]
  | any hv | user hv | indexed hv => exact hv
  | _ => rfl

theorem mayBeNull (h : v.HasTy t) (hv : v.isNull) : t.mayBeNull := by
  by_contra hmay
  rw [h.isNull_eq_false (by simpa using hmay)] at hv
  cases hv

/-- Nullability can be changed, but NULL needs it. -/
theorem withNull (h : v.HasTy t) {n : Bool} (hn : v.isNull → n) : v.HasTy (t.withNull n) := by
  cases h with
  | @atom a _ ha =>
    cases a with
    | null => exact .atom (hn rfl)
    | _ => exact .atom ha
  | tuple ht hvs => exact .tuple ht hvs
  | struct hvs => exact .struct hvs
  | vec hvs => exact .vec hvs
  | zset hvs => exact .zset hvs
  | ref hv => exact .ref hv
  | closure henv hany hbody => exact .closure henv hany hbody
  | any hv href => exact .any hv href
  | anyRef hv => exact .anyRef hv
  | user hv => exact .user hv
  | indexed hv => exact .indexed hv

theorem nullable (h : v.HasTy t) : v.HasTy t.nullable := h.withNull fun _ => rfl

/-- A value stays one of a type of the same kind that allows at least the same NULLs. -/
theorem widen {s : Ty} (h : v.HasTy t) (hkind : s.kind = t.kind)
    (hnull : t.mayBeNull → s.mayBeNull) : v.HasTy s := by
  obtain ⟨kind, n⟩ := s
  obtain rfl : kind = t.kind := hkind
  refine h.withNull (n := n) fun hv => hnull ?_
  by_contra ht
  rw [h.isNull_eq_false (by simpa using ht)] at hv
  cases hv

theorem eq_bool (h : v.HasTy t) (ht : t.kind = .bool) (hn : t.mayBeNull = false) :
    ∃ b, v = Val.bool b := by
  cases h with
  | @atom a _ ha => cases a <;> simp_all [Atom.Fits, Val.bool]
  | tuple hts => simp [Ty.tupleFields?, ht] at hts
  | _ => cases ht

theorem bool {b : Bool} (ht : t.kind = .bool) : (Val.bool b).HasTy t := .atom ht

end Val.HasTy

/-- A binding of a name to a value of its type. -/
def TypedBinding (b : String × Val) (d : String × Ty) : Prop := b.1 = d.1 ∧ b.2.HasTy d.2

namespace EnvTyped

variable {Γ Δ : TyEnv} {ρ : Env}

theorem append (h : EnvTyped Γ ρ) {bindings : Env} (hb : Forall₂ TypedBinding bindings Δ) :
    EnvTyped (Δ ++ Γ) (bindings ++ ρ) := by
  induction hb with
  | nil => exact h
  | @cons b d _ _ hbd _ ih =>
    intro x v t hv ht
    rw [List.cons_append, lookup_cons_eq] at hv ht
    rw [hbd.1] at hv
    split_ifs at hv ht with hx
    · rw [← Option.some.inj hv, ← Option.some.inj ht]
      exact hbd.2
    · exact ih x v t hv ht

theorem cons (h : EnvTyped Γ ρ) {x : String} {v : Val} {t : Ty} (hv : v.HasTy t) :
    EnvTyped ((x, t) :: Γ) ((x, v) :: ρ) :=
  h.append (.cons ⟨rfl, hv⟩ .nil)

theorem hide (h : EnvTyped Γ ρ) {x : String} {t : Ty} : EnvTyped ((x, t) :: Γ) (ρ.hide x) := by
  intro y v s hv hs
  rw [Env.lookup_hide] at hv
  rw [lookup_cons_eq] at hs
  split_ifs at hv hs
  exact h y v s hv hs

end EnvTyped

mutual
/-- What a pattern binds has the types that the pattern gives. -/
theorem bind?_typed : ∀ (p : Pattern) {t : Ty} {Δ : TyEnv} {v : Val} {bindings : Env},
    p.types? t = some Δ → v.HasTy t → p.bind? v = some bindings →
    Forall₂ TypedBinding bindings Δ
  | .ident name _, t, Δ, v, bindings, ht, hv, hb => by
    obtain rfl := Option.some.inj ht
    obtain rfl := Option.some.inj hb
    exact .cons ⟨rfl, hv⟩ .nil
  | .wildcard, t, Δ, v, bindings, ht, _, hb => by
    obtain rfl := Option.some.inj ht
    obtain rfl := Option.some.inj hb
    exact .nil
  | .tuple items, t, Δ, v, bindings, ht, hv, hb => by
    obtain ⟨ts, hts, hΔ⟩ := Option.bind_eq_some_iff.1 ht
    cases hv with
    | tuple hts' hvs =>
      obtain rfl := Option.some.inj (hts.symm.trans hts')
      exact bindAll?_typed items hΔ hvs (by simpa only [Pattern.bind?] using hb)
    | atom | vec | zset | ref | closure | anyRef => cases hb
    | struct | any | user | indexed => cases hts
  | .some inner, t, Δ, v, bindings, ht, hv, hb => by
    simp only [Pattern.bind?] at hb
    split at hb
    · cases hb
    · rename_i hnull
      exact bind?_typed inner ht (hv.withNull fun h => absurd h hnull) hb
  | .literal value, t, Δ, v, bindings, ht, _, hb => by
    obtain rfl := Option.some.inj ht
    cases v with
    | atom a =>
      simp only [Pattern.bind?] at hb
      split at hb
      · obtain rfl := Option.some.inj hb
        exact .nil
      · cases hb
    | _ => cases hb
theorem bindAll?_typed : ∀ (ps : List Pattern) {ts : List Ty} {Δ : TyEnv} {vs : List Val}
    {bindings : Env}, Pattern.typesAll? ps ts = some Δ → Forall₂ Val.HasTy vs ts →
    Pattern.bindAll? ps vs = some bindings → Forall₂ TypedBinding bindings Δ
  | [], [], _, _, _, ht, .nil, hb => by
    obtain rfl := Option.some.inj ht
    obtain rfl := Option.some.inj hb
    exact .nil
  | p :: ps, t :: ts, _, v :: vs, _, ht, .cons hv hvs, hb => by
    simp only [Pattern.typesAll?, Option.bind_eq_bind, Option.bind_eq_some_iff] at ht
    simp only [Pattern.bindAll?, Option.bind_eq_bind, Option.bind_eq_some_iff] at hb
    obtain ⟨Δ₁, hΔ₁, Δ₂, hΔ₂, hΔ⟩ := ht
    obtain ⟨bs₁, hbs₁, bs₂, hbs₂, hbs⟩ := hb
    obtain rfl := Option.some.inj hΔ
    obtain rfl := Option.some.inj hbs
    exact List.rel_append (bind?_typed p hΔ₁ hv hbs₁) (bindAll?_typed ps hΔ₂ hvs hbs₂)
end

/-- The chosen arm is well-typed under what its pattern binds. -/
theorem WellTypedArms.firstMatch {Γ : TyEnv} {t : Ty} {arms : List (Pattern × Expr)}
    (h : WellTypedArms Γ t arms) {v : Val} (hv : v.HasTy t) {bindings : Env} {body : Expr}
    (hmatch : firstMatch arms v = some (bindings, body)) :
    ∃ Δ, Forall₂ TypedBinding bindings Δ ∧ WellTyped (Δ ++ Γ) body ∧ body ∈ arms.map Prod.snd := by
  induction arms with
  | nil => cases hmatch
  | cons arm arms ih =>
    cases h with
    | @cons _ Δ _ p _ _ hΔ hbody hrest =>
      unfold ViewCircuit.firstMatch at hmatch
      split at hmatch
      · rename_i bs hbs
        obtain ⟨rfl, rfl⟩ := Prod.mk.inj (Option.some.inj hmatch)
        exact ⟨Δ.reverse, List.rel_reverse (bind?_typed p hΔ hv hbs), hbody, by simp⟩
      · obtain ⟨Δ, hΔ, hbody, hmem⟩ := ih hrest hmatch
        exact ⟨Δ, hΔ, hbody, by simp [hmem]⟩

namespace Val.HasTy

variable {v u : Val} {t ty : Ty}

/-- A position of a tuple or struct has the type of that position. -/
theorem getElem? {vs : List Val} {index : Nat} (h : (Val.node .tuple vs).HasTy t)
    (ht : t.field? index = some ty) (hu : vs[index]? = some u) : u.HasTy ty := by
  have hpart : ∀ {ts : List Ty}, Forall₂ Val.HasTy vs ts → ts[index]? = some ty → u.HasTy ty := by
    intro ts hvs hty
    obtain ⟨ty', hty', hu'⟩ := Structural.getElem? hvs hu
    obtain rfl := Option.some.inj (hty'.symm.trans hty)
    exact hu'
  cases h with
  | tuple hts hvs =>
    refine hpart hvs ?_
    unfold Ty.tupleFields? at hts
    unfold Ty.field? at ht
    split at hts
    all_goals simp_all
  | struct hvs => exact hpart hvs (by simpa [Ty.field?] using ht)
  | any | user | indexed => cases ht

theorem field (h : v.HasTy t) {index : Nat} (ht : (t.deref?.getD t).field? index = some ty)
    (hu : v.field? index = some u) : u.HasTy ty := by
  unfold Val.field? at hu
  split at hu
  · have hderef : t.deref? = none := by
      cases h with
      | tuple hts =>
        unfold Ty.tupleFields? at hts
        unfold Ty.deref?
        split at hts <;> simp_all
      | _ => rfl
    rw [hderef] at ht
    exact h.getElem? ht hu
  · cases h with
    | ref hv => exact hv.getElem? ht hu
    | any | anyRef | user | indexed => cases ht
  · cases hu

theorem deref (h : v.HasTy t) (hu : v.deref? = some u) :
    (∀ inner, t.kind = .ref inner → u.HasTy inner) ∧ (t.kind = .any → u.HasTy Ty.any) := by
  unfold Val.deref? at hu
  split at hu
  · obtain rfl := Option.some.inj hu
    cases h with
    | ref hv =>
      refine ⟨fun inner hinner => ?_, nofun⟩
      cases hinner
      exact hv
    | anyRef hv => exact ⟨nofun, fun _ => hv⟩
    | any _ href => exact absurd rfl (href _)
    | user | indexed => exact ⟨nofun, nofun⟩
  · cases hu

end Val.HasTy

theorem Runtime.Typed.run {rt : Runtime} (hrt : rt.Typed) {i : Instruction} {ts : List Ty} {t : Ty}
    {vs : List Val} {v : Val} (hi : i.Sig ts t) (hvs : Forall₂ Val.HasTy vs ts)
    (hv : rt.run i vs = some v) : v.HasTy t := by
  unfold Runtime.run at hv
  split at hv
  · exact hrt i ts t vs v hi hvs (Option.filter_eq_some_iff.1 hv).1
  · cases hv

theorem Val.HasTy.cast {rt : Runtime} (hrt : rt.Typed) {v u : Val} {s t : Ty} (h : v.HasTy s)
    (hu : v.cast rt t = some u) : u.HasTy t := by
  unfold Val.cast at hu
  split at hu
  · split at hu
    · obtain rfl := Option.some.inj hu
      exact .atom ‹_›
    · cases hu
  · exact hrt.run .cast (.cons h .nil) hu

end ViewCircuit
