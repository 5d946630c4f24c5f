import ViewCircuit.Proofs.FirstOrder
import ViewCircuit.Proofs.Stream
import ViewCircuit.Proofs.WellFormed

/-! Engines run circuits: they evaluate the functions of the operators on the rows that come in. On
data of the declared types, a function returns data of its result type, and its simplified form
returns the same. -/
namespace ViewCircuit

open List (Forall₂)
open scoped Classical

noncomputable section

/-- The value of an expression, if it has one. -/
def valueOf (rt : Runtime) (ρ : Env) (e : Expr) : Option Val :=
  if h : ∃ v k, Evals rt ρ e v k then some h.choose else none

/-- The result of a call. -/
def Val.call (rt : Runtime) (f : Val) (args : List Val) : Option Val :=
  (f.enter? args).bind fun entered => valueOf rt entered.1 entered.2

/-- The result of a fold that takes rows with their weights one after another. -/
def Val.foldRows (rt : Runtime) (f : Val) (rows : List (Val × ℤ)) : Option Val :=
  match f with
  | .node .fold [zero, step, last] =>
    (rows.foldlM (fun acc row => step.call rt [acc, Val.ref row.1, .atom (.int .w64 row.2)])
      zero).bind fun acc => last.call rt [acc]
  | _ => none

/-- The collection of a literal. -/
def Val.rows : Val → ZSet
  | .node (.zset weights) rows => ((rows.zip weights).map fun r => Finsupp.single r.1 r.2).sum
  | _ => 0

/-- A runtime for expressions, the order in which a fold takes the rows of a collection, and the
values in the frame around a key. -/
structure Engine where
  runtime : Runtime
  order : ZSet → List Val
  frame : Expr → ZSet → Val → ZSet

namespace Engine

/-- Folds take rows of the collection, and frames hold values of it. -/
structure Lawful (E : Engine) : Prop where
  typed : E.runtime.Typed
  order : ∀ x, ∀ row ∈ E.order x, row ∈ x.support
  frame : ∀ window x key, ∀ v ∈ (E.frame window x key).support, ∃ k, Val.pair k v ∈ x.support

def apply (E : Engine) (f : Expr) (args : List Val) : Option Val :=
  (valueOf E.runtime [] f).bind fun c => c.call E.runtime args

def fold (E : Engine) (f : Expr) (x : ZSet) : Option Val :=
  (valueOf E.runtime [] f).bind fun c =>
    c.foldRows E.runtime ((E.order x).map fun row => (row, x row))

/-- Whether a function takes the key and the value of a row apart. -/
def takesParts (f : Expr) : Bool :=
  match f.ty.functionParts? with
  | some ([⟨.rawTuple _, _⟩], _) => true
  | _ => false

/-- What a function gets for a row. -/
def argument (f : Expr) (row : Val) : Val :=
  match row.pair? with
  | some (key, value) =>
    if takesParts f then Val.tuple [Val.ref key, Val.ref value] else Val.ref row
  | none => Val.ref row

/-- Functions mean what they evaluate to. -/
def meaning (E : Engine) : Meaning where
  row f row := (E.apply f [argument f row]).getD Val.null
  keep f row := E.apply f [Val.ref row] = some (Val.bool true)
  pair f key x y := (E.apply f [Val.ref key, Val.ref x, Val.ref y]).getD Val.null
  fold f x := (E.fold f x).getD Val.null
  frame window f x key := (E.fold f (E.frame window x key)).getD Val.null
  constant e := ((valueOf E.runtime [] e).map Val.rows).getD 0

end Engine

/-- The functions of an operator give a result on everything it reads. -/
def OperatorKind.Runs (E : Engine) (kind : OperatorKind) (inputs : List ZSet) : Prop :=
  match kind, inputs with
  | .map f, [x] | .index f, [x] => ∀ row ∈ x.support, (E.apply f [Engine.argument f row]).isSome
  | .filter f, [x] => ∀ row ∈ x.support, (E.apply f [Val.ref row]).isSome
  | .join f, [x, y] => ∀ key a b, Val.pair key a ∈ x.support → Val.pair key b ∈ y.support →
      (E.apply f [Val.ref key, Val.ref a, Val.ref b]).isSome
  | .aggregate f, [x] => ∀ key ∈ x.keys, (E.fold f (x.group key)).isSome
  | .windowAggregate window f, [x] => ∀ key ∈ x.keys, (E.fold f (E.frame window x key)).isSome
  | .constant e, _ => (valueOf E.runtime [] e).isSome
  | _, _ => True

/-- No function of the circuit fails on the rows that reach it. -/
def Circuit.Runs (E : Engine) (tables : Tables) (c : Circuit) : Prop :=
  ∀ op ∈ c.operators, op.kind.Runs E (op.inputs.map (Operator.contents E.meaning tables))

/-- The meaning of every function is that of the simplified one. -/
def Meaning.simplified (M : Meaning) : Meaning where
  row f := M.row f.simplify.value
  keep f := M.keep f.simplify.value
  pair f := M.pair f.simplify.value
  fold f := M.fold f.simplify.value
  frame window f := M.frame window f.simplify.value
  constant e := M.constant e.simplify.value

end

/-- Rows of a collection of the type. -/
def Ty.Holds (t : Ty) (row : Val) : Prop :=
  match t.kind with
  | .zset element => row.HasTy element
  | .indexedZSet key value => ∃ k v, row = Val.pair k v ∧ k.HasTy key ∧ v.HasTy value
  | _ => False

/-- All rows are data of the type. -/
def ZSet.Fits (x : ZSet) (t : Ty) : Prop := ∀ row ∈ x.support, row.isData ∧ t.Holds row

section Calls

variable {rt : Runtime} {ρ : Env} {e : Expr} {v : Val}

theorem valueOf_eq_some : valueOf rt ρ e = some v ↔ ∃ k, Evals rt ρ e v k := by
  unfold valueOf
  split
  · rename_i h
    obtain ⟨k, hk⟩ := h.choose_spec
    constructor
    · intro hv
      exact ⟨k, Option.some.inj hv ▸ hk⟩
    · rintro ⟨l, hl⟩
      rw [(hk.unique hl).1]
  · rename_i h
    constructor
    · intro hv
      cases hv
    · rintro ⟨k, hk⟩
      exact absurd ⟨v, k, hk⟩ h

theorem Val.call_eq_some {f : Val} {args : List Val} : f.call rt args = some v ↔
    ∃ ρ body, f.enter? args = some (ρ, body) ∧ ∃ k, Evals rt ρ body v k := by
  simp only [Val.call, Option.bind_eq_some_iff, Prod.exists, valueOf_eq_some]

/-- A simplified function returns a simplified result, of the declared type. -/
theorem Val.call_simplifies (hrt : rt.Typed) {f g : Val} {fty result : Ty} {params : List Ty}
    (hf : f.HasTy fty) (hparts : fty.functionParts? = some (params, result))
    (hfg : f.Simplifies g) {args : List Val} (hargs : Forall₂ Val.HasTy args params)
    (hv : f.call rt args = some v) :
    v.HasTy result ∧ ∃ w, g.call rt args = some w ∧ v.Simplifies w := by
  obtain ⟨ρ, body, henter, k, hv⟩ := Val.call_eq_some.1 hv
  obtain ⟨Γ, hbody, hρ, rfl⟩ := hf.enter_params hparts hargs henter
  refine ⟨hbody.hasTy hrt hρ hv, ?_⟩
  obtain ⟨names, values, ps, rfl, hcount, rfl⟩ := Val.enter?_eq_some.1 henter
  cases hfg with
  | @closure _ _ values' _ _ rule hrule hvalues =>
    obtain ⟨n, hv⟩ := hv
    have hsim := List.rel_append
      (List.rel_reverse (zip_bound (forall₂_simplifies_refl args) (ps.map Param.name)))
      (zip_bound hvalues names)
    obtain ⟨w, l, hw, hvw⟩ := follows hrt n rule Γ _ _ body v k hrule hbody hρ hsim hv
    exact ⟨w, Val.call_eq_some.2 ⟨_, _, Val.enter?_eq_some.2 ⟨_, _, _, rfl, hcount, rfl⟩, l, hw⟩,
      hvw⟩

/-- On data of the parameter types, the second function returns what the first does, and that is
data of the result type. -/
def Computes (rt : Runtime) (params : List Ty) (result : Ty) (f g : Val) : Prop :=
  ∀ args v, Forall₂ Val.HasTy args params → (∀ a ∈ args, a.isData) → f.call rt args = some v →
    v.isData ∧ v.HasTy result ∧ g.call rt args = some v

theorem isData_zip {names : List String} {args : List Val} (h : ∀ a ∈ args, a.isData) :
    Env.IsData (names.zip args).reverse := by
  intro x v hv
  obtain ⟨before, after, hsplit, -⟩ := List.lookup_eq_some_iff.1 hv
  have hmem : (x, v) ∈ (names.zip args).reverse := by simp [hsplit]
  exact h v (List.of_mem_zip (List.mem_reverse.1 hmem)).2

theorem Lambda.computes (hrt : rt.Typed) {f : Expr} (hf : Lambda Literal.Fits f) {params : List Ty}
    {result : Ty} (hparts : f.ty.functionParts? = some (params, result)) {c g : Val} {k : Nat}
    (hc : Evals rt [] f c k) (hcg : c.Simplifies g) : Computes rt params result c g := by
  intro args v hargs hdata hv
  have hcty : c.HasTy f.ty := hf.wellTyped.hasTy hrt (ρ := []) nofun hc
  obtain ⟨hvty, w, hw, hvw⟩ := Val.call_simplifies hrt hcty hparts hcg hargs hv
  have hvdata : v.isData := by
    obtain ⟨-, hbody⟩ := hf
    obtain ⟨rfl, -⟩ := evals_closure.1 hc
    obtain ⟨ρ, body, henter, l, hv⟩ := Val.call_eq_some.1 hv
    obtain ⟨_, _, _, hclosure, -, rfl⟩ := Val.enter?_eq_some.1 henter
    obtain ⟨rfl, rfl, rfl, rfl⟩ := Val.closure.inj hclosure
    refine hbody.plain.isData ?_ hv
    simpa using isData_zip hdata
  obtain rfl := structural_simplifies.eq_of_isData hvw hvdata
  exact ⟨hvdata, hvty, hw⟩

theorem foldlM_call {step step' : Val} {acc row : Ty}
    (hstep : Computes rt [acc, Ty.ref row, Ty.int64] acc step step') {rows : List (Val × ℤ)}
    (hrows : ∀ r ∈ rows, r.1.isData ∧ r.1.HasTy row) {a b : Val} (ha : a.isData)
    (hty : a.HasTy acc)
    (hb : rows.foldlM (fun acc r => step.call rt [acc, Val.ref r.1, .atom (.int .w64 r.2)]) a =
      some b) :
    b.isData ∧ b.HasTy acc ∧
      rows.foldlM (fun acc r => step'.call rt [acc, Val.ref r.1, .atom (.int .w64 r.2)]) a =
        some b := by
  induction rows generalizing a with
  | nil =>
    obtain rfl := Option.some.inj hb
    exact ⟨ha, hty, rfl⟩
  | cons r rows ih =>
    rw [List.foldlM_cons] at hb ⊢
    obtain ⟨a', ha', hb⟩ := Option.bind_eq_some_iff.1 hb
    obtain ⟨hdata, hrow⟩ := hrows r (by simp)
    have hargs : Forall₂ Val.HasTy [a, Val.ref r.1, .atom (.int .w64 r.2)]
        [acc, Ty.ref row, Ty.int64] := .cons hty (.cons (.ref hrow) (.cons (.atom rfl) .nil))
    obtain ⟨ha'', hty', hcall⟩ := hstep _ a' hargs
      (by simp [ha, hdata, Val.ref, Val.isData, Val.allData]) ha'
    rw [hcall]
    exact ih (fun r' hr' => hrows r' (by simp [hr'])) ha'' hty' hb

/-- A simplified fold computes the same. -/
theorem Folding.computes (hrt : rt.Typed) {f : Expr} (hf : Folding Literal.Fits f)
    {row acc result : Ty} (hfty : f.ty.kind = .user "Fold" [row, acc, result]) {c g : Val} {k : Nat}
    (hc : Evals rt [] f c k) (hcg : c.Simplifies g) {rows : List (Val × ℤ)}
    (hrows : ∀ r ∈ rows, r.1.isData ∧ r.1.HasTy row) (hv : c.foldRows rt rows = some v) :
    v.isData ∧ v.HasTy result ∧ g.foldRows rt rows = some v := by
  obtain ⟨hzero, hstep, hlast, hf⟩ := hf
  obtain ⟨hstepty, result', hlastty, rfl⟩ := fold_eq_ok hf
  obtain ⟨rfl, rfl, rfl⟩ : _ = row ∧ _ = acc ∧ result' = result := by simpa [Ty.user] using hfty
  obtain ⟨_, hparts, hc⟩ := (evals_head rfl).1 hc
  obtain ⟨z, _, _, _, hz, hrest, rfl, -⟩ := evalsAll_cons.1 hparts
  obtain ⟨s, _, _, _, hs, hrest', rfl, -⟩ := evalsAll_cons.1 hrest
  obtain ⟨p, _, _, _, hp, hrest'', rfl, -⟩ := evalsAll_cons.1 hrest'
  obtain ⟨rfl, -⟩ := evalsAll_nil.1 hrest''
  obtain rfl := Option.some.inj hc
  obtain ⟨_, rfl, hws⟩ := structural_simplifies.node.1 hcg
  obtain ⟨z', _, hzz', hws₁, rfl⟩ := List.forall₂_cons_left_iff.1 hws
  obtain ⟨s', _, hss', hws₂, rfl⟩ := List.forall₂_cons_left_iff.1 hws₁
  obtain ⟨p', _, hpp', hws₃, rfl⟩ := List.forall₂_cons_left_iff.1 hws₂
  obtain rfl := List.forall₂_nil_left_iff.1 hws₃
  have hzdata : z.isData := hzero.plain.isData (ρ := []) nofun hz
  obtain rfl := structural_simplifies.eq_of_isData hzz' hzdata
  have hzty := hzero.wellTyped.hasTy hrt (ρ := []) nofun hz
  obtain ⟨a, ha, hv⟩ := Option.bind_eq_some_iff.1 hv
  have hsteps := hstep.computes hrt (congrArg Ty.functionParts? hstepty) hs hss'
  obtain ⟨hadata, haty, ha'⟩ := foldlM_call hsteps hrows hzdata hzty ha
  obtain ⟨hvdata, hvty, hv'⟩ := hlast.computes hrt hlastty hp hpp' [a] v (.cons haty .nil)
    (by simpa using hadata) hv
  refine ⟨hvdata, hvty, ?_⟩
  simp only [Val.foldRows, ha', Option.bind_some]
  exact hv'

end Calls

/-- A closure computes its body from the arguments. -/
theorem Engine.apply_closure_iff {E : Engine} {params : List Param} {body : Expr} {ty : Ty}
    {args : List Val} {v : Val} : E.apply ⟨.closure params body, ty⟩ args = some v ↔
      params.length = args.length ∧
        ∃ k, Evals E.runtime ((params.map Param.name).zip args).reverse body v k := by
  constructor
  · intro h
    obtain ⟨c, hc, h⟩ := Option.bind_eq_some_iff.1 h
    obtain ⟨_, hc⟩ := valueOf_eq_some.1 hc
    obtain ⟨rfl, -⟩ := evals_closure.1 hc
    obtain ⟨ρ, _, henter, k, h⟩ := Val.call_eq_some.1 h
    obtain ⟨_, _, _, hclosure, hlength, rfl⟩ := Val.enter?_eq_some.1 henter
    obtain ⟨rfl, rfl, rfl, rfl⟩ := Val.closure.inj hclosure
    exact ⟨hlength, k, by simpa using h⟩
  · rintro ⟨hlength, k, h⟩
    refine Option.bind_eq_some_iff.2 ⟨_, valueOf_eq_some.2 ⟨0, evals_closure.2 ⟨rfl, rfl⟩⟩, ?_⟩
    refine Val.call_eq_some.2 ⟨_, body, Val.enter?_eq_some.2 ⟨_, _, _, rfl, hlength, rfl⟩, k, ?_⟩
    simpa using h

namespace Engine.Lawful

variable {E : Engine} {f : Expr} {v : Val}

theorem apply (hE : E.Lawful) (hf : Lambda Literal.Fits f) {params : List Ty} {result : Ty}
    (hparts : f.ty.functionParts? = some (params, result)) {args : List Val}
    (hargs : Forall₂ Val.HasTy args params) (hdata : ∀ a ∈ args, a.isData)
    (hv : E.apply f args = some v) :
    v.isData ∧ v.HasTy result ∧ E.apply f.simplify.value args = some v := by
  obtain ⟨c, hc, hv⟩ := Option.bind_eq_some_iff.1 hv
  obtain ⟨k, hc⟩ := valueOf_eq_some.1 hc
  obtain ⟨g, l, hg, hcg⟩ := hf.wellTyped.evals_simplify hE.typed (ρ := []) nofun hc
  obtain ⟨hvdata, hvty, hv'⟩ := hf.computes hE.typed hparts hc hcg args v hargs hdata hv
  exact ⟨hvdata, hvty, Option.bind_eq_some_iff.2 ⟨g, valueOf_eq_some.2 ⟨l, hg⟩, hv'⟩⟩

theorem fold (hE : E.Lawful) (hf : Folding Literal.Fits f) {row acc result : Ty}
    (hty : f.ty.kind = .user "Fold" [row, acc, result]) {x : ZSet}
    (hx : ∀ r ∈ x.support, r.isData ∧ r.HasTy row) (hv : E.fold f x = some v) :
    v.isData ∧ v.HasTy result ∧ E.fold f.simplify.value x = some v := by
  obtain ⟨c, hc, hv⟩ := Option.bind_eq_some_iff.1 hv
  obtain ⟨k, hc⟩ := valueOf_eq_some.1 hc
  obtain ⟨g, l, hg, hcg⟩ := hf.wellTyped.evals_simplify hE.typed (ρ := []) nofun hc
  have hrows : ∀ r ∈ (E.order x).map fun row => (row, x row), r.1.isData ∧ r.1.HasTy row := by
    intro r hr
    obtain ⟨row, hrow, rfl⟩ := List.mem_map.1 hr
    exact hx row (hE.order x row hrow)
  obtain ⟨hvdata, hvty, hv'⟩ := hf.computes hE.typed hty hc hcg hrows hv
  exact ⟨hvdata, hvty, Option.bind_eq_some_iff.2 ⟨g, valueOf_eq_some.2 ⟨l, hg⟩, hv'⟩⟩

theorem constant (hE : E.Lawful) (hf : Listing Literal.Fits f)
    (hv : valueOf E.runtime [] f = some v) :
    v.isData ∧ v.HasTy f.ty ∧ valueOf E.runtime [] f.simplify.value = some v := by
  obtain ⟨k, hv⟩ := valueOf_eq_some.1 hv
  have hwell := hf.firstOrder.wellTyped
  have hdata : v.isData := hf.firstOrder.plain.isData (ρ := []) nofun hv
  obtain ⟨w, l, hw, hvw⟩ := hwell.evals_simplify hE.typed (ρ := []) nofun hv
  obtain rfl := structural_simplifies.eq_of_isData hvw hdata
  exact ⟨hdata, hwell.hasTy hE.typed (ρ := []) nofun hv, valueOf_eq_some.2 ⟨l, hw⟩⟩

end Engine.Lawful

section Rows

variable {t : Ty} {x : ZSet} {row : Val}

@[simp] theorem Val.isData_ref (v : Val) : (Val.ref v).isData = v.isData := by
  simp [Val.ref, Val.isData, Val.allData]

@[simp] theorem Val.isData_pair (k v : Val) : (Val.pair k v).isData = (k.isData && v.isData) := by
  simp [Val.pair, Val.tuple, Val.isData, Val.allData]

theorem Val.HasTy.toRef {v : Val} (h : v.HasTy t) : (Val.ref v).HasTy (Ty.ref t) := .ref h

theorem Ty.holds_zset {element : Ty} (h : t.zsetElement? = some element) :
    t.Holds row ↔ row.HasTy element := by
  obtain ⟨kind, n⟩ := t
  cases kind with
  | zset =>
    obtain rfl := Option.some.inj h
    exact Iff.rfl
  | _ => cases h

theorem Ty.holds_indexed {key value : Ty} (h : t.indexedParts? = some (key, value)) :
    t.Holds row ↔ ∃ k v, row = Val.pair k v ∧ k.HasTy key ∧ v.HasTy value := by
  obtain ⟨kind, n⟩ := t
  cases kind with
  | indexedZSet =>
    obtain ⟨rfl, rfl⟩ := Prod.mk.inj (Option.some.inj h)
    exact Iff.rfl
  | _ => cases h

theorem ZSet.Fits.single {w : ℤ} (h : row.isData ∧ t.Holds row) :
    Fits (Finsupp.single row w) t := by
  intro r hr
  obtain rfl := Finset.mem_singleton.1 (Finsupp.support_single_subset hr)
  exact h

theorem ZSet.Fits.add {y : ZSet} (hx : x.Fits t) (hy : y.Fits t) : (x + y).Fits t := by
  intro r hr
  rcases Finset.mem_union.1 (Finsupp.support_add hr) with hr | hr
  · exact hx r hr
  · exact hy r hr

/-- The key and the values of an indexed collection are data of their types. -/
theorem ZSet.Fits.pair (h : x.Fits t) {key value : Ty} (ht : t.indexedParts? = some (key, value))
    {k v : Val} (hmem : Val.pair k v ∈ x.support) :
    (k.isData ∧ k.HasTy key) ∧ v.isData ∧ v.HasTy value := by
  obtain ⟨hdata, hholds⟩ := h _ hmem
  obtain ⟨k', v', hpair, hk, hv⟩ := (Ty.holds_indexed ht).1 hholds
  obtain ⟨rfl, rfl⟩ := Val.pair_injective hpair
  obtain ⟨hkdata, hvdata⟩ := by simpa using hdata
  exact ⟨⟨hkdata, hk⟩, hvdata, hv⟩

theorem Val.HasTy.eq_pair {v : Val} {key value : Ty} (h : v.HasTy (Ty.rawTuple [key, value])) :
    ∃ a b, v = Val.pair a b ∧ a.HasTy key ∧ b.HasTy value := by
  cases h with
  | @atom a _ ha => cases a <;> cases ha
  | tuple hts hvs =>
    obtain rfl := Option.some.inj hts
    obtain ⟨a, b, hab, ha, hb⟩ := forall₂_pair hvs
    exact ⟨a, b, congrArg Val.tuple hab, ha, hb⟩

/-- What a function gets for a row of its input has the type of its parameter. -/
theorem Engine.argument_typed {f : Expr} {param result : Ty} (ht : Operator.rowParam t = .ok param)
    (hparts : f.ty.functionParts? = some ([param], result)) (hdata : row.isData)
    (hrow : t.Holds row) : (argument f row).isData ∧ (argument f row).HasTy param := by
  obtain ⟨kind, n⟩ := t
  cases kind with
  | zset element =>
    obtain rfl := Except.ok.inj ht
    have hwhole : argument f row = Val.ref row := by
      simp [argument, takesParts, hparts, Ty.ref]
      split <;> rfl
    rw [hwhole]
    exact ⟨by simpa using hdata, .ref hrow⟩
  | indexedZSet key value =>
    obtain rfl := Except.ok.inj ht
    obtain ⟨k, v, rfl, hk, hv⟩ := hrow
    have hparts' : argument f (Val.pair k v) = Val.tuple [Val.ref k, Val.ref v] := by
      simp [argument, takesParts, hparts, Ty.rawTuple]
    rw [hparts']
    refine ⟨?_, .tuple rfl (.cons (.ref hk) (.cons (.ref hv) .nil))⟩
    have hboth : (Val.pair (Val.ref k) (Val.ref v)).isData := by simpa using hdata
    exact hboth
  | _ => cases ht

end Rows

end ViewCircuit
