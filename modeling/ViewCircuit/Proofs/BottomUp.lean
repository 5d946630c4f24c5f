import ViewCircuit.Proofs.Redex

/-! What a change from the leaves up returns: every node over its changed parts, with the rule
applied to it. That unchanged nodes are returned as they are makes no difference to the result. -/
namespace ViewCircuit

/-- The chain over other parts. -/
def Block.mapParts (g : Expr → Expr) : Block → Block
  | .done result => .done (result.map g)
  | .bind name ty mutable init rest => .bind name ty mutable (init.map g) (rest.mapParts g)
  | .exec e rest => .exec (g e) (rest.mapParts g)

/-- The form over other parts, with its binders and patterns. -/
def Form.mapParts (g : Expr → Expr) : Form → Form
  | .literal (.zset rows) => .literal (.zset (rows.map fun row => (g row.1, row.2)))
  | .literal (.vec items) => .literal (.vec (items.map g))
  | .literal value => .literal value
  | .var name => .var name
  | .field base index => .field (g base) index
  | .unary op operand => .unary op (g operand)
  | .binary op left right => .binary op (g left) (g right)
  | .apply function args => .apply (g function) (args.map g)
  | .call function args => .call function (args.map g)
  | .closure params body => .closure params (g body)
  | .tuple fields => .tuple (fields.map g)
  | .rawTuple fields => .rawTuple (fields.map g)
  | .struct name fields => .struct name (fields.map g)
  | .block body => .block (body.mapParts g)
  | .ite condition yes no => .ite (g condition) (g yes) (g no)
  | .cases scrutinee arms => .cases (g scrutinee) (arms.map fun arm => (arm.1, g arm.2))
  | .cast operand => .cast (g operand)
  | .isNull operand => .isNull (g operand)
  | .borrow operand => .borrow (g operand)
  | .deref operand => .deref (g operand)
  | .range start stop inclusive => .range (start.map g) (stop.map g) inclusive
  | .some operand => .some (g operand)
  | .fold zero increment post => .fold (g zero) (g increment) (g post)

section Parts

variable {g h : Expr → Expr} {form : Form}

theorem Block.parts_mapParts : ∀ b : Block, (b.mapParts g).parts = b.parts.map g
  | .done result => by cases result <;> rfl
  | .bind name ty mutable init rest => by
    have ih := rest.parts_mapParts
    cases init <;> simp [mapParts, parts, ih]
  | .exec e rest => by
    have ih := rest.parts_mapParts
    simp [mapParts, parts, ih]

theorem Block.mapParts_congr : ∀ {b : Block}, (∀ part ∈ b.parts, g part = h part) →
    b.mapParts g = b.mapParts h
  | .done result, hparts => by
    cases result with
    | none => rfl
    | some e => simp [mapParts, hparts e (List.mem_singleton_self e)]
  | .bind name ty mutable init rest, hparts => by
    obtain ⟨hinit, hrest⟩ := List.forall_mem_append.1 hparts
    rw [mapParts, mapParts, mapParts_congr hrest]
    cases init with
    | none => rfl
    | some e => simp [hinit e (List.mem_singleton_self e)]
  | .exec e rest, hparts => by
    obtain ⟨he, hrest⟩ := List.forall_mem_cons.1 hparts
    rw [mapParts, mapParts, he, mapParts_congr hrest]

theorem Block.mapParts_id : ∀ b : Block, b.mapParts id = b
  | .done result => by rw [mapParts, Option.map_id_apply]
  | .bind name ty mutable init rest => by rw [mapParts, Option.map_id_apply, rest.mapParts_id]
  | .exec e rest => by rw [mapParts, rest.mapParts_id, id]

theorem Form.parts_mapParts (form : Form) : (form.mapParts g).parts = form.parts.map g := by
  cases form with
  | literal value => cases value <;> simp [mapParts, parts, head?]
  | block body => exact body.parts_mapParts
  | range start stop inclusive => cases start <;> cases stop <;> rfl
  | _ => simp [mapParts, parts]

theorem Form.mapParts_congr (hparts : ∀ part ∈ form.parts, g part = h part) :
    form.mapParts g = form.mapParts h := by
  cases form with
  | var => rfl
  | literal value =>
    cases value with
    | zset rows =>
      have hrows : ∀ row ∈ rows, (g row.1, row.2) = (h row.1, row.2) := fun row hrow =>
        congrArg (·, row.2) (hparts row.1 (List.mem_map_of_mem hrow))
      rw [mapParts, mapParts, List.map_congr_left hrows]
    | vec items => exact congrArg (fun es => Form.literal (.vec es)) (List.map_congr_left hparts)
    | _ => rfl
  | apply function args =>
    obtain ⟨hfunction, hargs⟩ := List.forall_mem_cons.1 hparts
    rw [mapParts, mapParts, hfunction, List.map_congr_left hargs]
  | block body => exact congrArg Form.block (Block.mapParts_congr hparts)
  | cases scrutinee arms =>
    obtain ⟨hscrutinee, harms⟩ := List.forall_mem_cons.1 hparts
    have hbodies : ∀ arm ∈ arms, (arm.1, g arm.2) = (arm.1, h arm.2) := fun arm harm =>
      congrArg (arm.1, ·) (harms arm.2 (List.mem_map_of_mem harm))
    rw [mapParts, mapParts, hscrutinee, List.map_congr_left hbodies]
  | range start stop inclusive =>
    cases start <;> cases stop <;> simp_all [mapParts, parts]
  | call | tuple | rawTuple | struct =>
    have hlist := List.map_congr_left hparts
    rw [parts] at hlist
    rw [mapParts, mapParts, hlist]
  | _ =>
    simp only [parts, List.forall_mem_cons] at hparts
    simp only [mapParts, hparts]

theorem Form.mapParts_id (form : Form) : form.mapParts id = form := by
  cases form with
  | literal value => cases value <;> simp [mapParts]
  | block body => exact congrArg Form.block body.mapParts_id
  | _ => simp [mapParts]

theorem Form.mapParts_self (hparts : ∀ part ∈ form.parts, g part = part) :
    form.mapParts g = form :=
  (mapParts_congr hparts).trans form.mapParts_id

theorem head?_mapParts {head : Head} {parts : List Expr} (hhead : form.head? = some (head, parts)) :
    (form.mapParts g).head? = some (head, parts.map g) := by
  cases form with
  | literal value =>
    cases value <;> obtain ⟨rfl, rfl⟩ := Prod.mk.inj (Option.some.inj hhead) <;>
      simp [Form.mapParts, Form.head?, Function.comp_def]
  | range start stop inclusive =>
    obtain ⟨rfl, rfl⟩ := Prod.mk.inj (Option.some.inj hhead)
    cases start <;> cases stop <;> rfl
  | var | apply | closure | block | ite | cases => cases hhead
  | _ =>
    obtain ⟨rfl, rfl⟩ := Prod.mk.inj (Option.some.inj hhead)
    rfl

theorem Expr.alike_mapParts (e : Expr) : e.Alike ⟨e.form.mapParts g, e.ty⟩ := by
  obtain ⟨form, ty⟩ := e
  cases form with
  | literal value => cases value <;> exact ⟨rfl, rfl, rfl, rfl⟩
  | cases scrutinee arms =>
    exact ⟨rfl, by simp [patternLiterals, Form.mapParts, List.flatMap_map], rfl, rfl⟩
  | _ => exact ⟨rfl, rfl, rfl, rfl⟩

end Parts

namespace Expr

open Reduct (map₂ kept)

variable {rule : Expr → Option Expr} {e : Expr}

/-- The expression after a rule was tried at every node. -/
def rewritten (rule : Expr → Option Expr) (e : Expr) : Expr := (e.bottomUp rule).value

theorem eq_of_unchanged {e : Expr} (h : (e.bottomUp rule).changed = false) :
    e.rewritten rule = e := by
  obtain ⟨form, ty⟩ := e
  unfold rewritten
  unfold bottomUp Reduct.settle at h ⊢
  split at h
  · cases h
  · unfold Reduct.rebuild at h ⊢
    split at h
    · cases h
    · rename_i hkept
      rw [if_neg hkept]

theorem bottomUpAll_value (es : List Expr) :
    (bottomUpAll rule es).value = es.map (rewritten rule) := by
  induction es with
  | nil => rfl
  | cons e es ih => simp [bottomUpAll, map₂, ih, rewritten]

theorem bottomUpOption_value (o : Option Expr) :
    (bottomUpOption rule o).value = o.map (rewritten rule) := by
  cases o <;> rfl

theorem bottomUpRows_value (rule : Expr → Option Expr) (rows : List (Expr × Int)) :
    (bottomUpRows rule rows).value = rows.map fun row => (row.1.rewritten rule, row.2) := by
  induction rows with
  | nil => rfl
  | cons row rows ih => simp [bottomUpRows, map₂, ih, rewritten]

theorem bottomUpArms_value (arms : List (Pattern × Expr)) : (bottomUpArms rule arms).value =
    arms.map fun arm => (arm.1, arm.2.rewritten rule) := by
  induction arms with
  | nil => rfl
  | cons arm arms ih => simp [bottomUpArms, map₂, Reduct.map, ih, rewritten]

theorem bottomUpBlock_value : ∀ b : Block,
    (bottomUpBlock rule b).value = b.mapParts (rewritten rule)
  | .done result => congrArg Block.done (bottomUpOption_value result)
  | .bind name ty mutable init rest =>
    congrArg₂ (Block.bind name ty mutable) (bottomUpOption_value init) (bottomUpBlock_value rest)
  | .exec e rest => congrArg (Block.exec (e.rewritten rule)) (bottomUpBlock_value rest)

/-- A form is changed part by part. -/
theorem bottomUpForm_value (form : Form) :
    (bottomUpForm rule form).value = form.mapParts (rewritten rule) := by
  cases form with
  | literal value =>
    cases value <;>
      simp [bottomUpForm, Reduct.map, Form.mapParts, bottomUpRows_value, bottomUpAll_value, kept]
  | block body => exact congrArg Form.block (bottomUpBlock_value body)
  | ite | fold => rfl
  | cases scrutinee arms => exact congrArg (Form.cases _) (bottomUpArms_value arms)
  | range start stop inclusive => cases start <;> cases stop <;> rfl
  | apply function args => exact congrArg (Form.apply _) (bottomUpAll_value args)
  | call function args => exact congrArg (Form.call function) (bottomUpAll_value args)
  | tuple fields => exact congrArg Form.tuple (bottomUpAll_value fields)
  | rawTuple fields => exact congrArg Form.rawTuple (bottomUpAll_value fields)
  | struct name fields => exact congrArg (Form.struct name) (bottomUpAll_value fields)
  | _ => rfl

section Changes

/-- A part is new. -/
def anyChanged (rule : Expr → Option Expr) (parts : List Expr) : Bool :=
  parts.any fun part => (part.bottomUp rule).changed

theorem changed_bottomUpAll (es : List Expr) :
    (bottomUpAll rule es).changed = anyChanged rule es := by
  induction es with
  | nil => rfl
  | cons e es ih => simp [bottomUpAll, Reduct.map₂, ih, anyChanged]

theorem changed_bottomUpOption (o : Option Expr) :
    (bottomUpOption rule o).changed = anyChanged rule o.toList := by
  cases o <;> simp [bottomUpOption, Reduct.map, Reduct.kept, anyChanged]

theorem changed_bottomUpRows (rows : List (Expr × Int)) :
    (bottomUpRows rule rows).changed = anyChanged rule (rows.map Prod.fst) := by
  induction rows with
  | nil => rfl
  | cons row rows ih => simp [bottomUpRows, Reduct.map₂, ih, anyChanged]

theorem changed_bottomUpArms (arms : List (Pattern × Expr)) : (bottomUpArms rule arms).changed =
    (anyChanged rule (arms.map Prod.snd) || arms.any fun arm => arm.1.hasNaN) := by
  induction arms with
  | nil => rfl
  | cons arm arms ih =>
    simp [bottomUpArms, Reduct.map₂, Reduct.map, ih, anyChanged, Bool.or_assoc, Bool.or_left_comm]

theorem changed_bottomUpBlock : ∀ b : Block,
    (bottomUpBlock rule b).changed = anyChanged rule b.parts
  | .done result => changed_bottomUpOption result
  | .bind name ty mutable init rest => by
    have ih := changed_bottomUpBlock rest
    simp [bottomUpBlock, Reduct.map₂, ih, changed_bottomUpOption, Block.parts, anyChanged]
  | .exec e rest => by
    have ih := changed_bottomUpBlock rest
    simp [bottomUpBlock, Reduct.map₂, ih, Block.parts, anyChanged]

/-- How many rules were applied in the parts. -/
def allFired (rule : Expr → Option Expr) (parts : List Expr) : Nat :=
  (parts.map fun part => (part.bottomUp rule).fired).sum

theorem fired_bottomUpAll (es : List Expr) : (bottomUpAll rule es).fired = allFired rule es := by
  induction es with
  | nil => rfl
  | cons e es ih => simp [bottomUpAll, Reduct.map₂, ih, allFired]

theorem fired_bottomUpOption (o : Option Expr) :
    (bottomUpOption rule o).fired = allFired rule o.toList := by
  cases o <;> simp [bottomUpOption, Reduct.map, Reduct.kept, allFired]

theorem fired_bottomUpRows (rows : List (Expr × Int)) :
    (bottomUpRows rule rows).fired = allFired rule (rows.map Prod.fst) := by
  induction rows with
  | nil => rfl
  | cons row rows ih => simp [bottomUpRows, Reduct.map₂, ih, allFired]

theorem fired_bottomUpArms (arms : List (Pattern × Expr)) :
    (bottomUpArms rule arms).fired = allFired rule (arms.map Prod.snd) := by
  induction arms with
  | nil => rfl
  | cons arm arms ih => simp [bottomUpArms, Reduct.map₂, Reduct.map, ih, allFired]

theorem fired_bottomUpBlock : ∀ b : Block, (bottomUpBlock rule b).fired = allFired rule b.parts
  | .done result => fired_bottomUpOption result
  | .bind name ty mutable init rest => by
    have ih := fired_bottomUpBlock rest
    simp [bottomUpBlock, Reduct.map₂, ih, fired_bottomUpOption, Block.parts, allFired]
  | .exec e rest => by
    have ih := fired_bottomUpBlock rest
    simp [bottomUpBlock, Reduct.map₂, ih, Block.parts, allFired]

/-- A form is new when a part is, or when a pattern has a literal that differs from itself. -/
theorem changed_bottomUpForm (e : Expr) : (bottomUpForm rule e.form).changed =
    (anyChanged rule e.form.parts || e.patternLiterals.any Literal.isNaN) := by
  obtain ⟨form, ty⟩ := e
  cases form with
  | var => rfl
  | apply function args =>
    simp [bottomUpForm, Reduct.map₂, changed_bottomUpAll, Form.parts, patternLiterals, anyChanged]
  | closure params body => simp [bottomUpForm, Reduct.map, Form.parts, patternLiterals, anyChanged]
  | block body =>
    simp [bottomUpForm, Reduct.map, changed_bottomUpBlock, Form.parts, patternLiterals]
  | ite condition yes no =>
    simp [bottomUpForm, Reduct.map₃, Form.parts, patternLiterals, anyChanged, Bool.or_assoc]
  | cases scrutinee arms =>
    simp [bottomUpForm, Reduct.map₂, changed_bottomUpArms, Form.parts, patternLiterals, anyChanged,
      hasNaN_eq, List.any_flatMap, Bool.or_assoc]
  | literal value =>
    cases value <;> simp [bottomUpForm, Reduct.map, Reduct.kept, changed_bottomUpAll,
      changed_bottomUpRows, Form.parts, Form.head?, patternLiterals, anyChanged]
  | range start stop inclusive =>
    simp [bottomUpForm, Reduct.map₂, changed_bottomUpOption, Form.parts, patternLiterals,
      anyChanged]
  | fold zero increment post =>
    simp [bottomUpForm, Reduct.map₃, Form.parts, patternLiterals, anyChanged, Bool.or_assoc]
  | _ =>
    simp [bottomUpForm, Reduct.map, Reduct.map₂, changed_bottomUpAll, Form.parts, patternLiterals,
      anyChanged]

/-- The rules that were applied in a form are those in its parts. -/
theorem fired_bottomUpForm (form : Form) :
    (bottomUpForm rule form).fired = allFired rule form.parts := by
  cases form with
  | var => rfl
  | literal value =>
    cases value <;> simp [bottomUpForm, Reduct.map, Reduct.kept, fired_bottomUpAll,
      fired_bottomUpRows, Form.parts, Form.head?, allFired]
  | block body => simp [bottomUpForm, Reduct.map, fired_bottomUpBlock, Form.parts]
  | ite | fold => simp [bottomUpForm, Reduct.map₃, Form.parts, allFired, Nat.add_assoc]
  | cases scrutinee arms =>
    simp [bottomUpForm, Reduct.map₂, fired_bottomUpArms, Form.parts, allFired]
  | range start stop inclusive =>
    simp [bottomUpForm, Reduct.map₂, fired_bottomUpOption, Form.parts, allFired]
  | _ => simp [bottomUpForm, Reduct.map, Reduct.map₂, fired_bottomUpAll, Form.parts, allFired]

end Changes

theorem form_eq_of_unchanged {form : Form} (h : (bottomUpForm rule form).changed = false) :
    (bottomUpForm rule form).value = form := by
  have hchanged : (bottomUpForm rule form).changed = _ := changed_bottomUpForm ⟨form, Ty.unit⟩
  rw [h, eq_comm, Bool.or_eq_false_iff, anyChanged, List.any_eq_false] at hchanged
  rw [bottomUpForm_value]
  refine Form.mapParts_self fun part hpart => eq_of_unchanged ?_
  exact Bool.eq_false_iff.2 (hchanged.1 part hpart)

/-- A node over its changed parts. -/
def overParts (rule : Expr → Option Expr) (e : Expr) : Expr :=
  ⟨(bottomUpForm rule e.form).value, e.ty⟩

/-- A node is kept only when it is the node over its changed parts. -/
theorem rebuild_bottomUpForm (rule : Expr → Option Expr) (e : Expr) :
    Reduct.rebuild e (bottomUpForm rule e.form) =
      ⟨e.overParts rule, (bottomUpForm rule e.form).changed, (bottomUpForm rule e.form).fired⟩ := by
  obtain ⟨form, ty⟩ := e
  unfold Reduct.rebuild overParts
  split
  · rename_i hnew
    rw [hnew]
  · rename_i hkept
    replace hkept : (bottomUpForm rule form).changed = false := by simpa using hkept
    rw [form_eq_of_unchanged hkept, hkept]

/-- The rule is tried at the node over its changed parts. -/
theorem bottomUp_eq (rule : Expr → Option Expr) (e : Expr) : e.bottomUp rule =
    Reduct.settle rule
      ⟨e.overParts rule, (bottomUpForm rule e.form).changed, (bottomUpForm rule e.form).fired⟩ := by
  obtain ⟨form, ty⟩ := e
  exact congrArg (Reduct.settle rule) (rebuild_bottomUpForm rule ⟨form, ty⟩)

theorem rewritten_eq (e : Expr) :
    e.rewritten rule = (rule (e.overParts rule)).getD (e.overParts rule) := by
  unfold rewritten
  rw [bottomUp_eq]
  unfold Reduct.settle
  cases rule (e.overParts rule) <;> rfl

theorem overParts_eq (e : Expr) : e.overParts rule = ⟨e.form.mapParts (rewritten rule), e.ty⟩ :=
  congrArg (Expr.mk · e.ty) (bottomUpForm_value e.form)

/-- The parts of a node are changed one by one. -/
theorem parts_overParts (e : Expr) :
    (e.overParts rule).form.parts = e.form.parts.map (rewritten rule) := by
  rw [overParts_eq, Form.parts_mapParts]

theorem head?_overParts {e : Expr} {head : Head} {parts : List Expr}
    (h : e.form.head? = some (head, parts)) :
    (e.overParts rule).form.head? = some (head, parts.map (rewritten rule)) := by
  rw [overParts_eq]
  exact head?_mapParts h

/-- A node over its changed parts is of its kind. -/
theorem alike_overParts (rule : Expr → Option Expr) (e : Expr) : e.Alike (e.overParts rule) := by
  rw [overParts_eq]
  exact e.alike_mapParts

/-- Without a rule every expression stays as it is. -/
theorem rewritten_none : ∀ e : Expr, e.rewritten (fun _ => none) = e
  | ⟨form, ty⟩ => by
    rw [rewritten_eq, Option.getD_none, overParts_eq,
      Form.mapParts_self fun part hpart => rewritten_none part]
termination_by e => e.depth
decreasing_by exact depth_lt_of_mem_parts hpart

/-- A node is new when a part is new or a rule applied. -/
theorem changed_bottomUp : (e.bottomUp rule).changed =
    ((bottomUpForm rule e.form).changed || (rule (e.overParts rule)).isSome) := by
  rw [bottomUp_eq]
  unfold Reduct.settle
  cases rule (e.overParts rule) <;> simp

/-- The rules that were applied in the parts, and the one at the node. -/
theorem fired_bottomUp : (e.bottomUp rule).fired =
    (bottomUpForm rule e.form).fired + (rule (e.overParts rule)).isSome.toNat := by
  rw [bottomUp_eq]
  unfold Reduct.settle
  cases rule (e.overParts rule) <;> rfl

/-- A node is kept when its parts are, no pattern differs from itself and the rule does not
apply. -/
theorem unchanged_iff : (e.bottomUp rule).changed = false ↔
    (∀ part ∈ e.form.parts, (part.bottomUp rule).changed = false) ∧
      (∀ l ∈ e.patternLiterals, l.isNaN = false) ∧ rule (e.overParts rule) = none := by
  rw [changed_bottomUp, changed_bottomUpForm]
  simp [anyChanged, and_assoc]

theorem fired_eq_zero_iff : (e.bottomUp rule).fired = 0 ↔
    (∀ part ∈ e.form.parts, (part.bottomUp rule).fired = 0) ∧ rule (e.overParts rule) = none := by
  rw [fired_bottomUp, fired_bottomUpForm]
  simp [allFired, List.sum_eq_zero_iff_forall_eq_nat]

/-- What is kept had no rule applied to it. -/
theorem fired_of_unchanged (e : Expr) (h : (e.bottomUp rule).changed = false) :
    (e.bottomUp rule).fired = 0 := by
  obtain ⟨hparts, -, hrule⟩ := unchanged_iff.1 h
  exact fired_eq_zero_iff.2 ⟨fun part hpart => fired_of_unchanged part (hparts part hpart), hrule⟩
termination_by e.depth
decreasing_by exact depth_lt_of_mem_parts hpart

/-- Only rules make new nodes, except where a pattern differs from itself. -/
theorem unchanged_iff_fired (h : e.PatternsSatisfy fun l => l.isNaN = false) :
    (e.bottomUp rule).changed = false ↔ (e.bottomUp rule).fired = 0 := by
  refine ⟨fired_of_unchanged e, fun hfired => ?_⟩
  induction h with
  | intro hpatterns _ ih =>
    obtain ⟨hparts, hrule⟩ := fired_eq_zero_iff.1 hfired
    exact unchanged_iff.2 ⟨fun part hpart => ih part hpart (hparts part hpart), hpatterns, hrule⟩

/-- What a run keeps as it is. -/
theorem bottomUp_eq_kept_iff :
    e.bottomUp rule = Reduct.kept e ↔ (e.bottomUp rule).changed = false := by
  refine ⟨fun h => by rw [h]; rfl, fun h => ?_⟩
  have hvalue : (e.bottomUp rule).value = e := eq_of_unchanged h
  have hfired := fired_of_unchanged e h
  generalize e.bottomUp rule = r at h hvalue hfired
  cases r
  simp_all [Reduct.kept]

end Expr
end ViewCircuit
