import Mathlib.Data.List.Forall2
import ViewCircuit.Proofs.Eval

/-! Relations between values that only differ inside closures. Everything but a call treats related
values alike. -/
namespace ViewCircuit

open List (Forall₂)

/-- Related values are built alike; closures are related to closures. -/
structure Structural (R : Val → Val → Prop) : Prop where
  atom : ∀ {a w}, R (.atom a) w ↔ w = .atom a
  node : ∀ {shape vs w}, R (.node shape vs) w ↔ ∃ ws, w = .node shape ws ∧ Forall₂ R vs ws
  closure : ∀ {names values params body w}, R (.closure names values params body) w →
    ∃ names' values' params' body', w = .closure names' values' params' body'

/-- Bindings of the same name to related values. -/
def Bound (R : Val → Val → Prop) (a b : String × Val) : Prop := a.1 = b.1 ∧ R a.2 b.2

namespace Structural

variable {R : Val → Val → Prop} {v w : Val} {vs ws : List Val} {rt : Runtime}

mutual
/-- Related values without closures are equal. -/
theorem eq_of_isData (hR : Structural R) : ∀ {v w : Val}, R v w → v.isData → v = w
  | .atom a, w, h, _ => (hR.atom.1 h).symm
  | .node shape vs, w, h, hv => by
    obtain ⟨ws, rfl, hws⟩ := hR.node.1 h
    rw [eq_of_allData hR hws hv]
  | .closure .., _, _, hv => by cases hv
theorem eq_of_allData (hR : Structural R) : ∀ {vs ws : List Val}, Forall₂ R vs ws →
    Val.allData vs → vs = ws
  | [], _, .nil, _ => rfl
  | v :: vs, _, .cons hv hvs, hdata => by
    simp only [Val.allData, Bool.and_eq_true] at hdata
    rw [eq_of_isData hR hv hdata.1, eq_of_allData hR hvs hdata.2]
end

mutual
/-- Every value without closures is related to itself. -/
theorem refl_of_isData (hR : Structural R) : ∀ {v : Val}, v.isData → R v v
  | .atom a, _ => hR.atom.2 rfl
  | .node shape vs, hv => hR.node.2 ⟨vs, rfl, refl_of_allData hR hv⟩
  | .closure .., hv => by cases hv
theorem refl_of_allData (hR : Structural R) : ∀ {vs : List Val}, Val.allData vs → Forall₂ R vs vs
  | [], _ => .nil
  | v :: vs, hdata => by
    simp only [Val.allData, Bool.and_eq_true] at hdata
    exact .cons (refl_of_isData hR hdata.1) (refl_of_allData hR hdata.2)
end

theorem isNull_eq (hR : Structural R) (h : R v w) : w.isNull = v.isNull := by
  cases v with
  | atom a => rw [hR.atom.1 h]
  | node shape vs =>
    obtain ⟨ws, rfl, _⟩ := hR.node.1 h
    rfl
  | closure =>
    obtain ⟨_, _, _, _, rfl⟩ := hR.closure h
    rfl

theorem run (hR : Structural R) {i : Instruction} (h : Forall₂ R vs ws)
    (hv : rt.run i vs = some v) : rt.run i ws = some v ∧ R v v := by
  unfold Runtime.run at hv
  split at hv
  · rename_i hdata
    rw [Option.filter_eq_some_iff] at hv
    obtain rfl := hR.eq_of_allData h hdata
    refine ⟨?_, hR.refl_of_isData hv.2⟩
    unfold Runtime.run
    rw [if_pos hdata, Option.filter_eq_some_iff]
    exact hv
  · cases hv

theorem getElem? {α β : Type} {R : α → β → Prop} {xs : List α} {ys : List β} {x : α} {index : Nat}
    (h : Forall₂ R xs ys) (hx : xs[index]? = some x) : ∃ y, ys[index]? = some y ∧ R x y := by
  induction h generalizing index with
  | nil => simp at hx
  | cons hhead _ ih =>
    cases index with
    | zero =>
      obtain rfl : _ = x := by simpa using hx
      exact ⟨_, by simp, hhead⟩
    | succ index => simpa using ih (by simpa using hx)

theorem field? (hR : Structural R) {index : Nat} (h : R v w) {u : Val}
    (hu : v.field? index = some u) : ∃ u', w.field? index = some u' ∧ R u u' := by
  unfold Val.field? at hu
  split at hu
  · obtain ⟨ws, rfl, hws⟩ := hR.node.1 h
    exact getElem? hws hu
  · obtain ⟨ws, rfl, hws⟩ := hR.node.1 h
    cases hws with
    | cons hhead hnil =>
      cases hnil
      obtain ⟨us, rfl, hus⟩ := hR.node.1 hhead
      exact getElem? hus hu
  · cases hu

theorem deref? (hR : Structural R) (h : R v w) {u : Val} (hu : v.deref? = some u) :
    ∃ u', w.deref? = some u' ∧ R u u' := by
  unfold Val.deref? at hu
  split at hu
  · obtain ⟨ws, rfl, hws⟩ := hR.node.1 h
    cases hws with
    | cons hhead hnil =>
      cases hnil
      obtain rfl := Option.some.inj hu
      exact ⟨_, rfl, hhead⟩
  · cases hu

theorem cast (hR : Structural R) {ty : Ty} (h : R v w) {u : Val} (hu : v.cast rt ty = some u) :
    w.cast rt ty = some u ∧ R u u := by
  unfold Val.cast at hu ⊢
  rw [hR.isNull_eq h]
  split at hu
  · rename_i hnull
    split at hu
    · rename_i hty
      obtain rfl := Option.some.inj hu
      rw [if_pos hnull, if_pos hty]
      exact ⟨rfl, hR.atom.2 rfl⟩
    · cases hu
  · rename_i hnull
    rw [if_neg hnull]
    exact hR.run (.cons h .nil) hu

theorem binary (hR : Structural R) {op : BinaryOp} {v' w' : Val} (h : R v w) (h' : R v' w')
    {u : Val} (hu : op.eval rt v v' = some u) : op.eval rt w w' = some u ∧ R u u := by
  unfold BinaryOp.eval at hu
  split at hu
  · obtain rfl := hR.atom.1 h
    obtain rfl := hR.atom.1 h'
    obtain rfl := Option.some.inj hu
    exact ⟨rfl, hR.atom.2 rfl⟩
  · obtain rfl := hR.atom.1 h
    obtain rfl := hR.atom.1 h'
    obtain rfl := Option.some.inj hu
    exact ⟨rfl, hR.atom.2 rfl⟩
  · rename_i hand hor
    have hdata : Val.allData [v, v'] := by
      unfold Runtime.run at hu
      split at hu
      · assumption
      · cases hu
    simp only [Val.allData, Bool.and_eq_true, and_true] at hdata
    obtain rfl := hR.eq_of_isData h hdata.1
    obtain rfl := hR.eq_of_isData h' hdata.2
    refine ⟨?_, (hR.run (.cons h (.cons h' .nil)) hu).2⟩
    unfold BinaryOp.eval
    split
    · exact absurd rfl (hand _ _ rfl rfl)
    · exact absurd rfl (hor _ _ rfl rfl)
    · exact hu

/-- Heads take related values to related values. -/
theorem combine (hR : Structural R) {head : Head} {ty : Ty} (h : Forall₂ R vs ws)
    (hv : head.combine rt ty vs = some v) :
    ∃ w, head.combine rt ty ws = some w ∧ R v w := by
  have hone : ∀ {u}, vs = [u] → ∃ u', ws = [u'] ∧ R u u' := by
    rintro u rfl
    cases h with
    | cons hhead hnil =>
      cases hnil
      exact ⟨_, rfl, hhead⟩
  cases head with
  | literal value =>
    obtain ⟨a, ha, rfl⟩ := Option.map_eq_some_iff.1 hv
    exact ⟨.atom a, by simp [Head.combine, ha], hR.atom.2 rfl⟩
  | zset | vec | tuple | rawTuple | struct | range | fold =>
    obtain rfl := Option.some.inj hv
    exact ⟨_, rfl, hR.node.2 ⟨ws, rfl, h⟩⟩
  | call function =>
    obtain ⟨hw, hrefl⟩ := hR.run h hv
    exact ⟨v, hw, hrefl⟩
  | binary op =>
    match vs, h with
    | [_, _], .cons hx (.cons hy .nil) =>
      obtain ⟨hw, hrefl⟩ := hR.binary hx hy hv
      exact ⟨v, hw, hrefl⟩
  | field index =>
    match vs with
    | [u] =>
      obtain ⟨u', rfl, hu⟩ := hone rfl
      exact hR.field? hu hv
  | unary op =>
    match vs with
    | [u] =>
      obtain ⟨u', rfl, hu⟩ := hone rfl
      obtain ⟨hw, hrefl⟩ := hR.run (.cons hu .nil) hv
      exact ⟨v, hw, hrefl⟩
  | cast =>
    match vs with
    | [u] =>
      obtain ⟨u', rfl, hu⟩ := hone rfl
      obtain ⟨hw, hrefl⟩ := hR.cast hu hv
      exact ⟨v, hw, hrefl⟩
  | isNull =>
    match vs with
    | [u] =>
      obtain ⟨u', rfl, hu⟩ := hone rfl
      obtain rfl := Option.some.inj hv
      exact ⟨_, rfl, by rw [hR.isNull_eq hu]; exact hR.atom.2 rfl⟩
  | borrow =>
    match vs with
    | [u] =>
      obtain ⟨u', rfl, hu⟩ := hone rfl
      obtain rfl := Option.some.inj hv
      exact ⟨_, rfl, hR.node.2 ⟨_, rfl, .cons hu .nil⟩⟩
  | deref =>
    match vs with
    | [u] =>
      obtain ⟨u', rfl, hu⟩ := hone rfl
      exact hR.deref? hu hv
  | some =>
    match vs with
    | [u] =>
      obtain ⟨u', rfl, hu⟩ := hone rfl
      obtain rfl := Option.some.inj hv
      exact ⟨u', rfl, hu⟩

mutual
/-- A pattern matches related values alike and binds their parts alike. -/
theorem bind? (hR : Structural R) : ∀ (p : Pattern) {v w : Val}, R v w →
    Option.Rel (Forall₂ (Bound R)) (p.bind? v) (p.bind? w)
  | .ident name _, _, _, h => .some (.cons ⟨rfl, h⟩ .nil)
  | .wildcard, _, _, _ => .some .nil
  | .tuple items, v, w, h => by
    cases v with
    | atom a =>
      obtain rfl := hR.atom.1 h
      exact .none
    | node shape vs =>
      obtain ⟨ws, rfl, hws⟩ := hR.node.1 h
      cases shape with
      | tuple => simpa only [Pattern.bind?] using bindAll? hR items hws
      | _ => exact .none
    | closure =>
      obtain ⟨_, _, _, _, rfl⟩ := hR.closure h
      exact .none
  | .some inner, v, w, h => by
    simp only [Pattern.bind?, hR.isNull_eq h]
    split
    · exact .none
    · exact bind? hR inner h
  | .literal value, v, w, h => by
    cases v with
    | atom a =>
      obtain rfl := hR.atom.1 h
      simp only [Pattern.bind?]
      split
      · exact .some .nil
      · exact .none
    | node =>
      obtain ⟨ws, rfl, _⟩ := hR.node.1 h
      exact .none
    | closure =>
      obtain ⟨_, _, _, _, rfl⟩ := hR.closure h
      exact .none
theorem bindAll? (hR : Structural R) : ∀ (ps : List Pattern) {vs ws : List Val}, Forall₂ R vs ws →
    Option.Rel (Forall₂ (Bound R)) (Pattern.bindAll? ps vs) (Pattern.bindAll? ps ws)
  | [], _, _, .nil => .some .nil
  | [], _, _, .cons _ _ => .none
  | _ :: _, _, _, .nil => .none
  | p :: ps, v :: vs, w :: ws, .cons hv hvs => by
    simp only [Pattern.bindAll?]
    have hhead := bind? hR p hv
    have htail := bindAll? hR ps hvs
    generalize p.bind? v = x, p.bind? w = y at hhead
    generalize Pattern.bindAll? ps vs = xs, Pattern.bindAll? ps ws = ys at htail
    cases hhead with
    | none => exact .none
    | some hbs =>
      cases htail with
      | none => exact .none
      | some hbss => exact .some (List.rel_append hbs hbss)
end

/-- The same arm is chosen for related values. -/
theorem firstMatch (hR : Structural R) {arms : List (Pattern × Expr)} (h : R v w)
    {bindings : Env} {body : Expr} (hv : firstMatch arms v = some (bindings, body)) :
    ∃ bindings', ViewCircuit.firstMatch arms w = some (bindings', body) ∧
      Forall₂ (Bound R) bindings bindings' := by
  induction arms with
  | nil => cases hv
  | cons arm arms ih =>
    obtain ⟨p, e⟩ := arm
    unfold ViewCircuit.firstMatch at hv ⊢
    have hbind := hR.bind? p h
    generalize p.bind? v = x at hv hbind
    generalize p.bind? w = y at hbind
    cases hbind with
    | none => exact ih hv
    | some hbs =>
      obtain ⟨rfl, rfl⟩ := Prod.mk.inj (Option.some.inj hv)
      exact ⟨_, rfl, List.rel_reverse hbs⟩

end Structural

section Environments

variable {R : Val → Val → Prop} {ρ ρ' : Env}

theorem lookup_bound (h : Forall₂ (Bound R) ρ ρ') {x : String} {v : Val}
    (hv : ρ.lookup x = some v) : ∃ w, ρ'.lookup x = some w ∧ R v w := by
  induction h with
  | nil => cases hv
  | cons hb _ ih =>
    rw [lookup_cons_eq] at hv ⊢
    rw [← hb.1]
    split_ifs at hv ⊢
    · exact ⟨_, rfl, Option.some.inj hv ▸ hb.2⟩
    · exact ih hv

theorem hide_bound (h : Forall₂ (Bound R) ρ ρ') {x : String} :
    Forall₂ (Bound R) (ρ.hide x) (ρ'.hide x) := by
  unfold Env.hide
  induction h with
  | nil => exact .nil
  | cons hb _ ih =>
    rw [List.filter_cons, List.filter_cons, ← hb.1]
    split
    · exact .cons hb ih
    · exact ih

theorem names_bound (h : Forall₂ (Bound R) ρ ρ') : ρ'.map Prod.fst = ρ.map Prod.fst := by
  induction h with
  | nil => rfl
  | cons hb _ ih => rw [List.map_cons, List.map_cons, hb.1, ih]

theorem values_bound (h : Forall₂ (Bound R) ρ ρ') :
    Forall₂ R (ρ.map Prod.snd) (ρ'.map Prod.snd) := by
  induction h with
  | nil => exact .nil
  | cons hb _ ih => exact .cons hb.2 ih

theorem zip_bound {vs ws : List Val} (h : Forall₂ R vs ws) (names : List String) :
    Forall₂ (Bound R) (names.zip vs) (names.zip ws) := by
  induction h generalizing names with
  | nil => simp
  | cons hv _ ih =>
    cases names with
    | nil => exact .nil
    | cons name names => exact .cons ⟨rfl, hv⟩ (ih names)

end Environments

end ViewCircuit
