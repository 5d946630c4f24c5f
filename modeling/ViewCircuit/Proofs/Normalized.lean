import ViewCircuit.Proofs.FirstOrder
import ViewCircuit.Proofs.NormalForm
import ViewCircuit.Proofs.Settled

/-! Normalizing twice. What is normalized has nothing left to simplify, and simplifying makes no
redex as long as no conditional chooses between functions; then the next run keeps it. -/
namespace ViewCircuit

namespace Expr

variable {e r : Expr} {rule : Expr → Option Expr}

/-- Closures have function types, and conditionals have others. -/
def ChoosesData (e : Expr) : Prop :=
  (e.form.isClosure → e.ty.functionParts?.isSome) ∧ (e.form.isIte → e.ty.functionParts? = none)

theorem lasting_choosesData : Lasting ChoosesData := by
  intro x y hx h
  unfold ChoosesData
  rw [h.ty, h.closure, h.ite]
  exact hx

theorem isSome_closure? (e : Expr) : e.closure?.isSome = e.form.isClosure := by
  obtain ⟨form, ty⟩ := e
  cases form <;> rfl

/-- No redex comes about when no part becomes a closure. -/
theorem isRedex_overParts (h : e.isRedex = false)
    (hparts : ∀ part ∈ e.form.parts, (part.rewritten rule).form.isClosure → part.form.isClosure) :
    (e.overParts rule).isRedex = false := by
  cases hhead : e.form.head? with
  | some r₀ => exact isRedex_of_head? (head?_overParts hhead)
  | none =>
    obtain ⟨form, ty⟩ := e
    cases form with
    | apply function args =>
      change (function.rewritten rule).closure?.isSome = false
      replace h : function.closure?.isSome = false := h
      rw [isSome_closure?] at h ⊢
      rw [← Bool.not_eq_true] at h ⊢
      exact fun hclosure => h (hparts function List.mem_cons_self hclosure)
    | literal value => cases value <;> cases hhead
    | var | closure | block | ite | cases => rfl
    | _ => cases hhead

/-- A simplification makes neither redexes nor closures. -/
theorem Reduced.of_simpler? (h : e.Reduced ChoosesData) (hr : e.simpler? = some r) :
    r.Reduced ChoosesData ∧ r.form.isClosure = false := by
  obtain ⟨b, rfl⟩ | ⟨ty, rfl⟩ | ⟨hnode, hty, part, hpart, rfl | rfl⟩ := simpler?_eq_some hr
  · exact ⟨.intro ⟨rfl, nofun, nofun⟩ nofun, rfl⟩
  · exact ⟨.intro ⟨rfl, nofun, nofun⟩ nofun, rfl⟩
  · refine ⟨h.part r hpart, ?_⟩
    -- the part would have a function type, which neither a conditional nor a truth value has
    rw [Bool.eq_false_iff]
    intro hclosure
    have hfunction := (h.part r hpart).self.2.1 hclosure
    rw [hty] at hfunction
    rcases hnode with hite | hbool
    · rw [h.self.2.2 hite] at hfunction
      cases hfunction
    · rw [hbool] at hfunction
      cases hfunction
  · exact ⟨.intro ⟨rfl, nofun, nofun⟩ (List.forall_mem_singleton.2 (h.part part hpart)), rfl⟩

/-- Simplifying makes neither redexes nor closures. -/
theorem Reduced.rewritten (h : e.Reduced ChoosesData) :
    (e.rewritten simpler?).Reduced ChoosesData ∧
      ((e.rewritten simpler?).form.isClosure → e.form.isClosure) := by
  induction h with
  | @intro e hself _ ih =>
    have halike := alike_overParts simpler? e
    have hover : (e.overParts simpler?).Reduced ChoosesData := by
      refine .intro ⟨isRedex_overParts hself.1 fun part hpart => (ih part hpart).2,
        lasting_choosesData _ _ hself.2 halike⟩ ?_
      rw [parts_overParts]
      exact List.forall_mem_map.2 fun part hpart => (ih part hpart).1
    rw [rewritten_eq]
    cases hr : (e.overParts simpler?).simpler? with
    | none => exact ⟨hover, fun hclosure => halike.closure ▸ hclosure⟩
    | some r =>
      obtain ⟨hreduced, hclosure⟩ := hover.of_simpler? hr
      exact ⟨hreduced, fun h => absurd h (by simpa using hclosure)⟩

end Expr

open Reduce (whole)

/-- What normalizing an expression returns when names are drawn from a state, however deep its calls
nest. -/
def Normalizes (names : Names) (e n : Expr) : Prop :=
  ∃ fuel r s, whole fuel e ⟨names, .empty⟩ = (.ok r, s) ∧ n = r.value.simplify.value

section Normalizes

variable {names : Names} {e n : Expr} {ctx ctx' : Context}

theorem normalize_eq_ok {r : Reduct Expr} (h : e.normalize ctx = (.ok r, ctx')) :
    ∃ a, e.reduce ctx = (.ok a, ctx') ∧ r = ⟨a.value.simplify.value,
      a.changed || a.value.simplify.changed, a.fired + a.value.simplify.fired⟩ := by
  obtain ⟨a, mid, ha, h⟩ := (Compile.bind_eq_ok _ _).1 h
  cases h
  exact ⟨a, ha, rfl⟩

theorem normalizes_of_normalize {r : Reduct Expr} (h : e.normalize ctx = (.ok r, ctx')) :
    Normalizes ctx.names e r.value := by
  obtain ⟨a, ha, rfl⟩ := normalize_eq_ok h
  obtain ⟨s, hs⟩ := whole_of_reduce ha
  exact ⟨_, a, s, hs, rfl⟩

/-- A run keeps exactly the settled expressions without redexes. -/
theorem normalize_eq_kept_iff (hsettled : n.Settled) :
    n.normalize ctx = (.ok (Reduct.kept n), ctx) ↔ n.RedexFree := by
  constructor
  · intro h
    obtain ⟨a, ha, hkept⟩ := normalize_eq_ok h
    obtain ⟨-, hchanged, -⟩ := Reduct.mk.inj hkept
    obtain ⟨s, hwhole⟩ := whole_of_reduce ha
    have hs := Reduce.expr_of_whole hwhole
    obtain ⟨hrules, -⟩ := Reduce.follows_expr _ _ _ _ _ hs
    rw [Reduce.keeping_expr _ _ _ _ _ hs (Bool.or_eq_false_iff.1 hchanged.symm).1] at hrules
    exact (hrules.done .empty (Expr.Inside.patternsSatisfy n .refl)).redexFree
  · intro h
    rw [normalize_of_idle (Reduce.idle_of_redexFree h hsettled.patternsSatisfy
      (Nat.le_add_right _ _)), hsettled.simplify]
    rfl

/-- What is normalized has nothing left to simplify, so the next run keeps it if and only if no
literal closure is applied in it; and none is if no conditional of the expression has a function
type. -/
theorem Normalizes.normalize_again (h : Normalizes names e n)
    (hnan : e.PatternsSatisfy fun l => l.isNaN = false) : n.Settled ∧
      (∀ ctx, n.normalize ctx = (.ok (Reduct.kept n), ctx) ↔ n.RedexFree) ∧
      (e.Every Expr.ChoosesData →
        n.RedexFree ∧ ∀ ctx, n.normalize ctx = (.ok (Reduct.kept n), ctx)) := by
  obtain ⟨fuel, r, s, hr, rfl⟩ := h
  have hrules := whole_eq_ok hr
  have hsettled := Expr.settled_simplify (hrules.done .empty hnan).patternsSatisfy
  refine ⟨hsettled, fun ctx => normalize_eq_kept_iff hsettled, fun hdata => ?_⟩
  have hreduced := hrules.reduced Expr.lasting_choosesData .empty hdata
  have hfree : r.value.simplify.value.RedexFree := hreduced.rewritten.1.mono fun _ hx => hx.1
  exact ⟨hfree, fun ctx => (normalize_eq_kept_iff hsettled).2 hfree⟩

end Normalizes

/-- One for NULL and zero for others, where the one comes from outside. -/
def nullFlag : Expr :=
  let y := Expr.var "y" Ty.int32.nullable
  Expr.closure [⟨"y", Ty.int32.nullable⟩] ⟨.apply
    (Expr.closure [⟨"x", Ty.int32⟩] ⟨.ite ⟨.binary .and (Expr.isNull y) (Expr.bool true), Ty.bool⟩
      (Expr.var "x" Ty.int32) (Expr.int32 0), Ty.int32⟩)
    [Expr.int32 1], Ty.int32⟩

theorem every_nullFlag {P : Expr → Prop}
    (hP : ∀ x : Expr, x.patternLiterals = [] → x.ChoosesData → P x) : nullFlag.Every P := by
  have hnode {form : Form} {ty : Ty} (hite : form.isIte → ty.functionParts? = none)
      (hclosure : form.isClosure → ty.functionParts?.isSome)
      (hliterals : Expr.patternLiterals ⟨form, ty⟩ = [])
      (hparts : ∀ part ∈ form.parts, part.Every P) : Expr.Every P ⟨form, ty⟩ :=
    .intro (hP _ hliterals ⟨hclosure, hite⟩) hparts
  have hcheck : Expr.Every P ⟨.binary .and (Expr.isNull (Expr.var "y" Ty.int32.nullable))
      (Expr.bool true), Ty.bool⟩ := by
    refine hnode nofun nofun rfl (List.forall_mem_cons.2 ⟨?_, List.forall_mem_singleton.2 ?_⟩)
    · exact hnode nofun nofun rfl (List.forall_mem_singleton.2 (hnode nofun nofun rfl nofun))
    · exact hnode nofun nofun rfl nofun
  refine hnode nofun (fun _ => rfl) rfl (List.forall_mem_singleton.2 ?_)
  refine hnode nofun nofun rfl (List.forall_mem_cons.2 ⟨?_, List.forall_mem_singleton.2 ?_⟩)
  · refine hnode nofun (fun _ => rfl) rfl (List.forall_mem_singleton.2 ?_)
    refine hnode (fun _ => rfl) nofun rfl (List.forall_mem_cons.2 ⟨hcheck, ?_⟩)
    exact List.forall_mem_cons.2 ⟨hnode nofun nofun rfl nofun,
      List.forall_mem_singleton.2 (hnode nofun nofun rfl nofun)⟩
  · exact hnode nofun nofun rfl nofun

/-- The argument is put in and the check simplified; a second run finds nothing to do. -/
theorem normalize_nullFlag : ∃ r, nullFlag.normalize Context.empty = (.ok r, Context.empty) ∧
    r.value = Expr.closure [⟨"y", Ty.int32.nullable⟩]
      ⟨.ite (Expr.isNull (Expr.var "y" Ty.int32.nullable)) (Expr.int32 1) (Expr.int32 0),
        Ty.int32⟩ ∧
    r.value.Settled ∧ r.value.RedexFree ∧
      ∀ ctx, r.value.normalize ctx = (.ok (Reduct.kept r.value), ctx) := by
  have hr : nullFlag.normalize Context.empty = (.ok ⟨Expr.closure [⟨"y", Ty.int32.nullable⟩]
      ⟨.ite (Expr.isNull (Expr.var "y" Ty.int32.nullable)) (Expr.int32 1) (Expr.int32 0),
        Ty.int32⟩, true, 2⟩, Context.empty) := by with_unfolding_all rfl
  obtain ⟨hsettled, -, hdata⟩ := (normalizes_of_normalize hr).normalize_again
    (every_nullFlag fun x hx _ => by simp [hx])
  obtain ⟨hfree, hagain⟩ := hdata (every_nullFlag fun _ _ hx => hx)
  exact ⟨_, hr, rfl, hsettled, hfree, hagain⟩

def identity : Expr := Expr.closure [⟨"x", Ty.int32⟩] (Expr.var "x" Ty.int32)

/-- A choice between functions, applied. -/
def chosenIdentity : Expr :=
  ⟨.apply ⟨.ite (Expr.bool true) identity identity, identity.ty⟩ [Expr.int32 1], Ty.int32⟩

/-- The first run makes the choice, and only the second one applies what is chosen. -/
theorem normalize_chosenIdentity :
    (do Expr.apply (← Expr.ite (Expr.bool true) identity identity) [Expr.int32 1]) =
      .ok chosenIdentity ∧
    chosenIdentity.PatternsSatisfy (fun l => l.isNaN = false) ∧
    ∃ r r', chosenIdentity.normalize Context.empty = (.ok r, Context.empty) ∧
      r.value = ⟨.apply identity [Expr.int32 1], Ty.int32⟩ ∧
      r.value.normalize Context.empty = (.ok r', Context.empty) ∧ r'.value = Expr.int32 1 := by
  refine ⟨by with_unfolding_all rfl, ?_, ?_⟩
  · have hidentity : identity.PatternsSatisfy fun l => l.isNaN = false :=
      .intro nofun (List.forall_mem_singleton.2 (.intro nofun nofun))
    refine .intro nofun (List.forall_mem_cons.2 ⟨.intro nofun ?_, ?_⟩)
    · exact List.forall_mem_cons.2 ⟨.intro nofun nofun,
        List.forall_mem_cons.2 ⟨hidentity, List.forall_mem_singleton.2 hidentity⟩⟩
    · exact List.forall_mem_singleton.2 (.intro nofun nofun)
  · exact ⟨⟨⟨.apply identity [Expr.int32 1], Ty.int32⟩, true, 1⟩, ⟨Expr.int32 1, true, 1⟩,
      by with_unfolding_all rfl, rfl, by with_unfolding_all rfl, rfl⟩

/-- A match whose first pattern is no number. -/
def matchOnNaN : Expr :=
  ⟨.cases (Expr.var "x" Ty.double)
    [(.literal (.float ⟨false, BitVec.ofNat 63 (Double.infinity + 1)⟩), Expr.int32 1),
      (.wildcard, Expr.int32 2)], Ty.int32⟩

/-- Its pattern differs from itself, so every run returns a new node. -/
theorem normalize_matchOnNaN (ctx : Context) :
    matchOnNaN.normalize ctx = (.ok ⟨matchOnNaN, true, 0⟩, ctx) := by
  with_unfolding_all rfl

end ViewCircuit
