import ViewCircuit.Proofs.ScopeHistory

/-! What is drawn from the counters. As long as no stem ends in a digit, a name tells which draw it
came from, so none comes twice. The search for a new name of a binder ends for the same reason: the
names that cannot be used are finitely many, and each is drawn at most once. -/
namespace ViewCircuit

namespace Names

/-- Draws one name for each stem, in turn. -/
def drawAll (names : Names) : List String → List String × Names
  | [] => ([], names)
  | stem :: stems =>
    let (name, later) := names.fresh stem
    let (drawn, last) := later.drawAll stems
    (name :: drawn, last)

variable {names : Names} {name : String} {stems : List String}

theorem length_drawAll (stems : List String) (names : Names) :
    (names.drawAll stems).1.length = stems.length := by
  induction stems generalizing names with
  | nil => rfl
  | cons stem stems ih => exact congrArg Nat.succ (ih _)

/-- Each draw of a stem moves its counter by one, and no other draw does. -/
theorem issued_drawAll (stems : List String) (names : Names) (stem : String) :
    (names.drawAll stems).2.issued stem = names.issued stem + stems.count stem := by
  induction stems generalizing names with
  | nil => rfl
  | cons first stems ih =>
    calc (names.drawAll (first :: stems)).2.issued stem
      _ = (names.fresh first).2.issued stem + stems.count stem := ih _
      _ = names.issued stem + (first :: stems).count stem := by
        by_cases h : stem = first
        · subst h
          rw [issued_fresh_self, List.count_cons_self]
          omega
        · rw [issued_fresh_of_ne names h, List.count_cons_of_ne (Ne.symm h)]

/-- A name that is drawn has the stem of its turn, and a number beyond those that came before. -/
theorem exists_of_mem_drawAll (h : name ∈ (names.drawAll stems).1) :
    ∃ stem ∈ stems, ∃ n, names.issued stem ≤ n ∧ name = nth stem n := by
  induction stems generalizing names with
  | nil => cases h
  | cons first stems ih =>
    rcases List.mem_cons.1 h with rfl | h
    · exact ⟨first, List.mem_cons_self, _, Nat.le_refl _, rfl⟩
    · obtain ⟨stem, hstem, n, hn, hname⟩ := ih h
      have hissued := later_fresh names first stem
      exact ⟨stem, List.mem_cons_of_mem _ hstem, n, Nat.le_trans hissued hn, hname⟩

theorem nodup_drawAll (h : ∀ stem ∈ stems, endsInDigit stem = false) (names : Names) :
    (names.drawAll stems).1.Nodup := by
  induction stems generalizing names with
  | nil => exact List.nodup_nil
  | cons first stems ih =>
    obtain ⟨hfirst, hstems⟩ := List.forall_mem_cons.1 h
    refine List.nodup_cons.2 ⟨fun hmem => ?_, ih hstems _⟩
    obtain ⟨stem, hstem, n, hn, hname⟩ := exists_of_mem_drawAll hmem
    obtain ⟨rfl, rfl⟩ := nth_inj hfirst (hstems stem hstem) hname
    rw [issued_setIssued_self] at hn
    exact absurd hn (Nat.not_succ_le_self _)

/-- However stems that end in no digit alternate, as those of streams and of renamed binders, the
names drawn for them all differ, and each counter is the number of names drawn of its stem. -/
theorem drawAll_distinct (stems : List String) (h : ∀ stem ∈ stems, endsInDigit stem = false) :
    (empty.drawAll stems).1.length = stems.length ∧ (empty.drawAll stems).1.Nodup ∧
      (∀ stem, (empty.drawAll stems).2.issued stem = stems.count stem) ∧
      endsInDigit "stream" = false ∧ ∀ name, endsInDigit (name ++ "_") = false := by
  refine ⟨length_drawAll stems empty, nodup_drawAll h empty, fun stem => ?_, by decide,
    endsInDigit_underscore⟩
  rw [issued_drawAll]
  exact Nat.zero_add _

/-- Streams, and binders renamed once and twice. -/
theorem drawAll_mixed :
    (∀ stem ∈ ["stream", "y_", "y_0_", "stream", "y_"], endsInDigit stem = false) ∧
    (empty.drawAll ["stream", "y_", "y_0_", "stream", "y_"]).1 =
      ["stream0", "y_0", "y_0_0", "stream1", "y_1"] ∧
    ["stream0", "y_0", "y_0_0", "stream1", "y_1"].Nodup ∧
    (empty.drawAll ["stream", "y_", "y_0_", "stream", "y_"]).2.issued "y_" = 2 := by
  have hstems : ∀ stem ∈ ["stream", "y_", "y_0_", "stream", "y_"], endsInDigit stem = false := by
    decide
  obtain ⟨-, hnodup, hissued, -⟩ := drawAll_distinct _ hstems
  exact ⟨hstems, rfl, hnodup, hissued "y_"⟩

/-- With a digit at the end of a stem, names of two stems can be the same. -/
example : endsInDigit "y_1" = true ∧ nth "y_1" 0 = nth "y_" 10 := by decide

end Names

/-- With a scope open every operation goes through. -/
theorem Scopes.perform_eq_run {ops : List ScopeOp} (hopen : 0 < (run ops).depth) (op : ScopeOp) :
    (run ops).perform op = .ok (run (ops ++ [op])) := by
  have hrun : run (ops ++ [op]) = (run ops).after op := List.foldl_concat ..
  rw [hrun]
  generalize run ops = Δ at hopen
  obtain ⟨_ | ⟨top, rest⟩⟩ := Δ
  · exact absurd hopen (Nat.lt_irrefl 0)
  · cases op <;> rfl

namespace Reduce

open Names (DrawsUntil)

/-- Where a scope is open, binding a name ends, whatever was done to the scopes, was drawn before
and is to be avoided. A name that catches nothing is kept. For one that does, names of its stem are
drawn until one can be used, at most one more than there are names that cannot. The new name is not
to be avoided and was never drawn for a binder; in the open scopes it is free in nothing that was
substituted, and no name is renamed to it. -/
theorem bindName_fresh (ops : List ScopeOp) (names : Names) (name : String) (avoid : List String)
    (hopen : 0 < (Scopes.run ops).depth) :
    ∃ bound s, bindName name avoid ⟨names, Scopes.run ops⟩ = (.ok bound, s) ∧
      ((Scopes.run ops).wouldCapture name = false →
        bound = name ∧ s = ⟨names, Scopes.run (ops ++ [.tombstone name])⟩) ∧
      ((Scopes.run ops).wouldCapture name = true →
        s.scopes = Scopes.run (ops ++ [.rename name bound]) ∧
        (∃ draws ≤ avoid.length + (Scopes.run ops).taken.length + 1,
          DrawsUntil (name ++ "_") (fun n => n ∈ avoid ∨ (Scopes.run ops).wouldCapture n) names
            draws bound s.names) ∧
        bound ∉ avoid ∧ ¬ names.Spent bound ∧
        ∀ log ∈ openLogs ops, (∀ y e, (y, Binding.replace e) ∈ log → bound ∉ e.free) ∧
          ∀ y, log.lookup y ≠ some (.rename bound)) := by
  obtain ⟨draws, hdraws, fresh, later, hfresh, hloop⟩ := freshOutside_drawsUntil (name ++ "_")
    (avoid ++ (Scopes.run ops).taken) ⟨names, Scopes.run ops⟩
  simp only [List.mem_append, ← Scopes.wouldCapture_iff] at hloop
  rw [List.length_append] at hdraws
  cases hcapture : (Scopes.run ops).wouldCapture name with
  | false =>
    have htombstone := Scopes.perform_eq_run hopen (.tombstone name)
    exact ⟨name, _, bindName_of_free hcapture htombstone, fun _ => ⟨rfl, rfl⟩, nofun⟩
  | true =>
    have hrename := Scopes.perform_eq_run hopen (.rename name fresh)
    obtain ⟨havoid, hclear⟩ := not_or.1 hloop.not_blocked
    have hcatches : ∀ log ∈ openLogs ops, ¬ log.Catches fresh := fun log hlog h =>
      hclear ((wouldCapture_of_records (records_run ops)).2 ⟨log, hlog, h⟩)
    refine ⟨fresh, _, bindName_of_capture hcapture hfresh hrename, nofun, fun _ =>
      ⟨rfl, ⟨draws, hdraws, hloop⟩, havoid, hloop.not_spent, fun log hlog => ⟨?_, ?_⟩⟩⟩
    · exact fun y e hmem hfree => hcatches log hlog (.inl ⟨y, e, hmem, hfree⟩)
    · exact fun y hy => hcatches log hlog (.inr ⟨y, hy⟩)

/-- Scopes that hold two variables and a renamed binder. -/
def crowded : List ScopeOp :=
  [.push, .substitute "x" (Expr.var "y" Ty.int32), .substitute "z" (Expr.var "y_1" Ty.int32), .push,
    .rename "w" "y_2"]

/-- The first name is to be avoided and the next two are in use, so the fourth is taken. -/
theorem bindName_fourth : 0 < (Scopes.run crowded).depth ∧
    ∃ s, bindName "y" ["y_0"] ⟨.empty, Scopes.run crowded⟩ = (.ok "y_3", s) ∧
      s.scopes = Scopes.run (crowded ++ [.rename "y" "y_3"]) ∧
      (∃ draws ≤ 5, DrawsUntil "y_" (fun n => n ∈ ["y_0"] ∨ (Scopes.run crowded).wouldCapture n)
        .empty draws "y_3" s.names) ∧
      "y_3" ∉ ["y_0"] ∧ ¬ Names.empty.Spent "y_3" ∧
      ∀ log ∈ openLogs crowded, (∀ y e, (y, Binding.replace e) ∈ log → "y_3" ∉ e.free) ∧
        ∀ y, log.lookup y ≠ some (.rename "y_3") := by
  have hopen : 0 < (Scopes.run crowded).depth := by decide
  have hcapture : (Scopes.run crowded).wouldCapture "y" = true := by decide
  have hvalue : (bindName "y" ["y_0"] ⟨.empty, Scopes.run crowded⟩).1 = .ok "y_3" := by
    with_unfolding_all rfl
  obtain ⟨bound, s, hrun, -, hrenamed⟩ := bindName_fresh crowded .empty "y" ["y_0"] hopen
  rw [hrun] at hvalue
  obtain rfl : bound = "y_3" := Except.ok.inj hvalue
  exact ⟨hopen, s, hrun, hrenamed hcapture⟩

end Reduce

end ViewCircuit
