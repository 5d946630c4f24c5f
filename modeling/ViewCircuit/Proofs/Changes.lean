import ViewCircuit.Proofs.Pipeline
import ViewCircuit.Proofs.Run

/-! What the passes that make a circuit incremental return as a whole: a circuit in order with the
same sources and views, which puts out in every step of a run how the views change. -/
namespace ViewCircuit
namespace Circuit

variable {c : Circuit} {ctx : Context}

theorem preserves_true (c : Circuit) (ctx : Context)
    (Visited : Rebuild → Operator → List Operator → Operator → Prop) :
    c.Preserves ctx Visited fun _ _ => True :=
  fun _ _ _ _ _ _ _ _ _ _ _ _ => trivial

/-- The passes return a circuit in order and keep its ends. -/
theorem WellFormed.ends_incrementalPasses_sameEnds (hc : c.WellFormed ctx)
    (hwhole : ∀ op ∈ c.operators, op.kind.isWhole) :
    Compile.Ends (c.optimize incrementalPasses) ctx fun out ctx' =>
      out.1.WellFormed ctx' ∧ c.SameEnds out.1 := by
  let post (c' : Circuit) (ctx' : Context) : Prop := c'.WellFormed ctx' ∧ c.SameEnds c'
  refine ends_optimize_cons post ((hc.ends_incrementalize_inv (by trivial) hwhole
    (preserves_true _ _ _)).mono fun c₁ ctx₁ h₁ => ?_)
  refine ends_optimize_cons post ((h₁.wellFormed.ends_pushIntegrals_inv (by trivial)
    (preserves_true _ _ _)).mono fun c₂ ctx₂ h₂ => ?_)
  refine ends_optimize_cons post (h₂.wellFormed.ends_pruned.mono fun c₃ ctx₃ h₃ => ?_)
  refine ends_optimize_cons post ?_
  change Compile.Ends c₃.cancelIntegrals ctx₃ _
  unfold cancelIntegrals
  rw [Compile.ends_bind]
  refine (h₃.1.wellFormed.ends_cancel_inv (by trivial) (preserves_true _ _ _)).mono
    fun c₄ ctx₄ h₄ => ?_
  refine h₄.wellFormed.ends_pruned.mono fun c₅ ctx₅ h₅ => ?_
  rw [optimize, Compile.ends_pure]
  have hpushed : c.SameEnds c₂ := h₁.ends.trans h₂.ends
  exact ⟨h₅.1.wellFormed,
    ((hpushed.trans h₃.1.sameEnds).trans h₄.ends).trans h₅.1.sameEnds⟩

/-- Whatever the functions of a circuit compute and whatever changes come in, the passes succeed and
return a circuit in order, with the same sources and with sinks for the same views. Each sink has
the stream of the changes of what it held on the tables so far, and this is what a run puts out in
every step. -/
theorem incremental_sinks_eq_change {c : Circuit} {ctx : Context} (hc : c.WellFormed ctx)
    (hwhole : ∀ op ∈ c.operators, op.kind.isWhole) :
    Compile.Ends (c.optimize incrementalPasses) ctx fun out ctx' =>
      out.1.WellFormed ctx' ∧ c.SameEnds out.1 ∧ ∀ (M : Meaning) (batches : ℕ → Tables),
        List.Forall₂ (fun sink sink' => sink'.kind = sink.kind ∧ sink'.stream M batches =
          change fun n => sink.contents M (accumulated batches n)) c.sinks out.1.sinks ∧
        ∀ n, out.1.outputs M batches n = c.sinks.map fun sink =>
          (sink.kind, change (fun n => sink.contents M (accumulated batches n)) n) := by
  have hall : Compile.Ends (c.optimize incrementalPasses) ctx fun out _ =>
      ∀ run : Meaning × (ℕ → Tables), SinksRelated (OverBatches run.1 run.2) c out.1 :=
    Compile.ends_forall fun run => hc.ends_incrementalPasses run.1 run.2 hwhole
  refine ((hc.ends_incrementalPasses_sameEnds hwhole).and hall.yields).mono ?_
  rintro out ctx' ⟨⟨hout, hends⟩, hrelated⟩
  refine ⟨hout, hends, fun M batches => ?_⟩
  have hstreams : List.Forall₂ (fun sink sink' => sink'.kind = sink.kind ∧
      sink'.stream M batches = change fun n => sink.contents M (accumulated batches n))
      c.sinks out.1.sinks := by
    refine List.Forall₂.imp ?_ (hrelated (M, batches))
    rintro sink sink' ⟨hsink, hkind, hstream⟩
    exact ⟨hkind, hstream.trans (boundary_of_sink hsink)⟩
  refine ⟨hstreams, fun n => ?_⟩
  rw [hout.ordered.outputs_eq]
  have hequal : List.Forall₂ (· = ·)
      (c.sinks.map fun sink =>
        (sink.kind, change (fun n => sink.contents M (accumulated batches n)) n))
      (out.1.sinks.map fun sink' => (sink'.kind, sink'.stream M batches n)) := by
    rw [List.forall₂_map_left_iff, List.forall₂_map_right_iff]
    exact hstreams.imp fun sink sink' h => by rw [h.1, h.2]
  rw [List.forall₂_eq_eq_eq] at hequal
  exact hequal.symm

/-- Every row of a table once more than it stands there; the table is read twice. -/
def onceMore : Circuit :=
  let table : Operator := ⟨0, Names.nth "stream" 0, .source "T", [], Ty.zset Ty.int32, true⟩
  let unique : Operator := ⟨1, Names.nth "stream" 1, .distinct, [table], table.ty, false⟩
  let both : Operator := ⟨2, Names.nth "stream" 2, .sum, [table, unique], table.ty, true⟩
  let view : Operator := ⟨3, Names.nth "stream" 3, .sink "V", [both], both.ty, true⟩
  ⟨"once_more", [], [table], [unique, both], [view]⟩

theorem onceMore_wellFormed : onceMore.WellFormed ⟨Names.empty.setIssued "stream" 4, 4⟩ where
  sources := by simp [onceMore, OperatorKind.isSource]
  interior := by simp [onceMore, OperatorKind.isSource, OperatorKind.isSink]
  sinks := by simp [onceMore, OperatorKind.isSink]
  earlier := by
    have htable := Operator.readsEarlier_nil.concat onceMore.sources[0] (by simp [onceMore])
    have hunique := htable.concat onceMore.interior[0] (by simp [onceMore])
    have hboth := hunique.concat onceMore.interior[1] (by simp [onceMore])
    exact hboth.concat onceMore.sinks[0] (by simp [onceMore])
  readsNoSink := by simp [onceMore, operators, OperatorKind.isSink]
  names := by
    simp only [onceMore, operators, List.cons_append, List.nil_append, List.map_cons,
      List.map_nil]
    decide
  named := by
    simp only [onceMore, operators, List.cons_append, List.nil_append, List.forall_mem_cons]
    exact ⟨⟨0, by decide, rfl⟩, ⟨1, by decide, rfl⟩, ⟨2, by decide, rfl⟩, ⟨3, by decide, rfl⟩,
      by simp⟩
  nodes := by constructor <;> simp [onceMore, operators]
  checked := by
    simp only [onceMore, operators, List.cons_append, List.nil_append, List.forall_mem_cons]
    exact ⟨.source, .keeps rfl rfl, .sum (n := 1) rfl, .sink rfl, by simp⟩

theorem onceMore_incremental :
    Compile.Ends (onceMore.optimize incrementalPasses) ⟨Names.empty.setIssued "stream" 4, 4⟩
      fun out ctx' => out.1.WellFormed ctx' ∧ onceMore.SameEnds out.1 ∧
        ∀ (M : Meaning) (batches : ℕ → Tables),
          List.Forall₂ (fun sink sink' => sink'.kind = sink.kind ∧ sink'.stream M batches =
            change fun n => sink.contents M (accumulated batches n)) onceMore.sinks out.1.sinks ∧
          ∀ n, out.1.outputs M batches n = onceMore.sinks.map fun sink =>
            (sink.kind, change (fun n => sink.contents M (accumulated batches n)) n) :=
  incremental_sinks_eq_change onceMore_wellFormed (by decide)

end Circuit
end ViewCircuit
