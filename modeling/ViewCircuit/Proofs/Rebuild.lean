import Mathlib.Data.List.Forall2
import ViewCircuit.Pass.Distinct
import ViewCircuit.Proofs.Names
import ViewCircuit.Proofs.WellFormed

/-! Rebuilding a circuit operator by operator. What a visit preserves is stated once for a relation
between an operator and what stands for it, and carried through a whole rebuild. -/
namespace ViewCircuit

namespace Operator

/-- An operator over other inputs: the node itself, or one with the next number. -/
structure Rewired (op : Operator) (inputs : List Operator) (ctx : Context) (op' : Operator)
    (ctx' : Context) : Prop where
  kind : op'.kind = op.kind
  name : op'.name = op.name
  ty : op'.ty = op.ty
  isMultiset : op'.isMultiset = op.isMultiset
  inputs : op'.inputs = inputs
  node : op' = op ∧ ctx' = ctx ∨ op'.id = ctx.nextId ∧ ctx' = ctx.numbered

theorem checkInputs_eq_ok {op : Operator} {inputs : List Operator}
    (h : inputs.map Operator.ty = op.inputs.map Operator.ty) : op.checkInputs inputs = .ok () := by
  have hlen : inputs.length = op.inputs.length := by simpa using congrArg List.length h
  have hzip : ∀ p ∈ inputs.zip op.inputs, p.1.ty = p.2.ty := by
    intro p hp
    obtain ⟨i, hi, rfl⟩ := List.mem_iff_getElem.1 hp
    have hget := congrArg (fun tys => tys[i]?) h
    simp only [List.length_zip, Nat.lt_min] at hi
    simpa [hi.1, hi.2] using hget
  have hfind : (inputs.zip op.inputs).find? (fun p => !p.1.ty.same p.2.ty) = none := by
    rw [List.find?_eq_none]
    intro p hp
    simp [(Ty.same_iff _ _).2 (hzip p hp)]
  unfold checkInputs
  rw [if_neg (by omega), hfind]

theorem ends_withInputs {ctx : Context} {op : Operator} {known inputs : List Operator}
    (hnodes : Distinguished ctx known) (hnew : ∀ i ∈ inputs, i ∈ known)
    (hold : ∀ i ∈ op.inputs, i ∈ known)
    (hty : inputs.map Operator.ty = op.inputs.map Operator.ty) :
    Compile.Ends (op.withInputs inputs) ctx (op.Rewired inputs ctx) := by
  unfold withInputs
  rw [checkInputs_eq_ok hty]
  rw [Compile.ends_bind, Compile.ends_ofExcept]
  refine ⟨(), rfl, ?_⟩
  split
  · rename_i hsame
    rw [Compile.ends_pure]
    exact ⟨rfl, rfl, rfl, rfl, (eq_of_allSame hnodes hnew hold hsame).symm, .inl ⟨rfl, rfl⟩⟩
  · exact ⟨_, _, rfl, ⟨rfl, rfl, rfl, rfl, rfl, .inr ⟨rfl, rfl⟩⟩⟩

theorem Rewired.extends {op op' : Operator} {inputs : List Operator} {ctx ctx' : Context}
    (h : op.Rewired inputs ctx op' ctx') : ctx.Extends ctx' := by
  rcases h.node with ⟨_, rfl⟩ | ⟨_, rfl⟩
  · exact .refl _
  · exact ctx.extends_numbered

/-- The rewired node was there, or it is new. -/
theorem Rewired.drawn {op op' : Operator} {inputs ops : List Operator} {ctx₀ ctx ctx' : Context}
    (h : op.Rewired inputs ctx op' ctx') (hop : op ∈ ops) (hctx : ctx₀.Extends ctx) :
    op' ∈ ops ∨ ctx₀.nextId ≤ op'.id := by
  rcases h.node with ⟨rfl, -⟩ | ⟨hid, -⟩
  · exact .inl hop
  · exact .inr (hid ▸ hctx.nextId)

/-- The rewired node is told apart from all nodes known before. -/
theorem Rewired.distinguished {op op' : Operator} {inputs known : List Operator}
    {ctx ctx' : Context} (h : op.Rewired inputs ctx op' ctx') (hnodes : Distinguished ctx known)
    (hop : op ∈ known) : Distinguished ctx' (op' :: known) := by
  rcases h.node with ⟨rfl, rfl⟩ | ⟨hid, rfl⟩
  · exact hnodes.subset fun a ha => (List.mem_cons.1 ha).elim (fun he => he ▸ hop) fun h => h
  · exact hnodes.cons hid (by simp)

theorem Rewired.checked {op op' : Operator} {inputs : List Operator} {ctx ctx' : Context}
    (h : op.Rewired inputs ctx op' ctx') (hop : op.Checked)
    (hty : inputs.map Operator.ty = op.inputs.map Operator.ty) : op'.Checked := by
  unfold Checked at hop ⊢
  rw [h.kind, h.inputs, h.ty, hty]
  exact hop

end Operator

namespace Rebuild

/-- The rebuilt circuit with one more operator. -/
def extend (r : Rebuild) (op : Operator) : Rebuild := { r with result := r.result.insert op }

@[simp] theorem mapped_extend (r : Rebuild) (op x : Operator) :
    (r.extend op).mapped x = r.mapped x := rfl

theorem mapped_replace (r : Rebuild) (old new x : Operator) :
    (r.replace old new).mapped x = if x.name = old.name then new else r.mapped x := by
  unfold replace mapped
  rw [List.lookup_cons]
  by_cases h : x.name = old.name
  · simp [h]
  · have hne : (x.name == old.name) = false := by simp [h]
    simp [h, hne]

/-- What now stands for an operator: a member of the same type that is related to it. -/
structure Stands (Sem : Operator → Operator → Prop) (r : Rebuild) (op op' : Operator) : Prop where
  mem : op' ∈ r.result.operators
  ty : op'.ty = op.ty
  isSink : op'.kind.isSink = op.kind.isSink
  sinkKind : op.kind.isSink → op'.kind = op.kind
  sem : Sem op op'

/-- A circuit grown from `c`, in which only fresh streams and the streams of `seen` are in use, and
only nodes of `c` and new ones. -/
structure Grown (c : Circuit) (ctx₀ : Context) (seen : List Operator) (r : Rebuild)
    (ctx : Context) : Prop where
  wellFormed : r.result.WellFormed ctx
  nodes : Operator.Distinguished ctx (c.operators ++ r.result.operators)
  later : ctx₀.Extends ctx
  names : ∀ op ∈ r.result.operators, op.name ∈ seen.map Operator.name ∨
    ∃ n, ctx₀.streams ≤ n ∧ op.name = Names.nth "stream" n
  drawn : ∀ op ∈ r.result.operators, op ∈ c.operators ∨ ctx₀.nextId ≤ op.id

/-- What holds while `c` is rebuilt, when something stands for each operator of `done`. -/
structure Sound (c : Circuit) (ctx₀ : Context) (Sem : Operator → Operator → Prop)
    (seen done : List Operator) (r : Rebuild) (ctx : Context) : Prop
    extends Grown c ctx₀ seen r ctx where
  stands : ∀ op ∈ done, Stands Sem r op (r.mapped op)
  sinks : r.result.sinks = (done.filter fun op => op.kind.isSink).map r.mapped

section Steps

variable {c : Circuit} {ctx₀ ctx ctx' : Context} {Sem : Operator → Operator → Prop}
  {seen done rest : List Operator} {r : Rebuild} {op op' new : Operator}

theorem Stands.mono {r' : Rebuild} (h : Stands Sem r op op')
    (hr : ∀ x ∈ r.result.operators, x ∈ r'.result.operators) : Stands Sem r' op op' :=
  { h with mem := hr op' h.mem }

theorem mem_extend {x : Operator} (hx : x ∈ r.result.operators) :
    x ∈ (r.extend new).result.operators :=
  Circuit.mem_operators_insert.2 (.inr hx)

theorem emit_eq_ok (hin : ∀ i ∈ op.inputs, i ∈ r.result.operators)
    (hfresh : op.name ∉ r.result.operators.map Operator.name) :
    r.emit op = .ok (r.extend op) := by
  have hadd : r.result.add op = .ok (r.result.insert op) :=
    Circuit.add_eq_ok_iff.2 ⟨fun i hi => List.mem_map_of_mem (hin i hi), hfresh, rfl⟩
  unfold emit
  rw [hadd]
  rfl

/-- A member of the rebuilt circuit that is no sink may be read. -/
def Readable (r : Rebuild) (i : Operator) : Prop :=
  i ∈ r.result.operators ∧ i.kind.isSink = false

theorem Readable.extend {i : Operator} (h : r.Readable i) : (r.extend new).Readable i :=
  ⟨mem_extend h.1, h.2⟩

theorem readable_extend_self (h : new.kind.isSink = false) : (r.extend new).Readable new :=
  ⟨Circuit.mem_operators_insert.2 (.inl rfl), h⟩

/-- Inputs of a member may be read. -/
theorem Grown.readable_input (h : Grown c ctx₀ seen r ctx) {x i : Operator}
    (hx : x ∈ r.result.operators) (hi : i ∈ x.inputs) : r.Readable i :=
  ⟨h.wellFormed.earlier.mem hx hi, h.wellFormed.readsNoSink x hx i hi⟩

theorem Grown.mono (h : Grown c ctx₀ seen r ctx) {seen' : List Operator}
    (hseen : ∀ x ∈ seen, x ∈ seen') : Grown c ctx₀ seen' r ctx :=
  { h with
    names := fun x hx => (h.names x hx).imp_left fun hmem => by
      obtain ⟨y, hy, hxy⟩ := List.mem_map.1 hmem
      exact List.mem_map.2 ⟨y, hseen y hy, hxy⟩ }

/-- An operator that fits is emitted. -/
theorem Grown.extend (h : Grown c ctx₀ seen r ctx) (hctx : ctx.Extends ctx')
    (hchecked : op'.Checked) (hin : ∀ i ∈ op'.inputs, r.Readable i)
    (hfresh : op'.name ∉ r.result.operators.map Operator.name) (hnamed : op'.Named ctx')
    (hname : op'.name ∈ seen.map Operator.name ∨
      ∃ n, ctx₀.streams ≤ n ∧ op'.name = Names.nth "stream" n)
    (hdrawn : op' ∈ c.operators ∨ ctx₀.nextId ≤ op'.id)
    (hnodes : Operator.Distinguished ctx' (op' :: (c.operators ++ r.result.operators))) :
    r.emit op' = .ok (r.extend op') ∧ Grown c ctx₀ seen (r.extend op') ctx' := by
  refine ⟨emit_eq_ok (fun i hi => (hin i hi).1) hfresh, ?_⟩
  constructor
  case wellFormed =>
    refine (h.wellFormed.mono hctx).insert hchecked (fun i hi => (hin i hi).1)
      (fun i hi => (hin i hi).2) hfresh hnamed (hnodes.subset ?_)
    intro a ha
    rcases List.mem_cons.1 ha with rfl | ha
    · exact List.mem_cons_self
    · exact List.mem_cons_of_mem _ (List.mem_append_right _ ha)
  case nodes =>
    refine hnodes.subset ?_
    intro a ha
    rcases List.mem_append.1 ha with ha | ha
    · exact List.mem_cons_of_mem _ (List.mem_append_left _ ha)
    · rcases Circuit.mem_operators_insert.1 ha with rfl | ha
      · exact List.mem_cons_self
      · exact List.mem_cons_of_mem _ (List.mem_append_right _ ha)
  case later => exact h.later.trans hctx
  case names =>
    intro x hx
    rcases Circuit.mem_operators_insert.1 hx with rfl | hx
    · exact hname
    · exact h.names x hx
  case drawn =>
    intro x hx
    rcases Circuit.mem_operators_insert.1 hx with rfl | hx
    · exact hdrawn
    · exact h.drawn x hx

/-- A further operator that is no sink changes nothing in what stands for the others. -/
theorem Sound.extend (h : Sound c ctx₀ Sem seen done r ctx) {seen' : List Operator}
    (hgrown : Grown c ctx₀ seen' (r.extend op') ctx') (hsink : op'.kind.isSink = false) :
    Sound c ctx₀ Sem seen' done (r.extend op') ctx' := by
  refine { hgrown with stands := fun x hx => (h.stands x hx).mono fun _ => mem_extend, sinks := ?_ }
  rw [show (r.extend op').result = r.result.insert op' from rfl, Circuit.sinks_insert, hsink]
  exact h.sinks

/-- Emits an operator with a stream of its own. -/
theorem Sound.emitNew (h : Sound c ctx₀ Sem seen done r ctx) (hnew : op'.New ctx ctx')
    (hchecked : op'.Checked) (hin : ∀ i ∈ op'.inputs, r.Readable i)
    (hsink : op'.kind.isSink = false) :
    r.emit op' = .ok (r.extend op') ∧ Sound c ctx₀ Sem seen done (r.extend op') ctx' := by
  obtain ⟨hid, hname, rfl⟩ := hnew
  have hfresh : op'.name ∉ r.result.operators.map Operator.name := by
    intro hmem
    obtain ⟨x, hx, hxname⟩ := List.mem_map.1 hmem
    obtain ⟨n, hn, hxn⟩ := h.wellFormed.named x hx
    have heq := Names.nth_injective (hxn.symm.trans (hxname.trans hname))
    omega
  obtain ⟨hemit, hgrown⟩ := h.toGrown.extend ctx.extends_extended hchecked hin hfresh
    ⟨ctx.streams, by simp, hname⟩ (.inr ⟨ctx.streams, h.later.streams, hname⟩)
    (.inr (hid ▸ h.later.nextId))
    (h.nodes.cons hid (by simp))
  exact ⟨hemit, h.extend hgrown hsink⟩

/-- The stream of the next operator is not in use yet. -/
theorem Grown.name_fresh (h : Grown c ctx₀ done r ctx) (hc : c.WellFormed ctx₀)
    (hsplit : c.operators = done ++ op :: rest) :
    op.name ∉ r.result.operators.map Operator.name := by
  have hop : op ∈ c.operators := by simp [hsplit]
  intro hmem
  obtain ⟨x, hx, hxname⟩ := List.mem_map.1 hmem
  rcases h.names x hx with hold | ⟨n, hn, hxn⟩
  · have hnames := hc.names
    rw [hsplit, List.map_append, List.map_cons, List.nodup_middle] at hnames
    rw [hxname] at hold
    exact (List.nodup_cons.1 hnames).1 (List.mem_append_left _ hold)
  · obtain ⟨m, hm, hopname⟩ := hc.named op hop
    have heq := Names.nth_injective (hopname.symm.trans (hxname.symm.trans hxn))
    omega

/-- Emits the next operator over other inputs. -/
theorem Grown.emitKept {inputs : List Operator} (h : Grown c ctx₀ done r ctx)
    (hc : c.WellFormed ctx₀) (hsplit : c.operators = done ++ op :: rest)
    (hre : op.Rewired inputs ctx op' ctx')
    (hty : inputs.map Operator.ty = op.inputs.map Operator.ty)
    (hin : ∀ i ∈ inputs, r.Readable i) :
    r.emit op' = .ok (r.extend op') ∧ Grown c ctx₀ (done ++ [op]) (r.extend op') ctx' := by
  have hop : op ∈ c.operators := by simp [hsplit]
  have hnamed : op'.Named ctx' := by
    obtain ⟨m, hm, hopname⟩ := hc.named op hop
    have hle := (h.later.trans hre.extends).streams
    exact ⟨m, Nat.lt_of_lt_of_le hm hle, hre.name.trans hopname⟩
  exact (h.mono fun x hx => List.mem_append_left _ hx).extend hre.extends
    (hre.checked (hc.checked op hop) hty) (hre.inputs ▸ hin) (hre.name ▸ h.name_fresh hc hsplit)
    hnamed (.inl (by simp [hre.name])) (hre.drawn hop h.later)
    (hre.distinguished h.nodes (List.mem_append_left _ hop))

/-- Emits the next operator over other inputs, when it is no sink. -/
theorem Sound.emitKept {inputs : List Operator} (h : Sound c ctx₀ Sem done done r ctx)
    (hc : c.WellFormed ctx₀) (hsplit : c.operators = done ++ op :: rest)
    (hre : op.Rewired inputs ctx op' ctx')
    (hty : inputs.map Operator.ty = op.inputs.map Operator.ty) (hin : ∀ i ∈ inputs, r.Readable i)
    (hsink : op.kind.isSink = false) :
    r.emit op' = .ok (r.extend op') ∧
      Sound c ctx₀ Sem (done ++ [op]) done (r.extend op') ctx' := by
  obtain ⟨hemit, hgrown⟩ := h.toGrown.emitKept hc hsplit hre hty hin
  exact ⟨hemit, h.extend hgrown (hre.kind ▸ hsink)⟩

/-- Among the operators done, the next one has a name of its own. -/
theorem name_ne_of_mem (hc : c.WellFormed ctx₀) (hsplit : c.operators = done ++ op :: rest)
    {x : Operator} (hx : x ∈ done) : x.name ≠ op.name :=
  Operator.name_ne_of_split hc.names hsplit x hx

/-- A member now stands for the next operator, which is no sink. -/
theorem Sound.stand (h : Sound c ctx₀ Sem seen done r ctx) (hc : c.WellFormed ctx₀)
    (hsplit : c.operators = done ++ op :: rest) (hseen : ∀ x ∈ seen, x ∈ done ++ [op])
    (hnew : Stands Sem r op new) (hsink : op.kind.isSink = false) :
    Sound c ctx₀ Sem (done ++ [op]) (done ++ [op]) (r.replace op new) ctx := by
  have hmapped : ∀ x ∈ done, (r.replace op new).mapped x = r.mapped x := by
    intro x hx
    rw [mapped_replace, if_neg (name_ne_of_mem hc hsplit hx)]
  refine { h.toGrown.mono hseen with stands := ?_, sinks := ?_ }
  · intro x hx
    rcases List.mem_append.1 hx with hx | hx
    · rw [hmapped x hx]
      exact (h.stands x hx).mono fun _ hy => hy
    · obtain rfl := List.mem_singleton.1 hx
      rw [mapped_replace, if_pos rfl]
      exact hnew.mono fun _ hy => hy
  · have hmap : (done.filter fun x => x.kind.isSink).map (r.replace op new).mapped =
        (done.filter fun x => x.kind.isSink).map r.mapped :=
      List.map_congr_left fun x hx => hmapped x (List.mem_filter.1 hx).1
    rw [show (r.replace op new).result = r.result from rfl, List.filter_append, List.map_append,
      hmap, ← h.sinks]
    simp [hsink]

/-- Emits the next operator, a sink, over other inputs; it stands for itself. -/
theorem Sound.standSink {inputs : List Operator} (h : Sound c ctx₀ Sem done done r ctx)
    (hc : c.WellFormed ctx₀) (hsplit : c.operators = done ++ op :: rest)
    (hre : op.Rewired inputs ctx op' ctx')
    (hty : inputs.map Operator.ty = op.inputs.map Operator.ty) (hin : ∀ i ∈ inputs, r.Readable i)
    (hsink : op.kind.isSink) (hsem : Sem op op') :
    r.emitAs op op' = .ok ((r.extend op').replace op op') ∧
      Sound c ctx₀ Sem (done ++ [op]) (done ++ [op]) ((r.extend op').replace op op') ctx' := by
  obtain ⟨hemit, hgrown⟩ := h.toGrown.emitKept hc hsplit hre hty hin
  have hmapped : ∀ x ∈ done, ((r.extend op').replace op op').mapped x = r.mapped x := by
    intro x hx
    rw [mapped_replace, if_neg (name_ne_of_mem hc hsplit hx), mapped_extend]
  refine ⟨by rw [emitAs, hemit]; rfl, { hgrown with stands := ?_, sinks := ?_ }⟩
  · intro x hx
    rcases List.mem_append.1 hx with hx | hx
    · rw [hmapped x hx]
      exact (h.stands x hx).mono fun _ => mem_extend
    · obtain rfl := List.mem_singleton.1 hx
      rw [mapped_replace, if_pos rfl]
      exact ⟨Circuit.mem_operators_insert.2 (.inl rfl), hre.ty, by rw [hre.kind],
        fun _ => hre.kind, hsem⟩
  · have hmap : (done.filter fun x => x.kind.isSink).map ((r.extend op').replace op op').mapped =
        (done.filter fun x => x.kind.isSink).map r.mapped :=
      List.map_congr_left fun x hx => hmapped x (List.mem_filter.1 hx).1
    rw [show ((r.extend op').replace op op').result = r.result.insert op' from rfl,
      Circuit.sinks_insert, if_pos (hre.kind ▸ hsink), List.filter_append, List.map_append, hmap,
      ← h.sinks]
    simp [hsink, mapped_replace]

section Inputs

variable (h : Sound c ctx₀ Sem done done r ctx) (hc : c.WellFormed ctx₀)
  (hsplit : c.operators = done ++ op :: rest)

include h hc hsplit

/-- Something stands for every input of the next operator. -/
theorem Sound.stands_input {i : Operator} (hi : i ∈ op.inputs) : Stands Sem r i (r.mapped i) :=
  h.stands i (hc.earlier done op rest hsplit i hi)

theorem Sound.readable_mapped {i : Operator} (hi : i ∈ op.inputs) : r.Readable (r.mapped i) := by
  have hstands := h.stands_input hc hsplit hi
  refine ⟨hstands.mem, ?_⟩
  rw [hstands.isSink]
  exact hc.readsNoSink op (by simp [hsplit]) i hi

theorem Sound.readable_mappedInputs : ∀ i ∈ r.mappedInputs op, r.Readable i := by
  intro i hi
  obtain ⟨x, hx, rfl⟩ := List.mem_map.1 hi
  exact h.readable_mapped hc hsplit hx

theorem Sound.mappedInputs_ty :
    (r.mappedInputs op).map Operator.ty = op.inputs.map Operator.ty := by
  unfold mappedInputs
  rw [List.map_map]
  exact List.map_congr_left fun i hi => (h.stands_input hc hsplit hi).ty

omit h in
/-- The next operator can be put over any members of the right types. -/
theorem Grown.ends_withInputs (hg : Grown c ctx₀ seen r ctx) {inputs : List Operator}
    (hty : inputs.map Operator.ty = op.inputs.map Operator.ty)
    (hin : ∀ i ∈ inputs, r.Readable i) :
    Compile.Ends (op.withInputs inputs) ctx (op.Rewired inputs ctx) := by
  refine Operator.ends_withInputs hg.nodes (fun i hi => List.mem_append_right _ (hin i hi).1)
    (fun i hi => List.mem_append_left _ ?_) hty
  exact hc.earlier.mem (by simp [hsplit]) hi

theorem Sound.ends_rewire :
    Compile.Ends (r.rewire op) ctx (op.Rewired (r.mappedInputs op) ctx) :=
  h.toGrown.ends_withInputs hc hsplit (h.mappedInputs_ty hc hsplit)
    (h.readable_mappedInputs hc hsplit)

/-- Emits the next operator over other members; it stands for itself. -/
theorem Sound.emitAs_kept {inputs : List Operator} (hre : op.Rewired inputs ctx op' ctx')
    (hty : inputs.map Operator.ty = op.inputs.map Operator.ty) (hin : ∀ i ∈ inputs, r.Readable i)
    (hsem : Sem op op') :
    ∃ r', r.emitAs op op' = .ok r' ∧
      Sound c ctx₀ Sem (done ++ [op]) (done ++ [op]) r' ctx' := by
  cases hsink : op.kind.isSink with
  | true => exact ⟨_, h.standSink hc hsplit hre hty hin hsink hsem⟩
  | false =>
    obtain ⟨hemit, hsound⟩ := h.emitKept hc hsplit hre hty hin hsink
    refine ⟨_, by rw [emitAs, hemit]; rfl, hsound.stand hc hsplit (fun _ hx => hx) ?_ hsink⟩
    exact ⟨Circuit.mem_operators_insert.2 (.inl rfl), hre.ty, by rw [hre.kind],
      fun _ => hre.kind, hsem⟩

/-- Keeping the next operator preserves what holds of the rebuild. -/
theorem Sound.ends_copy
    (hsem : ∀ op', op'.kind = op.kind → op'.inputs = r.mappedInputs op → Sem op op') :
    Compile.Ends (r.copy op) ctx (Sound c ctx₀ Sem (done ++ [op]) (done ++ [op])) := by
  unfold copy
  rw [Compile.ends_bind]
  refine (h.ends_rewire hc hsplit).mono fun op' ctx' hre => ?_
  rw [Compile.ends_ofExcept]
  exact h.emitAs_kept hc hsplit hre (h.mappedInputs_ty hc hsplit)
    (h.readable_mappedInputs hc hsplit) (hsem op' hre.kind hre.inputs)

end Inputs

/-- Ends a visit by emitting an operator that keeps the type of a member; it then stands for the
next operator. -/
theorem Sound.ends_keeping {kind : OperatorKind} {isMultiset : Bool} {input : Operator}
    (h : Sound c ctx₀ Sem seen done r ctx) (hc : c.WellFormed ctx₀)
    (hsplit : c.operators = done ++ op :: rest) (hseen : ∀ x ∈ seen, x ∈ done ++ [op])
    (hkeeps : kind.keepsType) (hread : r.Readable input) (hty : input.ty = op.ty)
    (hsink : op.kind.isSink = false)
    (hsem : ∀ op' : Operator, op'.kind = kind → op'.inputs = [input] → Sem op op') :
    Compile.Ends (do
      let new ← Operator.unary kind input isMultiset
      Compile.ofExcept (r.emitAs op new)) ctx
      (Sound c ctx₀ Sem (done ++ [op]) (done ++ [op])) := by
  have hcoll : input.ty.isCollection := (h.wellFormed.checked input hread.1).isCollection
  rw [Compile.ends_bind]
  refine (Operator.ends_unary hcoll).mono fun new ctx' hmade => ?_
  have hinputs : ∀ i ∈ new.inputs, r.Readable i := by
    simpa [hmade.inputs] using hread
  have hnosink : new.kind.isSink = false := by
    rw [hmade.kind]
    cases kind <;> first | rfl | cases hkeeps
  obtain ⟨hemit, hsound⟩ :=
    h.emitNew hmade.toNew (hmade.checked (.keeps hkeeps hcoll)) hinputs hnosink
  rw [Compile.ends_ofExcept]
  refine ⟨_, by rw [emitAs, hemit]; rfl, hsound.stand hc hsplit hseen ?_ hsink⟩
  exact ⟨Circuit.mem_operators_insert.2 (.inl rfl), hmade.ty.trans hty, by rw [hnosink, hsink],
    fun hs => by simp [hsink] at hs, hsem new hmade.kind hmade.inputs⟩

end Steps

theorem wellFormed_start (c : Circuit) (ctx : Context) : (start c).result.WellFormed ctx := by
  constructor <;> simp [start, Circuit.empty, Circuit.operators, Operator.ReadsEarlier]
  exact ⟨by simp, by simp⟩

/-- Nothing was visited yet. -/
theorem sound_start {c : Circuit} {ctx : Context} {Sem : Operator → Operator → Prop}
    (hc : c.WellFormed ctx) : Sound c ctx Sem [] [] (start c) ctx := by
  have hnone : (start c).result.operators = [] := rfl
  constructor
  case stands => simp
  case sinks => rfl
  constructor
  case wellFormed => exact wellFormed_start c ctx
  case nodes => simpa [hnone] using hc.nodes
  case later => exact .refl ctx
  case names => simp [hnone]
  case drawn => simp [hnone]

end Rebuild

/-- Operators and their only inputs, one by one. -/
theorem inputsUnder?_eq_some {property : OperatorKind → Bool} {ops inner : List Operator}
    (h : inputsUnder? property ops = some inner) :
    List.Forall₂ (fun op i => property op.kind ∧ op.inputs = [i]) ops inner := by
  unfold inputsUnder? at h
  split at h
  · rename_i hall
    simp only [Bool.and_eq_true, List.all_eq_true] at hall
    replace hall := hall.2
    induction ops generalizing inner with
    | nil =>
      obtain rfl : [] = inner := by simpa using h
      exact .nil
    | cons op ops ih =>
      simp only [List.mapM_cons, Option.bind_eq_bind, Option.bind_eq_some_iff] at h
      obtain ⟨i, hi, is, his, hinner⟩ := h
      obtain rfl : i :: is = inner := by simpa using hinner
      exact .cons ⟨hall op List.mem_cons_self, Operator.input?_eq_some.1 hi⟩
        (ih his fun x hx => hall x (List.mem_cons_of_mem _ hx))
  · cases h

theorem OperatorKind.isSource_of_isSink {kind : OperatorKind} (h : kind.isSink) :
    kind.isSource = false := by cases kind <;> first | rfl | cases h

namespace Circuit

/-- Sinks are the operators of their kind. -/
theorem Sectioned.sinks_eq {c : Circuit} (hc : c.Sectioned) :
    c.sinks = c.operators.filter fun op => op.kind.isSink := by
  have hsources : c.sources.filter (fun op => op.kind.isSink) = [] := by
    refine List.filter_eq_nil_iff.2 fun op hop => ?_
    have h := hc.sources op hop
    cases hk : op.kind <;> simp_all [OperatorKind.isSource, OperatorKind.isSink]
  have hinterior : c.interior.filter (fun op => op.kind.isSink) = [] :=
    List.filter_eq_nil_iff.2 fun op hop => by simp [(hc.interior op hop).2]
  have hsinks : c.sinks.filter (fun op => op.kind.isSink) = c.sinks :=
    List.filter_eq_self.2 fun op hop => hc.sinks op hop
  rw [operators, List.filter_append, List.filter_append, hsources, hinterior, hsinks]
  rfl

/-- Sources are the operators of their kind. -/
theorem Sectioned.sources_eq {c : Circuit} (hc : c.Sectioned) :
    c.sources = c.operators.filter fun op => op.kind.isSource := by
  have hsources : c.sources.filter (fun op => op.kind.isSource) = c.sources :=
    List.filter_eq_self.2 fun op hop => hc.sources op hop
  have hinterior : c.interior.filter (fun op => op.kind.isSource) = [] :=
    List.filter_eq_nil_iff.2 fun op hop => by simp [(hc.interior op hop).1]
  have hsinks : c.sinks.filter (fun op => op.kind.isSource) = [] :=
    List.filter_eq_nil_iff.2 fun op hop => by
      simp [OperatorKind.isSource_of_isSink (hc.sinks op hop)]
  rw [operators, List.filter_append, List.filter_append, hsources, hinterior, hsinks]
  simp

/-- All other operators are between them. -/
theorem Sectioned.interior_eq {c : Circuit} (hc : c.Sectioned) :
    c.interior = c.operators.filter fun op => !(op.kind.isSource || op.kind.isSink) := by
  have hsources : c.sources.filter (fun op => !(op.kind.isSource || op.kind.isSink)) = [] :=
    List.filter_eq_nil_iff.2 fun op hop => by simp [hc.sources op hop]
  have hinterior : c.interior.filter (fun op => !(op.kind.isSource || op.kind.isSink)) =
      c.interior :=
    List.filter_eq_self.2 fun op hop => by simp [hc.interior op hop]
  have hsinks : c.sinks.filter (fun op => !(op.kind.isSource || op.kind.isSink)) = [] :=
    List.filter_eq_nil_iff.2 fun op hop => by simp [hc.sinks op hop]
  rw [operators, List.filter_append, List.filter_append, hsources, hinterior, hsinks]
  simp

/-- Sinks of two circuits that belong to the same views and are related, one by one. -/
def SinksRelated (Sem : Operator → Operator → Prop) (c c' : Circuit) : Prop :=
  List.Forall₂ (fun op op' => op.kind.isSink ∧ op'.kind = op.kind ∧ Sem op op') c.sinks c'.sinks

/-- When every visit preserves what holds of the rebuild, the new circuit is well-formed and its
sinks are related to the old ones. -/
theorem WellFormed.ends_rebuild {ctx : Context} {c : Circuit} (hc : c.WellFormed ctx)
    {Sem : Operator → Operator → Prop} {visit : Rebuild → Operator → Compile Rebuild}
    (step : ∀ done op rest r ctx', c.operators = done ++ op :: rest →
      Rebuild.Sound c ctx Sem done done r ctx' →
      Compile.Ends (visit r op) ctx' (Rebuild.Sound c ctx Sem (done ++ [op]) (done ++ [op]))) :
    Compile.Ends (c.rebuild visit) ctx fun c' ctx' =>
      c'.WellFormed ctx' ∧ ctx.Extends ctx' ∧ SinksRelated Sem c c' := by
  unfold rebuild
  rw [Compile.ends_bind]
  refine (Compile.Ends.foldlM (fun done => Rebuild.Sound c ctx Sem done done) c.operators
    (fun before op after r ctx' hsplit h => step before op after r ctx' hsplit h)
    (Rebuild.sound_start hc)).mono fun r ctx' h => ?_
  rw [Compile.ends_pure]
  have hrelated : SinksRelated Sem c r.result := by
    unfold SinksRelated
    rw [h.sinks, ← hc.sectioned.sinks_eq, List.forall₂_map_right_iff, List.forall₂_same]
    intro op hop
    have hstands := h.stands op (by simp [operators, hop])
    exact ⟨hc.sinks op hop, hstands.sinkKind (hc.sinks op hop), hstands.sem⟩
  split
  · rename_i hsame
    have hops : r.result.operators = c.operators := Operator.eq_of_allSame h.nodes
      (fun a ha => List.mem_append_right _ ha) (fun a ha => List.mem_append_left _ ha) hsame
    have hsinks : r.result.sinks = c.sinks := by
      rw [h.wellFormed.sectioned.sinks_eq, hc.sectioned.sinks_eq, hops]
    refine ⟨hc.mono h.later, h.later, ?_⟩
    unfold SinksRelated at hrelated ⊢
    rwa [hsinks] at hrelated
  · exact ⟨h.wellFormed, h.later, hrelated⟩

/-! ### Copying every operator -/

section Copied

variable {ctx : Context} {c : Circuit} {done rest : List Operator} {op : Operator} {r : Rebuild}

theorem allSame_refl (ops : List Operator) : Operator.allSame ops ops := by
  induction ops with
  | nil => rfl
  | cons op ops ih => simp [Operator.allSame, Operator.same, ih]

/-- Over its own inputs an operator stays the node it is. -/
theorem withInputs_self (op : Operator) :
    op.withInputs op.inputs ctx = (.ok op, ctx) := by
  unfold Operator.withInputs
  rw [Operator.checkInputs_eq_ok rfl, allSame_refl, if_pos rfl]
  rfl

/-- Operators stand in the sections of their kinds, under names of their own, and read operators of
the circuit. -/
structure Listed (c : Circuit) : Prop where
  sectioned : c.Sectioned
  names : (c.operators.map Operator.name).Nodup
  reads : ∀ op ∈ c.operators, ∀ i ∈ op.inputs, i ∈ c.operators

theorem Ordered.listed {c : Circuit} (hc : c.Ordered) : c.Listed :=
  ⟨hc.sectioned, hc.names, fun _ hop _ hi => hc.earlier.mem hop hi⟩

theorem WellFormed.listed {ctx : Context} {c : Circuit} (hc : c.WellFormed ctx) : c.Listed :=
  hc.ordered.listed

/-- Operators of the circuit were copied, each as the node it is. -/
structure Copied (c : Circuit) (done : List Operator) (r : Rebuild) : Prop where
  mapped : ∀ op ∈ c.operators, r.mapped op = op
  mem : ∀ op, op ∈ r.result.operators ↔ op ∈ done
  sources : r.result.sources = done.filter fun op => op.kind.isSource
  interior : r.result.interior = done.filter fun op => !(op.kind.isSource || op.kind.isSink)
  sinks : r.result.sinks = done.filter fun op => op.kind.isSink

theorem copied_start (c : Circuit) : c.Copied [] (Rebuild.start c) where
  mapped _ _ := rfl
  mem op := by simp [Rebuild.start, Circuit.empty, operators]
  sources := rfl
  interior := rfl
  sinks := rfl

/-- A copy adds the node itself to the circuit. -/
theorem Copied.copy_eq (ctx : Context) (h : c.Copied done r) (hc : c.Listed)
    (hop : op ∈ c.operators) :
    r.copy op ctx = (r.emitAs op op, ctx) := by
  have hinputs : r.mappedInputs op = op.inputs := by
    unfold Rebuild.mappedInputs
    refine (List.map_congr_left fun i hi => h.mapped i (hc.reads op hop i hi)).trans ?_
    simp
  unfold Rebuild.copy Rebuild.rewire
  rw [hinputs, run_bind, withInputs_self]
  rfl

/-- An operator can be copied once all it reads were. -/
theorem Copied.copy_eq_ok (ctx : Context) (h : c.Copied done r) (hc : c.Listed)
    (hsplit : c.operators = done ++ op :: rest) (hin : ∀ i ∈ op.inputs, i ∈ done) :
    ∃ r', r.copy op ctx = (.ok r', ctx) ∧ c.Copied (done ++ [op]) r' := by
  have hop : op ∈ c.operators := by simp [hsplit]
  have hfresh : op.name ∉ r.result.operators.map Operator.name := by
    intro hmem
    obtain ⟨x, hx, hname⟩ := List.mem_map.1 hmem
    exact Operator.name_ne_of_split hc.names hsplit x ((h.mem x).1 hx) hname
  have hadd := Rebuild.emit_eq_ok (fun i hi => (h.mem i).2 (hin i hi)) hfresh
  have hresult : ((r.extend op).replace op op).result = r.result.insert op := rfl
  refine ⟨(r.extend op).replace op op, ?_, ?_, ?_, ?_, ?_, ?_⟩
  · rw [h.copy_eq ctx hc hop, Rebuild.emitAs, hadd]
    rfl
  · intro x hx
    rw [Rebuild.mapped_replace]
    split
    · rename_i hname
      exact List.inj_on_of_nodup_map hc.names hop hx hname.symm
    · exact h.mapped x hx
  · intro x
    rw [hresult, mem_operators_insert, h.mem x, List.mem_append, List.mem_singleton, or_comm]
  · rw [hresult, sources_insert, h.sources, List.filter_append]
    cases hsource : op.kind.isSource <;> simp [hsource]
  · rw [hresult, interior_insert, h.interior, List.filter_append]
    cases hsource : op.kind.isSource <;> cases hsink : op.kind.isSink <;> simp [hsource, hsink]
  · rw [hresult, sinks_insert, h.sinks, List.filter_append]
    cases hsink : op.kind.isSink <;> simp [hsink]

/-- When every operator is copied while those before it stand for themselves, the circuit itself
comes out. -/
theorem Listed.ends_rebuild_self (hc : c.Listed)
    (hearlier : Operator.ReadsEarlier c.operators) {visit : Rebuild → Operator → Compile Rebuild}
    (hvisit : ∀ r : Rebuild, (∀ x ∈ c.operators, r.mapped x = x) → ∀ op ∈ c.operators,
      visit r op ctx = r.copy op ctx) :
    Compile.Ends (c.rebuild visit) ctx fun c' ctx' => c' = c ∧ ctx' = ctx := by
  unfold rebuild
  rw [Compile.ends_bind]
  refine (Compile.Ends.foldlM (fun done r ctx' => ctx' = ctx ∧ c.Copied done r) c.operators ?_
    ⟨rfl, copied_start c⟩).mono ?_
  · rintro before op after r ctx' hsplit ⟨hctx, h⟩
    rw [hctx]
    obtain ⟨r', hrun, h'⟩ := h.copy_eq_ok ctx hc hsplit (hearlier before op after hsplit)
    exact ⟨r', ctx, (hvisit r h.mapped op (by simp [hsplit])).trans hrun, rfl, h'⟩
  · rintro r _ ⟨rfl, h⟩
    have hops : r.result.operators = c.operators := by
      rw [operators, h.sources, h.interior, h.sinks, ← hc.sectioned.sources_eq,
        ← hc.sectioned.interior_eq, ← hc.sectioned.sinks_eq]
      rfl
    have hsame : r.result.sameOperators c := by
      rw [sameOperators, hops]
      exact allSame_refl _
    rw [Compile.ends_pure, if_pos hsame]
    exact ⟨rfl, rfl⟩

end Copied

end Circuit
end ViewCircuit
