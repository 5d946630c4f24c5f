import ViewCircuit.Proofs.Collect
import ViewCircuit.Proofs.Eval

/-! One scope keeps what it says of names in three collections. Every change of a name takes it out
of the collections it is not for, so no name is ever in two of them, and what is looked up is what
was said last. -/
namespace ViewCircuit

namespace Scope

variable {s : Scope} {x y z name : String} {b c : Binding} {e : Expr}

/-- Binds a name in the scope. -/
def set (s : Scope) (name : String) : Binding → Scope
  | .replace replacement => s.substitute name replacement
  | .rename fresh => s.rename name fresh
  | .shadow => s.tombstone name

/-- The collection for bindings of that kind has the binding of the name. -/
def Has (s : Scope) (x : String) : Binding → Prop
  | .replace replacement => (x, replacement) ∈ s.replacements
  | .rename fresh => (x, fresh) ∈ s.renames
  | .shadow => x ∈ s.tombstones

/-- No name is in two of the collections, and none has two entries that differ. -/
def Exclusive (s : Scope) : Prop := ∀ x b c, s.Has x b → s.Has x c → b = c

theorem mem_without {α : Type} {entries : List (String × α)} {a : α} :
    (x, a) ∈ without name entries ↔ x ≠ name ∧ (x, a) ∈ entries := by
  simp [without, and_comm]

theorem mem_insert {α : Type} {entries : List (String × α)} {a value : α} :
    (x, a) ∈ insert name value entries ↔
      x = name ∧ a = value ∨ x ≠ name ∧ (x, a) ∈ entries := by
  rw [insert, List.mem_cons, Prod.mk.injEq, mem_without]

/-- A name that is bound has that binding and no other; all other names keep theirs. -/
theorem has_set : (s.set name b).Has x c ↔ x = name ∧ c = b ∨ x ≠ name ∧ s.Has x c := by
  by_cases hx : x = name
  · cases b <;> cases c <;>
      simp [set, Has, substitute, rename, tombstone, mem_without, mem_insert, hx]
  · cases b <;> cases c <;>
      simp [set, Has, substitute, rename, tombstone, mem_without, mem_insert, hx]

theorem mem_free_set :
    z ∈ (s.set name b).free ↔ (∃ e, b = .replace e ∧ z ∈ e.free) ∨ z ∈ s.free := by
  cases b <;> simp [set, substitute, rename, tombstone]

/-- Only a substitution adds free variables. -/
theorem free_set (hb : ∀ e, b ≠ .replace e) : (s.set name b).free = s.free := by
  cases b with
  | replace e => exact absurd rfl (hb e)
  | rename | shadow => rfl

theorem not_has_empty : ¬ empty.Has x b := by
  cases b <;> simp [Has, empty]

theorem exclusive_empty : empty.Exclusive := fun _ _ _ h => absurd h not_has_empty

/-- The collections exclude one another through every change. -/
theorem Exclusive.set (h : s.Exclusive) (name : String) (b : Binding) :
    (s.set name b).Exclusive := by
  intro x c d hc hd
  rcases has_set.1 hc with ⟨rfl, rfl⟩ | ⟨hx, hc⟩
  · rcases has_set.1 hd with ⟨-, rfl⟩ | ⟨hx, -⟩
    · rfl
    · exact absurd rfl hx
  · rcases has_set.1 hd with ⟨rfl, -⟩ | ⟨-, hd⟩
    · exact absurd rfl hx
    · exact h x c d hc hd

theorem has_of_binding? (h : s.binding? x = some b) : s.Has x b := by
  unfold binding? at h
  split at h
  · rename_i htombstone
    obtain rfl := Option.some.inj h
    exact List.contains_iff_mem.1 htombstone
  · split at h
    · rename_i replacement hreplacement
      obtain rfl := Option.some.inj h
      exact mem_of_lookup hreplacement
    · obtain ⟨fresh, hfresh, rfl⟩ := Option.map_eq_some_iff.1 h
      exact mem_of_lookup hfresh

theorem not_has_of_binding? (h : s.binding? x = none) : ¬ s.Has x b := by
  unfold binding? at h
  split at h
  · cases h
  · rename_i htombstone
    split at h
    · cases h
    · rename_i hreplacement
      have hrename := Option.map_eq_none_iff.1 h
      cases b with
      | shadow => exact fun hmem => htombstone (List.contains_iff_mem.2 hmem)
      | replace e => exact fun hmem => by simpa using List.lookup_eq_none_iff.1 hreplacement _ hmem
      | rename fresh => exact fun hmem => by simpa using List.lookup_eq_none_iff.1 hrename _ hmem

/-- Where the collections exclude one another, it makes no difference which is asked first. -/
theorem Exclusive.binding?_eq_some (h : s.Exclusive) : s.binding? x = some b ↔ s.Has x b := by
  refine ⟨has_of_binding?, fun hb => ?_⟩
  cases hc : s.binding? x with
  | none => exact absurd hb (not_has_of_binding? hc)
  | some c => rw [h x c b (has_of_binding? hc) hb]

/-- The last binding of a name is the one that is looked up. -/
theorem binding?_set : (s.set name b).binding? x = if x = name then some b else s.binding? x := by
  by_cases hx : x = name
  · subst hx
    cases b <;>
      simp [set, substitute, rename, tombstone, binding?, insert, without, lookup_filter_ne]
  · cases b <;> simp [set, substitute, rename, tombstone, binding?, insert, without, hx,
      lookup_cons_eq, lookup_filter_ne]

theorem catches_iff : s.catches z ↔ z ∈ s.free ∨ ∃ y, s.Has y (.rename z) := by
  simp [catches, Has]

end Scope
end ViewCircuit
