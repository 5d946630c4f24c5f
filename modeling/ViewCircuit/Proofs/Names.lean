import Mathlib.Data.List.DropRight
import Mathlib.Data.List.Nodup
import Mathlib.Data.List.Perm.Subperm
import ViewCircuit.Expr.Reduce

/-! Names drawn from the counters of a context. -/
namespace ViewCircuit
namespace Names

theorem nth_injective {stem : String} {m n : Nat} (h : nth stem m = nth stem n) : m = n := by
  have hrepr : m.repr = n.repr := (String.append_right_inj stem).1 h
  have hdigits : Nat.toDigits 10 m = Nat.toDigits 10 n := by
    simpa only [Nat.toList_repr] using congrArg String.toList hrepr
  rw [← Nat.ofDigitChars_ten_toDigits (n := m), hdigits, Nat.ofDigitChars_ten_toDigits]

/-- Whether the last character is a decimal digit; a number that follows then has no clear start. -/
def endsInDigit (stem : String) : Bool := stem.toList.getLast?.any Char.isDigit

theorem toList_nth (stem : String) (n : Nat) :
    (nth stem n).toList = stem.toList ++ Nat.toDigits 10 n := by
  simp [nth, String.toList_append]

theorem endsInDigit_underscore (name : String) : endsInDigit (name ++ "_") = false := by
  simp [endsInDigit, String.toList_append]

/-- Without the digits at its end a name is its stem. -/
theorem rdropWhile_nth {stem : String} (h : endsInDigit stem = false) (n : Nat) :
    (nth stem n).toList.rdropWhile Char.isDigit = stem.toList := by
  have hdigits : ∀ c ∈ (Nat.toDigits 10 n).reverse, c.isDigit := fun c hc =>
    Nat.isDigit_of_mem_toDigits (by decide) (by decide) (List.mem_reverse.1 hc)
  have hstem : stem.toList.rdropWhile Char.isDigit = stem.toList := by
    refine List.rdropWhile_eq_self_iff.2 fun hne => ?_
    simpa [endsInDigit, List.getLast?_eq_some_getLast hne] using h
  rw [toList_nth, List.rdropWhile, List.reverse_append,
    List.dropWhile_append_of_pos hdigits]
  exact hstem

/-- A name tells its stem and its number. -/
theorem nth_inj {a b : String} {m n : Nat} (ha : endsInDigit a = false)
    (hb : endsInDigit b = false) (h : nth a m = nth b n) : a = b ∧ m = n := by
  have hstems := congrArg (fun name : String => name.toList.rdropWhile Char.isDigit) h
  obtain rfl : a = b := by
    refine String.toList_injective ?_
    simpa only [rdropWhile_nth ha, rdropWhile_nth hb] using hstems
  exact ⟨rfl, nth_injective h⟩

/-- A name drawn to rename a binder tells the name of the binder. -/
theorem nth_underscore_injective {a b : String} {m n : Nat}
    (h : nth (a ++ "_") m = nth (b ++ "_") n) : a = b ∧ m = n := by
  obtain ⟨hstem, hn⟩ := nth_inj (endsInDigit_underscore a) (endsInDigit_underscore b) h
  exact ⟨(String.append_left_inj "_").1 hstem, hn⟩

/-- More names were drawn. -/
def Later (names later : Names) : Prop := ∀ stem, names.issued stem ≤ later.issued stem

theorem Later.refl (names : Names) : names.Later names := fun _ => Nat.le_refl _

theorem Later.trans {a b c : Names} (h : a.Later b) (h' : b.Later c) : a.Later c :=
  fun stem => Nat.le_trans (h stem) (h' stem)

theorem later_setIssued {names : Names} {stem : String} {n : Nat} (h : names.issued stem ≤ n) :
    names.Later (names.setIssued stem n) := by
  intro other
  by_cases hother : other = stem
  · subst hother
    simpa using h
  · exact Nat.le_of_eq (issued_setIssued_of_ne names n hother).symm

theorem later_fresh (names : Names) (stem : String) : names.Later (names.fresh stem).2 :=
  later_setIssued (Nat.le_succ _)

theorem setIssued_fresh (names : Names) (stem : String) (n : Nat) :
    (names.fresh stem).2.setIssued stem n = names.setIssued stem n := by
  simp [fresh, setIssued, List.filter_filter]

/-- A name that was drawn to rename a binder. -/
def Spent (names : Names) (name : String) : Prop :=
  ∃ base n, name = nth (base ++ "_") n ∧ n < names.issued (base ++ "_")

theorem Spent.later {names later : Names} {name : String} (h : names.Spent name)
    (hlater : names.Later later) : later.Spent name := by
  obtain ⟨base, n, hname, hn⟩ := h
  exact ⟨base, n, hname, Nat.lt_of_lt_of_le hn (hlater _)⟩

/-- Names of a stem are drawn for as long as they are blocked; with the number of draws, the name
that is not, and the counters after it. -/
inductive DrawsUntil (stem : String) (Blocked : String → Prop) : Names → Nat → String → Names → Prop
  | done {names : Names} : ¬ Blocked (names.fresh stem).1 →
      DrawsUntil stem Blocked names 1 (names.fresh stem).1 (names.fresh stem).2
  | next {names later : Names} {draws : Nat} {name : String} : Blocked (names.fresh stem).1 →
      DrawsUntil stem Blocked (names.fresh stem).2 draws name later →
      DrawsUntil stem Blocked names (draws + 1) name later

/-- The first number whose name is not blocked is the one at which drawing ends. -/
theorem drawsUntil_of_find? {stem : String} {blocked : List String} {n : Nat} :
    ∀ {tries : Nat} {names : Names},
      (List.range' (names.issued stem) tries).find? (fun i => !blocked.contains (nth stem i)) =
        some n →
      ∃ draws ≤ tries, DrawsUntil stem (· ∈ blocked) names draws (nth stem n)
        (names.setIssued stem (n + 1))
  | 0, names, h => by cases h
  | tries + 1, names, h => by
    rw [List.range'_succ, List.find?_cons] at h
    split at h
    · rename_i hfree
      obtain rfl := Option.some.inj h
      have hname : nth stem (names.issued stem) ∉ blocked := by simpa using hfree
      exact ⟨1, Nat.succ_le_succ (Nat.zero_le _), .done hname⟩
    · rename_i hblocked
      have hname : nth stem (names.issued stem) ∈ blocked := by simpa using hblocked
      rw [← issued_fresh_self] at h
      obtain ⟨draws, hdraws, hrest⟩ := drawsUntil_of_find? h
      rw [setIssued_fresh] at hrest
      exact ⟨draws + 1, Nat.succ_le_succ hdraws, .next hname hrest⟩

namespace DrawsUntil

variable {stem name : String} {Blocked : String → Prop} {names later : Names} {draws : Nat}

theorem not_blocked (h : DrawsUntil stem Blocked names draws name later) : ¬ Blocked name := by
  induction h with
  | done hfree => exact hfree
  | next _ _ ih => exact ih

/-- The name was not drawn before, and is the last one drawn. -/
theorem exists_nth (h : DrawsUntil stem Blocked names draws name later) :
    ∃ n, names.issued stem ≤ n ∧ name = nth stem n ∧ later = names.setIssued stem (n + 1) := by
  induction h with
  | @done names _ => exact ⟨names.issued stem, Nat.le_refl _, rfl, rfl⟩
  | @next names _ _ _ _ _ ih =>
    obtain ⟨n, hn, hname, hlater⟩ := ih
    rw [setIssued_fresh] at hlater
    exact ⟨n, Nat.le_trans (later_fresh names stem stem) hn, hname, hlater⟩

theorem not_spent {base : String} (h : DrawsUntil (base ++ "_") Blocked names draws name later) :
    ¬ names.Spent name := by
  rintro ⟨other, m, hspent, hm⟩
  obtain ⟨n, hn, hname, -⟩ := h.exists_nth
  obtain ⟨rfl, rfl⟩ := nth_underscore_injective (hname.symm.trans hspent)
  exact absurd hn (Nat.not_le_of_lt hm)

end DrawsUntil

/-- A name made of another by renaming binders once or more. -/
inductive Derived (base : String) : String → Prop
  | once (n : Nat) : Derived base (nth (base ++ "_") n)
  | again {name : String} (n : Nat) : Derived base name → Derived base (nth (name ++ "_") n)

theorem Derived.trans {a b c : String} (h : Derived a b) (h' : Derived b c) : Derived a c := by
  induction h' with
  | once n => exact .again n h
  | again n _ ih => exact .again n ih

end Names

namespace Reduce

/-- One more name than are blocked: one of them is not. -/
theorem exists_unblocked (stem : String) (blocked : List String) (start : Nat) :
    ∃ n, (((List.range (blocked.length + 1)).map fun i => start + i).find? fun i =>
      !blocked.contains (Names.nth stem i)) = some n := by
  by_contra hnone
  have hfind := Option.eq_none_iff_forall_ne_some.2 fun n hn => hnone ⟨n, hn⟩
  have hsub : ((List.range (blocked.length + 1)).map fun i => Names.nth stem (start + i)) ⊆
      blocked := by
    intro name hname
    obtain ⟨i, hi, rfl⟩ := List.mem_map.1 hname
    have := List.find?_eq_none.1 hfind (start + i) (List.mem_map.2 ⟨i, hi, rfl⟩)
    simpa using this
  have hnodup : ((List.range (blocked.length + 1)).map fun i =>
      Names.nth stem (start + i)).Nodup := by
    refine List.Nodup.map (fun i j h => ?_) List.nodup_range
    exact Nat.add_left_cancel (Names.nth_injective h)
  have hlength := (hnodup.subperm hsub).length_le
  simp only [List.length_map, List.length_range] at hlength
  omega

/-- One draw more than there are blocked names is enough. -/
theorem freshOutside_drawsUntil (stem : String) (blocked : List String) (s : Reducer) :
    ∃ draws ≤ blocked.length + 1, ∃ name later,
      freshOutside stem blocked s = (.ok name, { s with names := later }) ∧
      Names.DrawsUntil stem (· ∈ blocked) s.names draws name later := by
  obtain ⟨n, hn⟩ := exists_unblocked stem blocked (s.names.issued stem)
  have hfind := hn
  rw [← List.range'_eq_map_range] at hfind
  obtain ⟨draws, hdraws, hloop⟩ := Names.drawsUntil_of_find? hfind
  refine ⟨draws, hdraws, _, _, ?_, hloop⟩
  unfold freshOutside
  simp only [hn, Option.getD_some]

/-- A drawn name is not blocked, and is not drawn again. -/
theorem freshOutside_eq_ok {s s' : Reducer} {stem name : String} {blocked : List String}
    (h : freshOutside stem blocked s = (.ok name, s')) : ∃ n, name = Names.nth stem n ∧
      s.names.issued stem ≤ n ∧ name ∉ blocked ∧
      s' = { s with names := s.names.setIssued stem (n + 1) } := by
  obtain ⟨_, -, _, later, hfresh, hloop⟩ := freshOutside_drawsUntil stem blocked s
  cases hfresh.symm.trans h
  obtain ⟨n, hn, hname, rfl⟩ := hloop.exists_nth
  exact ⟨n, hname, hn, hloop.not_blocked, rfl⟩

end Reduce

end ViewCircuit
