/-! Fresh names: one counter for each stem. -/
namespace ViewCircuit

/-- How many names of each stem have been handed out. -/
structure Names where
  counters : List (String × Nat)
  deriving Repr

namespace Names

def empty : Names := ⟨[]⟩

def issued (names : Names) (stem : String) : Nat := (names.counters.lookup stem).getD 0

/-- Names of a stem are its text followed by 0, 1, 2 and so on. -/
def nth (stem : String) (n : Nat) : String := stem ++ toString n

def setIssued (names : Names) (stem : String) (n : Nat) : Names :=
  ⟨(stem, n) :: names.counters.filter fun c => c.1 != stem⟩

def fresh (names : Names) (stem : String) : String × Names :=
  let n := names.issued stem
  (nth stem n, names.setIssued stem (n + 1))

theorem lookup_filter_of_ne {counters : List (String × Nat)} {stem other : String}
    (h : other ≠ stem) :
    (counters.filter fun c => c.1 != stem).lookup other = counters.lookup other := by
  induction counters with
  | nil => rfl
  | cons c rest ih =>
    obtain ⟨k, n⟩ := c
    by_cases hk : k = stem
    · have hne : (other == k) = false := by simp [hk, h]
      simpa [List.filter, hk, List.lookup_cons, hk ▸ hne] using ih
    · have : (k != stem) = true := by simp [hk]
      simp only [List.filter, this, List.lookup_cons, ih]

@[simp] theorem issued_setIssued_self (names : Names) (stem : String) (n : Nat) :
    (names.setIssued stem n).issued stem = n := by simp [setIssued, issued]

theorem issued_setIssued_of_ne (names : Names) {stem other : String} (n : Nat) (h : other ≠ stem) :
    (names.setIssued stem n).issued other = names.issued other := by
  have hne : (other == stem) = false := by simp [h]
  simp [setIssued, issued, List.lookup_cons, hne, lookup_filter_of_ne h]

@[simp] theorem issued_fresh_self (names : Names) (stem : String) :
    (names.fresh stem).2.issued stem = names.issued stem + 1 := by simp [fresh]

theorem issued_fresh_of_ne (names : Names) {stem other : String} (h : other ≠ stem) :
    (names.fresh stem).2.issued other = names.issued other := by
  simp [fresh, issued_setIssued_of_ne names _ h]

end Names
end ViewCircuit
