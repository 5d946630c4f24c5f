import ViewCircuit.Expr

/-! Values at run time. A value of an option type is NULL or the value itself, references are kept
apart from what they refer to, and a closure holds the values of its free variables. -/
namespace ViewCircuit

/-- Values without parts. Numbers know their width, so operators need no types of operands. -/
inductive Atom where
  | null
  | bool (value : Bool)
  | int (width : IntWidth) (value : Int)
  | float (value : Double)
  | double (value : Double)
  | decimal (precision scale : Nat) (text : String)
  | string (value : String)
  | date (days : Int)
  | timestamp (millis : Int)
  | interval (millis : Int)
  | usize (value : Nat)
  deriving DecidableEq

/-- How the parts of a value are held together. Tuples, plain tuples and structs are one shape. -/
inductive Shape where
  | tuple
  | vec
  | zset (weights : List Int)
  | ref
  | range (hasStart hasStop inclusive : Bool)
  | fold
  deriving DecidableEq

inductive Val where
  | atom (a : Atom)
  | node (shape : Shape) (parts : List Val)
  /-- Free variables with their values, parameters and body. -/
  | closure (names : List String) (values : List Val) (params : List Param) (body : Expr)

namespace Val

def null : Val := atom .null
def bool (b : Bool) : Val := atom (.bool b)
def tuple (parts : List Val) : Val := node .tuple parts
def ref (v : Val) : Val := node .ref [v]
def unit : Val := tuple []

/-- A row of an indexed collection. -/
def pair (key value : Val) : Val := tuple [key, value]

/-- Key and value of a row of an indexed collection. -/
def pair? : Val → Option (Val × Val)
  | node .tuple [key, value] => some (key, value)
  | _ => none

@[simp] theorem pair?_pair (key value : Val) : (pair key value).pair? = some (key, value) := rfl

theorem eq_pair_of_pair? {v key value : Val} (h : v.pair? = some (key, value)) :
    v = pair key value := by
  unfold pair? at h
  split at h
  · obtain ⟨rfl, rfl⟩ := Prod.mk.inj (Option.some.inj h)
    rfl
  · cases h

theorem pair_injective {k k' v v' : Val} (h : pair k v = pair k' v') : k = k' ∧ v = v' := by
  simpa [pair, tuple] using h

/-- The truth value of a boolean. -/
def bool? : Val → Option Bool
  | atom (.bool b) => some b
  | _ => none

def isNull : Val → Bool
  | atom .null => true
  | _ => false

theorem eq_null_of_isNull {v : Val} (h : v.isNull) : v = null := by
  cases v with
  | atom a => cases a <;> first | rfl | cases h
  | _ => cases h

mutual
/-- Whether a value holds no closure. -/
def isData : Val → Bool
  | atom _ => true
  | node _ parts => allData parts
  | closure .. => false
def allData : List Val → Bool
  | [] => true
  | v :: vs => isData v && allData vs
end

theorem allData_iff {vs : List Val} : allData vs ↔ ∀ v ∈ vs, v.isData := by
  induction vs with
  | nil => simp [allData]
  | cons v vs ih => simp [allData, ih]

theorem bool?_eq_some {v : Val} {b : Bool} : v.bool? = some b ↔ v = bool b := by
  unfold bool? bool
  split
  · simp
  · rename_i hne
    simpa using hne b

end Val
end ViewCircuit
