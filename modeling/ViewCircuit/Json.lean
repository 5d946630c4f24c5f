import ViewCircuit.Double

/-! JSON values and what records, tags and constants look like in them. Objects keep their members
in order; numbers keep how they were written. -/
namespace ViewCircuit

/-- A number is an integer, or a decimal with a point, an exponent or a negative zero. -/
inductive Number where
  | int (value : Int)
  | dec (negative : Bool) (digits : Nat) (exponent : Int)
  deriving DecidableEq, Repr

inductive Json where
  | null
  | bool (value : Bool)
  | num (value : Number)
  | str (value : String)
  | arr (items : List Json)
  | obj (members : List (String × Json))
  /-- Well-formed text without a value: half of a surrogate pair, a number beyond all doubles, or
  brackets nested too deep. It may stand where nobody looks. -/
  | unreadable

namespace Number

def double? : Number → Option Double
  | .int i => Double.ofRatio? (i < 0) i.natAbs 1
  | .dec negative digits exponent => Double.ofDecimal? negative digits exponent

end Number

namespace Json

/-- First member of that name. -/
def find? (members : List (String × Json)) (key : String) : Option Json :=
  (members.find? fun m => m.1 == key).map Prod.snd

theorem mem_of_find? {members : List (String × Json)} {key : String} {v : Json}
    (h : find? members key = some v) : ∃ k, (k, v) ∈ members := by
  obtain ⟨m, hm, rfl⟩ := Option.map_eq_some_iff.1 h
  exact ⟨m.1, List.mem_of_find?_eq_some hm⟩

/-- The fields of a record, which is an object, or an array of the values of `names` in that order.
No field is given twice. Members with other names are passed over. -/
def record? (names : List String) : Json → Option (List (String × Json))
  | .obj members =>
    if names.all fun n => (members.filter fun m => m.1 == n).length ≤ 1 then
      some (members.filter fun m => names.contains m.1)
    else none
  | .arr items => if items.length ≤ names.length then some (names.zip items) else none
  | _ => none

theorem sizeOf_of_mem_record? {names : List String} {j v : Json} {k : String}
    {fields : List (String × Json)} (h : record? names j = some fields) (hv : (k, v) ∈ fields) :
    sizeOf v < sizeOf j := by
  cases j with
  | obj members =>
    simp only [record?] at h
    split at h
    · cases h
      have := List.sizeOf_lt_of_mem (List.mem_filter.1 hv).1
      simp only [Prod.mk.sizeOf_spec, Json.obj.sizeOf_spec] at this ⊢
      omega
    · simp at h
  | arr items =>
    simp only [record?] at h
    split at h
    · cases h
      have := List.sizeOf_lt_of_mem (List.of_mem_zip hv).2
      simp only [Json.arr.sizeOf_spec]
      omega
    · simp at h
  | _ => simp [record?] at h

/-- A field of a record. -/
def get? (names : List String) (key : String) (j : Json) : Option Json :=
  (record? names j).bind fun fields => find? fields key

theorem sizeOf_get? {names : List String} {key : String} {j v : Json}
    (h : get? names key j = some v) : sizeOf v < sizeOf j := by
  obtain ⟨fields, hf, hv⟩ := Option.bind_eq_some_iff.1 h
  obtain ⟨k, hk⟩ := mem_of_find? hv
  exact sizeOf_of_mem_record? hf hk

/-- A field together with the fact that it is smaller than the record. -/
def child? (names : List String) (key : String) (j : Json) :
    Option { v : Json // sizeOf v < sizeOf j } :=
  match h : get? names key j with
  | some v => some ⟨v, sizeOf_get? h⟩
  | none => none

@[simp] theorem map_val_child? (names : List String) (key : String) (j : Json) :
    (child? names key j).map Subtype.val = get? names key j := by
  unfold child?; split <;> simp_all

def bool? : Json → Option Bool
  | .bool b => some b
  | _ => none

def str? : Json → Option String
  | .str s => some s
  | _ => none

def arr? : Json → Option (List Json)
  | .arr items => some items
  | _ => none

def obj? : Json → Option (List (String × Json))
  | .obj members => some members
  | _ => none

/-- An integer between the bounds, both included. -/
def int? (low high : Int) : Json → Option Int
  | .num (.int i) => if low ≤ i ∧ i ≤ high then some i else none
  | _ => none

def int32? : Json → Option Int := int? (-2147483648) 2147483647
def int64? : Json → Option Int := int? (-9223372036854775808) 9223372036854775807
def nat32? (j : Json) : Option Nat := (int? 0 4294967295 j).map Int.toNat
def nat64? (j : Json) : Option Nat := (int? 0 18446744073709551615 j).map Int.toNat

def double? : Json → Option Double
  | .num n => n.double?
  | _ => none

def list? {α : Type} (item : Json → Option α) (j : Json) : Option (List α) := do
  (← j.arr?).mapM item

/-- A field that must be present. -/
def field? {α : Type} (names : List String) (key : String) (read : Json → Option α) (j : Json) :
    Option α := do
  read (← j.get? names key)

/-- A field with a default for its absence; `null` is no absence. -/
def fieldD? {α : Type} (names : List String) (key : String) (default : α) (read : Json → Option α)
    (j : Json) : Option α := do
  match find? (← record? names j) key with
  | none => some default
  | some v => read v

/-- How freely the choice among alternatives may be written. -/
structure Style where
  /-- A constant may be its name over an empty object. -/
  emptyContent : Bool
  /-- The parts of an alternative may be given by place, in an array. -/
  partsByPlace : Bool
  /-- A tag may be its position among the tags. -/
  numberedTags : Bool
  deriving DecidableEq, Repr

/-- Text read from its start. -/
def Style.document : Style := ⟨false, true, false⟩

/-- A value that was read before as a whole. -/
def Style.value : Style := ⟨false, false, false⟩

/-- Whatever stands inside a tagged record, which is held back until its tag is known. -/
def Style.held : Style := ⟨true, true, true⟩

/-- What may stand under the name of a constant. -/
def Style.isContent (style : Style) : Json → Bool
  | .null => true
  | .obj [] => style.emptyContent
  | _ => false

/-- Whether the parts of an alternative may be written so. -/
def Style.admits (style : Style) : Json → Bool
  | .arr _ => style.partsByPlace
  | _ => true

/-- The tag of a tagged record: the member of that name, or the first item. -/
def tag? (style : Style) (key : String) (tags : List String) (j : Json) : Option String :=
  let tag := match j with
    | .obj members => find? members key
    | .arr items => items.head?
    | _ => none
  match tag with
  | some (.str s) => some s
  | some (.num (.int i)) => if style.numberedTags && 0 ≤ i then tags[i.toNat]? else none
  | _ => none

/-- A constant of an enumeration: its name, or an object with that name as its only key. -/
def constant? {α : Type} (style : Style) (table : List (String × α)) : Json → Option α
  | .str s => table.lookup s
  | .obj [(s, content)] => if style.isContent content then table.lookup s else none
  | _ => none

def ofInt (i : Int) : Json := .num (.int i)
def ofNat (n : Nat) : Json := .num (.int n)
def ofStrings (xs : List String) : Json := .arr (xs.map .str)
def ofOption {α : Type} (f : α → Json) : Option α → Json
  | none => .null
  | some a => f a

mutual
/-- Whether all of it has a value. -/
def isReadable : Json → Bool
  | .arr items => readableAll items
  | .obj members => readableIn members
  | .unreadable => false
  | _ => true
def readableAll : List Json → Bool
  | [] => true
  | j :: rest => j.isReadable && readableAll rest
def readableIn : List (String × Json) → Bool
  | [] => true
  | (_, j) :: rest => j.isReadable && readableIn rest
end

/-- Sets a member, in place when it is there. -/
def put (members : List (String × Json)) (key : String) (value : Json) : List (String × Json) :=
  if members.any fun m => m.1 == key then
    members.map fun m => if m.1 == key then (key, value) else m
  else members ++ [(key, value)]

mutual
/-- Of members with one name only the last is kept. -/
def lastWins : Json → Json
  | .arr items => .arr (lastWinsAll items)
  | .obj members => .obj (lastWinsIn members [])
  | j => j
def lastWinsAll : List Json → List Json
  | [] => []
  | j :: rest => j.lastWins :: lastWinsAll rest
def lastWinsIn : List (String × Json) → List (String × Json) → List (String × Json)
  | [], done => done
  | (k, j) :: rest, done => lastWinsIn rest (put done k j.lastWins)
end

end Json
end ViewCircuit
