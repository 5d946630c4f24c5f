/-! Types of the circuit language: a shape and, independent of it, whether NULL is allowed. -/
namespace ViewCircuit

inductive IntWidth where
  | w16 | w32 | w64
  deriving DecidableEq, Repr

def IntWidth.bits : IntWidth → Nat
  | .w16 => 16
  | .w32 => 32
  | .w64 => 64

mutual
structure Ty where
  kind : Kind
  mayBeNull : Bool

/-- The shape of a type. Named tuples and plain tuples are different shapes. -/
inductive Kind where
  | bool
  | integer (width : IntWidth)
  | float
  | double
  | decimal (precision scale : Nat)
  | string
  | date
  | timestamp
  | interval
  | usize
  | null
  | tuple (fields : List Ty)
  | rawTuple (fields : List Ty)
  | zset (element : Ty)
  | indexedZSet (key value : Ty)
  | vec (element : Ty)
  | struct (name : String) (fields : List (String × Ty))
  | function (params : List Ty) (result : Ty)
  | ref (inner : Ty)
  | user (name : String) (args : List Ty)
  | any
end

namespace Ty

mutual
/-- Structural equality, nullability included. -/
def same : Ty → Ty → Bool
  | ⟨k, n⟩, ⟨k', n'⟩ => sameKind k k' && n == n'
def sameKind : Kind → Kind → Bool
  | .bool, .bool | .float, .float | .double, .double | .string, .string | .date, .date
  | .timestamp, .timestamp | .interval, .interval | .usize, .usize | .null, .null
  | .any, .any => true
  | .integer w, .integer w' => w == w'
  | .decimal p s, .decimal p' s' => p == p' && s == s'
  | .tuple fs, .tuple gs | .rawTuple fs, .rawTuple gs => sameAll fs gs
  | .zset a, .zset b | .vec a, .vec b | .ref a, .ref b => same a b
  | .indexedZSet k v, .indexedZSet k' v' => same k k' && same v v'
  | .struct n fs, .struct m gs => n == m && sameFields fs gs
  | .function ps r, .function ps' r' => sameAll ps ps' && same r r'
  | .user n as, .user m bs => n == m && sameAll as bs
  | _, _ => false
def sameAll : List Ty → List Ty → Bool
  | [], [] => true
  | a :: as, b :: bs => same a b && sameAll as bs
  | _, _ => false
def sameFields : List (String × Ty) → List (String × Ty) → Bool
  | [], [] => true
  | (n, a) :: as, (m, b) :: bs => n == m && same a b && sameFields as bs
  | _, _ => false
end

mutual
theorem same_iff : ∀ a b : Ty, same a b = true ↔ a = b
  | ⟨k, n⟩, ⟨k', n'⟩ => by simp [same, sameKind_iff k k']
theorem sameKind_iff : ∀ a b : Kind, sameKind a b = true ↔ a = b
  | .bool, b | .float, b | .double, b | .string, b | .date, b | .timestamp, b | .interval, b
  | .usize, b | .null, b | .any, b => by cases b <;> simp [sameKind]
  | .integer w, b | .decimal p s, b => by cases b <;> simp [sameKind]
  | .tuple fs, b | .rawTuple fs, b => by cases b <;> simp [sameKind, sameAll_iff fs]
  | .zset a, b | .vec a, b | .ref a, b => by cases b <;> simp [sameKind, same_iff a]
  | .indexedZSet k v, b => by cases b <;> simp [sameKind, same_iff k, same_iff v]
  | .struct n fs, b => by cases b <;> simp [sameKind, sameFields_iff fs]
  | .function ps r, b => by cases b <;> simp [sameKind, sameAll_iff ps, same_iff r]
  | .user n as, b => by cases b <;> simp [sameKind, sameAll_iff as]
theorem sameAll_iff : ∀ as bs : List Ty, sameAll as bs = true ↔ as = bs
  | [], bs => by cases bs <;> simp [sameAll]
  | a :: as, bs => by cases bs <;> simp [sameAll, same_iff a, sameAll_iff as]
theorem sameFields_iff : ∀ as bs : List (String × Ty), sameFields as bs = true ↔ as = bs
  | [], bs => by cases bs <;> simp [sameFields]
  | (n, a) :: as, bs => by
    cases bs with
    | nil => simp [sameFields]
    | cons b bs => obtain ⟨m, b⟩ := b; simp [sameFields, same_iff a, sameFields_iff as]
end

instance : DecidableEq Ty := fun a b => decidable_of_iff _ (same_iff a b)
instance : DecidableEq Kind := fun a b => decidable_of_iff _ (sameKind_iff a b)

/-- Same shape, whatever the nullability. -/
def sameShape (a b : Ty) : Bool := sameKind a.kind b.kind

@[simp] theorem sameShape_iff (a b : Ty) : a.sameShape b = true ↔ a.kind = b.kind :=
  sameKind_iff a.kind b.kind

def bool : Ty := ⟨.bool, false⟩
def int16 : Ty := ⟨.integer .w16, false⟩
def int32 : Ty := ⟨.integer .w32, false⟩
def int64 : Ty := ⟨.integer .w64, false⟩
def float : Ty := ⟨.float, false⟩
def double : Ty := ⟨.double, false⟩
def string : Ty := ⟨.string, false⟩
def date : Ty := ⟨.date, false⟩
def timestamp : Ty := ⟨.timestamp, false⟩
def usize : Ty := ⟨.usize, false⟩
/-- The type of the untyped NULL. -/
def null : Ty := ⟨.null, true⟩
/-- The wildcard. -/
def any : Ty := ⟨.any, false⟩
def tuple (fields : List Ty) : Ty := ⟨.tuple fields, false⟩
def rawTuple (fields : List Ty) : Ty := ⟨.rawTuple fields, false⟩
def unit : Ty := rawTuple []
def zset (element : Ty) : Ty := ⟨.zset element, false⟩
def indexedZSet (key value : Ty) : Ty := ⟨.indexedZSet key value, false⟩
def vec (element : Ty) : Ty := ⟨.vec element, false⟩
def function (params : List Ty) (result : Ty) : Ty := ⟨.function params result, false⟩
def ref (inner : Ty) : Ty := ⟨.ref inner, false⟩
def user (name : String) (args : List Ty) : Ty := ⟨.user name args, false⟩

def withNull (t : Ty) (mayBeNull : Bool) : Ty := ⟨t.kind, mayBeNull⟩
def nullable (t : Ty) : Ty := t.withNull true
def nonNull (t : Ty) : Ty := t.withNull false

@[simp] theorem kind_withNull (t : Ty) (b : Bool) : (t.withNull b).kind = t.kind := rfl
@[simp] theorem mayBeNull_withNull (t : Ty) (b : Bool) : (t.withNull b).mayBeNull = b := rfl

def isBool (t : Ty) : Bool := match t.kind with | .bool => true | _ => false
def isNullType (t : Ty) : Bool := match t.kind with | .null => true | _ => false
def isInteger (t : Ty) : Bool := match t.kind with | .integer _ => true | _ => false
def isAny (t : Ty) : Bool := match t.kind with | .any => true | _ => false
def isString (t : Ty) : Bool := match t.kind with | .string => true | _ => false
def isFloating (t : Ty) : Bool := match t.kind with | .float | .double => true | _ => false

def isNumeric (t : Ty) : Bool :=
  match t.kind with
  | .integer _ | .float | .double | .decimal .. | .usize => true
  | _ => false

def isCollection (t : Ty) : Bool :=
  match t.kind with
  | .zset _ | .indexedZSet .. => true
  | _ => false

def zsetElement? (t : Ty) : Option Ty :=
  match t.kind with
  | .zset element => some element
  | _ => none

def indexedParts? (t : Ty) : Option (Ty × Ty) :=
  match t.kind with
  | .indexedZSet key value => some (key, value)
  | _ => none

def tupleFields? (t : Ty) : Option (List Ty) :=
  match t.kind with
  | .tuple fields | .rawTuple fields => some fields
  | _ => none

/-- Type of a position of a tuple, plain tuple or struct. -/
def field? (t : Ty) (index : Nat) : Option Ty :=
  match t.kind with
  | .tuple fields | .rawTuple fields => fields[index]?
  | .struct _ fields => fields[index]?.map Prod.snd
  | _ => none

def functionParts? (t : Ty) : Option (List Ty × Ty) :=
  match t.kind with
  | .function params result => some (params, result)
  | _ => none

def deref? (t : Ty) : Option Ty :=
  match t.kind with
  | .ref inner => some inner
  | _ => none

/-- Abbreviation inside the names of specialised runtime functions. -/
def shortName? (t : Ty) : Option String :=
  match t.kind with
  | .bool => some "b"
  | .integer .w16 => some "i16"
  | .integer .w32 => some "i32"
  | .integer .w64 => some "i64"
  | .float => some "f"
  | .double => some "d"
  | .decimal .. => some "decimal"
  | .string => some "s"
  | .date => some "Date"
  | .timestamp => some "Timestamp"
  | .interval => some "ShortInterval"
  | .usize => some "u"
  | _ => none

def commas (parts : List String) : String := String.intercalate ", " parts

mutual
/-- The type as it is printed; nullable types are options, the NULL type already is one. -/
def text : Ty → String
  | ⟨.null, _⟩ => "()"
  | ⟨kind, true⟩ => "Option<" ++ kindText kind ++ ">"
  | ⟨kind, false⟩ => kindText kind
def kindText : Kind → String
  | .bool => "bool"
  | .integer w => "i" ++ toString w.bits
  | .float => "F32"
  | .double => "F64"
  | .decimal .. => "Decimal"
  | .string => "String"
  | .date => "Date"
  | .timestamp => "Timestamp"
  | .interval => "ShortInterval"
  | .usize => "usize"
  | .null => "()"
  | .tuple fields => "Tuple" ++ toString fields.length ++ "<" ++ commas (texts fields) ++ ">"
  | .rawTuple fields =>
    "(" ++ commas (texts fields) ++ (if fields.length = 1 then "," else "") ++ ")"
  | .zset element => "ZSet<" ++ text element ++ ">"
  | .indexedZSet key value => "IndexedZSet<" ++ text key ++ ", " ++ text value ++ ">"
  | .vec element => "Vec<" ++ text element ++ ">"
  | .struct name _ => name
  | .function params result => "Fn(" ++ commas (texts params) ++ ") -> " ++ text result
  | .ref inner => "&" ++ text inner
  | .user name args => if args.isEmpty then name else name ++ "<" ++ commas (texts args) ++ ">"
  | .any => "_"
def texts : List Ty → List String
  | [] => []
  | t :: ts => text t :: texts ts
end

end Ty
end ViewCircuit
