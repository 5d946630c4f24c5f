import Mathlib
import ViewCircuit.Plan.Codec

/-! Types and plans come back from their JSON. Two things are lost on the way and so are kept out by
`isExact`: numbers beyond the words the format has for them, and floating-point literals, whose
digits are read by rounding. -/
namespace ViewCircuit

/-! ### Records, tags and constants that were written -/
namespace Json

variable {α : Type} {names : List String} {key : String} {members : List (String × Json)}

/-- An object with just the named members, each once, is read as the record of its members. -/
theorem record?_obj (hn : members.map Prod.fst = names) (hd : names.Nodup) :
    record? names (.obj members) = some members := by
  subst hn
  have hone : ∀ n, (members.filter fun m => m.1 == n).length ≤ 1 := by
    intro n
    have hcount := List.nodup_iff_count.1 hd n
    rwa [List.count, List.countP_map, List.countP_eq_length_filter] at hcount
  have hall : (members.filter fun m => (members.map Prod.fst).contains m.1) = members :=
    List.filter_eq_self.2 fun m hm => by simpa using ⟨m.2, hm⟩
  rw [record?, if_pos (List.all_eq_true.2 fun n _ => decide_eq_true (hone n)), hall]

@[simp] theorem find?_cons {k : String} {v : Json} :
    find? ((k, v) :: members) key = if k == key then some v else find? members key := by
  by_cases h : k == key <;> simp [find?, h]

@[simp] theorem get?_obj (hn : members.map Prod.fst = names) (hd : names.Nodup) :
    get? names key (.obj members) = find? members key := by
  rw [get?, record?_obj hn hd, Option.bind_some]

@[simp] theorem field?_obj {read : Json → Option α} (hn : members.map Prod.fst = names)
    (hd : names.Nodup) :
    field? names key read (.obj members) = (find? members key).bind read := by
  rw [field?, get?_obj hn hd]
  rfl

/-- Writing leaves no field out, so no default is taken. -/
@[simp] theorem fieldD?_obj {read : Json → Option α} {default : α}
    (hn : members.map Prod.fst = names) (hd : names.Nodup) (hk : key ∈ names) :
    fieldD? names key default read (.obj members) = (find? members key).bind read := by
  subst hn
  obtain ⟨m, hm, rfl⟩ := List.mem_map.1 hk
  rw [fieldD?, record?_obj rfl hd]
  cases hf : find? members m.1 with
  | some v => simp [hf]
  | none =>
    refine absurd hf ?_
    simpa [find?] using ⟨m.2, hm⟩

@[simp] theorem unattach_child? {j : Json} : (child? names key j).unattach = get? names key j := by
  rw [← map_val_child?]
  rfl

theorem list?_arr_map {read : Json → Option α} {write : α → Json} {xs : List α}
    (h : ∀ a ∈ xs, read (write a) = some a) : list? read (.arr (xs.map write)) = some xs := by
  change (xs.map write).mapM read = some xs
  induction xs with
  | nil => rfl
  | cons a xs ih =>
    rw [List.forall_mem_cons] at h
    simp [h.1, ih h.2]

@[simp] theorem tag?_obj {style : Style} {tags : List String} {s : String} :
    tag? style key tags (.obj ((key, .str s) :: members)) = some s := by
  simp [tag?]

/-- What is read by its tag goes on with the tag it was written with. -/
theorem tag?_obj_bind {style : Style} {tags : List String} {s : String} {next : String → Option α} :
    (tag? style key tags (.obj ((key, .str s) :: members)) >>= next) = next s := by
  rw [tag?_obj]
  rfl

/-- A constant is found under its name when every name stands once. -/
theorem constant?_nameIn [DecidableEq α] {style : Style} {table : List (String × α)} {a : α}
    (hd : (table.map Prod.fst).Nodup) (ha : a ∈ table.map Prod.snd) :
    constant? style table (.str (nameIn table a)) = some a := by
  obtain ⟨⟨name, b⟩, hmem, rfl⟩ := List.mem_map.1 ha
  change table.lookup (nameIn table b) = some b
  cases hfind : table.find? fun e => e.2 = b with
  | none => simpa using List.find?_eq_none.1 hfind _ hmem
  | some e =>
    obtain ⟨before, after, rfl, -⟩ := (List.find?_eq_some_iff_append.1 hfind).2
    have he : e.2 = b := by simpa using List.find?_some hfind
    have hname : nameIn (before ++ e :: after) b = e.1 := by rw [nameIn, hfind]; rfl
    rw [hname, List.lookup_eq_some_iff]
    refine ⟨before, after, by rw [← he], fun p hp => ?_⟩
    rw [List.map_append, List.nodup_append] at hd
    simpa using (hd.2.2 p.1 (List.mem_map_of_mem hp) e.1 (by simp)).symm

theorem nat32?_ofNat {n : Nat} (h : n < 2 ^ 32) : nat32? (ofNat n) = some n := by
  have hn : (0 : Int) ≤ n ∧ (n : Int) ≤ 4294967295 := by omega
  simp [nat32?, ofNat, int?, hn.2]

theorem nat64?_ofNat {n : Nat} (h : n < 2 ^ 64) : nat64? (ofNat n) = some n := by
  have hn : (0 : Int) ≤ n ∧ (n : Int) ≤ 18446744073709551615 := by omega
  simp [nat64?, ofNat, int?, hn.2]

end Json

/-! ### Types -/

mutual
/-- Precisions and scales are words of 32 bits. -/
def Ty.isExact : Ty → Bool
  | ⟨kind, _⟩ => kind.isExact
def Kind.isExact : Kind → Bool
  | .decimal p s => p < 2 ^ 32 && s < 2 ^ 32
  | .tuple ts | .rawTuple ts | .user _ ts => Ty.allExact ts
  | .zset t | .vec t | .ref t => t.isExact
  | .indexedZSet k v => k.isExact && v.isExact
  | .struct _ fs => Ty.fieldsExact fs
  | .function ps r => Ty.allExact ps && r.isExact
  | _ => true
def Ty.allExact : List Ty → Bool
  | [] => true
  | t :: ts => t.isExact && Ty.allExact ts
def Ty.fieldsExact : List (String × Ty) → Bool
  | [] => true
  | (_, t) :: fs => t.isExact && Ty.fieldsExact fs
end

namespace Ty

variable (style : Json.Style)

mutual
theorem ofJson?_toJson : ∀ t : Ty, t.isExact → ofJson? style t.toJson = some t
  | ⟨kind, n⟩, h => by
    have hk := kindOfJson?_toJson kind h
    simp [toJson, ofJson?, Json.bool?, hk]
theorem kindOfJson?_toJson :
    ∀ k : Kind, k.isExact → kindOfJson? style (kindToJson k) = some k
  | .bool, _ | .float, _ | .double, _ | .string, _ | .date, _ | .timestamp, _ | .interval, _
  | .usize, _ | .null, _ | .any, _ => by simp [kindToJson, kindOfJson?, constants, List.lookup]
  | .integer w, _ => by
    cases w <;>
      simp [kindToJson, kindOfJson?, Json.constant?, widthName, widths, List.lookup]
  | .decimal p s, h => by
    rw [Kind.isExact, Bool.and_eq_true, decide_eq_true_eq, decide_eq_true_eq] at h
    simp [kindToJson, kindOfJson?, Json.Style.admits, Json.nat32?_ofNat h.1, Json.nat32?_ofNat h.2]
  | .tuple ts, h | .rawTuple ts, h => by
    have hts := itemsOfJson?_toJsons ts h
    simp [kindToJson, kindOfJson?, listOfJson?, hts]
  | .zset t, h | .vec t, h | .ref t, h => by
    have ht := ofJson?_toJson t h
    simp [kindToJson, kindOfJson?, ht]
  | .indexedZSet k v, h => by
    rw [Kind.isExact, Bool.and_eq_true] at h
    have hk := ofJson?_toJson k h.1
    have hv := ofJson?_toJson v h.2
    simp [kindToJson, kindOfJson?, Json.Style.admits, hk, hv]
  | .struct name fs, h => by
    have hfs := fieldItemsOfJson?_fieldsToJson fs h
    simp [kindToJson, kindOfJson?, fieldsOfJson?, Json.Style.admits, Json.str?, hfs]
  | .function ps r, h => by
    rw [Kind.isExact, Bool.and_eq_true] at h
    have hps := itemsOfJson?_toJsons ps h.1
    have hr := ofJson?_toJson r h.2
    simp [kindToJson, kindOfJson?, listOfJson?, Json.Style.admits, hps, hr]
  | .user name ts, h => by
    have hts := itemsOfJson?_toJsons ts h
    simp [kindToJson, kindOfJson?, listOfJson?, Json.Style.admits, Json.str?, hts]
theorem itemsOfJson?_toJsons :
    ∀ ts : List Ty, allExact ts → itemsOfJson? style (toJsons ts) = some ts
  | [], _ => by simp [toJsons, itemsOfJson?]
  | t :: ts, h => by
    rw [allExact, Bool.and_eq_true] at h
    have ht := ofJson?_toJson t h.1
    have hts := itemsOfJson?_toJsons ts h.2
    simp [toJsons, itemsOfJson?, ht, hts]
theorem fieldItemsOfJson?_fieldsToJson :
    ∀ fs : List (String × Ty), fieldsExact fs →
      fieldItemsOfJson? style (fieldsToJson fs) = some fs
  | [], _ => by simp [fieldsToJson, fieldItemsOfJson?]
  | (name, t) :: fs, h => by
    rw [fieldsExact, Bool.and_eq_true] at h
    have ht := ofJson?_toJson t h.1
    have hfs := fieldItemsOfJson?_fieldsToJson fs h.2
    simp [fieldsToJson, fieldItemsOfJson?, Json.str?, ht, hfs]
end

end Ty

/-! ### Scalars and calls -/

/-- Integers and timestamps are signed words of 64 bits and dates of 32. -/
def Value.isExact : Value → Bool
  | .int i | .timestamp i => -2 ^ 63 ≤ i && i < 2 ^ 63
  | .date d => -2 ^ 31 ≤ d && d < 2 ^ 31
  | .float _ => false
  | _ => true

theorem Value.ofJson?_toJson (style : Json.Style) (v : Value) (h : v.isExact) :
    ofJson? style v.toJson = some v := by
  cases v with
  | null | bool | decimal | string => simp [toJson, ofJson?, Json.bool?, Json.str?]
  | float x => simp [isExact] at h
  | int i | timestamp i =>
    simp only [isExact, Bool.and_eq_true, decide_eq_true_eq] at h
    have hi : -9223372036854775808 ≤ i ∧ i ≤ 9223372036854775807 := by omega
    simp [toJson, ofJson?, Json.ofInt, Json.int64?, Json.int?, hi]
  | date d =>
    simp only [isExact, Bool.and_eq_true, decide_eq_true_eq] at h
    have hd : -2147483648 ≤ d ∧ d ≤ 2147483647 := by omega
    simp [toJson, ofJson?, Json.ofInt, Json.int32?, Json.int?, hd]

mutual
/-- Column numbers are words of 64 bits, and values and types are exact. -/
def Scalar.isExact : Scalar → Bool
  | .column index => index < 2 ^ 64
  | .literal value ty => value.isExact && ty.isExact
  | .unary _ operand => operand.isExact
  | .binary _ left right => left.isExact && right.isExact
  | .cast operand ty => operand.isExact && ty.isExact
  | .case branches otherwise => Scalar.branchesExact branches && otherwise.isExact
def Scalar.branchesExact : List (Scalar × Scalar) → Bool
  | [] => true
  | (w, t) :: rest => w.isExact && t.isExact && Scalar.branchesExact rest
end

namespace Scalar

mutual
theorem ofJson?_toJson (style : Json.Style) :
    ∀ e : Scalar, e.isExact → ofJson? style e.toJson = some e
  | .column index, h => by
    rw [isExact, decide_eq_true_eq] at h
    rw [toJson, ofJson?, Json.tag?_obj_bind]
    simp [Json.nat64?_ofNat h]
  | .literal value ty, h => by
    rw [isExact, Bool.and_eq_true] at h
    have hv := Value.ofJson?_toJson .held value h.1
    have ht := Ty.ofJson?_toJson .held ty h.2
    rw [toJson, ofJson?, Json.tag?_obj_bind]
    simp [hv, ht]
  | .unary op operand, h => by
    have ho : Json.constant? .held SqlUnary.names (.str (nameIn SqlUnary.names op)) = some op :=
      Json.constant?_nameIn (by decide) (by cases op <;> decide)
    have he := ofJson?_toJson .held operand h
    rw [toJson, ofJson?, Json.tag?_obj_bind]
    simp [ho, he]
  | .binary op left right, h => by
    rw [isExact, Bool.and_eq_true] at h
    have ho : Json.constant? .held BinaryOp.names (.str (nameIn BinaryOp.names op)) = some op :=
      Json.constant?_nameIn (by decide) (by cases op <;> decide)
    have hl := ofJson?_toJson .held left h.1
    have hr := ofJson?_toJson .held right h.2
    rw [toJson, ofJson?, Json.tag?_obj_bind]
    simp [ho, hl, hr]
  | .cast operand ty, h => by
    rw [isExact, Bool.and_eq_true] at h
    have he := ofJson?_toJson .held operand h.1
    have ht := Ty.ofJson?_toJson .held ty h.2
    rw [toJson, ofJson?, Json.tag?_obj_bind]
    simp [he, ht]
  | .case branches otherwise, h => by
    rw [isExact, Bool.and_eq_true] at h
    have hb := branchItemsOfJson?_branchesToJson branches h.1
    have ho := ofJson?_toJson .held otherwise h.2
    rw [toJson, ofJson?, Json.tag?_obj_bind]
    simp [branchesOfJson?, hb, ho]
theorem branchItemsOfJson?_branchesToJson :
    ∀ branches : List (Scalar × Scalar), branchesExact branches →
      branchItemsOfJson? (branchesToJson branches) = some branches
  | [], _ => by simp [branchesToJson, branchItemsOfJson?]
  | (w, t) :: rest, h => by
    rw [branchesExact, Bool.and_eq_true, Bool.and_eq_true] at h
    have hw := ofJson?_toJson .held w h.1.1
    have ht := ofJson?_toJson .held t h.1.2
    have hrest := branchItemsOfJson?_branchesToJson rest h.2
    simp [branchesToJson, branchItemsOfJson?, hw, ht, hrest]
end

end Scalar

namespace AggregateCall

def isExact (c : AggregateCall) : Bool := c.argument.all (· < 2 ^ 64)

theorem ofJson?_toJson (style : Json.Style) (c : AggregateCall) (h : c.isExact) :
    ofJson? style c.toJson = some c := by
  obtain ⟨function, argument, distinct⟩ := c
  have hf : Json.constant? style AggregateFunction.names
      (.str (nameIn AggregateFunction.names function)) = some function :=
    Json.constant?_nameIn (by decide) (by cases function <;> decide)
  have ha : argument? (Json.ofOption .ofNat argument) = some argument := by
    cases argument with
    | none => rfl
    | some n =>
      have hn : n < 2 ^ 64 := by simpa [isExact] using h
      exact congrArg (Option.map some) (Json.nat64?_ofNat hn)
  simp [toJson, ofJson?, fields, Json.bool?, hf, ha]

end AggregateCall

namespace WindowBound

def isExact : WindowBound → Bool
  | .preceding n | .following n => n < 2 ^ 64
  | _ => true

theorem ofJson?_toJson (style : Json.Style) (b : WindowBound) (h : b.isExact) :
    ofJson? style b.toJson = some b := by
  cases b with
  | unbounded | currentRow => simp [toJson, ofJson?, Json.constant?, constants, List.lookup]
  | preceding n | following n =>
    rw [isExact, decide_eq_true_eq] at h
    simp [toJson, ofJson?, Json.nat64?_ofNat h]

end WindowBound

/-! ### Relations -/

mutual
/-- Numbers of columns are words of 64 bits, and all parts are exact. -/
def Rel.isExact : Rel → Bool
  | .scan _ => true
  | .project input exprs => input.isExact && exprs.all Scalar.isExact
  | .filter input condition => input.isExact && condition.isExact
  | .join left right _ condition => left.isExact && right.isExact && condition.isExact
  | .aggregate input group calls =>
    input.isExact && group.all (· < 2 ^ 64) && calls.all AggregateCall.isExact
  | .union inputs _ | .minus inputs _ | .intersect inputs _ => Rel.allExact inputs
  | .distinct input => input.isExact
  | .values columns rows => columns.all Ty.isExact && rows.all fun row => row.all Value.isExact
  | .window input partition order lower upper calls =>
    input.isExact && partition.all (· < 2 ^ 64) && order.all (· < 2 ^ 64) && lower.isExact &&
      upper.isExact && calls.all AggregateCall.isExact
def Rel.allExact : List Rel → Bool
  | [] => true
  | r :: rs => r.isExact && Rel.allExact rs
end

namespace Rel

theorem list?_indicesToJson {ns : List Nat} (h : ns.all (· < 2 ^ 64)) :
    Json.list? Json.nat64? (indicesToJson ns) = some ns :=
  Json.list?_arr_map fun n hn => Json.nat64?_ofNat (by simpa using List.all_eq_true.1 h n hn)

theorem list?_calls {calls : List AggregateCall} (h : calls.all AggregateCall.isExact) :
    Json.list? (AggregateCall.ofJson? .held) (.arr (calls.map AggregateCall.toJson)) = some calls :=
  Json.list?_arr_map fun c hc => c.ofJson?_toJson .held (List.all_eq_true.1 h c hc)

mutual
theorem ofJson?_toJson (style : Json.Style) :
    ∀ r : Rel, r.isExact → ofJson? style r.toJson = some r
  | .scan table, _ => by
    rw [toJson, ofJson?, Json.tag?_obj_bind]
    simp [Json.str?]
  | .project input exprs, h => by
    rw [isExact, Bool.and_eq_true] at h
    have hi := ofJson?_toJson .held input h.1
    have he : Json.list? (Scalar.ofJson? .held) (.arr (exprs.map Scalar.toJson)) = some exprs :=
      Json.list?_arr_map fun e he => e.ofJson?_toJson .held (List.all_eq_true.1 h.2 e he)
    rw [toJson, ofJson?, Json.tag?_obj_bind]
    simp [hi, he]
  | .filter input condition, h => by
    rw [isExact, Bool.and_eq_true] at h
    have hi := ofJson?_toJson .held input h.1
    have hc := condition.ofJson?_toJson .held h.2
    rw [toJson, ofJson?, Json.tag?_obj_bind]
    simp [hi, hc]
  | .join left right kind condition, h => by
    rw [isExact, Bool.and_eq_true, Bool.and_eq_true] at h
    have hl := ofJson?_toJson .held left h.1.1
    have hr := ofJson?_toJson .held right h.1.2
    have hk : Json.constant? .held JoinKind.names (.str (nameIn JoinKind.names kind)) = some kind :=
      Json.constant?_nameIn (by decide) (by cases kind <;> decide)
    have hc := condition.ofJson?_toJson .held h.2
    rw [toJson, ofJson?, Json.tag?_obj_bind]
    simp [hl, hr, hk, hc]
  | .aggregate input group calls, h => by
    rw [isExact, Bool.and_eq_true, Bool.and_eq_true] at h
    have hi := ofJson?_toJson .held input h.1.1
    have hg := list?_indicesToJson h.1.2
    have hc := list?_calls h.2
    rw [toJson, ofJson?, Json.tag?_obj_bind]
    simp [hi, hg, hc]
  | .union inputs all, h | .minus inputs all, h | .intersect inputs all, h => by
    have hi := itemsOfJson?_toJsons inputs h
    rw [toJson, ofJson?, Json.tag?_obj_bind]
    simp [listOfJson?, Json.bool?, hi]
  | .distinct input, h => by
    have hi := ofJson?_toJson .held input h
    rw [toJson, ofJson?, Json.tag?_obj_bind]
    simp [hi]
  | .values columns rows, h => by
    rw [isExact, Bool.and_eq_true] at h
    have hc : Json.list? (Ty.ofJson? .held) (.arr (columns.map Ty.toJson)) = some columns :=
      Json.list?_arr_map fun t ht => t.ofJson?_toJson .held (List.all_eq_true.1 h.1 t ht)
    have hr : Json.list? (Json.list? (Value.ofJson? .held))
        (.arr (rows.map fun row => .arr (row.map Value.toJson))) = some rows := by
      refine Json.list?_arr_map fun row hrow => Json.list?_arr_map fun v hv => ?_
      exact v.ofJson?_toJson .held (List.all_eq_true.1 (List.all_eq_true.1 h.2 row hrow) v hv)
    rw [toJson, ofJson?, Json.tag?_obj_bind]
    simp [hc, hr]
  | .window input partition order lower upper calls, h => by
    simp only [isExact, Bool.and_eq_true] at h
    obtain ⟨⟨⟨⟨⟨h, hpartition⟩, horder⟩, hlower⟩, hupper⟩, hcalls⟩ := h
    have hi := ofJson?_toJson .held input h
    have hp := list?_indicesToJson hpartition
    have ho := list?_indicesToJson horder
    have hl := lower.ofJson?_toJson .held hlower
    have hu := upper.ofJson?_toJson .held hupper
    have hc := list?_calls hcalls
    rw [toJson, ofJson?, Json.tag?_obj_bind]
    simp [hi, hp, ho, hl, hu, hc]
theorem itemsOfJson?_toJsons :
    ∀ rs : List Rel, allExact rs → itemsOfJson? (toJsons rs) = some rs
  | [], _ => by simp [toJsons, itemsOfJson?]
  | r :: rs, h => by
    rw [allExact, Bool.and_eq_true] at h
    have hr := ofJson?_toJson .held r h.1
    have hrs := itemsOfJson?_toJsons rs h.2
    simp [toJsons, itemsOfJson?, hr, hrs]
end

end Rel

/-! ### Plans

A query is held back until its view is read, which asks for a value in every place of it. -/

namespace Json

attribute [simp] isReadable readableAll readableIn

theorem readableAll_map {α : Type} {write : α → Json} {xs : List α}
    (h : ∀ a, (write a).isReadable) : readableAll (xs.map write) := by
  induction xs with
  | nil => rfl
  | cons a xs ih => simp [h, ih]

end Json

mutual
theorem Ty.isReadable_toJson : ∀ t : Ty, t.toJson.isReadable
  | ⟨kind, _⟩ => by simp [toJson, isReadable_kindToJson kind]
theorem Ty.isReadable_kindToJson : ∀ k : Kind, (kindToJson k).isReadable
  | .bool | .float | .double | .string | .date | .timestamp | .interval | .usize | .null | .any
  | .integer _ | .decimal _ _ => by simp [kindToJson, Json.ofNat]
  | .tuple ts | .rawTuple ts | .user _ ts => by simp [kindToJson, readableAll_toJsons ts]
  | .zset t | .vec t | .ref t => by simp [kindToJson, isReadable_toJson t]
  | .indexedZSet k v => by simp [kindToJson, isReadable_toJson k, isReadable_toJson v]
  | .struct _ fs => by simp [kindToJson, readableAll_fieldsToJson fs]
  | .function ps r => by simp [kindToJson, readableAll_toJsons ps, isReadable_toJson r]
theorem Ty.readableAll_toJsons : ∀ ts : List Ty, Json.readableAll (toJsons ts)
  | [] => rfl
  | t :: ts => by simp [toJsons, isReadable_toJson t, readableAll_toJsons ts]
theorem Ty.readableAll_fieldsToJson :
    ∀ fs : List (String × Ty), Json.readableAll (fieldsToJson fs)
  | [] => rfl
  | (_, t) :: fs => by simp [fieldsToJson, isReadable_toJson t, readableAll_fieldsToJson fs]
end

theorem Value.isReadable_toJson (v : Value) : v.toJson.isReadable := by
  cases v <;> simp [toJson, Json.ofInt, Double.toJson]

mutual
theorem Scalar.isReadable_toJson : ∀ e : Scalar, e.toJson.isReadable
  | .column _ => by simp [toJson, Json.ofNat]
  | .literal v t => by simp [toJson, v.isReadable_toJson, t.isReadable_toJson]
  | .unary _ e => by simp [toJson, isReadable_toJson e]
  | .binary _ l r => by simp [toJson, isReadable_toJson l, isReadable_toJson r]
  | .cast e t => by simp [toJson, isReadable_toJson e, t.isReadable_toJson]
  | .case branches otherwise => by
    simp [toJson, readableAll_branchesToJson branches, isReadable_toJson otherwise]
theorem Scalar.readableAll_branchesToJson :
    ∀ branches : List (Scalar × Scalar), Json.readableAll (branchesToJson branches)
  | [] => rfl
  | (w, t) :: rest => by
    simp [branchesToJson, isReadable_toJson w, isReadable_toJson t, readableAll_branchesToJson rest]
end

theorem AggregateCall.isReadable_toJson (c : AggregateCall) : c.toJson.isReadable := by
  obtain ⟨_, argument, _⟩ := c
  cases argument <;> simp [toJson, Json.ofOption, Json.ofNat]

theorem WindowBound.isReadable_toJson (b : WindowBound) : b.toJson.isReadable := by
  cases b <;> simp [toJson, Json.ofNat]

theorem Rel.isReadable_indicesToJson (ns : List Nat) : (indicesToJson ns).isReadable :=
  Json.readableAll_map fun _ => rfl

mutual
theorem Rel.isReadable_toJson : ∀ r : Rel, r.toJson.isReadable
  | .scan _ => by simp [toJson]
  | .project input exprs => by
    simp [toJson, isReadable_toJson input, Json.readableAll_map Scalar.isReadable_toJson]
  | .filter input condition => by
    simp [toJson, isReadable_toJson input, condition.isReadable_toJson]
  | .join left right _ condition => by
    simp [toJson, isReadable_toJson left, isReadable_toJson right, condition.isReadable_toJson]
  | .aggregate input group calls => by
    simp [toJson, isReadable_toJson input, isReadable_indicesToJson,
      Json.readableAll_map AggregateCall.isReadable_toJson]
  | .union inputs _ | .minus inputs _ | .intersect inputs _ => by
    simp [toJson, readableAll_toJsons inputs]
  | .distinct input => by simp [toJson, isReadable_toJson input]
  | .values columns rows => by
    have hrow : ∀ row : List Value, (Json.arr (row.map Value.toJson)).isReadable := fun row =>
      Json.readableAll_map Value.isReadable_toJson
    simp [toJson, Json.readableAll_map Ty.isReadable_toJson, Json.readableAll_map hrow]
  | .window input partition order lower upper calls => by
    simp [toJson, isReadable_toJson input, isReadable_indicesToJson, lower.isReadable_toJson,
      upper.isReadable_toJson, Json.readableAll_map AggregateCall.isReadable_toJson]
theorem Rel.readableAll_toJsons : ∀ rs : List Rel, Json.readableAll (toJsons rs)
  | [] => rfl
  | r :: rs => by simp [toJsons, isReadable_toJson r, readableAll_toJsons rs]
end

def Table.isExact (t : Table) : Bool :=
  (t.columns.all fun c => c.ty.isExact) && t.primaryKey.all (· < 2 ^ 64)

/-- All numbers of the plan are words of the format's widths, and no literal is a float. -/
def Plan.isExact (p : Plan) : Bool :=
  p.tables.all Table.isExact && p.views.all fun v => v.query.isExact

theorem Column.ofJson?_toJson (style : Json.Style) (c : Column) (h : c.ty.isExact) :
    ofJson? style c.toJson = some c := by
  have ht := c.ty.ofJson?_toJson style h
  simp [toJson, ofJson?, Json.str?, ht]

theorem Table.ofJson?_toJson (style : Json.Style) (t : Table) (h : t.isExact) :
    ofJson? style t.toJson = some t := by
  rw [isExact, Bool.and_eq_true] at h
  have hc : Json.list? (Column.ofJson? style) (.arr (t.columns.map Column.toJson)) =
      some t.columns :=
    Json.list?_arr_map fun c hc => c.ofJson?_toJson style (List.all_eq_true.1 h.1 c hc)
  have hk := Rel.list?_indicesToJson h.2
  simp [toJson, ofJson?, fields, Json.str?, hc, hk]

theorem View.ofJson?_toJson (style : Json.Style) (v : View) (h : v.query.isExact) :
    ofJson? style v.toJson = some v := by
  have hq := v.query.ofJson?_toJson style h
  simp [toJson, ofJson?, Json.str?, Option.filter, v.query.isReadable_toJson, hq]

/-- Every type and every plan is read back as it was written, whatever freedom the reader takes in
its choice among alternatives. -/
theorem Plan.written_reads_back (style : Json.Style) :
    (∀ t : Ty, t.isExact → Ty.ofJson? style t.toJson = some t) ∧
      ∀ p : Plan, p.isExact → Plan.ofJson? style p.toJson = some p := by
  refine ⟨fun t => t.ofJson?_toJson style, fun p h => ?_⟩
  rw [isExact, Bool.and_eq_true] at h
  have ht : Json.list? (Table.ofJson? style) (.arr (p.tables.map Table.toJson)) = some p.tables :=
    Json.list?_arr_map fun t ht => t.ofJson?_toJson style (List.all_eq_true.1 h.1 t ht)
  have hv : Json.list? (View.ofJson? style) (.arr (p.views.map View.toJson)) = some p.views :=
    Json.list?_arr_map fun v hv => v.ofJson?_toJson style (List.all_eq_true.1 h.2 v hv)
  simp [toJson, ofJson?, fields, Json.str?, ht, hv]

/-- Two tables and three views over them, with nodes, calls, bounds and literals of all forms. -/
def Plan.statement : Plan where
  name := "statement"
  tables :=
    [⟨"Accounts", [⟨"id", Ty.int64⟩, ⟨"owner", ⟨.string, true⟩⟩], [0]⟩,
      ⟨"Moves", [⟨"account", Ty.int64⟩, ⟨"amount", ⟨.decimal 12 2, true⟩⟩, ⟨"day", Ty.date⟩], []⟩]
  views :=
    [⟨"Postings", .filter
        (.join (.scan "Accounts") (.scan "Moves") .full (.binary .eq (.column 0) (.column 2)))
        (.case [(.unary .isNull (.column 1), .boolean false)]
          (.binary .gt (.column 4) (.literal (.date (-7)) Ty.date)))⟩,
      ⟨"Running", .window (.distinct (.scan "Moves")) [0] [2] (.preceding 30) .currentRow
        [⟨.sum, some 1, false⟩, AggregateCall.countStar]⟩,
      ⟨"Quiet", .minus
        [.project (.scan "Accounts") [.column 0],
          .union
            [.aggregate (.scan "Moves") [0] [],
              .values [Ty.int64] [[.int 9223372036854775807], [.null]],
              .project (.scan "Moves") [.cast (.literal (.decimal "1.50") Ty.null) Ty.int64]] false,
          .intersect [.project (.scan "Moves") [.column 0]] true] false⟩]

theorem Plan.statement_reads_back :
    Plan.statement.isExact ∧
      Plan.ofJson? .document Plan.statement.toJson = some Plan.statement ∧
      Ty.ofJson? .held (Ty.rawTuple [Ty.tuple [⟨.decimal 4294967295 0, true⟩], Ty.any]).toJson =
        some (Ty.rawTuple [Ty.tuple [⟨.decimal 4294967295 0, true⟩], Ty.any]) :=
  ⟨by decide, (Plan.written_reads_back .document).2 _ (by decide),
    (Plan.written_reads_back .held).1 _ (by decide)⟩

end ViewCircuit
