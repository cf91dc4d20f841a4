import EventSchema.Decimal.Binary64

/-!
# JSON documents

A document keeps the fields of its objects in authored order, but two documents are the same value
when their objects hold the same fields in any order.  Numbers are exact integers or finite binary
numbers, and the two kinds never equal each other.

Main results:

- {lit}`Fields.get?_set_self`, {lit}`Fields.get?_set_of_ne`: what setting a field does to the
  look-ups.
- {lit}`Fields.keys_set`: a new key goes to the end, a known one keeps its place.
- {lit}`Fields.get?_erase_of_ne`: removing a field leaves the others.
- {lit}`Number.same_refl`, {lit}`Number.same_comm`: numeric equality within a kind.
-/

namespace EventSchema

/-- A JSON number. -/
inductive Number where
  /-- An integer literal of 64 bits. -/
  | int (value : Int)
  /-- Any other literal. -/
  | real (value : Binary64)
deriving DecidableEq

/-- Equality within each kind of number. -/
def Number.same : Number → Number → Bool
  | .int a, .int b => a == b
  | .real a, .real b => a.same b
  | _, _ => false

@[simp]
theorem Number.same_refl (n : Number) : n.same n = true := by
  cases n <;> simp [Number.same]

theorem Number.same_comm (m n : Number) : m.same n = n.same m := by
  cases m <;> cases n <;> simp [Number.same, Binary64.same_comm, Bool.beq_comm]

/-- A JSON value. -/
inductive Json where
  | null
  | bool (value : Bool)
  | num (value : Number)
  | str (value : String)
  | arr (items : List Json)
  | obj (fields : List (String × Json))

instance : Inhabited Json := ⟨.null⟩

/-- The fields of an object, in authored order. -/
abbrev Fields : Type := List (String × Json)

/-! ## Fields by key -/

namespace Fields

/-- The value of a field, null included. -/
def get? (fields : Fields) (key : String) : Option Json := List.lookup key fields

/-- Whether a field is present, null included. -/
def contains (fields : Fields) (key : String) : Bool := fields.any (·.1 == key)

/-- The keys in order. -/
def keys (fields : Fields) : List String := List.map Prod.fst fields

/-- Give a field a value: in its place if it is present, else at the end. -/
def set (key : String) (value : Json) : Fields → Fields
  | [] => [(key, value)]
  | (k, v) :: rest => if k = key then (k, value) :: rest else (k, v) :: set key value rest

/-- Remove a field; the others keep their order. -/
def erase (fields : Fields) (key : String) : Fields := fields.filter (·.1 != key)

/-- Fields set one after another, so that a repeated key keeps its first place and last value. -/
def ofList (entries : List (String × Json)) : Fields :=
  entries.foldl (fun fields e => Fields.set e.1 e.2 fields) []

@[simp]
theorem get?_nil (key : String) : Fields.get? [] key = none := rfl

/-- The first field of a name counts. -/
theorem get?_cons (k : String) (v : Json) (rest : Fields) (key : String) :
    Fields.get? ((k, v) :: rest) key = if key = k then some v else Fields.get? rest key := by
  by_cases h : key = k
  · simp [get?, h]
  · simp [get?, List.lookup_cons, h, beq_eq_false_iff_ne.2 h]

/-- The value that was set is found. -/
@[simp]
theorem get?_set_self (fields : Fields) (key : String) (value : Json) :
    Fields.get? (Fields.set key value fields) key = some value := by
  induction fields with
  | nil => simp [set, get?_cons]
  | cons e rest ih =>
    obtain ⟨k, v⟩ := e
    by_cases h : k = key
    · simp [set, h, get?_cons]
    · simp [set, h, get?_cons, Ne.symm h, ih]

/-- To set one field leaves the others. -/
theorem get?_set_of_ne (fields : Fields) {key other : String} (value : Json) (h : other ≠ key) :
    Fields.get? (Fields.set key value fields) other = Fields.get? fields other := by
  induction fields with
  | nil => simp [set, get?_cons, h]
  | cons e rest ih =>
    obtain ⟨k, v⟩ := e
    by_cases hk : k = key
    · subst hk
      simp [set, get?_cons, h]
    · simp [set, hk, get?_cons, ih]

/-- A field is there if it has a value. -/
theorem contains_eq_isSome_get? (fields : Fields) (key : String) :
    Fields.contains fields key = (Fields.get? fields key).isSome := by
  induction fields with
  | nil => rfl
  | cons e rest ih =>
    obtain ⟨k, v⟩ := e
    rw [get?_cons]
    by_cases h : key = k
    · simp [contains, h]
    · simpa [contains, h, Ne.symm h, beq_eq_false_iff_ne.2 (Ne.symm h)] using ih

/-- A new field comes last. -/
theorem keys_set (fields : Fields) (key : String) (value : Json) :
    Fields.keys (Fields.set key value fields) =
      if key ∈ Fields.keys fields then Fields.keys fields else Fields.keys fields ++ [key] := by
  induction fields with
  | nil => simp [set, keys]
  | cons e rest ih =>
    obtain ⟨k, v⟩ := e
    by_cases hk : k = key
    · simp [set, hk, keys]
    · simp only [keys] at ih
      by_cases hm : key ∈ List.map Prod.fst rest
      · simp [set, hk, keys, ih, hm]
      · simp [set, hk, keys, ih, hm, Ne.symm hk]

/-- To erase one field leaves the others. -/
theorem get?_erase_of_ne (fields : Fields) {key other : String} (h : other ≠ key) :
    Fields.get? (Fields.erase fields key) other = Fields.get? fields other := by
  induction fields with
  | nil => rfl
  | cons e rest ih =>
    obtain ⟨k, v⟩ := e
    simp only [erase] at ih
    by_cases hk : k = key
    · subst hk
      simp [erase, get?_cons, h, ih]
    · simp [erase, get?_cons, hk, ih]

end Fields

namespace Json

/-! ## Equality of values -/

mutual

/-- Whether two documents are the same value, whatever the order of their fields. -/
def same : Json → Json → Bool
  | .null, .null => true
  | .bool a, .bool b => a == b
  | .num a, .num b => a.same b
  | .str a, .str b => a == b
  | .arr a, .arr b => sameItems a b
  | .obj a, .obj b => a.length == b.length && sameFields a b
  | _, _ => false

/-- Equality of two lists of values, item by item. -/
def sameItems : List Json → List Json → Bool
  | [], [] => true
  | a :: as, b :: bs => same a b && sameItems as bs
  | _, _ => false

/-- Whether each field on the left has the same value on the right. -/
def sameFields : List (String × Json) → List (String × Json) → Bool
  | [], _ => true
  | (key, a) :: rest, right =>
    (match Fields.get? right key with
      | some b => same a b
      | none => false) && sameFields rest right

end

instance : BEq Json := ⟨Json.same⟩

/-! ## Shape -/

/-- Whether the value is null. -/
def isNull : Json → Bool
  | .null => true
  | _ => false

/-- The text of a string. -/
def str? : Json → Option String
  | .str s => some s
  | _ => none

/-- The fields of an object. -/
def obj? : Json → Option Fields
  | .obj fields => some fields
  | _ => none

/-- The items of an array. -/
def arr? : Json → Option (List Json)
  | .arr items => some items
  | _ => none

/-- The truth value of a boolean. -/
def bool? : Json → Option Bool
  | .bool b => some b
  | _ => none

/-- The value of an integer of 64 bits with sign. -/
def int? : Json → Option Int
  | .num (.int n) => if n < 0x8000000000000000 then some n else none
  | _ => none

/-- An integer value. -/
def ofInt (n : Int) : Json := .num (.int n)

/-- Text, or null where there is none. -/
def ofText? : Option String → Json
  | some s => .str s
  | none => .null

/-- The strings of a field that holds one string or a list; other items do not count. -/
def strings : Option Json → List String
  | some (.str s) => [s]
  | some (.arr items) => items.filterMap str?
  | _ => []

mutual

/-- No object of the document repeats a key. -/
def WellFormed : Json → Prop
  | .arr items => WellFormedItems items
  | .obj fields => (fields.map Prod.fst).Nodup ∧ WellFormedFields fields
  | _ => True

/-- Every item is well formed. -/
def WellFormedItems : List Json → Prop
  | [] => True
  | item :: rest => WellFormed item ∧ WellFormedItems rest

/-- Every value of a field is well formed. -/
def WellFormedFields : List (String × Json) → Prop
  | [] => True
  | (_, value) :: rest => WellFormed value ∧ WellFormedFields rest

end

end Json

end EventSchema
