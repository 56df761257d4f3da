import ViewStream.Double.Basic
import ViewStream.KeyMap

/-!
# JSON values

The value type is ordered so that **equal values are equal terms**: numbers keep the kind they were
written with (`1` and `1.0` differ), and an object is the list of its members. Values read from
text hold their members in key order; `Value.InOrder` says so, at every depth.

A member list is read with `List.lookup` and written with `KeyMap.insert`.
-/

namespace ViewStream.Json

/-- A number: an integer, or a double when the literal has a fraction, an exponent, a minus sign
before zero, or does not fit in 64 bits. -/
inductive Number where
  | int (value : Int)
  | double (value : Double)
deriving DecidableEq, Repr

/-- The rank of the double a number converts to: numbers compare as their ranks do. -/
def Number.rank : Number → Int
  | .int n => Double.rankOfInt n
  | .double x => x.rank

/-- A JSON value. -/
inductive Value where
  | null
  | bool (b : Bool)
  | num (n : Number)
  | str (s : String)
  | arr (items : List Value)
  | obj (members : List (String × Value))
deriving Repr

namespace Value

instance : Inhabited Value := ⟨.null⟩

/-! ## Induction -/

/-- Induction on a value by its parts, the items of an array and the values of an object's
members. -/
@[elab_as_elim]
theorem induction_parts {motive : Value → Prop} (null : motive .null)
    (bool : ∀ b, motive (.bool b)) (num : ∀ n, motive (.num n)) (str : ∀ s, motive (.str s))
    (arr : ∀ items, (∀ v ∈ items, motive v) → motive (.arr items))
    (obj : ∀ members, (∀ m ∈ members, motive m.2) → motive (.obj members)) : ∀ v, motive v
  | .null => null
  | .bool b => bool b
  | .num n => num n
  | .str s => str s
  | .arr items => arr items fun v hv =>
      have : sizeOf v < sizeOf items := List.sizeOf_lt_of_mem hv
      induction_parts null bool num str arr obj v
  | .obj members => obj members fun (k, v) hm =>
      have : sizeOf (k, v) < sizeOf members := List.sizeOf_lt_of_mem hm
      induction_parts null bool num str arr obj v
termination_by v => sizeOf v
decreasing_by
  · rw [Value.arr.sizeOf_spec]; omega
  · rw [Prod.mk.sizeOf_spec] at this; rw [Value.obj.sizeOf_spec]; omega

/-! ## Equality -/

mutual

/-- Structural equality, decided. -/
def decEq : (a b : Value) → Decidable (a = b)
  | .null, .null => isTrue rfl
  | .bool x, .bool y => decidable_of_iff (x = y) (by simp)
  | .num x, .num y => decidable_of_iff (x = y) (by simp)
  | .str x, .str y => decidable_of_iff (x = y) (by simp)
  | .arr xs, .arr ys =>
    match decEqItems xs ys with
    | isTrue h => isTrue (by rw [h])
    | isFalse h => isFalse (by simpa using h)
  | .obj xs, .obj ys =>
    match decEqMembers xs ys with
    | isTrue h => isTrue (by rw [h])
    | isFalse h => isFalse (by simpa using h)
  | .null, .bool _ | .null, .num _ | .null, .str _ | .null, .arr _ | .null, .obj _
  | .bool _, .null | .bool _, .num _ | .bool _, .str _ | .bool _, .arr _ | .bool _, .obj _
  | .num _, .null | .num _, .bool _ | .num _, .str _ | .num _, .arr _ | .num _, .obj _
  | .str _, .null | .str _, .bool _ | .str _, .num _ | .str _, .arr _ | .str _, .obj _
  | .arr _, .null | .arr _, .bool _ | .arr _, .num _ | .arr _, .str _ | .arr _, .obj _
  | .obj _, .null | .obj _, .bool _ | .obj _, .num _ | .obj _, .str _ | .obj _, .arr _ =>
    isFalse (by simp)

/-- Equality of item lists, decided. -/
def decEqItems : (xs ys : List Value) → Decidable (xs = ys)
  | [], [] => isTrue rfl
  | x :: xs, y :: ys =>
    match decEq x y, decEqItems xs ys with
    | isTrue h, isTrue t => isTrue (by rw [h, t])
    | isFalse h, _ => isFalse (by simp [h])
    | _, isFalse t => isFalse (by simp [t])
  | [], _ :: _ | _ :: _, [] => isFalse (by simp)

/-- Equality of member lists, decided. -/
def decEqMembers : (xs ys : List (String × Value)) → Decidable (xs = ys)
  | [], [] => isTrue rfl
  | (k, x) :: xs, (j, y) :: ys =>
    match decEq x y, decEqMembers xs ys, (inferInstance : Decidable (k = j)) with
    | isTrue h, isTrue t, isTrue e => isTrue (by rw [h, t, e])
    | isFalse h, _, _ => isFalse (by simp [h])
    | _, isFalse t, _ => isFalse (by simp [t])
    | _, _, isFalse e => isFalse (by simp [e])
  | [], _ :: _ | _ :: _, [] => isFalse (by simp)

end

instance : DecidableEq Value := decEq

/-! ## Parts of a value -/

/-- The kinds of value, as messages name them. -/
inductive Kind where
  | null | boolean | number | string | array | object
deriving DecidableEq, Repr

/-- The name of a kind within a message. -/
def Kind.name : Kind → String
  | .null => "null"
  | .boolean => "a boolean"
  | .number => "a number"
  | .string => "a string"
  | .array => "an array"
  | .object => "an object"

/-- The kind of a value. -/
def kind : Value → Kind
  | .null => .null
  | .bool _ => .boolean
  | .num _ => .number
  | .str _ => .string
  | .arr _ => .array
  | .obj _ => .object

/-- The text of a string value. -/
def str? : Value → Option String
  | .str s => some s
  | _ => none

@[simp] theorem str?_str (s : String) : str? (.str s) = some s := rfl

/-- The members of an object. -/
def obj? : Value → Option (List (String × Value))
  | .obj ms => some ms
  | _ => none

/-- Any value but null. -/
def nonNull? : Value → Option Value
  | .null => none
  | v => some v

theorem nonNull?_eq_some {v w : Value} (h : v.nonNull? = some w) : w = v ∧ v ≠ .null := by
  cases v with
  | null => exact absurd h (by simp [nonNull?])
  | bool _ | num _ | str _ | arr _ | obj _ => exact ⟨(Option.some.inj h).symm, by simp⟩

theorem nonNull?_of_ne {v : Value} (h : v ≠ .null) : v.nonNull? = some v := by
  cases v with
  | null => exact absurd rfl h
  | bool _ | num _ | str _ | arr _ | obj _ => rfl

/-- The member `k` of an object. -/
def member? (k : String) : Value → Option Value
  | .obj ms => ms.lookup k
  | _ => none

/-- The string under key `k` of a member list, if the member is there and is a string. -/
def stringAt? (k : String) (ms : List (String × Value)) : Option String :=
  (ms.lookup k).bind str?

/-- A natural number as a value. -/
def ofNat (n : Nat) : Value :=
  .num (.int (Int.ofNat n))

/-- The members that fields some of which may be absent make, in the order given. -/
def present (fields : List (String × Option Value)) : List (String × Value) :=
  fields.filterMap fun f => f.2.map (f.1, ·)

/-- An object from fields, in the order given. -/
def ofFields (fields : List (String × Option Value)) : Value :=
  .obj (present fields)

/-- An object from fields, in key order. -/
def ofRecord (fields : List (String × Option Value)) : Value :=
  .obj (KeyMap.ofList (present fields))

/-! ## Key order -/

/-- The keys of a member list ascend strictly. -/
def Ascending (ms : List (String × Value)) : Prop :=
  ms.Pairwise fun a b => a.1 < b.1

mutual

/-- Every object within the value has its members in key order, each key once. -/
def InOrder : Value → Prop
  | .arr xs => ItemsInOrder xs
  | .obj ms => Ascending ms ∧ MembersInOrder ms
  | _ => True

/-- Every item is in key order. -/
def ItemsInOrder : List Value → Prop
  | [] => True
  | x :: xs => x.InOrder ∧ ItemsInOrder xs

/-- Every member's value is in key order. -/
def MembersInOrder : List (String × Value) → Prop
  | [] => True
  | (_, v) :: ms => v.InOrder ∧ MembersInOrder ms

end

theorem ItemsInOrder.of_mem {xs : List Value} (h : ItemsInOrder xs) {x : Value} (hx : x ∈ xs) :
    x.InOrder := by
  induction xs with
  | nil => exact absurd hx List.not_mem_nil
  | cons y ys ih =>
    rcases List.mem_cons.mp hx with rfl | hx
    · exact h.1
    · exact ih h.2 hx

theorem MembersInOrder.of_mem {ms : List (String × Value)} (h : MembersInOrder ms)
    {m : String × Value} (hm : m ∈ ms) : m.2.InOrder := by
  induction ms with
  | nil => exact absurd hm List.not_mem_nil
  | cons n ms ih =>
    rcases List.mem_cons.mp hm with rfl | hm
    · exact h.1
    · exact ih h.2 hm

/-- In key order, every member is the one that is found under its key. -/
theorem Ascending.lookup_of_mem {ms : List (String × Value)} (h : Ascending ms) {k : String}
    {v : Value} (hmem : (k, v) ∈ ms) : ms.lookup k = some v :=
  KeyMap.lookup_of_mem (List.pairwise_map.mpr (h.imp String.ne_of_lt)) hmem

end Value

end ViewStream.Json
