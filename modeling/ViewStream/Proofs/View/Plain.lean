import ViewStream.Proofs.Spec.NormalForm
import ViewStream.View.Resolve

/-!
# Reading a prop loses none of its meaning

A prop is not resolved as it came over the wire. It is read first, and reading makes one literal of
every part without a binding, which is never looked into again. What a value means can be said
without that: go down it once, take what is a binding for what it stands for, and leave the rest as
it is (`Plain.value`).

The two agree for every value in every context (`reading_keeps_meaning`). Two things carry this.
**A value without a binding means itself** (`Plain.value_eq_self`), so a literal is right whatever
is in it. And what is read under a key means what the value under that key means, which is all that
the arms of a choice and the right-hand side of a comparison ask for.
-/

namespace ViewStream

open Json (Value)

/-! ## What a value means as it stands -/

namespace Plain

/-- The comparison among members with these meanings: the first comparator there is, and what it
compares with. -/
def comparison? (meanings : List (String × Option Value)) : Option (Comparator × Option Value) :=
  Comparator.all.findSome? fun op => (meanings.lookup op.key).map (op, ·)

/-- Whether a subject passes a comparison, or is truthy where there is none. -/
def passes (subject : Option Value) : Option (Comparator × Option Value) → Bool
  | none => truthy subject
  | some (op, right) => op.holds subject right

/-- Whether the condition of an object with these members, which have these meanings, holds. -/
def objectHolds (c : Context) (ms : List (String × Value))
    (meanings : List (String × Option Value)) : Bool :=
  passes ((Condition.subjectOf ms).bind (·.read c)) (comparison? meanings)
    != (ms.lookup "not" = some (.bool true))

mutual

/-- What a wire value means: a choice the arm that its test picks, a reference what it reads, any
other object and any array what their parts mean, and a scalar itself. -/
def value (c : Context) : Value → Option Value
  | .obj ms =>
    match holdsUnder? c "$cond" ms with
    | some true => ((members c ms).lookup "$then").join
    | some false => ((members c ms).lookup "$else").join
    | none =>
      match Reference.ofMembers? ms with
      | some source => source.read c
      | none => some (.ofFields (members c ms))
  | .arr vs => some (.arr ((items c vs).map (·.getD .null)))
  | v => some v

/-- What the members of an object mean. -/
def members (c : Context) : List (String × Value) → List (String × Option Value)
  | [] => []
  | (k, v) :: ms => (k, value c v) :: members c ms

/-- What the items of an array mean. -/
def items (c : Context) : List Value → List (Option Value)
  | [] => []
  | v :: vs => value c v :: items c vs

/-- Whether the test that a wire value states holds: all the conditions of an array, or the one
condition that it is. -/
def holds (c : Context) : Value → Bool
  | .arr vs => allHold c vs
  | .obj ms => objectHolds c ms (members c ms)
  | v => truthy (some v)

/-- Whether the test under a key holds, if there is one. -/
def holdsUnder? (c : Context) (key : String) : List (String × Value) → Option Bool
  | [] => none
  | (k, v) :: ms => if key == k then some (holds c v) else holdsUnder? c key ms

/-- Whether the condition that a wire value states holds. -/
def conditionHolds (c : Context) : Value → Bool
  | .obj ms => objectHolds c ms (members c ms)
  | v => truthy (some v)

/-- Whether all conditions hold. -/
def allHold (c : Context) : List Value → Bool
  | [] => true
  | v :: vs => conditionHolds c v && allHold c vs

end

variable (c : Context)

theorem members_eq_map (ms : List (String × Value)) :
    members c ms = ms.map fun m => (m.1, value c m.2) := by
  induction ms with
  | nil => rfl
  | cons m ms ih => rw [members, ih, List.map_cons]

theorem items_eq_map (vs : List Value) : items c vs = vs.map (value c) := by
  induction vs with
  | nil => rfl
  | cons v vs ih => rw [items, ih, List.map_cons]

theorem lookup_members (key : String) (ms : List (String × Value)) :
    (members c ms).lookup key = (ms.lookup key).map (value c) := by
  rw [members_eq_map, KeyMap.lookup_map]

theorem holdsUnder?_eq_map (key : String) (ms : List (String × Value)) :
    holdsUnder? c key ms = (ms.lookup key).map (holds c) := by
  induction ms with
  | nil => rfl
  | cons m ms ih =>
    obtain ⟨k, v⟩ := m
    rw [holdsUnder?, List.lookup_cons, ih]
    cases key == k <;> rfl

/-! ## Values without bindings -/

theorem present_members {ms : List (String × Value)} (h : ∀ m ∈ ms, value c m.2 = some m.2) :
    Value.present (members c ms) = ms := by
  rw [Value.present]
  induction ms with
  | nil => rfl
  | cons m ms ih =>
    obtain ⟨hm, hrest⟩ := List.forall_mem_cons.mp h
    rw [members, hm, List.filterMap_cons, ih hrest]
    rfl

/-- **A value without a binding means itself.** -/
theorem value_eq_self {v : Value} (h : containsBinding v = false) : value c v = some v := by
  induction v using Value.induction_parts with
  | null | bool _ | num _ | str _ => rfl
  | arr vs ih =>
    have hinside : ¬ itemsContainBinding vs = true := Bool.eq_false_iff.mp h
    have hitem : ∀ w ∈ vs, (value c w).getD .null = w := by
      intro w hw
      have hfree : containsBinding w = false :=
        Bool.eq_false_iff.mpr fun hb => hinside ((itemsContainBinding_iff vs).mpr ⟨w, hw, hb⟩)
      rw [ih w hw hfree, Option.getD_some]
    have hsame : vs.map ((·.getD .null) ∘ value c) = vs :=
      (List.map_congr_left hitem).trans (List.map_id' vs)
    rw [value, items_eq_map, List.map_map, hsame]
  | obj ms ih =>
    obtain ⟨hobject, hinside⟩ := Bool.or_eq_false_iff.mp h
    obtain ⟨hcond, href⟩ := (isBinding_eq_false_iff ms).mp hobject
    have hmember : ∀ m ∈ ms, value c m.2 = some m.2 := by
      intro m hm
      refine ih m hm (Bool.eq_false_iff.mpr fun hb => Bool.eq_false_iff.mp hinside ?_)
      exact (membersContainBinding_iff ms).mpr ⟨m, hm, hb⟩
    rw [value, holdsUnder?_eq_map, hcond, Option.map_none, href]
    dsimp only
    rw [Value.ofFields, present_members c hmember]

/-! ## What was read -/

section

variable {ms : List (String × Value)} (h : ∀ m ∈ ms, (PropExpr.ofJson m.2).resolve c = value c m.2)

include h

theorem lookup_ofMembers_resolve (key : String) :
    ((PropExpr.ofMembers ms).lookup key).map (PropExpr.resolve c) = (members c ms).lookup key := by
  rw [PropExpr.lookup_ofMembers, lookup_members, Option.map_map]
  cases hv : ms.lookup key with
  | none => rfl
  | some v => exact congrArg some (h (key, v) (KeyMap.mem_of_lookup hv))

/-- The arm of a choice means what the value under its key means. -/
theorem resolveOption_ofMember? (key : String) :
    PropExpr.resolveOption c (PropExpr.ofMember? key ms) = ((members c ms).lookup key).join := by
  rw [PropExpr.ofMember?_eq_map, ← PropExpr.lookup_ofMembers, ← lookup_ofMembers_resolve c h]
  cases (PropExpr.ofMembers ms).lookup key <;> rfl

theorem resolveMembers_ofMembers :
    PropExpr.resolveMembers c (PropExpr.ofMembers ms) = Value.present (members c ms) := by
  rw [Value.present]
  induction ms with
  | nil => rfl
  | cons m ms ih =>
    obtain ⟨k, v⟩ := m
    obtain ⟨hv, hrest⟩ := List.forall_mem_cons.mp h
    rw [PropExpr.ofMembers, PropExpr.resolveMembers, hv, members, List.filterMap_cons, ih hrest]
    cases value c v <;> rfl

/-- The first comparator that is found is the same one, and what it compares with means the
same. -/
theorem comparisonOf_ofMembers :
    (Condition.comparisonOf (PropExpr.ofMembers ms)).map (fun d => (d.1, d.2.resolve c))
      = comparison? (members c ms) := by
  rw [Condition.comparisonOf, comparison?, List.map_findSome?]
  congr 1
  funext op
  rw [← lookup_ofMembers_resolve c h, Function.comp]
  cases (PropExpr.ofMembers ms).lookup op.key <;> rfl

/-- **The condition of an object holds if and only if it does as it stands.** -/
theorem ofParts_holds :
    (Condition.ofParts ms (PropExpr.ofMembers ms)).holds c = objectHolds c ms (members c ms) := by
  have hsubject : PropExpr.resolveOption c ((Condition.subjectOf ms).map .ref)
      = (Condition.subjectOf ms).bind (·.read c) := by
    cases Condition.subjectOf ms <;> rfl
  rw [Condition.ofParts, Condition.holds, objectHolds, ← comparisonOf_ofMembers c h, hsubject]
  congr 1
  rcases Condition.comparisonOf (PropExpr.ofMembers ms) with _ | ⟨op, e⟩ <;> rfl

/-- **An object that is read means what it means as it stands.** -/
theorem resolve_ofJson_obj (htest : ∀ m ∈ ms, (Visibility.ofJson m.2).holds c = holds c m.2) :
    (PropExpr.ofJson (.obj ms)).resolve c = value c (.obj ms) := by
  rw [PropExpr.ofJson, Visibility.ofMember?_eq_map, value, holdsUnder?_eq_map]
  cases hcond : ms.lookup "$cond" with
  | some test =>
    have hholds := htest ("$cond", test) (KeyMap.mem_of_lookup hcond)
    dsimp only [Option.map] at hholds ⊢
    rw [PropExpr.resolve, hholds]
    cases holds c test
    · exact resolveOption_ofMember? c h "$else"
    · exact resolveOption_ofMember? c h "$then"
  | none =>
    dsimp only [Option.map]
    cases href : Reference.ofMembers? ms with
    | some source => rfl
    | none =>
      dsimp only
      cases hinside : membersContainBinding ms with
      | true =>
        rw [if_pos rfl, PropExpr.resolve, resolveMembers_ofMembers c h]
        rfl
      | false =>
        -- the object was made a literal, and there is nothing in it that means anything else
        have hfree : containsBinding (.obj ms) = false := by
          rw [containsBinding, (isBinding_eq_false_iff ms).mpr ⟨hcond, href⟩, hinside]
          rfl
        have hself := value_eq_self c hfree
        rw [value, holdsUnder?_eq_map, hcond, Option.map_none, href] at hself
        rw [if_neg (by simp), PropExpr.resolve]
        exact hself.symm

end

theorem resolveItems_ofItems {vs : List Value}
    (h : ∀ v ∈ vs, (PropExpr.ofJson v).resolve c = value c v) :
    PropExpr.resolveItems c (PropExpr.ofItems vs) = (items c vs).map (·.getD .null) := by
  induction vs with
  | nil => rfl
  | cons v vs ih =>
    obtain ⟨hv, hrest⟩ := List.forall_mem_cons.mp h
    rw [PropExpr.ofItems, PropExpr.resolveItems, items, List.map_cons, hv, ih hrest]

theorem allHold_ofItems {vs : List Value}
    (h : ∀ v ∈ vs, (Condition.ofJson v).holds c = conditionHolds c v) :
    Condition.allHold c (Condition.ofItems vs) = allHold c vs := by
  induction vs with
  | nil => rfl
  | cons v vs ih =>
    obtain ⟨hv, hrest⟩ := List.forall_mem_cons.mp h
    rw [Condition.ofItems, Condition.allHold, allHold, hv, ih hrest]

/-- **An array that is read means what it means as it stands.** -/
theorem resolve_ofJson_arr {vs : List Value}
    (h : ∀ v ∈ vs, (PropExpr.ofJson v).resolve c = value c v) :
    (PropExpr.ofJson (.arr vs)).resolve c = value c (.arr vs) := by
  rw [PropExpr.ofJson]
  cases hinside : itemsContainBinding vs with
  | true =>
    rw [if_pos rfl, PropExpr.resolve, resolveItems_ofItems c h]
    rfl
  | false =>
    have hfree : containsBinding (.arr vs) = false := hinside
    rw [if_neg (by simp), PropExpr.resolve]
    exact (value_eq_self c hfree).symm

/-- A condition on a fixed value asks whether the value is truthy. -/
theorem literal_holds (v : Value) :
    Condition.holds c ⟨some (.literal v), none, false⟩ = truthy (some v) := by
  rw [Condition.holds, PropExpr.resolveOption, PropExpr.resolve, Condition.passes, Bool.bne_false]

end Plain

/--
**Reading a prop loses none of its meaning.** Whatever the value and the context, inside a repeat
or outside: the prop that is read from the value resolves to what the value means as it stands, and
the visibility that is read from it holds if and only if the test that it states does.

By induction on the value, for props, visibilities and conditions at once: a choice asks for the
test under one of its keys, and a comparison for the prop under one of its own.
-/
theorem reading_keeps_meaning (c : Context) (v : Value) :
    (PropExpr.ofJson v).resolve c = Plain.value c v
      ∧ (Visibility.ofJson v).holds c = Plain.holds c v
      ∧ (Condition.ofJson v).holds c = Plain.conditionHolds c v := by
  induction v using Value.induction_parts with
  | null | bool _ | num _ | str _ =>
    exact ⟨rfl, Plain.literal_holds c _, Plain.literal_holds c _⟩
  | arr vs ih =>
    refine ⟨Plain.resolve_ofJson_arr c fun v hv => (ih v hv).1, ?_, Plain.literal_holds c _⟩
    exact Plain.allHold_ofItems c fun v hv => (ih v hv).2.2
  | obj ms ih =>
    have hprop : ∀ m ∈ ms, (PropExpr.ofJson m.2).resolve c = Plain.value c m.2 :=
      fun m hm => (ih m hm).1
    have hcondition := Plain.ofParts_holds c hprop
    exact ⟨Plain.resolve_ofJson_obj c hprop fun m hm => (ih m hm).2.1, hcondition, hcondition⟩

-- Outside a repeat an item is undefined: null in an array, and left out of an object.
example :
    let item : Value := .obj [("$item", .str "x")]
    let plain : Value := .obj [("$index", .bool false), ("$state", .ofNat 5)]
    let prop : Value :=
      .obj [("a", .arr [.obj [("$state", .str "/n")], item]), ("b", item), ("c", plain)]
    (PropExpr.ofJson prop).resolve ⟨.obj [("n", .ofNat 3)], none⟩
      = some (.obj [("a", .arr [.ofNat 3, .null]), ("c", plain)]) := by
  decide +kernel

end ViewStream
