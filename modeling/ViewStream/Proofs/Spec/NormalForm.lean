import ViewStream.Spec.Basic

/-!
# What reading makes of a value

A prop could be written down in more than one way: plain JSON as an object of literals, or a
reference as an object with one member. Reading a value decides for one of them. It keeps **as much
as it can as plain JSON**, and an object that can be taken for a binding is one. `PropExpr.Normal`
says so at every depth, in choices and on the right of comparisons too.

Three walks over a value have to agree for that: the one that reads, the one that looks for
bindings inside (`isLiteral_ofJson`), and the one that tells a binding from an object, which is
asked once more about the object as it is printed (`isBinding_membersToJson_ofMembers`).
-/

namespace ViewStream

open Json (Value)

/-! ## Subjects that are printed -/

namespace Condition

/-- What the printed condition names of its subject. A fixed value has no member of its own, and
neither has a prop that no wire value is read as. -/
def named : Option PropExpr → Option Reference
  | some (.ref (.state path)) => some (.state path)
  | some (.ref (.item field)) => some (.item field)
  | some (.ref .index) => some .index
  | _ => none

/-- The subject is all that the printed condition names. -/
def IsNamed (subject : Option PropExpr) : Prop := (named subject).map .ref = subject

/-- The subject is a fixed value that is printed for itself, and it is no object, which would be
taken for a condition. -/
def IsFixed (subject : Option PropExpr) : Prop := ∃ v, subject = some (.literal v) ∧ v.obj? = none

/-- The subject is not lost when the condition is printed: it is named, or it is a fixed value and
there is nothing else to the condition. -/
def KeepsSubject (c : Condition) : Prop :=
  IsNamed c.subject ∨ (IsFixed c.subject ∧ c.comparison = none ∧ c.negate = false)

/-- Whatever an object names as a subject is named again. -/
theorem isNamed_subjectOf (ms : List (String × Value)) : IsNamed ((subjectOf ms).map .ref) := by
  rw [subjectOf]
  split
  · rfl
  · split
    · rfl
    · split <;> rfl

theorem IsNamed.ne_literal {subject : Option PropExpr} (h : IsNamed subject) (v : Value) :
    subject ≠ some (.literal v) := by
  rintro rfl
  exact absurd h (by simp [IsNamed, named])

end Condition

/-! ## The normal form -/

mutual

/-- Every part of the prop that could be plain JSON is, and no object in it passes for a
binding. -/
def PropExpr.Normal : PropExpr → Prop
  | .literal v => containsBinding v = false
  | .ref _ => True
  | .cond test whenTrue whenFalse =>
    test.Normal ∧ PropExpr.OptionNormal whenTrue ∧ PropExpr.OptionNormal whenFalse
  | .object props =>
    isBinding (PropExpr.membersToJson props) = false ∧ (∃ p ∈ props, p.2.isLiteral = false)
      ∧ PropExpr.MembersNormal props
  | .array items => (∃ e ∈ items, e.isLiteral = false) ∧ PropExpr.ItemsNormal items

/-- A prop that may be absent is in normal form. -/
def PropExpr.OptionNormal : Option PropExpr → Prop
  | none => True
  | some e => e.Normal

/-- All named props are in normal form. -/
def PropExpr.MembersNormal : List (String × PropExpr) → Prop
  | [] => True
  | (_, e) :: props => e.Normal ∧ PropExpr.MembersNormal props

/-- All props of an array are in normal form. -/
def PropExpr.ItemsNormal : List PropExpr → Prop
  | [] => True
  | e :: items => e.Normal ∧ PropExpr.ItemsNormal items

/-- The conditions are in normal form, and a single one is not an array that stands for several. -/
def Visibility.Normal : Visibility → Prop
  | .one c => c.Normal ∧ ∀ vs, c.subject ≠ some (.literal (.arr vs))
  | .all cs => Condition.ItemsNormal cs

/-- All conditions are in normal form. -/
def Condition.ItemsNormal : List Condition → Prop
  | [] => True
  | c :: cs => c.Normal ∧ Condition.ItemsNormal cs

/-- The condition keeps its subject, and the right-hand side of its comparison is in normal
form. -/
def Condition.Normal : Condition → Prop
  | ⟨subject, comparison, negate⟩ =>
    Condition.KeepsSubject ⟨subject, comparison, negate⟩ ∧ Condition.ComparisonNormal comparison

/-- The right-hand side of a comparison is in normal form. -/
def Condition.ComparisonNormal : Option (Comparator × PropExpr) → Prop
  | none => True
  | some (_, e) => e.Normal

end

/-! ## Members that are read and printed -/

theorem PropExpr.lookup_membersToJson (key : String) (props : List (String × PropExpr)) :
    (membersToJson props).lookup key = (props.lookup key).map toJson := by
  induction props with
  | nil => rfl
  | cons p props ih =>
    obtain ⟨k, e⟩ := p
    rw [membersToJson, List.lookup_cons, List.lookup_cons, ih]
    cases key == k <;> rfl

/-- An object is read as something that is printed as an object. -/
theorem PropExpr.toJson_ofJson_obj (ms : List (String × Value)) :
    ∃ ms', (ofJson (.obj ms)).toJson = .obj ms' := by
  rw [ofJson]
  split
  · rw [toJson]; exact ⟨_, rfl⟩
  · split
    · rename_i source _
      rw [toJson]
      cases source <;> exact ⟨_, rfl⟩
    · split <;> (rw [toJson]; exact ⟨_, rfl⟩)

/-- An array is read as something that is printed as an array. -/
theorem PropExpr.toJson_ofJson_arr (vs : List Value) :
    ∃ vs', (ofJson (.arr vs)).toJson = .arr vs' := by
  rw [ofJson]
  split <;> (rw [toJson]; exact ⟨_, rfl⟩)

/-- A string is printed for a string only. -/
theorem PropExpr.toJson_ofJson_str? (v : Value) : (ofJson v).toJson.str? = v.str? := by
  cases v with
  | null | bool _ | num _ | str _ => rfl
  | arr vs =>
    obtain ⟨vs', h⟩ := toJson_ofJson_arr vs
    rw [h]; rfl
  | obj ms =>
    obtain ⟨ms', h⟩ := toJson_ofJson_obj ms
    rw [h]; rfl

/-- And `false` for `false` only. -/
theorem PropExpr.toJson_ofJson_eq_bool (v : Value) (b : Bool) :
    (ofJson v).toJson = .bool b ↔ v = .bool b := by
  cases v with
  | null | bool _ | num _ | str _ => exact Iff.rfl
  | arr vs =>
    obtain ⟨vs', h⟩ := toJson_ofJson_arr vs
    rw [h]; simp
  | obj ms =>
    obtain ⟨ms', h⟩ := toJson_ofJson_obj ms
    rw [h]; simp

/-- **The members of an object still pass for the same binding when they were read and printed**,
and for none if they did not before. -/
theorem isBinding_membersToJson_ofMembers (ms : List (String × Value)) :
    isBinding (PropExpr.membersToJson (PropExpr.ofMembers ms)) = isBinding ms := by
  have hlookup : ∀ key, (PropExpr.membersToJson (PropExpr.ofMembers ms)).lookup key
      = (ms.lookup key).map fun v => (PropExpr.ofJson v).toJson := by
    intro key
    rw [PropExpr.lookup_membersToJson, PropExpr.lookup_ofMembers, Option.map_map]
    rfl
  have hstring : ∀ key, Value.stringAt? key (PropExpr.membersToJson (PropExpr.ofMembers ms))
      = Value.stringAt? key ms := by
    intro key
    rw [Value.stringAt?, Value.stringAt?, hlookup]
    cases ms.lookup key with
    | none => rfl
    | some v => exact PropExpr.toJson_ofJson_str? v
  have hindex : Reference.namesIndex (PropExpr.membersToJson (PropExpr.ofMembers ms))
      = Reference.namesIndex ms := by
    rw [Reference.namesIndex, Reference.namesIndex, hlookup]
    cases ms.lookup "$index" with
    | none => rfl
    | some v => simp [PropExpr.toJson_ofJson_eq_bool]
  have hcond : KeyMap.contains "$cond" (PropExpr.membersToJson (PropExpr.ofMembers ms))
      = KeyMap.contains "$cond" ms := by
    rw [KeyMap.contains, KeyMap.contains, hlookup, Option.isSome_map]
  rw [isBinding, isBinding, Reference.ofMembers?, Reference.ofMembers?, hcond, hindex]
  simp only [hstring]

/-- An object is no binding if it holds neither a choice nor a reference. -/
theorem isBinding_eq_false_iff (ms : List (String × Value)) :
    isBinding ms = false ↔ ms.lookup "$cond" = none ∧ Reference.ofMembers? ms = none := by
  rw [isBinding, Bool.or_eq_false_iff, KeyMap.contains, Option.isSome_eq_false_iff,
    Option.isSome_eq_false_iff, Option.isNone_iff_eq_none, Option.isNone_iff_eq_none]

/-! ## Literals -/

/-- **A value is read as plain JSON if and only if there is no binding in it.** -/
theorem PropExpr.isLiteral_ofJson (v : Value) : (ofJson v).isLiteral = !containsBinding v := by
  cases v with
  | null | bool _ | num _ | str _ => rfl
  | arr vs =>
    rw [ofJson, containsBinding]
    cases itemsContainBinding vs <;> rfl
  | obj ms =>
    rw [ofJson, containsBinding, isBinding, KeyMap.contains, Visibility.ofMember?_eq_map]
    cases ms.lookup "$cond" with
    | some test => rfl
    | none =>
      cases Reference.ofMembers? ms with
      | some source => rfl
      | none => cases membersContainBinding ms <;> rfl

theorem itemsContainBinding_iff (vs : List Value) :
    itemsContainBinding vs = true ↔ ∃ v ∈ vs, containsBinding v = true := by
  induction vs with
  | nil => simp [itemsContainBinding]
  | cons v vs ih => simp [itemsContainBinding, ih]

theorem membersContainBinding_iff (ms : List (String × Value)) :
    membersContainBinding ms = true ↔ ∃ m ∈ ms, containsBinding m.2 = true := by
  induction ms with
  | nil => simp [membersContainBinding]
  | cons m ms ih => simp [membersContainBinding, ih]

/-! ## Everything that is read is in normal form -/

theorem PropExpr.ofItems_eq_map (vs : List Value) : ofItems vs = vs.map ofJson := by
  induction vs with
  | nil => rfl
  | cons v vs ih => rw [ofItems, ih, List.map_cons]

theorem PropExpr.ofItems_normal {vs : List Value} (h : ∀ v ∈ vs, (ofJson v).Normal) :
    ItemsNormal (ofItems vs) := by
  induction vs with
  | nil => trivial
  | cons v vs ih =>
    exact ⟨h v List.mem_cons_self, ih fun w hw => h w (List.mem_cons_of_mem v hw)⟩

theorem PropExpr.ofMembers_normal {ms : List (String × Value)}
    (h : ∀ m ∈ ms, (ofJson m.2).Normal) : MembersNormal (ofMembers ms) := by
  induction ms with
  | nil => trivial
  | cons m ms ih =>
    exact ⟨h m List.mem_cons_self, ih fun w hw => h w (List.mem_cons_of_mem m hw)⟩

theorem Condition.ofItems_normal {vs : List Value} (h : ∀ v ∈ vs, (ofJson v).Normal) :
    ItemsNormal (ofItems vs) := by
  induction vs with
  | nil => trivial
  | cons v vs ih =>
    exact ⟨h v List.mem_cons_self, ih fun w hw => h w (List.mem_cons_of_mem v hw)⟩

theorem PropExpr.ofJson_arr_normal {vs : List Value} (h : ∀ v ∈ vs, (ofJson v).Normal) :
    (ofJson (.arr vs)).Normal := by
  rw [ofJson]
  split
  · rename_i hinside
    obtain ⟨v, hv, hb⟩ := (itemsContainBinding_iff vs).mp hinside
    have hmem : ofJson v ∈ ofItems vs := ofItems_eq_map vs ▸ List.mem_map_of_mem hv
    have hnot : (ofJson v).isLiteral = false := by rw [isLiteral_ofJson, hb]; rfl
    exact ⟨⟨ofJson v, hmem, hnot⟩, ofItems_normal h⟩
  · rename_i hnone
    rw [Normal, containsBinding]
    exact Bool.eq_false_iff.mpr hnone

theorem PropExpr.ofMember?_normal {key : String} {ms : List (String × Value)}
    (h : ∀ m ∈ ms, (ofJson m.2).Normal) : OptionNormal (ofMember? key ms) := by
  rw [ofMember?_eq_map]
  cases hv : ms.lookup key with
  | none => trivial
  | some v => exact h (key, v) (KeyMap.mem_of_lookup hv)

theorem PropExpr.ofJson_obj_normal {ms : List (String × Value)}
    (hprop : ∀ m ∈ ms, (ofJson m.2).Normal)
    (htest : ∀ m ∈ ms, (Visibility.ofJson m.2).Normal) : (ofJson (.obj ms)).Normal := by
  rw [ofJson, Visibility.ofMember?_eq_map]
  cases hcond : ms.lookup "$cond" with
  | some test =>
    exact ⟨htest ("$cond", test) (KeyMap.mem_of_lookup hcond), ofMember?_normal hprop,
      ofMember?_normal hprop⟩
  | none =>
    dsimp only [Option.map]
    cases href : Reference.ofMembers? ms with
    | some source => trivial
    | none =>
      have hobject : isBinding ms = false := (isBinding_eq_false_iff ms).mpr ⟨hcond, href⟩
      dsimp only
      split
      · rename_i hinside
        obtain ⟨m, hm, hb⟩ := (membersContainBinding_iff ms).mp hinside
        have hmem : (m.1, ofJson m.2) ∈ ofMembers ms :=
          ofMembers_eq_map ms ▸ List.mem_map_of_mem (f := fun m => (m.1, ofJson m.2)) hm
        have hnot : (ofJson m.2).isLiteral = false := by rw [isLiteral_ofJson, hb]; rfl
        exact ⟨(isBinding_membersToJson_ofMembers ms).trans hobject, ⟨_, hmem, hnot⟩,
          ofMembers_normal hprop⟩
      · rename_i hnone
        rw [Normal, containsBinding, hobject, Bool.eq_false_iff.mpr hnone]
        rfl

theorem Condition.ofJson_obj_normal {ms : List (String × Value)}
    (h : ∀ m ∈ ms, (PropExpr.ofJson m.2).Normal) : (ofJson (.obj ms)).Normal := by
  have hcomparison : ComparisonNormal (comparisonOf (PropExpr.ofMembers ms)) := by
    cases hc : comparisonOf (PropExpr.ofMembers ms) with
    | none => trivial
    | some c =>
      obtain ⟨op, e⟩ := c
      obtain ⟨op', _, hfound⟩ := List.exists_of_findSome?_eq_some hc
      rw [PropExpr.lookup_ofMembers, Option.map_map, Option.map_eq_some_iff] at hfound
      obtain ⟨v, hv, heq⟩ := hfound
      have he : PropExpr.ofJson v = e := (Prod.mk.inj heq).2
      exact he ▸ h (op'.key, v) (KeyMap.mem_of_lookup hv)
  exact ⟨Or.inl (isNamed_subjectOf ms), hcomparison⟩

/-- A condition on a fixed value that is no object is in normal form. -/
theorem Condition.normal_literal {v : Value} (h : v.obj? = none) :
    Normal ⟨some (.literal v), none, false⟩ :=
  ⟨Or.inr ⟨⟨v, rfl, h⟩, rfl, rfl⟩, trivial⟩

/-- **Everything that is read is in normal form**, be it read as a prop, as a visibility or as a
condition. -/
theorem ofJson_normal (v : Value) :
    (PropExpr.ofJson v).Normal ∧ (Visibility.ofJson v).Normal ∧ (Condition.ofJson v).Normal := by
  induction v using Value.induction_parts with
  | null | bool _ | num _ | str _ =>
    exact ⟨rfl, ⟨Condition.normal_literal rfl, by simp⟩, Condition.normal_literal rfl⟩
  | arr vs ih =>
    exact ⟨PropExpr.ofJson_arr_normal fun v hv => (ih v hv).1,
      Condition.ofItems_normal fun v hv => (ih v hv).2.2, Condition.normal_literal rfl⟩
  | obj ms ih =>
    have hprop : ∀ m ∈ ms, (PropExpr.ofJson m.2).Normal := fun m hm => (ih m hm).1
    have hcondition := Condition.ofJson_obj_normal hprop
    exact ⟨PropExpr.ofJson_obj_normal hprop fun m hm => (ih m hm).2.1,
      ⟨hcondition, fun vs => (Condition.isNamed_subjectOf ms).ne_literal (.arr vs)⟩, hcondition⟩

/-! ## Views -/

/-- What an element says can be told from what it leaves out. -/
structure Element.Normal (e : Element) : Prop where
  /-- Its props are in normal form. -/
  props : PropExpr.MembersNormal e.props
  /-- So is its visibility, which is not printed as if there were none. -/
  visible : ∀ v, e.visible = some v → v.Normal ∧ v.toJson ≠ .null

/-- What a view says can be told from what it leaves out. -/
structure Spec.Normal (s : Spec) : Prop where
  elements : ∀ m ∈ s.elements, m.2.Normal
  state : s.state ≠ some .null

/-- Only null is read as a visibility that is printed as null. -/
theorem Visibility.toJson_ofJson_ne_null {v : Value} (h : v ≠ .null) :
    (ofJson v).toJson ≠ .null := by
  cases v with
  | null => exact absurd rfl h
  | bool _ | num _ | str _ => simp [ofJson, toJson, Condition.toJson]
  | arr vs => simp [ofJson, toJson]
  | obj ms =>
    rw [ofJson, toJson, Condition.toJson.eq_def]
    split
    · rename_i v heq
      exact absurd (congrArg Condition.subject heq)
        ((Condition.isNamed_subjectOf ms).ne_literal v)
    · simp

theorem Element.ofMembers_normal (ms : List (String × Value)) : (ofMembers ms).Normal where
  props := by
    rw [ofMembers]
    dsimp only
    split
    · exact PropExpr.ofMembers_normal fun m _ => (ofJson_normal m.2).1
    · trivial
  visible := by
    intro v hv
    obtain ⟨w, hw, rfl⟩ := Option.map_eq_some_iff.mp hv
    obtain ⟨u, _, hu⟩ := Option.bind_eq_some_iff.mp hw
    obtain ⟨rfl, hnull⟩ := Value.nonNull?_eq_some hu
    exact ⟨(ofJson_normal w).2.1, Visibility.toJson_ofJson_ne_null hnull⟩

/-- **Whatever the document, the view it describes is in normal form.** -/
theorem Spec.ofDocument_normal (d : Value) : (ofDocument d).Normal := by
  cases d with
  | null | bool _ | num _ | str _ | arr _ => exact ⟨by simp [ofDocument], by simp [ofDocument]⟩
  | obj ms =>
    refine ⟨?_, ?_⟩
    · intro m hm
      rw [ofDocument] at hm
      dsimp only at hm
      split at hm
      · obtain ⟨n, _, hn⟩ := List.mem_filterMap.mp hm
        obtain ⟨e, he, rfl⟩ := Option.map_eq_some_iff.mp hn
        cases hobj : n.2 with
        | obj ms' =>
          rw [hobj] at he
          rw [← Option.some.inj he]
          exact Element.ofMembers_normal ms'
        | null | bool _ | num _ | str _ | arr _ =>
          rw [hobj] at he
          exact absurd he (by simp [Element.ofJson?])
      · exact absurd hm (by simp)
    · intro hstate
      obtain ⟨u, _, hu⟩ := Option.bind_eq_some_iff.mp hstate
      obtain ⟨heq, hnull⟩ := Value.nonNull?_eq_some hu
      exact hnull heq.symm

end ViewStream
