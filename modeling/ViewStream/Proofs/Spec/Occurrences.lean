import ViewStream.Proofs.Spec.NormalForm

/-!
# What occurs in a prop that was read

`PropExpr.Normal` goes through a prop from the outside in. Here the same is said of whatever occurs
in it, however deep: in objects and arrays, in the arms of a choice, and on the right of the
comparisons that its test makes (`occurrences_are_normal`). Of a value, too, the parts at any depth
are named, for plain JSON has none that passes for a binding.

The one fact that carries it is that **what occurs in a prop in normal form is in normal form**
(`PropExpr.Normal.of_occursIn`).
-/

namespace ViewStream

open Json (Value)

/-! ## Parts of a value -/

/-- A value is a part of another one: it is the same, or a part of an item or of a member's
value. -/
inductive Json.Value.PartOf (w : Value) : Value → Prop
  | self : w.PartOf w
  | item {v : Value} {vs : List Value} (mem : v ∈ vs) (part : w.PartOf v) : w.PartOf (.arr vs)
  | member {m : String × Value} {ms : List (String × Value)} (mem : m ∈ ms) (part : w.PartOf m.2) :
      w.PartOf (.obj ms)

/-- **A value has a binding inside if and only if a part of it is one.** -/
theorem containsBinding_iff (v : Value) :
    containsBinding v = true ↔ ∃ ms, (Value.obj ms).PartOf v ∧ isBinding ms = true := by
  induction v using Value.induction_parts with
  | null | bool _ | num _ | str _ =>
    constructor
    · intro h
      exact absurd h (by simp [containsBinding])
    · rintro ⟨ms, ⟨⟩, _⟩
  | arr vs ih =>
    rw [containsBinding, itemsContainBinding_iff]
    constructor
    · rintro ⟨v, hv, hinside⟩
      obtain ⟨ms, hpart, hbinding⟩ := (ih v hv).mp hinside
      exact ⟨ms, .item hv hpart, hbinding⟩
    · rintro ⟨ms, hpart, hbinding⟩
      cases hpart with
      | item hv hpart => exact ⟨_, hv, (ih _ hv).mpr ⟨ms, hpart, hbinding⟩⟩
  | obj ms ih =>
    rw [containsBinding, Bool.or_eq_true, membersContainBinding_iff]
    constructor
    · rintro (hbinding | ⟨m, hm, hinside⟩)
      · exact ⟨ms, .self, hbinding⟩
      · obtain ⟨ms', hpart, hbinding⟩ := (ih m hm).mp hinside
        exact ⟨ms', .member hm hpart, hbinding⟩
    · rintro ⟨ms', hpart, hbinding⟩
      cases hpart with
      | self => exact Or.inl hbinding
      | member hm hpart => exact Or.inr ⟨_, hm, (ih _ hm).mpr ⟨ms', hpart, hbinding⟩⟩

/-! ## Props within a prop -/

/-- The conditions that a visibility is made of. -/
def Visibility.conditions : Visibility → List Condition
  | .one c => [c]
  | .all cs => cs

/-- A prop occurs in another one: it is the same, or occurs in a member, in an item, in an arm of a
choice or on the right of a comparison in its test. What a condition looks at is not counted. -/
inductive PropExpr.OccursIn (e : PropExpr) : PropExpr → Prop
  | self : e.OccursIn e
  | member {p : String × PropExpr} {props : List (String × PropExpr)} (mem : p ∈ props)
      (occurs : e.OccursIn p.2) : e.OccursIn (.object props)
  | item {f : PropExpr} {items : List PropExpr} (mem : f ∈ items) (occurs : e.OccursIn f) :
      e.OccursIn (.array items)
  | whenTrue {test : Visibility} {f : PropExpr} {whenFalse : Option PropExpr}
      (occurs : e.OccursIn f) : e.OccursIn (.cond test (some f) whenFalse)
  | whenFalse {test : Visibility} {whenTrue : Option PropExpr} {f : PropExpr}
      (occurs : e.OccursIn f) : e.OccursIn (.cond test whenTrue (some f))
  | compared {test : Visibility} {whenTrue whenFalse : Option PropExpr} {c : Condition}
      {op : Comparator} {f : PropExpr} (mem : c ∈ test.conditions)
      (comparison : c.comparison = some (op, f)) (occurs : e.OccursIn f) :
      e.OccursIn (.cond test whenTrue whenFalse)

theorem PropExpr.MembersNormal.of_mem {p : String × PropExpr} {props : List (String × PropExpr)}
    (h : MembersNormal props) (hp : p ∈ props) : p.2.Normal := by
  induction hp with
  | head => exact h.1
  | tail _ _ ih => exact ih h.2

theorem PropExpr.ItemsNormal.of_mem {e : PropExpr} {items : List PropExpr} (h : ItemsNormal items)
    (he : e ∈ items) : e.Normal := by
  induction he with
  | head => exact h.1
  | tail _ _ ih => exact ih h.2

theorem Condition.ItemsNormal.of_mem {c : Condition} {cs : List Condition} (h : ItemsNormal cs)
    (hc : c ∈ cs) : c.Normal := by
  induction hc with
  | head => exact h.1
  | tail _ _ ih => exact ih h.2

theorem Visibility.Normal.of_mem_conditions {v : Visibility} {c : Condition} (h : v.Normal)
    (hc : c ∈ v.conditions) : c.Normal := by
  cases v with
  | one d => exact List.mem_singleton.mp hc ▸ h.1
  | all cs => exact Condition.ItemsNormal.of_mem h hc

theorem Condition.Normal.of_comparison {c : Condition} {op : Comparator} {e : PropExpr}
    (h : c.Normal) (hc : c.comparison = some (op, e)) : e.Normal := by
  obtain ⟨subject, comparison, negate⟩ := c
  obtain rfl := hc
  exact h.2

/-- **What occurs in a prop in normal form is in normal form.** -/
theorem PropExpr.Normal.of_occursIn {e f : PropExpr} (h : f.Normal) (he : e.OccursIn f) :
    e.Normal := by
  induction he with
  | self => exact h
  | member mem _ ih => exact ih (h.2.2.of_mem mem)
  | item mem _ ih => exact ih (h.2.of_mem mem)
  | whenTrue _ ih => exact ih h.2.1
  | whenFalse _ ih => exact ih h.2.2
  | compared mem comparison _ ih => exact ih ((h.1.of_mem_conditions mem).of_comparison comparison)

/-! ## Everything that occurs in what was read -/

/-- **Whatever value is read, and wherever one looks in the prop it is read as**: plain JSON has no
part that passes for a binding, an object and an array have a prop in them that is not plain JSON,
and an object is not printed as something that passes for a binding. -/
theorem occurrences_are_normal {v : Value} {e : PropExpr} (h : e.OccursIn (PropExpr.ofJson v)) :
    (∀ w, e = .literal w → ∀ ms, (Value.obj ms).PartOf w → isBinding ms = false)
      ∧ (∀ props, e = .object props → (∃ p ∈ props, p.2.isLiteral = false)
          ∧ ∃ ms, e.toJson = .obj ms ∧ isBinding ms = false)
      ∧ ∀ items, e = .array items → ∃ f ∈ items, f.isLiteral = false := by
  have hnormal : e.Normal := (ofJson_normal v).1.of_occursIn h
  refine ⟨?literal, ?object, ?array⟩
  case literal =>
    rintro w rfl ms hpart
    have hplain : ¬ containsBinding w = true := Bool.eq_false_iff.mp hnormal
    exact Bool.eq_false_iff.mpr fun hb => hplain ((containsBinding_iff w).mpr ⟨ms, hpart, hb⟩)
  case object =>
    rintro props rfl
    exact ⟨hnormal.2.1, PropExpr.membersToJson props, rfl, hnormal.1⟩
  case array =>
    rintro items rfl
    exact hnormal.1

/-- An object on the right of a comparison, in one of the conditions that a choice tests. -/
theorem occurrences_are_normal_in_comparison :
    let right : Value := .obj [("x", .arr [.obj [("$item", .str "t")], .ofNat 1])]
    let v : Value :=
      .obj [("$cond", .arr [.bool true, .obj [("$state", .str "/a"), ("eq", right)]])]
    let e : PropExpr := .object [("x", .array [.ref (.item "t"), .literal (.ofNat 1)])]
    e.OccursIn (PropExpr.ofJson v) ∧ ∃ ms, e.toJson = .obj ms ∧ isBinding ms = false := by
  intro right v e
  have hread : PropExpr.ofJson v
      = .cond (.all [⟨some (.literal (.bool true)), none, false⟩,
          ⟨some (.ref (.state "/a")), some (.eq, e), false⟩]) none none := by decide +kernel
  have hoccurs : e.OccursIn (PropExpr.ofJson v) := by
    rw [hread]
    exact .compared (List.mem_cons_of_mem _ (List.mem_singleton_self _)) rfl .self
  exact ⟨hoccurs, ((occurrences_are_normal hoccurs).2.1 _ rfl).2⟩

end ViewStream
