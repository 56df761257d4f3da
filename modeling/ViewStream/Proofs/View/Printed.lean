import ViewStream.Proofs.Spec.RoundTrip
import ViewStream.View.Resolve

/-!
# What is printed means the same when it is read again

A prop or a condition that was put together by hand need not be in normal form: an array may hold
nothing but literals, an object as well. It is read back as something else then, as one literal. It
still means the same, as long as its print is not mistaken for something else, which is what
`PropExpr.Legible` asks: `Normal` without the demand that every part that could be plain JSON is.

A condition has two ways to lose its meaning. Its right-hand side may not be legible, or it is on a
fixed value and says more than that value: **there is no member for a fixed value on the wire**, so
that it is read back as a condition that names no subject (`printed_condition_keeps_meaning`).
-/

namespace ViewStream

open Json (Value)

/-! ## Legible props -/

mutual

/-- The print of the prop is not mistaken for anything else: plain JSON has no binding in it, and
no object passes for one. -/
def PropExpr.Legible : PropExpr → Prop
  | .literal v => containsBinding v = false
  | .ref _ => True
  | .cond test whenTrue whenFalse =>
    test.Legible ∧ PropExpr.OptionLegible whenTrue ∧ PropExpr.OptionLegible whenFalse
  | .object props =>
    isBinding (PropExpr.membersToJson props) = false ∧ PropExpr.MembersLegible props
  | .array items => PropExpr.ItemsLegible items

/-- A prop that may be absent is legible. -/
def PropExpr.OptionLegible : Option PropExpr → Prop
  | none => True
  | some e => e.Legible

/-- All named props are legible. -/
def PropExpr.MembersLegible : List (String × PropExpr) → Prop
  | [] => True
  | (_, e) :: props => e.Legible ∧ PropExpr.MembersLegible props

/-- All props of an array are legible. -/
def PropExpr.ItemsLegible : List PropExpr → Prop
  | [] => True
  | e :: items => e.Legible ∧ PropExpr.ItemsLegible items

/-- The conditions are legible, and a single one is not an array that stands for several. -/
def Visibility.Legible : Visibility → Prop
  | .one d => d.Legible ∧ ∀ vs, d.subject ≠ some (.literal (.arr vs))
  | .all ds => Condition.ItemsLegible ds

/-- All conditions are legible. -/
def Condition.ItemsLegible : List Condition → Prop
  | [] => True
  | d :: ds => d.Legible ∧ Condition.ItemsLegible ds

/-- The condition keeps its subject, and the right-hand side of its comparison is legible. -/
def Condition.Legible : Condition → Prop
  | ⟨subject, comparison, negate⟩ =>
    Condition.KeepsSubject ⟨subject, comparison, negate⟩ ∧ Condition.ComparisonLegible comparison

/-- The right-hand side of a comparison is legible. -/
def Condition.ComparisonLegible : Option (Comparator × PropExpr) → Prop
  | none => True
  | some (_, e) => e.Legible

end

mutual

/-- **What is in normal form is legible**, and so everything that was read. -/
theorem PropExpr.Normal.legible : ∀ e : PropExpr, e.Normal → e.Legible
  | .literal _, h => h
  | .ref _, _ => trivial
  | .cond test whenTrue whenFalse, ⟨htest, htrue, hfalse⟩ =>
    ⟨Visibility.Normal.legible test htest, PropExpr.OptionNormal.legible whenTrue htrue,
      PropExpr.OptionNormal.legible whenFalse hfalse⟩
  | .object props, ⟨hnot, _, hprops⟩ => ⟨hnot, PropExpr.MembersNormal.legible props hprops⟩
  | .array items, ⟨_, hitems⟩ => PropExpr.ItemsNormal.legible items hitems

theorem PropExpr.OptionNormal.legible : ∀ e : Option PropExpr,
    PropExpr.OptionNormal e → PropExpr.OptionLegible e
  | none, _ => trivial
  | some e, h => PropExpr.Normal.legible e h

theorem PropExpr.MembersNormal.legible : ∀ props : List (String × PropExpr),
    PropExpr.MembersNormal props → PropExpr.MembersLegible props
  | [], _ => trivial
  | (_, e) :: props, ⟨he, hprops⟩ =>
    ⟨PropExpr.Normal.legible e he, PropExpr.MembersNormal.legible props hprops⟩

theorem PropExpr.ItemsNormal.legible : ∀ items : List PropExpr,
    PropExpr.ItemsNormal items → PropExpr.ItemsLegible items
  | [], _ => trivial
  | e :: items, ⟨he, hitems⟩ =>
    ⟨PropExpr.Normal.legible e he, PropExpr.ItemsNormal.legible items hitems⟩

theorem Visibility.Normal.legible : ∀ v : Visibility, v.Normal → v.Legible
  | .one d, ⟨hd, harr⟩ => ⟨Condition.Normal.legible d hd, harr⟩
  | .all ds, h => Condition.ItemsNormal.legible ds h

theorem Condition.ItemsNormal.legible : ∀ ds : List Condition,
    Condition.ItemsNormal ds → Condition.ItemsLegible ds
  | [], _ => trivial
  | d :: ds, ⟨hd, hds⟩ => ⟨Condition.Normal.legible d hd, Condition.ItemsNormal.legible ds hds⟩

theorem Condition.Normal.legible : ∀ d : Condition, d.Normal → d.Legible
  | ⟨_, comparison, _⟩, ⟨hsubject, hcomparison⟩ =>
    ⟨hsubject, Condition.ComparisonNormal.legible comparison hcomparison⟩

theorem Condition.ComparisonNormal.legible : ∀ comparison : Option (Comparator × PropExpr),
    Condition.ComparisonNormal comparison → Condition.ComparisonLegible comparison
  | none, _ => trivial
  | some (_, e), h => PropExpr.Normal.legible e h

end

variable (c : Context)

/-! ## Containers that are read -/

theorem PropExpr.resolveMembers_plain {ms : List (String × Value)}
    (h : membersContainBinding ms = false) : resolveMembers c (ofMembers ms) = ms := by
  induction ms with
  | nil => rfl
  | cons m ms ih =>
    obtain ⟨k, v⟩ := m
    obtain ⟨hv, hrest⟩ := Bool.or_eq_false_iff.mp h
    rw [ofMembers, resolveMembers, ofJson_of_plain hv, resolve, ih hrest]

theorem PropExpr.resolveItems_plain {vs : List Value} (h : itemsContainBinding vs = false) :
    resolveItems c (ofItems vs) = vs := by
  induction vs with
  | nil => rfl
  | cons v vs ih =>
    obtain ⟨hv, hrest⟩ := Bool.or_eq_false_iff.mp h
    rw [ofItems, resolveItems, ofJson_of_plain hv, resolve, ih hrest, Option.getD_some]

/-- An object that is no binding means what its members mean, whether or not it was kept as plain
JSON. -/
theorem PropExpr.resolve_ofJson_object {ms : List (String × Value)} (h : isBinding ms = false) :
    (ofJson (.obj ms)).resolve c = some (.obj (resolveMembers c (ofMembers ms))) := by
  obtain ⟨hcond, href⟩ := (isBinding_eq_false_iff ms).mp h
  rw [ofJson, Visibility.ofMember?_eq_map, hcond, href]
  cases hinside : membersContainBinding ms with
  | true => rfl
  | false =>
    rw [resolveMembers_plain c hinside]
    rfl

/-- And an array means what its items mean. -/
theorem PropExpr.resolve_ofJson_array (vs : List Value) :
    (ofJson (.arr vs)).resolve c = some (.arr (resolveItems c (ofItems vs))) := by
  rw [ofJson]
  cases hinside : itemsContainBinding vs with
  | true => rfl
  | false =>
    rw [resolveItems_plain c hinside]
    rfl

/-! ## What is legible keeps its meaning -/

/-- What holds of a condition that is read off its clauses, if the right-hand side kept its
meaning. -/
theorem Condition.holds_ofJson_clauses (subject : Option PropExpr)
    {comparison : Option (Comparator × PropExpr)}
    (h : ∀ v, passes c v (comparison.map fun d => (d.1, PropExpr.ofJson d.2.toJson))
      = passes c v comparison) (negate : Bool) :
    (ofJson (.obj (subjectToMembers subject ++ clauses comparison negate))).holds c
      = holds c ⟨(named subject).map .ref, comparison, negate⟩ := by
  rw [ofJson_clauses, holds, holds, h]

/-- So a condition that names its subject keeps its meaning. -/
theorem Condition.holds_printed {subject : Option PropExpr} (hsubject : IsNamed subject)
    {comparison : Option (Comparator × PropExpr)}
    (h : ∀ v, passes c v (comparison.map fun d => (d.1, PropExpr.ofJson d.2.toJson))
      = passes c v comparison) (negate : Bool) :
    (ofJson (toJson ⟨subject, comparison, negate⟩)).holds c
      = holds c ⟨subject, comparison, negate⟩ := by
  rw [toJson_eq fun v hv => absurd hv (hsubject.ne_literal v), holds_ofJson_clauses c subject h,
    hsubject]

mutual

/-- **A legible prop resolves to the same value when it is read off its print.** -/
theorem PropExpr.resolve_ofJson_toJson : ∀ e : PropExpr, e.Legible →
    (PropExpr.ofJson e.toJson).resolve c = e.resolve c
  | .literal v, h => by
      rw [PropExpr.toJson, PropExpr.ofJson_of_plain h]
  | .ref source, _ => by
      rw [PropExpr.toJson, source.ofJson_toJson]
  | .cond test whenTrue whenFalse, ⟨htest, htrue, hfalse⟩ => by
      obtain ⟨ms, hms, hcond, hthen, helse⟩ := PropExpr.toJson_cond test whenTrue whenFalse
      rw [hms, PropExpr.ofJson, Visibility.ofMember?_eq_map, PropExpr.ofMember?_eq_map,
        PropExpr.ofMember?_eq_map, hcond, hthen, helse]
      dsimp only [Option.map_some]
      rw [PropExpr.resolve, PropExpr.resolve, Visibility.holds_ofJson_toJson test htest,
        PropExpr.resolveOption_optionToJson whenTrue htrue,
        PropExpr.resolveOption_optionToJson whenFalse hfalse]
  | .object props, ⟨hnot, hprops⟩ => by
      rw [PropExpr.toJson, PropExpr.resolve_ofJson_object c hnot, PropExpr.resolve,
        PropExpr.resolveMembers_membersToJson props hprops]
  | .array items, h => by
      rw [PropExpr.toJson, PropExpr.resolve_ofJson_array, PropExpr.resolve,
        PropExpr.resolveItems_itemsToJson items h]

theorem PropExpr.resolveOption_optionToJson : ∀ e : Option PropExpr, PropExpr.OptionLegible e →
    PropExpr.resolveOption c ((PropExpr.optionToJson e).map PropExpr.ofJson)
      = PropExpr.resolveOption c e
  | none, _ => rfl
  | some e, h => PropExpr.resolve_ofJson_toJson e h

theorem PropExpr.resolveMembers_membersToJson : ∀ props : List (String × PropExpr),
    PropExpr.MembersLegible props →
    PropExpr.resolveMembers c (PropExpr.ofMembers (PropExpr.membersToJson props))
      = PropExpr.resolveMembers c props
  | [], _ => rfl
  | (k, e) :: props, ⟨he, hprops⟩ => by
      rw [PropExpr.membersToJson, PropExpr.ofMembers, PropExpr.resolveMembers,
        PropExpr.resolve_ofJson_toJson e he, PropExpr.resolveMembers_membersToJson props hprops,
        PropExpr.resolveMembers]

theorem PropExpr.resolveItems_itemsToJson : ∀ items : List PropExpr, PropExpr.ItemsLegible items →
    PropExpr.resolveItems c (PropExpr.ofItems (PropExpr.itemsToJson items))
      = PropExpr.resolveItems c items
  | [], _ => rfl
  | e :: items, ⟨he, hitems⟩ => by
      rw [PropExpr.itemsToJson, PropExpr.ofItems, PropExpr.resolveItems,
        PropExpr.resolve_ofJson_toJson e he, PropExpr.resolveItems_itemsToJson items hitems,
        PropExpr.resolveItems]

/-- And a legible visibility holds if and only if it did. -/
theorem Visibility.holds_ofJson_toJson : ∀ v : Visibility, v.Legible →
    (Visibility.ofJson v.toJson).holds c = v.holds c
  | .one d, ⟨hd, harr⟩ => by
      rw [Visibility.toJson, Visibility.ofJson_eq_one (Condition.toJson_ne_arr harr),
        Visibility.holds, Condition.holds_ofJson_toJson d hd, Visibility.holds]
  | .all ds, h => by
      rw [Visibility.toJson, Visibility.ofJson, Visibility.holds,
        Condition.allHold_itemsToJson ds h, Visibility.holds]

theorem Condition.allHold_itemsToJson : ∀ ds : List Condition, Condition.ItemsLegible ds →
    Condition.allHold c (Condition.ofItems (Condition.itemsToJson ds)) = Condition.allHold c ds
  | [], _ => rfl
  | d :: ds, ⟨hd, hds⟩ => by
      rw [Condition.itemsToJson, Condition.ofItems, Condition.allHold,
        Condition.holds_ofJson_toJson d hd, Condition.allHold_itemsToJson ds hds,
        Condition.allHold]

theorem Condition.holds_ofJson_toJson : ∀ d : Condition, d.Legible →
    (Condition.ofJson d.toJson).holds c = d.holds c
  | ⟨subject, comparison, negate⟩, ⟨hsubject, hcomparison⟩ => by
      rcases hsubject with hnamed | ⟨⟨v, hv, hobj⟩, hnone, hnegate⟩
      · exact Condition.holds_printed c hnamed (Condition.passes_rhs comparison hcomparison) negate
      · dsimp only at hv hnone hnegate
        subst hv; subst hnone; subst hnegate
        rw [Condition.toJson, Condition.ofJson_literal hobj]

theorem Condition.passes_rhs : ∀ comparison : Option (Comparator × PropExpr),
    Condition.ComparisonLegible comparison → ∀ v,
    Condition.passes c v (comparison.map fun d => (d.1, PropExpr.ofJson d.2.toJson))
      = Condition.passes c v comparison
  | none, _, _ => rfl
  | some (op, e), h, v => congrArg (op.holds v) (PropExpr.resolve_ofJson_toJson e h)

end

/-! ## Conditions that are put together -/

/-- A condition that was read from a value or made from a pointer into the state, and then given
comparisons and turned around, in any order. The right-hand sides are legible. -/
inductive Condition.Made : Condition → Prop
  | read (v : Value) : Made (ofJson v)
  | state (path : String) : Made (ofState path)
  | compare {d : Condition} (op : Comparator) {right : PropExpr} :
      Made d → right.Legible → Made (d.compare op right)
  | negated {d : Condition} : Made d → Made d.negated

theorem Condition.Legible.parts {d : Condition} (h : d.Legible) :
    d.KeepsSubject ∧ ComparisonLegible d.comparison := by
  obtain ⟨_, _, _⟩ := d
  exact h

/-- However it was put together, the right-hand side is legible, and the subject has a member that
names it or is a fixed value that is no object. -/
theorem Condition.Made.parts {d : Condition} (h : d.Made) :
    ComparisonLegible d.comparison ∧ (IsNamed d.subject ∨ IsFixed d.subject) := by
  induction h with
  | read v =>
    obtain ⟨hsubject, hcomparison⟩ := (Normal.legible (ofJson v) (ofJson_normal v).2.2).parts
    exact ⟨hcomparison, hsubject.imp id And.left⟩
  | state path => exact ⟨trivial, Or.inl rfl⟩
  | compare op _ hright ih => exact ⟨hright, ih.2⟩
  | negated _ ih => exact ih

/--
**Printing a condition keeps its meaning, unless it is on a fixed value and says anything else.**

Take any condition that was read, or made from a pointer into the state, then given comparisons and
turned around, and read it again off its print. In every context the two hold together if the
condition is on anything but a fixed value, and also if it is on a fixed value as it came. A
condition on a fixed value that was given a comparison or turned around leaves the value out: what
is read holds if and only if the comparison, or its absence, does of undefined.
-/
theorem printed_condition_keeps_meaning {d : Condition} (h : d.Made) :
    ((∀ v, d.subject ≠ some (.literal v)) ∨ (d.comparison = none ∧ d.negate = false) →
        (Condition.ofJson d.toJson).holds c = d.holds c)
      ∧ ∀ v, d.subject = some (.literal v) → d.comparison ≠ none ∨ d.negate = true →
        (Condition.ofJson d.toJson).holds c
          = Condition.holds c ⟨none, d.comparison, d.negate⟩ := by
  obtain ⟨hright, hkept⟩ := h.parts
  have hpasses := Condition.passes_rhs c d.comparison hright
  obtain ⟨subject, comparison, negate⟩ := d
  refine ⟨fun hwhole => ?_, fun v hv hmore => ?_⟩
  · rcases hkept with hnamed | ⟨v, hv, hobj⟩
    · exact Condition.holds_printed c hnamed hpasses negate
    · obtain ⟨hnone, hnegate⟩ := hwhole.resolve_left fun hother => hother v hv
      dsimp only at hv hnone hnegate
      subst hv; subst hnone; subst hnegate
      rw [Condition.toJson, Condition.ofJson_literal hobj]
  · dsimp only at hv hmore
    subst hv
    have hprint : ∀ w, some (PropExpr.literal v) = some (.literal w) → comparison = none →
        negate = true := fun _ _ hnone => hmore.resolve_left (not_not_intro hnone)
    rw [Condition.toJson_eq hprint, Condition.holds_ofJson_clauses c _ hpasses]
    rfl

/-- The right-hand side here is no normal form, and another condition is read; and a condition on a
fixed value that is turned around. -/
theorem printed_condition_keeps_meaning_of_item :
    let c : Context := ⟨.obj [], some ⟨.obj [("x", .arr [.ofNat 1])], 0, "/items/0"⟩⟩
    let d := ((Condition.ofJson (.obj [("$item", .str "x"), ("eq", .ofNat 3)])).compare .neq
      (.array [.literal (.ofNat 1)])).negated
    let fixed := (Condition.ofJson (.bool true)).negated
    d.Made ∧ d.holds c = true ∧ (Condition.ofJson d.toJson).holds c = d.holds c
      ∧ fixed.Made
      ∧ (Condition.ofJson fixed.toJson).holds c = Condition.holds c ⟨none, none, true⟩ := by
  intro c d fixed
  have hright : (PropExpr.array [.literal (.ofNat 1)]).Legible := ⟨rfl, trivial⟩
  have hd : d.Made := .negated (.compare .neq (.read _) hright)
  have hfixed : fixed.Made := .negated (.read _)
  have hitem : ∀ v, d.subject ≠ some (.literal v) :=
    (Condition.isNamed_subjectOf [("$item", .str "x"), ("eq", .ofNat 3)]).ne_literal
  exact ⟨hd, by decide +kernel, (printed_condition_keeps_meaning c hd).1 (.inl hitem), hfixed,
    (printed_condition_keeps_meaning c hfixed).2 (.bool true) rfl (.inr rfl)⟩

/-- A fixed value is left out of what is printed, be the condition turned around or compared, and
plain JSON that was put on the right-hand side by hand is read as the binding that it looks
like. -/
theorem printing_changes_meaning :
    let c : Context := ⟨.obj [], none⟩
    let turned := (Condition.ofJson (.bool true)).negated
    let compared := (Condition.ofJson (.ofNat 3)).compare .eq (.literal (.ofNat 3))
    let lookalike :=
      (Condition.ofState "/a").compare .neq (.literal (.obj [("$state", .str "/a")]))
    (turned.holds c = false ∧ (Condition.ofJson turned.toJson).holds c = true)
      ∧ (compared.holds c = true ∧ (Condition.ofJson compared.toJson).holds c = false)
      ∧ (lookalike.holds c = true ∧ (Condition.ofJson lookalike.toJson).holds c = false) := by
  decide +kernel

end ViewStream
