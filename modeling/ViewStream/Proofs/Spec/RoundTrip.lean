import ViewStream.Proofs.Spec.NormalForm

/-!
# A view that is printed and read again

Printing is lossy: a document may hold members that nothing reads, a binding may have keys beside
the one that decided, a reference to the position may be written in any way but `false`. All that
is lost when the document is read. **What is left is printed in a form that reads as itself.**

`NormalForm` has the first half of the argument: whatever is read is in normal form. Here is the
second: what is in normal form is read off its print, by induction on the prop. The danger is that
a printed object is taken for something else, and the three places where it might be are where a
literal, an object and a condition are printed as members; `Normal` is what keeps them apart.
-/

namespace ViewStream

open Json (Value)

/-! ## Fields and members -/

/-- Looking up a field among those that are present. -/
theorem Json.Value.lookup_present {fields : List (String × Option Value)}
    (h : (fields.map Prod.fst).Nodup) (key : String) :
    (present fields).lookup key = (fields.lookup key).join := by
  rw [present]
  induction fields with
  | nil => rfl
  | cons f fields ih =>
    obtain ⟨k, o⟩ := f
    obtain ⟨hk, hrest⟩ := List.nodup_cons.mp h
    have ih := ih hrest
    rw [List.lookup_cons]
    by_cases heq : key = k
    · subst heq
      cases o with
      | some v => simp
      | none =>
        -- the field is absent, and no later one has its key
        have hnot : fields.lookup key = none :=
          KeyMap.lookup_eq_none fun f hf e => hk (List.mem_map.mpr ⟨f, hf, e.symm⟩)
        rw [hnot] at ih
        simpa using ih
    · have hb : (key == k) = false := by simpa using heq
      cases o <;> simp [List.lookup_cons, hb, ih]

/-- Looking up a field of an object that is made from fields in key order. -/
theorem Json.Value.lookup_record {fields : List (String × Option Value)}
    (h : (fields.map Prod.fst).Nodup) (key : String) :
    (KeyMap.ofList (present fields)).lookup key = (fields.lookup key).join := by
  have hkeys : ((present fields).map Prod.fst).Nodup := by
    refine h.sublist ?_
    rw [present]
    clear h
    induction fields with
    | nil => exact List.Sublist.refl _
    | cons f fields ih =>
      obtain ⟨k, o⟩ := f
      cases o with
      | none => exact ih.cons k
      | some v => exact ih.cons_cons k
  rw [KeyMap.lookup_ofList hkeys, lookup_present h]

/-- The members of a printed choice. -/
theorem PropExpr.toJson_cond (test : Visibility) (whenTrue whenFalse : Option PropExpr) :
    ∃ ms, (cond test whenTrue whenFalse).toJson = .obj ms
      ∧ ms.lookup "$cond" = some test.toJson
      ∧ ms.lookup "$then" = optionToJson whenTrue
      ∧ ms.lookup "$else" = optionToJson whenFalse := by
  rw [toJson, Value.ofFields]
  have hkeys : ([("$cond", some test.toJson), ("$else", optionToJson whenFalse),
      ("$then", optionToJson whenTrue)].map Prod.fst).Nodup := by
    show ["$cond", "$else", "$then"].Nodup
    decide
  refine ⟨_, rfl, ?_, ?_, ?_⟩ <;> (rw [Value.lookup_present hkeys]; simp [List.lookup_cons])

/-! ## Bindings in what is printed -/

theorem Reference.containsBinding_toJson (source : Reference) :
    containsBinding source.toJson = true := by
  cases source <;>
    simp [toJson, containsBinding, isBinding, ofMembers?, namesIndex, Value.stringAt?,
      List.lookup_cons]

mutual

/-- A printed prop has a binding in it if and only if it is not plain JSON. -/
theorem PropExpr.containsBinding_toJson : ∀ e : PropExpr, e.Normal →
    containsBinding e.toJson = !e.isLiteral
  | .literal v, h => h
  | .ref source, _ => by
      rw [toJson]
      exact source.containsBinding_toJson
  | .cond test whenTrue whenFalse, _ => by
      obtain ⟨ms, hms, hcond, _⟩ := toJson_cond test whenTrue whenFalse
      rw [hms, containsBinding, isBinding, KeyMap.contains, hcond]
      rfl
  | .object props, ⟨hnot, hsome, hprops⟩ => by
      rw [toJson, containsBinding, hnot, membersContainBinding_toJson props hprops hsome]
      rfl
  | .array items, ⟨hsome, hitems⟩ => by
      rw [toJson, containsBinding, itemsContainBinding_toJson items hitems hsome]
      rfl

theorem PropExpr.membersContainBinding_toJson : ∀ props : List (String × PropExpr),
    MembersNormal props → (∃ p ∈ props, p.2.isLiteral = false) →
    membersContainBinding (membersToJson props) = true
  | [], _, h => absurd h (by simp)
  | (k, e) :: props, ⟨he, hprops⟩, h => by
      rw [membersToJson, membersContainBinding, containsBinding_toJson e he]
      cases hlit : e.isLiteral with
      | false => rfl
      | true =>
        have hrest : ∃ p ∈ props, p.2.isLiteral = false := by simpa [hlit] using h
        rw [membersContainBinding_toJson props hprops hrest]
        rfl

theorem PropExpr.itemsContainBinding_toJson : ∀ items : List PropExpr,
    ItemsNormal items → (∃ e ∈ items, e.isLiteral = false) →
    itemsContainBinding (itemsToJson items) = true
  | [], _, h => absurd h (by simp)
  | e :: items, ⟨he, hitems⟩, h => by
      rw [itemsToJson, itemsContainBinding, containsBinding_toJson e he]
      cases hlit : e.isLiteral with
      | false => rfl
      | true =>
        have hrest : ∃ e ∈ items, e.isLiteral = false := by simpa [hlit] using h
        rw [itemsContainBinding_toJson items hitems hrest]
        rfl

end

/-! ## The clauses of a condition -/

/-- What a condition says beside its subject. -/
def Condition.clauses (comparison : Option (Comparator × PropExpr)) (negate : Bool) :
    List (String × Value) :=
  comparisonToMembers comparison ++ if negate then [("not", .bool true)] else []

/-- A condition is printed as an object, unless it is on a fixed value and says nothing else. -/
theorem Condition.toJson_eq {subject : Option PropExpr}
    {comparison : Option (Comparator × PropExpr)} {negate : Bool}
    (h : ∀ v, subject = some (.literal v) → comparison = none → negate = true) :
    toJson ⟨subject, comparison, negate⟩
      = .obj (subjectToMembers subject ++ clauses comparison negate) := by
  rw [toJson, clauses, List.append_assoc]
  rintro v rfl rfl rfl
  exact absurd (h v rfl rfl) (by decide)

theorem Comparator.key_inj {op op' : Comparator} : op.key = op'.key ↔ op = op' := by
  cases op <;> cases op' <;> decide

theorem Comparator.key_ne_not (op : Comparator) : op.key ≠ "not" := by
  cases op <;> decide

/-- The clauses have no other keys than those of comparators and `not`. -/
theorem Condition.lookup_clauses_of_ne {key : String} (hop : ∀ op : Comparator, key ≠ op.key)
    (hnot : key ≠ "not") (comparison : Option (Comparator × PropExpr)) (negate : Bool) :
    (clauses comparison negate).lookup key = none := by
  refine KeyMap.lookup_eq_none fun m hm => ?_
  rcases List.mem_append.mp hm with hm | hm
  · cases comparison with
    | none => exact absurd hm (by simp [comparisonToMembers])
    | some c =>
      obtain ⟨op, e⟩ := c
      rw [List.mem_singleton.mp hm]
      exact hop op
  · cases negate with
    | false => exact absurd hm (by simp)
    | true =>
      rw [List.mem_singleton.mp hm]
      exact hnot

/-- **The subject is read off the member that names it**, whatever clauses follow. -/
theorem Condition.subjectOf_printed (subject : Option PropExpr)
    (comparison : Option (Comparator × PropExpr)) (negate : Bool) :
    subjectOf (subjectToMembers subject ++ clauses comparison negate) = named subject := by
  have hnone : ∀ key ∈ ["$state", "$item", "$index"],
      (clauses comparison negate).lookup key = none := by
    intro key hkey
    refine lookup_clauses_of_ne ?_ ?_ comparison negate
    · intro op heq
      subst heq
      cases op <;> exact absurd hkey (by decide)
    · intro heq
      subst heq
      exact absurd hkey (by decide)
  fun_cases subjectToMembers subject <;>
    simp [subjectOf, named, Value.stringAt?, Reference.namesIndex, List.lookup_cons, hnone]

/-- A subject is named under one of its own keys. -/
theorem Condition.lookup_subjectToMembers {key : String} (h : key ∉ ["$state", "$item", "$index"])
    (subject : Option PropExpr) : (subjectToMembers subject).lookup key = none := by
  refine KeyMap.lookup_eq_none fun m hm heq => ?_
  have hkeys : m.1 ∈ ["$state", "$item", "$index"] := by
    revert hm
    fun_cases subjectToMembers subject <;> simp +contextual
  exact h (heq ▸ hkeys)

/-- What a comparator finds among the members of a printed condition: the right-hand side that was
printed under its key. -/
theorem Condition.lookup_comparator (subject : Option PropExpr)
    (comparison : Option (Comparator × PropExpr)) (negate : Bool) (op : Comparator) :
    (subjectToMembers subject ++ clauses comparison negate).lookup op.key
      = comparison.bind fun c => if op = c.1 then some c.2.toJson else none := by
  have hsubject : (subjectToMembers subject).lookup op.key = none :=
    lookup_subjectToMembers (by cases op <;> decide) subject
  have hnegate : (if negate then [("not", Value.bool true)] else []).lookup op.key = none := by
    have hne : (op.key == "not") = false := by simpa using op.key_ne_not
    cases negate <;> simp [List.lookup_cons, hne]
  rw [clauses, List.lookup_append, hsubject, List.lookup_append, hnegate]
  cases comparison with
  | none => rfl
  | some c =>
    obtain ⟨op', e⟩ := c
    by_cases heq : op = op'
    · subst heq
      simp [comparisonToMembers]
    · have hb : (op.key == op'.key) = false := by simpa [Comparator.key_inj] using heq
      simp [comparisonToMembers, List.lookup_cons, hb, heq]

/-- **The comparison is read off its clause**, and its right-hand side off the print of that. -/
theorem Condition.comparisonOf_printed (subject : Option PropExpr)
    (comparison : Option (Comparator × PropExpr)) (negate : Bool) :
    comparisonOf (PropExpr.ofMembers (subjectToMembers subject ++ clauses comparison negate))
      = comparison.map fun c => (c.1, PropExpr.ofJson c.2.toJson) := by
  have hfind : ∀ op : Comparator,
      (PropExpr.ofMembers (subjectToMembers subject ++ clauses comparison negate)).lookup op.key
        = comparison.bind fun c =>
          if op = c.1 then some (PropExpr.ofJson c.2.toJson) else none := by
    intro op
    rw [PropExpr.lookup_ofMembers, lookup_comparator]
    cases comparison with
    | none => rfl
    | some c =>
      dsimp only [Option.bind]
      split <;> rfl
  rw [comparisonOf]
  simp only [hfind]
  cases comparison with
  | none => rfl
  | some c =>
    obtain ⟨op, e⟩ := c
    cases op <;> rfl

theorem Condition.lookup_not (subject : Option PropExpr)
    (comparison : Option (Comparator × PropExpr)) (negate : Bool) :
    decide ((subjectToMembers subject ++ clauses comparison negate).lookup "not"
        = some (.bool true))
      = negate := by
  have hsubject : (subjectToMembers subject).lookup "not" = none :=
    lookup_subjectToMembers (by decide) subject
  have hcomparison : (comparisonToMembers comparison).lookup "not" = none := by
    cases comparison with
    | none => rfl
    | some c =>
      obtain ⟨op, e⟩ := c
      cases op <;> rfl
  rw [clauses, List.lookup_append, hsubject, List.lookup_append, hcomparison]
  cases negate <;> rfl

/-- **What is read off a printed condition**, whatever its parts. -/
theorem Condition.ofJson_clauses (subject : Option PropExpr)
    (comparison : Option (Comparator × PropExpr)) (negate : Bool) :
    ofJson (.obj (subjectToMembers subject ++ clauses comparison negate))
      = ⟨(named subject).map .ref,
        comparison.map fun c => (c.1, PropExpr.ofJson c.2.toJson), negate⟩ := by
  rw [ofJson, ofParts, subjectOf_printed, comparisonOf_printed, lookup_not]

/-- A printed condition that names its subject is read as it was, if its right-hand side is. -/
theorem Condition.ofJson_printed {subject : Option PropExpr} (h : IsNamed subject)
    {comparison : Option (Comparator × PropExpr)}
    (hrhs : comparison.map (fun c => (c.1, PropExpr.ofJson c.2.toJson)) = comparison)
    (negate : Bool) :
    ofJson (toJson ⟨subject, comparison, negate⟩) = ⟨subject, comparison, negate⟩ := by
  rw [toJson_eq fun v hv => absurd hv (h.ne_literal v), ofJson_clauses, h, hrhs]

/-! ## What is in normal form is read off its print -/

/-- A value without bindings is read as plain JSON. -/
theorem PropExpr.ofJson_of_plain {v : Value} (h : containsBinding v = false) :
    ofJson v = .literal v := by
  cases v with
  | null | bool _ | num _ | str _ => rfl
  | arr vs =>
    rw [containsBinding] at h
    rw [ofJson, h]
    rfl
  | obj ms =>
    rw [containsBinding, Bool.or_eq_false_iff, isBinding_eq_false_iff] at h
    obtain ⟨⟨hcond, href⟩, hinside⟩ := h
    rw [ofJson, Visibility.ofMember?_eq_map, hcond, href, hinside]
    rfl

theorem Reference.ofJson_toJson (source : Reference) :
    PropExpr.ofJson source.toJson = .ref source := by
  cases source <;> simp [toJson, PropExpr.ofJson, Visibility.ofMember?, ofMembers?, namesIndex,
    Value.stringAt?, List.lookup_cons]

/-- Only an array is read as several conditions. -/
theorem Visibility.ofJson_eq_one {v : Value} (h : ∀ vs, v ≠ .arr vs) :
    ofJson v = .one (Condition.ofJson v) := by
  cases v with
  | arr vs => exact absurd rfl (h vs)
  | null | bool _ | num _ | str _ | obj _ => rfl

/-- A condition is printed as an array only when it is on a fixed array. -/
theorem Condition.toJson_ne_arr {c : Condition}
    (h : ∀ vs, c.subject ≠ some (.literal (.arr vs))) :
    ∀ vs, c.toJson ≠ .arr vs := by
  intro vs
  rw [toJson.eq_def]
  split
  · rename_i v
    exact fun heq => h vs (congrArg (some ∘ PropExpr.literal) heq)
  · simp

theorem Condition.ofJson_literal {v : Value} (h : v.obj? = none) :
    ofJson v = ⟨some (.literal v), none, false⟩ := by
  cases v with
  | obj ms => exact absurd h (by simp [Value.obj?])
  | null | bool _ | num _ | str _ | arr _ => rfl

mutual

/-- **A prop in normal form is read off its print.** -/
theorem PropExpr.ofJson_toJson : ∀ e : PropExpr, e.Normal → PropExpr.ofJson e.toJson = e
  | .literal v, h => by
      rw [PropExpr.toJson]
      exact PropExpr.ofJson_of_plain h
  | .ref source, _ => by
      rw [PropExpr.toJson]
      exact source.ofJson_toJson
  | .cond test whenTrue whenFalse, ⟨htest, htrue, hfalse⟩ => by
      obtain ⟨ms, hms, hcond, hthen, helse⟩ := PropExpr.toJson_cond test whenTrue whenFalse
      rw [hms, PropExpr.ofJson, Visibility.ofMember?_eq_map, PropExpr.ofMember?_eq_map,
        PropExpr.ofMember?_eq_map, hcond, hthen, helse,
        PropExpr.map_ofJson_optionToJson whenTrue htrue,
        PropExpr.map_ofJson_optionToJson whenFalse hfalse]
      dsimp only [Option.map]
      rw [Visibility.ofJson_toJson test htest]
  | .object props, ⟨hnot, hsome, hprops⟩ => by
      obtain ⟨hcond, href⟩ := (isBinding_eq_false_iff _).mp hnot
      rw [PropExpr.toJson, PropExpr.ofJson, Visibility.ofMember?_eq_map, hcond, href,
        PropExpr.membersContainBinding_toJson props hprops hsome,
        PropExpr.ofMembers_membersToJson props hprops]
      rfl
  | .array items, ⟨hsome, hitems⟩ => by
      rw [PropExpr.toJson, PropExpr.ofJson,
        PropExpr.itemsContainBinding_toJson items hitems hsome,
        PropExpr.ofItems_itemsToJson items hitems]
      rfl

theorem PropExpr.map_ofJson_optionToJson : ∀ e : Option PropExpr, PropExpr.OptionNormal e →
    (PropExpr.optionToJson e).map PropExpr.ofJson = e
  | none, _ => rfl
  | some e, h => congrArg some (PropExpr.ofJson_toJson e h)

theorem PropExpr.ofMembers_membersToJson : ∀ props : List (String × PropExpr),
    PropExpr.MembersNormal props → PropExpr.ofMembers (PropExpr.membersToJson props) = props
  | [], _ => rfl
  | (k, e) :: props, ⟨he, hprops⟩ => by
      rw [PropExpr.membersToJson, PropExpr.ofMembers, PropExpr.ofJson_toJson e he,
        PropExpr.ofMembers_membersToJson props hprops]

theorem PropExpr.ofItems_itemsToJson : ∀ items : List PropExpr,
    PropExpr.ItemsNormal items → PropExpr.ofItems (PropExpr.itemsToJson items) = items
  | [], _ => rfl
  | e :: items, ⟨he, hitems⟩ => by
      rw [PropExpr.itemsToJson, PropExpr.ofItems, PropExpr.ofJson_toJson e he,
        PropExpr.ofItems_itemsToJson items hitems]

/-- And so is a visibility, -/
theorem Visibility.ofJson_toJson : ∀ v : Visibility, v.Normal → Visibility.ofJson v.toJson = v
  | .one c, ⟨hc, harr⟩ => by
      rw [Visibility.toJson, Visibility.ofJson_eq_one (Condition.toJson_ne_arr harr),
        Condition.ofJson_toJson c hc]
  | .all cs, h => by
      rw [Visibility.toJson, Visibility.ofJson, Condition.ofItems_itemsToJson cs h]

theorem Condition.ofItems_itemsToJson : ∀ cs : List Condition,
    Condition.ItemsNormal cs → Condition.ofItems (Condition.itemsToJson cs) = cs
  | [], _ => rfl
  | c :: cs, ⟨hc, hcs⟩ => by
      rw [Condition.itemsToJson, Condition.ofItems, Condition.ofJson_toJson c hc,
        Condition.ofItems_itemsToJson cs hcs]

/-- and a condition. -/
theorem Condition.ofJson_toJson : ∀ c : Condition, c.Normal → Condition.ofJson c.toJson = c
  | ⟨subject, comparison, negate⟩, ⟨hsubject, hcomparison⟩ => by
      rcases hsubject with hnamed | ⟨⟨v, hv, hobj⟩, hnone, hnegate⟩
      · exact Condition.ofJson_printed hnamed (Condition.ofJson_rhs comparison hcomparison) negate
      · dsimp only at hv hnone hnegate
        subst hv; subst hnone; subst hnegate
        rw [Condition.toJson]
        exact Condition.ofJson_literal hobj

theorem Condition.ofJson_rhs : ∀ comparison : Option (Comparator × PropExpr),
    Condition.ComparisonNormal comparison →
    comparison.map (fun c => (c.1, PropExpr.ofJson c.2.toJson)) = comparison
  | none, _ => rfl
  | some (op, e), h => congrArg (fun e => some (op, e)) (PropExpr.ofJson_toJson e h)

end

/-! ## Elements and views -/

theorem Repeat.ofJson?_toJson (r : Repeat) : ofJson? r.toJson = some r := by
  have hkeys : (r.fields.map Prod.fst).Nodup := by
    show ["statePath", "key"].Nodup
    decide
  have hkey : (r.key.map Value.str).bind Value.str? = r.key := by
    cases r.key <;> rfl
  rw [toJson, Value.ofRecord, ofJson?]
  simp only [Value.stringAt?, Value.lookup_record hkeys]
  simp [fields, List.lookup_cons, hkey]

theorem Element.ofJson?_toJson {e : Element} (h : e.Normal) : ofJson? e.toJson = some e := by
  have hkeys : ((e.fields Repeat.toJson).map Prod.fst).Nodup := by
    show ["type", "props", "children", "visible", "repeat"].Nodup
    decide
  have hchildren : (e.children.map Value.str).filterMap Value.str? = e.children := by
    rw [List.filterMap_map]
    exact List.filterMap_some
  have hvisible : ((e.visible.map Visibility.toJson).bind Value.nonNull?).map Visibility.ofJson
      = e.visible := by
    cases hv : e.visible with
    | none => rfl
    | some v =>
      obtain ⟨hnormal, hnull⟩ := h.visible v hv
      rw [Option.map_some, Option.bind_some, Value.nonNull?_of_ne hnull, Option.map_some,
        Visibility.ofJson_toJson v hnormal]
  have hrepeat : (e.repeated.map Repeat.toJson).bind Repeat.ofJson? = e.repeated := by
    cases e.repeated with
    | none => rfl
    | some r => exact r.ofJson?_toJson
  rw [toJson, Value.ofRecord, ofJson?, ofMembers]
  simp only [Value.stringAt?, Value.lookup_record hkeys]
  simp [fields, List.lookup_cons, PropExpr.ofMembers_membersToJson e.props h.props,
    hchildren, hvisible, hrepeat]

theorem Spec.elementsOf_printed {elements : KeyMap Element} (h : ∀ m ∈ elements, m.2.Normal) :
    elementsOf (elements.map fun e => (e.1, e.2.toJson)) = elements := by
  induction elements with
  | nil => rfl
  | cons m elements ih =>
    have hm := Element.ofJson?_toJson (h m List.mem_cons_self)
    have hrest := ih fun n hn => h n (List.mem_cons_of_mem m hn)
    rw [elementsOf] at hrest ⊢
    rw [List.map_cons, List.filterMap_cons, hm]
    exact congrArg (m :: ·) hrest

/-- **A view in normal form is read off its print.** -/
theorem Spec.ofDocument_toDocument {s : Spec} (h : s.Normal) : ofDocument s.toDocument = s := by
  have hkeys : ((s.fields Element.toJson).map Prod.fst).Nodup := by
    show ["root", "elements", "state"].Nodup
    decide
  have hstate : s.state.bind Value.nonNull? = s.state := by
    cases hs : s.state with
    | none => rfl
    | some v => exact Value.nonNull?_of_ne fun hnull => h.state (hnull ▸ hs)
  rw [toDocument, Value.ofRecord, ofDocument]
  simp only [Value.stringAt?, Value.lookup_record hkeys]
  simp [fields, List.lookup_cons, elementsOf_printed h.elements, hstate]

/--
**Printing a view and reading it again changes nothing**, whatever the document was that it was
read from: no prop, choice, visibility, condition, right-hand side, repeat or state in it, at any
depth.

So what is printed is a document that stays as it is when it is read and printed.
-/
theorem printed_view_is_read_back (d : Value) :
    let s := Spec.ofDocument d
    Spec.ofDocument s.toDocument = s
      ∧ (Spec.ofDocument s.toDocument).toDocument = s.toDocument := by
  intro s
  have hread : Spec.ofDocument s.toDocument = s :=
    Spec.ofDocument_toDocument (Spec.ofDocument_normal d)
  exact ⟨hread, congrArg Spec.toDocument hread⟩

end ViewStream
