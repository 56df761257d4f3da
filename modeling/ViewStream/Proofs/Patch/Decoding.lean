import ViewStream.Patch.Basic

/-!
# Where the two readers of a patch agree

`ofJson` and `decode?` were written apart: one goes through the members of an object and names the
first defect, the other takes field by field whatever passes for it. All the same `decode?` takes
everything that `ofJson` takes, and everything that is printed. It makes the same patch of it **but
for a value that is null, which it loses** (`decoders_agree_iff`).

Both look up the same three members, so both cases come down to what an object with an operation
and a path is decoded as (`decode?_obj`).
-/

namespace ViewStream

open Json (Value)

theorem Json.Value.lookup_of_stringAt? {k s : String} {ms : List (String × Value)}
    (h : stringAt? k ms = some s) : ms.lookup k = some (.str s) := by
  obtain ⟨v, hv, hs⟩ := Option.bind_eq_some_iff.mp h
  cases v with
  | str t => rw [hv, Option.some.inj hs]
  | null | bool _ | num _ | arr _ | obj _ => exact absurd hs (by simp [str?])

namespace Patch

/-! ## A value that is null -/

/-- The patch without its value if that is null. -/
def withoutNull (p : Patch) : Patch := { p with value := decodeValue p.value }

theorem decodeValue_eq_self_iff (value : Option Value) :
    decodeValue value = value ↔ value ≠ some .null := by
  constructor
  · rintro h rfl
    exact absurd h (by simp [decodeValue])
  · intro h
    rw [decodeValue]
    exact h

theorem withoutNull_eq_self_iff (p : Patch) : p.withoutNull = p ↔ p.value ≠ some .null := by
  rw [← decodeValue_eq_self_iff]
  exact ⟨congrArg Patch.value, fun h => congrArg (Patch.mk p.op p.path) h⟩

/-! ## What each reader makes of an object -/

/-- Members that describe a patch hold its operation, its path and its value. -/
theorem lookup_of_ofMembers {ms : List (String × Value)} {p : Patch} (h : ofMembers ms = .ok p) :
    (∃ name, Op.ofName? name = some p.op ∧ ms.lookup "op" = some (.str name))
      ∧ ms.lookup "path" = some (.str p.path) ∧ ms.lookup "value" = p.value := by
  rw [ofMembers] at h
  cases hname : Value.stringAt? "op" ms with
  | none => simp [hname] at h
  | some name =>
    cases hop : Op.ofName? name with
    | none => simp [hname, hop] at h
    | some op =>
      cases hpath : Value.stringAt? "path" ms with
      | none => simp [hname, hop, hpath] at h
      | some path =>
        simp only [hname, hop, hpath] at h
        split at h
        · exact absurd h (by simp)
        · obtain rfl := Except.ok.inj h
          exact ⟨⟨name, hop, Value.lookup_of_stringAt? hname⟩,
            Value.lookup_of_stringAt? hpath, rfl⟩

/-- An operation and a path are enough, and the value is what is under its key if that is not
null. -/
theorem decode?_obj {ms : List (String × Value)} {name : String} {p : Patch}
    (hop : Op.ofName? name = some p.op) (hname : ms.lookup "op" = some (.str name))
    (hpath : ms.lookup "path" = some (.str p.path)) (hvalue : ms.lookup "value" = p.value) :
    decode? (.obj ms) = some p.withoutNull := by
  have hdecoded : decodeOp? (.str name) = some p.op := hop
  rw [decode?, hname, hpath, hvalue]
  simp only [decodeFields?, hdecoded]
  rfl

/-- **What `ofJson` takes, `decode?` takes too.** -/
theorem decode?_of_ofJson {v : Value} {p : Patch} (h : ofJson v = .ok p) :
    decode? v = some p.withoutNull := by
  cases v with
  | null | bool _ | num _ | str _ | arr _ => exact absurd h (by simp [ofJson])
  | obj ms =>
    obtain ⟨⟨name, hop, hname⟩, hpath, hvalue⟩ := lookup_of_ofMembers h
    exact decode?_obj hop hname hpath hvalue

/-- **Every patch is decoded from its JSON**, complete or not. -/
theorem decode?_toJson (p : Patch) : decode? p.toJson = some p.withoutNull := by
  obtain ⟨op, path, value⟩ := p
  cases value with
  | none => exact decode?_obj (Op.ofName?_name op) rfl rfl rfl
  | some v => exact decode?_obj (Op.ofName?_name op) rfl rfl rfl

/-! ## Agreement -/

/-- **A patch is decoded as it was, from its JSON and from whatever `ofJson` takes for it, if and
only if its value is not null.** A value that is null is lost, and nothing else with it. -/
theorem decoders_agree_iff (p : Patch) :
    (decode? p.toJson = some p.withoutNull ∧ (decode? p.toJson = some p ↔ p.value ≠ some .null))
      ∧ ∀ v : Value, ofJson v = .ok p →
          decode? v = some p.withoutNull ∧ (decode? v = some p ↔ p.value ≠ some .null) := by
  have hsame : ∀ {v : Value}, decode? v = some p.withoutNull →
      (decode? v = some p ↔ p.value ≠ some .null) := by
    intro v h
    rw [h, Option.some_inj, withoutNull_eq_self_iff]
  constructor
  · exact ⟨decode?_toJson p, hsame (decode?_toJson p)⟩
  · intro v h
    exact ⟨decode?_of_ofJson h, hsame (decode?_of_ofJson h)⟩

/-- Members that say nothing about the patch are passed over by both, and null within the value is
kept. -/
theorem decoders_agree_beside_others :
    let v : Value := .obj [("from", .str "/b"), ("op", .str "add"), ("path", .str "/a"),
      ("value", .arr [.null])]
    let p : Patch := ⟨.add, "/a", some (.arr [.null])⟩
    ofJson v = .ok p ∧ p.value ≠ some .null ∧ decode? v = some p := by
  intro v p
  have hread : ofJson v = .ok p := rfl
  have hvalue : p.value ≠ some .null := by decide
  exact ⟨hread, hvalue, ((decoders_agree_iff p).2 v hread).2.mpr hvalue⟩

/-- **A patch that sets null is not the one decoded from its JSON**, while `ofJson` reads it as it
was. -/
theorem decoders_differ_at_null :
    let p : Patch := ⟨.set, "/a", some .null⟩
    decode? p.toJson ≠ some p ∧ ofJson p.toJson = .ok p
      ∧ decode? p.toJson = some ⟨.set, "/a", none⟩ := by
  intro p
  exact ⟨by decide +kernel, rfl, by decide +kernel⟩

end Patch

end ViewStream
