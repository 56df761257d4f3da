import ViewStream.Proofs.Json.Unambiguous
import ViewStream.Proofs.View.Nesting

/-!
# When keys tell the items of a repeat apart

An item is known by the text of its key field, or by its position if there is nothing in that
field. Texts of both kinds, and of strings as they are, stand side by side, so **different values
in the key field do not make different keys**: the string `"1"`, the number `1` and the second
position have one key between them.

These are the only ways in which keys coincide (`items_told_apart_iff`): a string that spells
another value, and a value that reads as the position of an item without one. All else is told
apart, since no two values have the same text.
-/

namespace ViewStream

open Json (Value Number)

/-! ## The text of a value -/

namespace Json.Value

/-- A string that is the text of a value of another kind. -/
def Spells (v w : Value) : Prop := v = .str w.compact ∧ w.str? = none

theorem Spells.ne {v w : Value} (h : v.Spells w) : v ≠ w := by
  rintro rfl
  have hstr : (Value.str v.compact).str? = none := h.1 ▸ h.2
  exact absurd hstr (by simp)

theorem display_of_str?_eq_none {v : Value} (hnull : v ≠ .null) (h : v.str? = none) :
    String.ofList v.display = v.compact := by
  cases v with
  | null => exact absurd rfl hnull
  | str s => exact absurd h (by simp)
  | bool _ | num _ | arr _ | obj _ => rfl

theorem display_str (s : String) : String.ofList (Value.str s).display = s :=
  String.ofList_toList

/-- **Values are displayed alike if they are the same, or if one spells the other.** -/
theorem display_eq_iff {v w : Value} (hv : v ≠ .null) (hw : w ≠ .null) :
    String.ofList v.display = String.ofList w.display ↔ v = w ∨ v.Spells w ∨ w.Spells v := by
  have hkind : ∀ u : Value, (∃ s, u = .str s) ∨ u.str? = none := by
    intro u
    cases u with
    | str s => exact Or.inl ⟨s, rfl⟩
    | null | bool _ | num _ | arr _ | obj _ => exact Or.inr rfl
  have hsome : ∀ s, (Value.str s).str? ≠ none := fun s => by simp
  rcases hkind v with ⟨s, rfl⟩ | hvs
  · rcases hkind w with ⟨t, rfl⟩ | hws
    · simp [display_str, Spells]
    · have hne : Value.str s ≠ w := by
        rintro rfl
        exact hsome s hws
      rw [display_str, display_of_str?_eq_none hw hws]
      simp [Spells, hne, hws]
  · have hne : ∀ t, v ≠ .str t := by
      rintro t rfl
      exact hsome t hvs
    rcases hkind w with ⟨t, rfl⟩ | hws
    · rw [display_str, display_of_str?_eq_none hv hvs]
      simp [Spells, hne, hvs, eq_comm]
    · have hne' : ∀ t, w ≠ .str t := by
        rintro t rfl
        exact hsome t hws
      rw [display_of_str?_eq_none hv hvs, display_of_str?_eq_none hw hws]
      simp only [Spells, hne, hne', false_and, or_false]
      exact ⟨compact_inj, congrArg compact⟩

/-- A position is the text of a number and nothing else. -/
theorem display_eq_decimal_iff {v : Value} (hv : v ≠ .null) (n : Nat) :
    String.ofList v.display = Text.decimal n ↔ v = .str (Text.decimal n) ∨ v = .ofNat n := by
  have hdecimal : Text.decimal n = String.ofList (ofNat n).display := rfl
  have hcompact : (ofNat n).compact = Text.decimal n := rfl
  rw [hdecimal, display_eq_iff hv (by simp [ofNat]), ← hdecimal]
  simp only [Spells, hcompact]
  simp [ofNat, str?, or_comm]

end Json.Value

namespace Repeat

/-! ## Keys -/

/-- What an item has in the key field, unless it is null. -/
def keyValue? (r : Repeat) (item : Value) : Option Value :=
  (r.key.bind fun field => item.member? field).bind Value.nonNull?

/-- What the items of the array have in their key fields, in order. -/
def keyValues (r : Repeat) (state : Value) : List Value :=
  (r.array state).filterMap r.keyValue?

variable {r : Repeat} {state : Value}

theorem keyValue?_ne_null {item v : Value} (h : r.keyValue? item = some v) : v ≠ .null := by
  obtain ⟨u, _, hu⟩ := Option.bind_eq_some_iff.mp h
  obtain ⟨rfl, hnull⟩ := Value.nonNull?_eq_some hu
  exact hnull

/-- An item is known by what it has in the key field, or else by its position. -/
theorem itemKey_eq (r : Repeat) (n : Nat) (item : Value) : r.itemKey n item
    = ((r.keyValue? item).map fun v => String.ofList v.display).getD (Text.decimal n) := by
  rw [itemKey, keyValue?]
  cases r.key with
  | none => rfl
  | some field =>
    rw [Option.bind_some, Option.bind_some, fieldKey?]
    cases item.member? field with
    | none => rfl
    | some v => cases v <;> rfl

theorem itemKey_of_value {n : Nat} {item v : Value} (h : r.keyValue? item = some v) :
    r.itemKey n item = String.ofList v.display := by
  rw [itemKey_eq, h]
  rfl

theorem itemKey_of_none {n : Nat} {item : Value} (h : r.keyValue? item = none) :
    r.itemKey n item = Text.decimal n := by
  rw [itemKey_eq, h]
  rfl

section Pair

variable {m n : Nat} {a b v w : Value}

theorem itemKey_eq_of_values (ha : r.keyValue? a = some v) (hb : r.keyValue? b = some w) :
    r.itemKey m a = r.itemKey n b ↔ v = w ∨ v.Spells w ∨ w.Spells v := by
  rw [itemKey_of_value ha, itemKey_of_value hb]
  exact Value.display_eq_iff (keyValue?_ne_null ha) (keyValue?_ne_null hb)

theorem itemKey_eq_of_position (ha : r.keyValue? a = some v) (hb : r.keyValue? b = none) :
    r.itemKey m a = r.itemKey n b ↔ v = .str (Text.decimal n) ∨ v = .ofNat n := by
  rw [itemKey_of_value ha, itemKey_of_none hb]
  exact Value.display_eq_decimal_iff (keyValue?_ne_null ha) n

theorem itemKey_eq_of_positions (ha : r.keyValue? a = none) (hb : r.keyValue? b = none) :
    r.itemKey m a = r.itemKey n b ↔ m = n := by
  rw [itemKey_of_none ha, itemKey_of_none hb]
  exact ⟨fun h => Number.toDigits_inj (String.ofList_inj.mp h), congrArg Text.decimal⟩

end Pair

theorem map_key_expand (r : Repeat) (state : Value) :
    (r.expand state).map (·.key) = (r.array state).mapIdx r.itemKey := by
  rw [expand_eq]
  exact List.ext_getElem (by simp) fun n _ _ => by simp [itemAt]

/-- Every value in a key field stands at a position of the array. -/
theorem exists_of_mem_keyValues {v : Value} (h : v ∈ r.keyValues state) :
    ∃ (n : Nat) (item : Value), (r.array state)[n]? = some item ∧ r.keyValue? item = some v := by
  obtain ⟨item, hmem, hv⟩ := List.mem_filterMap.mp h
  obtain ⟨n, hn⟩ := List.mem_iff_getElem?.mp hmem
  exact ⟨n, item, hn, hv⟩

theorem mem_keyValues {n : Nat} {item v : Value} (hn : (r.array state)[n]? = some item)
    (hv : r.keyValue? item = some v) : v ∈ r.keyValues state :=
  List.mem_filterMap.mpr ⟨item, List.mem_of_getElem? hn, hv⟩

/-- What no position has with a later one, none has with another. -/
theorem no_later_iff {α : Type} {S : Nat → α → Nat → α → Prop} {xs : List α}
    (hsymm : ∀ {m a n b}, S m a n b → S n b m a) :
    (∀ (m n : Nat) (hm : m < xs.length) (hn : n < xs.length), m < n → ¬ S m xs[m] n xs[n])
      ↔ ∀ (m n : Nat) (a b : α), xs[m]? = some a → xs[n]? = some b → S m a n b → m = n := by
  constructor
  · intro h m n a b ha hb hS
    obtain ⟨hm, rfl⟩ := List.getElem?_eq_some_iff.mp ha
    obtain ⟨hn, rfl⟩ := List.getElem?_eq_some_iff.mp hb
    rcases Nat.lt_trichotomy m n with hlt | heq | hgt
    · exact absurd hS (h m n hm hn hlt)
    · exact heq
    · exact absurd (hsymm hS) (h n m hn hm hgt)
  · intro h m n hm hn hlt hS
    have heq := h m n _ _ (List.getElem?_eq_getElem hm) (List.getElem?_eq_getElem hn) hS
    exact absurd heq hlt.ne

/-- No two keys are the same: items of one key are one. -/
theorem nodup_keys_iff (r : Repeat) (state : Value) : ((r.expand state).map (·.key)).Nodup
    ↔ ∀ (m n : Nat) (a b : Value), (r.array state)[m]? = some a → (r.array state)[n]? = some b →
        r.itemKey m a = r.itemKey n b → m = n := by
  rw [map_key_expand, List.Nodup, List.pairwise_iff_getElem, ← no_later_iff Eq.symm]
  simp only [List.length_mapIdx, List.getElem_mapIdx, ne_eq]

/-- No two values in the key fields are the same: items of one value are one. -/
theorem nodup_keyValues_iff (r : Repeat) (state : Value) : (r.keyValues state).Nodup
    ↔ ∀ (m n : Nat) (a b : Value), (r.array state)[m]? = some a → (r.array state)[n]? = some b →
        (∃ v, r.keyValue? a = some v ∧ r.keyValue? b = some v) → m = n := by
  rw [keyValues, List.Nodup, List.pairwise_filterMap, List.pairwise_iff_getElem,
    ← no_later_iff fun ⟨v, ha, hb⟩ => ⟨v, hb, ha⟩]
  simp only [not_exists, not_and, ne_eq]
  constructor
  · intro h m n hm hn hlt v ha hb
    exact h m n hm hn hlt v ha v hb rfl
  · rintro h m n hm hn hlt v ha w hb rfl
    exact h m n hm hn hlt v ha hb

end Repeat

/-- **When the keys of a repeat tell its items apart.** Take items whose key fields hold different
values, as far as they hold any. No two of them have one key if and only if no value is a string
that spells another one, and none reads as the position of an item that is known by its
position. -/
theorem items_told_apart_iff (r : Repeat) (state : Value) (hdistinct : (r.keyValues state).Nodup) :
    ((r.expand state).map (·.key)).Nodup
      ↔ (∀ v ∈ r.keyValues state, ∀ w ∈ r.keyValues state, ¬ v.Spells w)
        ∧ ∀ n item, (r.array state)[n]? = some item → r.keyValue? item = none →
            .str (Text.decimal n) ∉ r.keyValues state ∧ .ofNat n ∉ r.keyValues state := by
  rw [Repeat.nodup_keyValues_iff] at hdistinct
  rw [Repeat.nodup_keys_iff]
  constructor
  · intro h
    constructor
    · intro v hv w hw hspells
      obtain ⟨m, a, hm, ha⟩ := Repeat.exists_of_mem_keyValues hv
      obtain ⟨n, b, hn, hb⟩ := Repeat.exists_of_mem_keyValues hw
      obtain rfl :=
        h m n a b hm hn ((Repeat.itemKey_eq_of_values ha hb).mpr (Or.inr (Or.inl hspells)))
      rw [hm] at hn
      rw [Option.some.inj hn, hb] at ha
      exact hspells.ne (Option.some.inj ha).symm
    · intro n item hn hnone
      have hclash : ∀ v ∈ r.keyValues state, ¬ (v = .str (Text.decimal n) ∨ v = .ofNat n) := by
        intro v hv hreads
        obtain ⟨m, a, hm, ha⟩ := Repeat.exists_of_mem_keyValues hv
        obtain rfl := h m n a item hm hn ((Repeat.itemKey_eq_of_position ha hnone).mpr hreads)
        rw [hm] at hn
        rw [Option.some.inj hn, hnone] at ha
        exact absurd ha (by simp)
      exact ⟨fun hv => hclash _ hv (Or.inl rfl), fun hv => hclash _ hv (Or.inr rfl)⟩
  · rintro ⟨hspells, hposition⟩ m n a b hm hn heq
    cases ha : r.keyValue? a with
    | none =>
      cases hb : r.keyValue? b with
      | none => exact (Repeat.itemKey_eq_of_positions ha hb).mp heq
      | some w =>
        have hw := Repeat.mem_keyValues hn hb
        rcases (Repeat.itemKey_eq_of_position hb ha).mp heq.symm with rfl | rfl
        · exact absurd hw (hposition m a hm ha).1
        · exact absurd hw (hposition m a hm ha).2
    | some v =>
      have hv := Repeat.mem_keyValues hm ha
      cases hb : r.keyValue? b with
      | none =>
        rcases (Repeat.itemKey_eq_of_position ha hb).mp heq with rfl | rfl
        · exact absurd hv (hposition n b hn hb).1
        · exact absurd hv (hposition n b hn hb).2
      | some w =>
        have hw := Repeat.mem_keyValues hn hb
        rcases (Repeat.itemKey_eq_of_values ha hb).mp heq with rfl | hvw | hwv
        · exact hdistinct m n a b hm hn ⟨v, ha, hb⟩
        · exact absurd hvw (hspells v hv w hw)
        · exact absurd hwv (hspells w hw v hv)

/-- A string, an object, a number, null and nothing in the key field: all are told apart. -/
theorem items_told_apart_of_every_kind :
    let byId : Repeat := ⟨"/rows", some "id"⟩
    let row (v : Value) : Value := .obj [("id", v)]
    let state : Value := .obj [("rows", .arr
      [row (.str "a"), row (row (.str "a")), .obj [], row .null, row (.ofNat 7), .str "id"])]
    (byId.keyValues state).Nodup
      ∧ (byId.expand state).map (·.key) = ["a", "\x7b\"id\":\"a\"\x7d", "2", "3", "7", "5"]
      ∧ ∀ v ∈ byId.keyValues state, ∀ w ∈ byId.keyValues state, ¬ v.Spells w := by
  intro byId row state
  have hdistinct : (byId.keyValues state).Nodup := by decide +kernel
  have hkeys : (byId.expand state).map (·.key)
      = ["a", "\x7b\"id\":\"a\"\x7d", "2", "3", "7", "5"] := by decide +kernel
  exact ⟨hdistinct, hkeys,
    ((items_told_apart_iff byId state hdistinct).mp (by rw [hkeys]; decide)).1⟩

/-- **Different values in the key fields do not make different keys**: a string is taken for a
number, and a value for the position of an item that has none. -/
theorem different_values_same_key :
    let byId : Repeat := ⟨"/rows", some "id"⟩
    let row (v : Value) : Value := .obj [("id", v)]
    let spelled : Value := .obj [("rows", .arr [row (.str "1"), row (.ofNat 1)])]
    let placed : Value := .obj [("rows", .arr [row (.ofNat 1), .obj []])]
    ((byId.keyValues spelled).Nodup ∧ ¬ ((byId.expand spelled).map (·.key)).Nodup)
      ∧ ((byId.keyValues placed).Nodup ∧ ¬ ((byId.expand placed).map (·.key)).Nodup) := by
  decide +kernel

end ViewStream
