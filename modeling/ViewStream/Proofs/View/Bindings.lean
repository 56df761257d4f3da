import ViewStream.Proofs.Pointer
import ViewStream.Proofs.View.Scope

/-!
# A binding points at what is shown

An input field shows a prop and writes to the pointer bound to it. The two come from one reference
by different ways: the prop is read through the item that the walk carries, and the pointer is put
together from text, out of the path of the repeat, the position of the item and the field. If they
ever came apart, the field would overwrite what it does not show.

They do not: **the text of an item's pointer leads to that item** (`read?_basePath`), because
writing a pointer and reading it again loses nothing, and so what is bound below the item is what
is read below it (`bindingPath?_read`).

Two conditions stand for what the types of a map and of a list do not say here: a map has each key
once (`Spec.Keyed`), and an array has no more items than there are positions (`Value.Addressable`).
-/

namespace ViewStream

open Json (Value)

/-! ## States and specs -/

namespace Json.Value

mutual

/-- Every item of every array within the value has a position that a segment can name. -/
def Addressable : Value → Prop
  | .arr xs => xs.length ≤ Nat.pow 2 64 ∧ ItemsAddressable xs
  | .obj ms => MembersAddressable ms
  | _ => True

/-- Every item is addressable. -/
def ItemsAddressable : List Value → Prop
  | [] => True
  | x :: xs => x.Addressable ∧ ItemsAddressable xs

/-- Every member's value is addressable. -/
def MembersAddressable : List (String × Value) → Prop
  | [] => True
  | (_, v) :: ms => v.Addressable ∧ MembersAddressable ms

end

theorem addressable_of_getElem? {xs : List Value} (h : ItemsAddressable xs) {i : Nat} {v : Value}
    (hv : xs[i]? = some v) : v.Addressable := by
  induction xs generalizing i with
  | nil => exact absurd hv (by simp)
  | cons x xs ih =>
    cases i with
    | zero =>
      rw [List.getElem?_cons_zero] at hv
      exact Option.some.inj hv ▸ h.1
    | succ i => exact ih h.2 hv

theorem addressable_of_lookup {ms : List (String × Value)} (h : MembersAddressable ms) {k : String}
    {v : Value} (hv : ms.lookup k = some v) : v.Addressable := by
  induction ms with
  | nil => exact absurd hv (by simp)
  | cons m ms ih =>
    obtain ⟨j, w⟩ := m
    rw [List.lookup_cons] at hv
    cases hk : k == j with
    | true => rw [hk] at hv; exact Option.some.inj hv ▸ h.1
    | false => rw [hk] at hv; exact ih h.2 hv

/-- What a pointer leads to within an addressable value is addressable. -/
theorem addressable_of_follow? {segments : List String} {v w : Value} (h : v.Addressable)
    (hw : Pointer.follow? segments v = some w) : w.Addressable := by
  induction segments generalizing v with
  | nil => exact Option.some.inj hw ▸ h
  | cons s rest ih =>
    rw [Pointer.follow?] at hw
    obtain ⟨child, hc, hrest⟩ := Option.bind_eq_some_iff.mp hw
    refine ih ?_ hrest
    cases v with
    | obj ms => exact addressable_of_lookup h hc
    | arr xs =>
      obtain ⟨i, _, hi⟩ := Option.bind_eq_some_iff.mp hc
      exact addressable_of_getElem? h.2 hi
    | null | bool _ | num _ | str _ => exact absurd hc (by simp [Pointer.child?])

end Json.Value

/-- The props of every element have each name once. -/
def Spec.Keyed (spec : Spec) : Prop :=
  ∀ m ∈ spec.elements, (m.2.props.map Prod.fst).Nodup

theorem Spec.Keyed.element {spec : Spec} (h : spec.Keyed) {key : String} {e : Element}
    (he : spec.element? key = some e) : (e.props.map Prod.fst).Nodup := by
  obtain ⟨front, back, hsplit, _⟩ := List.lookup_eq_some_iff.mp he
  exact h (key, e) (by rw [hsplit]; simp)

/-! ## The pointer to an item -/

/-- **The pointer of a repeat item leads to the item.** -/
theorem read?_basePath {state : Value} (h : state.Addressable) {i : RepeatItem}
    (hi : i.Of state) : Pointer.read? i.basePath state = some i.item := by
  obtain ⟨r, hi⟩ := hi
  unfold Repeat.expand at hi
  split at hi
  · rename_i xs hxs
    obtain ⟨n, hn, rfl⟩ := List.mem_mapIdx.mp hi
    have hlen : xs.length ≤ Nat.pow 2 64 := (Value.addressable_of_follow? h hxs).1
    have hindex : Pointer.index? (Text.decimal n) = some n :=
      Pointer.index?_decimal (Nat.lt_of_lt_of_le hn hlen)
    have hpath : Pointer.follow? (Pointer.parse r.statePath).segments state = some (.arr xs) := hxs
    rw [Repeat.itemAt]
    dsimp only
    rw [Pointer.read?_text, Pointer.get?, Pointer.join, Pointer.follow?_append, hpath]
    simp [Pointer.follow?, Pointer.child?, hindex, hn]
  · exact absurd hi (by simp)

/-- A context whose item, if it has one, is where its pointer leads. -/
def Context.Placed (c : Context) : Prop :=
  ∀ s, c.scope = some s → Pointer.read? s.basePath c.state = some s.item

theorem placed_inside {state : Value} (h : state.Addressable) {items : List RepeatItem}
    (hitems : ∀ i ∈ items, i.Of state) : (Context.inside state items).Placed := by
  intro s hs
  cases items with
  | nil => exact absurd hs (by simp [Context.inside])
  | cons i items =>
    rw [← Option.some.inj hs]
    exact read?_basePath h (hitems i List.mem_cons_self)

/-! ## One prop -/

/-- **What is bound is what is read.** -/
theorem bindingPath?_read {c : Context} (hc : c.Placed) {p : PropExpr} {path : String}
    (h : p.bindingPath? c = some path) : Pointer.read? path c.state = p.resolve c := by
  cases p with
  | ref source =>
    rw [PropExpr.resolve]
    cases source with
    | bindState target =>
      rw [← Option.some.inj h, Pointer.read?_text]
      rfl
    | bindItem field =>
      obtain ⟨s, hs, hpath⟩ := Option.map_eq_some_iff.mp h
      have hitem : Pointer.follow? (Pointer.parse s.basePath).segments c.state = some s.item :=
        hc s hs
      -- reading below the pointer of the item goes through the item
      rw [← hpath, Pointer.textBelow, Pointer.read?_text, Pointer.get?, Pointer.follow?_append,
        hitem]
      rw [Reference.read, Context.readItem, hs]
      rfl
    | state _ | item _ | index | template _ =>
      exact absurd h (by simp [PropExpr.bindingPath?, Reference.bindingPath?])
  | literal _ | cond _ _ _ | object _ | array _ =>
    exact absurd h (by simp [PropExpr.bindingPath?])

/-- The props that are bound: those of the state, and inside a repeat those of the item. -/
theorem bindingPath?_isSome (c : Context) (p : PropExpr) :
    (p.bindingPath? c).isSome = true
      ↔ (∃ path, p = .ref (.bindState path))
        ∨ (∃ field, p = .ref (.bindItem field)) ∧ c.scope.isSome = true := by
  cases p with
  | ref source =>
    cases source <;> simp [PropExpr.bindingPath?, Reference.bindingPath?]
  | literal _ | cond _ _ _ | object _ | array _ => simp [PropExpr.bindingPath?]

/-! ## All props of an element -/

theorem lookup_resolveMembers_of_not_mem {c : Context} {props : List (String × PropExpr)}
    {name : String} (h : name ∉ props.map Prod.fst) :
    (PropExpr.resolveMembers c props).lookup name = none := by
  induction props with
  | nil => rfl
  | cons m props ih =>
    obtain ⟨k, e⟩ := m
    simp only [List.map_cons, List.mem_cons, not_or] at h
    rw [PropExpr.resolveMembers]
    split
    · rw [List.lookup_cons, show (name == k) = false by simpa using h.1]
      exact ih h.2
    · exact ih h.2

/-- A resolved prop is found under its name, unless it is undefined. -/
theorem lookup_resolveMembers {c : Context} {props : List (String × PropExpr)}
    (hnames : (props.map Prod.fst).Nodup) {name : String} {p : PropExpr} (hp : (name, p) ∈ props) :
    (PropExpr.resolveMembers c props).lookup name = p.resolve c := by
  induction props with
  | nil => exact absurd hp (by simp)
  | cons m props ih =>
    obtain ⟨k, e⟩ := m
    obtain ⟨hk, hrest⟩ := List.nodup_cons.mp hnames
    rw [PropExpr.resolveMembers]
    rcases List.mem_cons.mp hp with heq | hp
    · obtain ⟨rfl, rfl⟩ := Prod.mk.inj heq
      cases hr : p.resolve c with
      | some v => simp
      | none => exact lookup_resolveMembers_of_not_mem hk
    · have hne : name ≠ k := by
        intro h
        have hmem : name ∈ props.map Prod.fst := List.mem_map_of_mem hp
        exact hk (h ▸ hmem)
      split
      · rw [List.lookup_cons, show (name == k) = false by simpa using hne]
        exact ih hrest hp
      · exact ih hrest hp

namespace Element

/-- An entry of the bindings is that of a prop. -/
theorem mem_bindings {e : Element} {c : Context} {name path : String} :
    (name, path) ∈ e.bindings c ↔ ∃ p, (name, p) ∈ e.props ∧ p.bindingPath? c = some path := by
  simp only [bindings, List.mem_filterMap, Option.map_eq_some_iff, Prod.mk.injEq, Prod.exists]
  constructor
  · rintro ⟨k, p, hp, path', hpath, rfl, rfl⟩
    exact ⟨p, hp, hpath⟩
  · rintro ⟨p, hp, hpath⟩
    exact ⟨name, p, hp, path, hpath, rfl, rfl⟩

theorem bindings_read {e : Element} {c : Context} (hnames : (e.props.map Prod.fst).Nodup)
    (hc : c.Placed) {name path : String} (h : (name, path) ∈ e.bindings c) :
    Pointer.read? path c.state = (PropExpr.resolveMembers c e.props).lookup name := by
  obtain ⟨p, hp, hpath⟩ := mem_bindings.mp h
  rw [lookup_resolveMembers hnames hp]
  exact bindingPath?_read hc hpath

theorem bindings_names {e : Element} {c : Context} {name : String} :
    (∃ path, (name, path) ∈ e.bindings c)
      ↔ (∃ path, (name, .ref (.bindState path)) ∈ e.props)
        ∨ (∃ field, (name, .ref (.bindItem field)) ∈ e.props) ∧ c.scope.isSome = true := by
  simp only [mem_bindings]
  constructor
  · rintro ⟨path, p, hp, hpath⟩
    rcases (bindingPath?_isSome c p).mp (by rw [hpath]; rfl) with
      ⟨path', rfl⟩ | ⟨⟨field, rfl⟩, hscope⟩
    · exact Or.inl ⟨path', hp⟩
    · exact Or.inr ⟨⟨field, hp⟩, hscope⟩
  · intro h
    have hsome : ∃ p, (name, p) ∈ e.props ∧ (p.bindingPath? c).isSome = true := by
      rcases h with ⟨path, hp⟩ | ⟨⟨field, hp⟩, hscope⟩
      · exact ⟨_, hp, (bindingPath?_isSome c _).mpr (Or.inl ⟨path, rfl⟩)⟩
      · exact ⟨_, hp, (bindingPath?_isSome c _).mpr (Or.inr ⟨⟨field, rfl⟩, hscope⟩)⟩
    obtain ⟨p, hp, hs⟩ := hsome
    obtain ⟨path, hpath⟩ := Option.isSome_iff_exists.mp hs
    exact ⟨path, p, hp, hpath⟩

end Element

/--
**Two-way bindings point at what is shown.** Take any spec, any state and any way in which a
visitor may answer, and let the walk from the root enter an element, inside any repeats.

* Each entry of its bindings leads, in the state, to exactly the element's resolved prop of that
  name: to its value, or nowhere if the prop is undefined and left out.
* There is an entry for exactly the props that are bound to the state, and for those that are bound
  to the item where an item is open.
-/
theorem bindings_point_at_props {spec : Spec} {state : Value} (hspec : spec.Keyed)
    (hstate : state.Addressable) {answer : List Event → ShownElement → Bool}
    {before after : List Event} {el : ShownElement}
    (h : spec.walk (.scribe answer) state [] = before ++ .enter el :: after) :
    ∃ e, spec.element? el.key = some e
      ∧ (∀ name path, (name, path) ∈ el.bindings →
          Pointer.read? path state = el.props.lookup name)
      ∧ ∀ name, (∃ path, (name, path) ∈ el.bindings)
          ↔ (∃ path, (name, .ref (.bindState path)) ∈ e.props)
            ∨ (∃ field, (name, .ref (.bindItem field)) ∈ e.props)
              ∧ Event.openItems [] before ≠ [] := by
  obtain ⟨⟨e, he, hshown⟩, hitems⟩ := walk_enter h
  have hplaced := placed_inside hstate hitems
  have hscope : (Context.inside state (Event.openItems [] before)).scope.isSome = true
      ↔ Event.openItems [] before ≠ [] := by
    cases Event.openItems [] before <;> simp [Context.inside]
  refine ⟨e, he, ?_, ?_⟩
  · intro name path hmem
    rw [hshown] at hmem ⊢
    exact Element.bindings_read (hspec.element he) hplaced hmem
  · intro name
    rw [hshown, ← hscope]
    exact Element.bindings_names

/-- A row inside a repeat over an array whose name has a tilde, bound to a field of a field. -/
theorem bindings_point_at_props_in_row :
    let row : Element := {
      type := "Row"
      props := [("done", .ref (.bindItem "a/b")), ("name", .ref (.bindState "n"))] }
    let list : Element := {
      type := "List"
      children := ["row"]
      repeated := some ⟨"to~do", none⟩ }
    let spec : Spec := { root := "list", elements := [("list", list), ("row", row)] }
    let state := Value.obj [("to~do", .arr [.null, .obj [("a", .obj [("b", .bool true)])]])]
    let events := spec.walk (.scribe fun _ _ => true) state []
    let el : ShownElement := {
      key := "row"
      type := "Row"
      props := [("done", .bool true)]
      bindings := [("done", "/to~0do/1/a/b"), ("name", "/n")]
      depth := 1 }
    spec.Keyed ∧ state.Addressable
      ∧ events = events.take 6 ++ .enter el :: events.drop 7
      ∧ Pointer.read? "/to~0do/1/a/b" state = some (.bool true)
      ∧ Pointer.read? "/n" state = none
      ∧ Event.openItems [] (events.take 6) ≠ [] := by
  intro row list spec state events el
  have hspec : spec.Keyed := by unfold Spec.Keyed; decide
  have hstate : state.Addressable := by
    simp [state, Value.Addressable, Value.MembersAddressable, Value.ItemsAddressable]
  have hevents : events = events.take 6 ++ .enter el :: events.drop 7 := by decide +kernel
  obtain ⟨e, he, hread, hnames⟩ := bindings_point_at_props hspec hstate hevents
  have hrow : spec.element? el.key = some row := rfl
  obtain rfl : row = e := Option.some.inj (hrow.symm.trans he)
  have hdone : ("done", "/to~0do/1/a/b") ∈ el.bindings := by simp [el]
  have hname : ("name", "/n") ∈ el.bindings := by simp [el]
  refine ⟨hspec, hstate, hevents, hread _ _ hdone, hread _ _ hname, ?_⟩
  rcases (hnames "done").mp ⟨_, hdone⟩ with ⟨path, hstateBound⟩ | ⟨_, hopen⟩
  · exact absurd hstateBound (by simp [row])
  · exact hopen

end ViewStream
