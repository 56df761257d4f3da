import ViewStream.Proofs.View.Outline

/-!
# In whose scope an element is shown

What an element shows depends on the repeat item around it, and a walk keeps that item in the
context it passes down, out of sight of the visitor. All a visitor is told are the items that begin
and end.

**That is enough**: in the events of a walk every element is shown in the scope of the item that
was entered last and is still open, and outside all items if none is (`walk_enter`). So what is
true of an element in its scope can be said of the events alone.
-/

namespace ViewStream

open Json (Value)

/-- The context inside open items, of which the innermost comes first. -/
def Context.inside (state : Value) (items : List RepeatItem) : Context :=
  { state, scope := items.head?.map RepeatItem.toScope }

/-- `el` is an element of the spec, as it is shown inside open items. -/
def ShownElement.Inside (spec : Spec) (state : Value) (items : List RepeatItem)
    (el : ShownElement) : Prop :=
  ∃ e, spec.element? el.key = some e ∧ el = e.shown el.key el.depth (.inside state items)

/-- The item is one of a repeat in this state. -/
def RepeatItem.Of (state : Value) (i : RepeatItem) : Prop := ∃ r : Repeat, i ∈ r.expand state

namespace Event

/-! ## Events and the items they leave open -/

/-- The items that are open after events, innermost first, if `items` were open before. -/
def openItems : (items : List RepeatItem) → List Event → List RepeatItem
  | items, [] => items
  | items, .enterItem i :: es => openItems (i :: items) es
  | items, .leaveItem _ :: es => openItems items.tail es
  | items, .enter _ :: es => openItems items es
  | items, .leave _ :: es => openItems items es

/-- Each element is shown inside the items that are open when it is entered, and each item is one
of the state. -/
def Scoped (spec : Spec) (state : Value) : (items : List RepeatItem) → List Event → Prop
  | _, [] => True
  | items, .enter el :: es => el.Inside spec state items ∧ Scoped spec state items es
  | items, .leave _ :: es => Scoped spec state items es
  | items, .enterItem i :: es => i.Of state ∧ Scoped spec state (i :: items) es
  | items, .leaveItem _ :: es => Scoped spec state items.tail es

variable {spec : Spec} {state : Value}

theorem openItems_append (items : List RepeatItem) (es fs : List Event) :
    openItems items (es ++ fs) = openItems (openItems items es) fs := by
  induction es generalizing items with
  | nil => rfl
  | cons e es ih => cases e <;> exact ih _

theorem scoped_append {items : List RepeatItem} {es fs : List Event} :
    Scoped spec state items (es ++ fs)
      ↔ Scoped spec state items es ∧ Scoped spec state (openItems items es) fs := by
  induction es generalizing items with
  | nil => simp [Scoped, openItems]
  | cons e es ih => cases e <;> simp [Scoped, openItems, ih, and_assoc]

/-- All items that are open are items of the state. -/
theorem openItems_of {items : List RepeatItem} {es : List Event}
    (hitems : ∀ i ∈ items, i.Of state) (h : Scoped spec state items es) :
    ∀ i ∈ openItems items es, i.Of state := by
  induction es generalizing items with
  | nil => exact hitems
  | cons e es ih =>
    cases e with
    | enter el => exact ih hitems h.2
    | leave el => exact ih hitems h
    | enterItem i =>
      refine ih ?_ h.2
      intro j hj
      rcases List.mem_cons.mp hj with rfl | hj
      · exact h.1
      · exact hitems j hj
    | leaveItem i => exact ih (fun j hj => hitems j (List.mem_of_mem_tail hj)) h

end Event

open Event Outline

/-! ## What a scribe is told -/

variable {spec : Spec} {state : Value} {answer : List Event → ShownElement → Bool}

/-- Of this outline, seen inside open items, a scribe writes only what is scoped, and it leaves the
same items open. -/
def Outline.Tells (spec : Spec) (state : Value) (answer : List Event → ShownElement → Bool)
    (items : List RepeatItem) (o : Outline) : Prop :=
  ∀ es, ∃ told, tour (.scribe answer) o es = es ++ told ∧ Scoped spec state items told
    ∧ openItems items told = items

theorem tells_all {items : List RepeatItem} {os : List Outline}
    (h : ∀ o ∈ os, o.Tells spec state answer items) (es : List Event) :
    ∃ told, tourAll (.scribe answer) os es = es ++ told ∧ Scoped spec state items told
      ∧ openItems items told = items := by
  induction os generalizing es with
  | nil => exact ⟨[], by rw [tourAll, List.append_nil], trivial, rfl⟩
  | cons o os ih =>
    obtain ⟨told, htour, hscoped, hopen⟩ := h o List.mem_cons_self es
    obtain ⟨told', htour', hscoped', hopen'⟩ :=
      ih (fun p hp => h p (List.mem_cons_of_mem _ hp)) (es ++ told)
    refine ⟨told ++ told', ?_, ?_, ?_⟩
    · rw [tourAll, htour, htour', List.append_assoc]
    · rw [scoped_append, hopen]
      exact ⟨hscoped, hscoped'⟩
    · rw [openItems_append, hopen, hopen']

theorem tells_element {items : List RepeatItem} {shown : ShownElement} {inside : List Outline}
    (hshown : shown.Inside spec state items) (h : ∀ o ∈ inside, o.Tells spec state answer items) :
    (Outline.element shown inside).Tells spec state answer items := by
  intro es
  obtain ⟨told, htour, hscoped, hopen⟩ := tells_all h (es ++ [.enter shown])
  rw [tour, Visitor.scribe]
  dsimp only
  cases answer es shown with
  | false =>
    refine ⟨[.enter shown, .leave shown], by simp, ⟨hshown, trivial⟩, rfl⟩
  | true =>
    refine ⟨[.enter shown] ++ told ++ [.leave shown], ?_, ?_, ?_⟩
    · dsimp only
      rw [← Visitor.scribe, htour]
      simp
    · rw [scoped_append, scoped_append]
      exact ⟨⟨⟨hshown, trivial⟩, hscoped⟩, trivial⟩
    · rw [openItems_append, openItems_append]
      exact hopen

theorem tells_item {items : List RepeatItem} {i : RepeatItem} {inside : List Outline}
    (hi : i.Of state) (h : ∀ o ∈ inside, o.Tells spec state answer (i :: items)) :
    (Outline.item i inside).Tells spec state answer items := by
  intro es
  obtain ⟨told, htour, hscoped, hopen⟩ := tells_all h (es ++ [.enterItem i])
  refine ⟨[.enterItem i] ++ told ++ [.leaveItem i], ?_, ?_, ?_⟩
  · have henter : (Visitor.scribe answer).enterItem es i = es ++ [.enterItem i] := rfl
    have hleave : ∀ es, (Visitor.scribe answer).leaveItem es i = es ++ [.leaveItem i] :=
      fun _ => rfl
    rw [tour, henter, htour, hleave]
    simp
  · rw [scoped_append, scoped_append]
    refine ⟨⟨⟨hi, trivial⟩, hscoped⟩, ?_⟩
    trivial
  · rw [openItems_append, openItems_append]
    show (openItems (i :: items) told).tail = items
    rw [hopen]
    rfl

/-- **What there is to see below a key is told in scope.** -/
theorem outline_tells (room : Nat) (around : List String) (items : List RepeatItem)
    (key : String) :
    ∀ o ∈ spec.outline room around (.inside state items) key, o.Tells spec state answer items := by
  induction room generalizing around items key with
  | zero => simp [Spec.outline]
  | succ room ih =>
    intro o ho
    obtain ⟨n, e, hn, he, rfl⟩ := mem_outline ho
    obtain rfl : room = n := Nat.succ.inj hn
    refine tells_element ⟨e, he, rfl⟩ ?_
    -- the children are seen inside the same items, or inside one more
    intro p hp
    rcases interior_cases hp with ⟨child, _, hp⟩ | ⟨r, i, hi, rfl⟩
    · exact ih (key :: around) items child p hp
    · refine tells_item ⟨r, hi⟩ ?_
      intro q hq
      obtain ⟨child, _, hq⟩ := List.mem_flatMap.mp hq
      exact ih (key :: around) (i :: items) child q hq

/-- **Every element that a walk enters is shown inside the open items**, whatever the visitor
answers. -/
theorem walk_enter {before after : List Event} {el : ShownElement}
    (h : spec.walk (.scribe answer) state [] = before ++ .enter el :: after) :
    el.Inside spec state (openItems [] before) ∧ ∀ i ∈ openItems [] before, i.Of state := by
  have hall : ∀ o ∈ (if spec.root = "" then []
      else spec.outline maxDepth [] { state } spec.root), o.Tells spec state answer [] := by
    split
    · simp
    · exact outline_tells maxDepth [] [] spec.root
  obtain ⟨told, htour, hscoped, _⟩ := tells_all hall []
  rw [walk_eq_tour, htour, List.nil_append] at h
  rw [h, scoped_append] at hscoped
  exact ⟨hscoped.2.1, openItems_of (by simp) hscoped.1⟩

end ViewStream
