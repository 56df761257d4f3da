import ViewStream.View.Event

/-!
# What there is to see

A walk mixes two things: what there is to see in a state, which is a matter of the spec alone, and
what a visitor makes of it, which is threaded through the recursion as its state. Here they are
taken apart.

* `Spec.outline` is **what there is to see below a key**, as a tree: elements that are shown, and
  items of repeats. No visitor occurs in it.
* `Outline.tour` takes a visitor through a tree.

`visitWithin_eq_tour` puts them together again, and after that nobody unfolds a walk.

The visitor through whose eyes walks are looked at is the scribe. It writes down what it is told,
and goes on or not as it likes, given all it has written so far. No visitor can do more than that
(`walk_eq_foldl`).
-/

namespace ViewStream

open Json (Value)

/-- What there is to see: an element or an item, and what there is inside. -/
inductive Outline where
  | element (shown : ShownElement) (inside : List Outline)
  | item (item : RepeatItem) (inside : List Outline)

/-- What there is to see of the element `key`: nothing, or the element with all inside it. -/
def Spec.outline (spec : Spec) :
    (room : Nat) → (around : List String) → Context → (key : String) → List Outline
  | 0, _, _, _ => []
  | room + 1, around, c, key =>
    match spec.element? key with
    | none => []
    | some e =>
      if around.contains key || !e.shows c then []
      else
        let children := fun c => e.children.flatMap (outline spec room (key :: around) c)
        [.element (e.shown key around.length c)
          (match e.repeated with
            | none => children c
            | some r => (r.expand c.state).map fun item =>
                .item item (children (c.withItem item)))]

/-- What there is to see inside an element, with elements `around` it open, itself among them. -/
def Spec.interior (spec : Spec) (room : Nat) (around : List String) (c : Context) (e : Element) :
    List Outline :=
  let children := fun c => e.children.flatMap (spec.outline room around c)
  match e.repeated with
  | none => children c
  | some r => (r.expand c.state).map fun item => .item item (children (c.withItem item))

section

variable {spec : Spec} {room : Nat} {around : List String} {c : Context} {key : String}
  {e : Element} {o : Outline}

theorem outline_hidden (he : spec.element? key = some e) (h : key ∈ around ∨ e.shows c = false) :
    spec.outline (room + 1) around c key = [] := by
  rw [Spec.outline, he]
  dsimp only
  rw [if_pos]
  rcases h with hmem | hhidden
  · simp [hmem]
  · simp [hhidden]

theorem outline_shown (he : spec.element? key = some e)
    (h : ¬ (key ∈ around ∨ e.shows c = false)) :
    spec.outline (room + 1) around c key
      = [.element (e.shown key around.length c) (spec.interior room (key :: around) c e)] := by
  obtain ⟨hmem, hshows⟩ := not_or.mp h
  rw [Spec.outline, he]
  dsimp only
  rw [if_neg (by simp [hmem, hshows])]
  rfl

/-- **All there is to see of a key is its element**, and there is room for it. -/
theorem mem_outline (h : o ∈ spec.outline room around c key) :
    ∃ n e, room = n + 1 ∧ spec.element? key = some e
      ∧ o = .element (e.shown key around.length c) (spec.interior n (key :: around) c e) := by
  cases room with
  | zero => exact absurd h List.not_mem_nil
  | succ n =>
    cases he : spec.element? key with
    | none =>
      rw [Spec.outline, he] at h
      exact absurd h List.not_mem_nil
    | some e =>
      by_cases hguard : key ∈ around ∨ e.shows c = false
      · rw [outline_hidden he hguard] at h
        exact absurd h List.not_mem_nil
      · rw [outline_shown he hguard] at h
        exact ⟨n, e, rfl, rfl, List.mem_singleton.mp h⟩

/-- Inside an element there are its children, or items with its children in them. -/
theorem interior_cases (h : o ∈ spec.interior room around c e) :
    (∃ child ∈ e.children, o ∈ spec.outline room around c child)
      ∨ ∃ r i, i ∈ Repeat.expand r c.state
        ∧ o = .item i (e.children.flatMap (spec.outline room around (c.withItem i))) := by
  rw [Spec.interior] at h
  cases hr : e.repeated with
  | none =>
    rw [hr] at h
    exact Or.inl (List.mem_flatMap.mp h)
  | some r =>
    rw [hr] at h
    obtain ⟨i, hi, rfl⟩ := List.mem_map.mp h
    exact Or.inr ⟨r, i, hi, rfl⟩

end

namespace Outline

variable {σ : Type}

mutual

/-- Take a visitor through an outline. -/
def tour (v : Visitor σ) : Outline → σ → σ
  | .element shown inside, s =>
    match v.enter s shown with
    | (false, s) => v.leave s shown
    | (true, s) => v.leave (tourAll v inside s) shown
  | .item i inside, s => v.leaveItem (tourAll v inside (v.enterItem s i)) i

/-- Take a visitor through outlines in order. -/
def tourAll (v : Visitor σ) : List Outline → σ → σ
  | [], s => s
  | o :: os, s => tourAll v os (tour v o s)

end

theorem tourAll_append (v : Visitor σ) (os ps : List Outline) (s : σ) :
    tourAll v (os ++ ps) s = tourAll v ps (tourAll v os s) := by
  induction os generalizing s with
  | nil => rfl
  | cons o os ih => exact ih (tour v o s)

theorem tourAll_flatMap {α : Type} (v : Visitor σ) (f : α → List Outline) (xs : List α) (s : σ) :
    tourAll v (xs.flatMap f) s = xs.foldl (fun s x => tourAll v (f x) s) s := by
  induction xs generalizing s with
  | nil => rfl
  | cons x xs ih => rw [List.flatMap_cons, tourAll_append, ih, List.foldl_cons]

theorem tourAll_map {α : Type} (v : Visitor σ) (f : α → Outline) (xs : List α) (s : σ) :
    tourAll v (xs.map f) s = xs.foldl (fun s x => tour v (f x) s) s := by
  induction xs generalizing s with
  | nil => rfl
  | cons x xs ih => rw [List.map_cons, tourAll, ih, List.foldl_cons]

end Outline

open Outline

variable {σ : Type}

/-- **A walk is a tour of what there is to see.** -/
theorem visitWithin_eq_tour (spec : Spec) (v : Visitor σ) (room : Nat) (around : List String)
    (c : Context) (key : String) (s : σ) :
    spec.visitWithin v room around c key s = tourAll v (spec.outline room around c key) s := by
  induction room generalizing around c key s with
  | zero => rfl
  | succ room ih =>
    have hchildren : ∀ (e : Element) (c : Context) (s : σ),
        e.children.foldl (fun s child => spec.visitWithin v room (key :: around) c child s) s
          = tourAll v (e.children.flatMap (spec.outline room (key :: around) c)) s := by
      intro e c s
      rw [tourAll_flatMap]
      congr 1
      funext s child
      exact ih (key :: around) c child s
    rw [Spec.visitWithin, Spec.outline]
    cases spec.element? key with
    | none => rfl
    | some e =>
      dsimp only
      split
      · rfl
      · rw [tourAll, tourAll, tour]
        rcases v.enter s (e.shown key around.length c) with ⟨_ | _, s'⟩
        · rfl
        · dsimp only
          cases e.repeated with
          | none =>
            dsimp only
            rw [hchildren]
          | some r =>
            dsimp only
            rw [tourAll_map]
            simp only [hchildren, tour]

theorem visit_eq_tour (spec : Spec) (v : Visitor σ) (c : Context) (key : String) (s : σ) :
    spec.visit v c key s = tourAll v (spec.outline maxDepth [] c key) s :=
  visitWithin_eq_tour spec v maxDepth [] c key s

/-- A walk from the root is a tour, too. -/
theorem walk_eq_tour (spec : Spec) (v : Visitor σ) (state : Value) (s : σ) :
    spec.walk v state s
      = tourAll v
          (if spec.root = "" then [] else spec.outline maxDepth [] { state } spec.root) s := by
  unfold Spec.walk
  split
  · rfl
  · exact visit_eq_tour spec v { state } spec.root s

/-! ## The scribe -/

/-- The visitor that writes down all it is told, and answers by what it has written. -/
def Visitor.scribe (answer : List Event → ShownElement → Bool) : Visitor (List Event) where
  enter es e := (answer es e, es ++ [.enter e])
  leave es e := es ++ [.leave e]
  enterItem es i := es ++ [.enterItem i]
  leaveItem es i := es ++ [.leaveItem i]

namespace Visitor

/-- What a visitor makes of one event. -/
def hear (v : Visitor σ) (s : σ) : Event → σ
  | .enter e => (v.enter s e).2
  | .leave e => v.leave s e
  | .enterItem i => v.enterItem s i
  | .leaveItem i => v.leaveItem s i

/-- The answer that a visitor gives when it has heard these events. -/
def answerAfter (v : Visitor σ) (s : σ) (es : List Event) (e : ShownElement) : Bool :=
  (v.enter (es.foldl v.hear s) e).1

end Visitor

theorem Visitor.foldl_hear (v : Visitor σ) (s : σ) (es : List Event) (e : Event) :
    (es ++ [e]).foldl v.hear s = v.hear (es.foldl v.hear s) e := by
  rw [List.foldl_append, List.foldl_cons, List.foldl_nil]

mutual

theorem Outline.tour_eq_foldl (v : Visitor σ) (s : σ) : ∀ (o : Outline) (es : List Event),
    tour v o (es.foldl v.hear s) = (tour (.scribe (v.answerAfter s)) o es).foldl v.hear s
  | .element shown inside, es => by
      have ih := tourAll_eq_foldl v s inside (es ++ [Event.enter shown])
      have henter : v.enter (es.foldl v.hear s) shown
          = (v.answerAfter s es shown, (es ++ [Event.enter shown]).foldl v.hear s) := by
        rw [v.foldl_hear]
        rfl
      have hscribe : (Visitor.scribe (v.answerAfter s)).enter es shown
          = (v.answerAfter s es shown, es ++ [.enter shown]) := rfl
      rw [tour, tour, henter, hscribe]
      cases v.answerAfter s es shown with
      | false => exact (v.foldl_hear s _ (.leave shown)).symm
      | true =>
        dsimp only
        rw [ih]
        exact (v.foldl_hear s _ (.leave shown)).symm
  | .item i inside, es => by
      have ih := tourAll_eq_foldl v s inside (es ++ [Event.enterItem i])
      rw [v.foldl_hear] at ih
      rw [tour, tour]
      exact (congrArg (v.leaveItem · i) ih).trans (v.foldl_hear s _ (.leaveItem i)).symm

theorem Outline.tourAll_eq_foldl (v : Visitor σ) (s : σ) : ∀ (os : List Outline) (es : List Event),
    tourAll v os (es.foldl v.hear s) = (tourAll (.scribe (v.answerAfter s)) os es).foldl v.hear s
  | [], es => rfl
  | o :: os, es => by
      rw [tourAll, tourAll, Outline.tour_eq_foldl v s o es]
      exact Outline.tourAll_eq_foldl v s os _

end

/-- **A visitor ends where the events of its walk take it**, and these are what a scribe writes
that gives the same answers. -/
theorem walk_eq_foldl (spec : Spec) (v : Visitor σ) (state : Value) (s : σ) :
    spec.walk v state s = (spec.walk (.scribe (v.answerAfter s)) state []).foldl v.hear s := by
  rw [walk_eq_tour, walk_eq_tour]
  exact Outline.tourAll_eq_foldl v s _ []

theorem visit_eq_foldl (spec : Spec) (v : Visitor σ) (c : Context) (key : String) (s : σ) :
    spec.visit v c key s = (spec.visit (.scribe (v.answerAfter s)) c key []).foldl v.hear s := by
  rw [visit_eq_tour, visit_eq_tour]
  exact Outline.tourAll_eq_foldl v s _ []

/-! ## Visitors that go everywhere -/

/-- The visitor goes further down from every element. -/
def Visitor.Descends (v : Visitor σ) : Prop := ∀ s e, (v.enter s e).1 = true

namespace Outline

mutual

/-- What is told of an outline when nothing in it is passed over. -/
def account : Outline → List Event
  | .element shown inside => .enter shown :: (accountAll inside ++ [.leave shown])
  | .item i inside => .enterItem i :: (accountAll inside ++ [.leaveItem i])

/-- What is told of outlines in order. -/
def accountAll : List Outline → List Event
  | [] => []
  | o :: os => account o ++ accountAll os

end

theorem accountAll_append (os ps : List Outline) :
    accountAll (os ++ ps) = accountAll os ++ accountAll ps := by
  induction os with
  | nil => rfl
  | cons o os ih => rw [List.cons_append, accountAll, accountAll, ih, List.append_assoc]

theorem accountAll_flatMap {α : Type} (f : α → List Outline) (xs : List α) :
    accountAll (xs.flatMap f) = xs.flatMap fun x => accountAll (f x) := by
  induction xs with
  | nil => rfl
  | cons x xs ih => rw [List.flatMap_cons, accountAll_append, ih, List.flatMap_cons]

theorem accountAll_map {α : Type} (f : α → Outline) (xs : List α) :
    accountAll (xs.map f) = xs.flatMap fun x => account (f x) := by
  induction xs with
  | nil => rfl
  | cons x xs ih => rw [List.map_cons, accountAll, ih, List.flatMap_cons]

mutual

theorem tour_eq_account {v : Visitor σ} (hv : v.Descends) : ∀ (o : Outline) (s : σ),
    tour v o s = (account o).foldl v.hear s
  | .element shown inside, s => by
      have ih := tourAll_eq_account hv inside (v.enter s shown).2
      have henter : v.enter s shown = (true, (v.enter s shown).2) := Prod.ext (hv s shown) rfl
      rw [tour, henter]
      dsimp only
      rw [ih, account, List.foldl_cons, List.foldl_append]
      rfl
  | .item i inside, s => by
      rw [tour, tourAll_eq_account hv inside, account, List.foldl_cons, List.foldl_append]
      rfl

theorem tourAll_eq_account {v : Visitor σ} (hv : v.Descends) : ∀ (os : List Outline) (s : σ),
    tourAll v os s = (accountAll os).foldl v.hear s
  | [], s => rfl
  | o :: os, s => by
      rw [tourAll, tour_eq_account hv o, tourAll_eq_account hv os, accountAll, List.foldl_append]

end

end Outline

/-- What there is to see from the root. -/
def Spec.scene (spec : Spec) (state : Value) : List Outline :=
  if spec.root = "" then [] else spec.outline maxDepth [] { state } spec.root

/-- **A visitor that goes everywhere is given a full account of what there is to see.** -/
theorem walk_eq_account {v : Visitor σ} (hv : v.Descends) (spec : Spec) (state : Value) (s : σ) :
    spec.walk v state s = (accountAll (spec.scene state)).foldl v.hear s := by
  rw [walk_eq_tour]
  exact tourAll_eq_account hv (spec.scene state) s

theorem Visitor.foldl_hear_scribe (answer : List Event → ShownElement → Bool)
    (past es : List Event) : es.foldl (Visitor.scribe answer).hear past = past ++ es := by
  induction es generalizing past with
  | nil => exact (List.append_nil past).symm
  | cons e es ih =>
    have hear : (Visitor.scribe answer).hear past e = past ++ [e] := by cases e <;> rfl
    rw [List.foldl_cons, hear, ih, List.append_assoc]
    rfl

/-- The account is what a scribe writes who goes everywhere. -/
theorem walk_scribe_eq_account (spec : Spec) (state : Value) :
    spec.walk (.scribe fun _ _ => true) state [] = accountAll (spec.scene state) := by
  rw [walk_eq_account (fun _ _ => rfl), Visitor.foldl_hear_scribe]
  rfl

end ViewStream
