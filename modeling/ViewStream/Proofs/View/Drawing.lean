import Mathlib.Data.List.Basic
import ViewStream.Proofs.View.Outline
import ViewStream.View.Tree

/-!
# The drawn tree is the tree of what is shown

The builder works with two stacks that must never get out of step: the nodes that are open, and the
items that are open, each of which belongs to one height of the first stack. Here the tree is drawn
without any stack, by recursion down the spec (`Spec.draw`), and the two are the same
(`render_eq_draw`).

What carries the proof is that **an item never belongs to a height above the stack**
(`TreeBuilder.Level`). So a node just opened is the parent of nodes without an item key, until an
item is opened at its height. And a builder that has no node open is as good as new but for the
tree it finished last (`walk_builder`): nothing of one walk reaches the next.
-/

namespace ViewStream

open Json (Value)

/-- What is drawn for the element `key`, with the elements `around` it open and room for `room`
levels more. The children of an element with a repeat are drawn for each item, and carry its
key. -/
def Spec.drawWithin (spec : Spec) :
    (room : Nat) → (around : List String) → (itemKey : Option String) → Context →
      (key : String) → Option Node
  | 0, _, _, _, _ => none
  | room + 1, around, itemKey, c, key =>
    match spec.element? key with
    | none => none
    | some e =>
      if around.contains key || !e.shows c then none
      else
        let children := fun itemKey c =>
          e.children.filterMap (drawWithin spec room (key :: around) itemKey c)
        some {
          key := key
          type := e.type
          props := PropExpr.resolveMembers c e.props
          bindings := e.bindings c
          itemKey := itemKey
          children :=
            match e.repeated with
            | none => children none c
            | some r => (r.expand c.state).flatMap fun i => children (some i.key) (c.withItem i) }

/-- What is drawn from the root. -/
def Spec.draw (spec : Spec) (state : Value) : Option Node :=
  if spec.root = "" then none else spec.drawWithin maxDepth [] none { state } spec.root

/-- The events of a walk make these nodes: one for each element entered, inside that of the
innermost element that is open, in order. A node for an element that is entered directly inside an
item carries the key of the item. -/
inductive Event.Draws : (itemKey : Option String) → List Event → List Node → Prop
  | nil {itemKey : Option String} : Draws itemKey [] []
  | element {itemKey : Option String} (el : ShownElement) {inside after : List Event}
      {children nodes : List Node} :
      Draws none inside children → Draws itemKey after nodes →
        Draws itemKey (.enter el :: (inside ++ .leave el :: after))
          (⟨el.key, el.type, el.props, el.bindings, itemKey, children⟩ :: nodes)
  | item {itemKey : Option String} (i : RepeatItem) {inside after : List Event}
      {children nodes : List Node} :
      Draws (some i.key) inside children → Draws itemKey after nodes →
        Draws itemKey (.enterItem i :: (inside ++ .leaveItem i :: after)) (children ++ nodes)

/-- There is no node exactly if no element is entered. -/
theorem Event.Draws.nodes_eq_nil_iff {itemKey : Option String} {es : List Event} {ns : List Node}
    (h : Draws itemKey es ns) : ns = [] ↔ ∀ el, .enter el ∉ es := by
  induction h with
  | nil => simp
  | element el _ _ _ _ =>
    refine iff_of_false (by simp) ?_
    intro hnone
    exact hnone el List.mem_cons_self
  | item i _ _ ihInside ihAfter =>
    rw [List.append_eq_nil_iff, ihInside, ihAfter]
    simp [forall_and]

open Event Outline

namespace Outline

mutual

/-- The nodes that an outline makes. -/
def nodes (itemKey : Option String) : Outline → List Node
  | .element shown inside =>
    [⟨shown.key, shown.type, shown.props, shown.bindings, itemKey, nodesAll none inside⟩]
  | .item i inside => nodesAll (some i.key) inside

/-- The nodes that outlines make. -/
def nodesAll (itemKey : Option String) : List Outline → List Node
  | [] => []
  | o :: os => nodes itemKey o ++ nodesAll itemKey os

end

theorem nodesAll_append (itemKey : Option String) (os ps : List Outline) :
    nodesAll itemKey (os ++ ps) = nodesAll itemKey os ++ nodesAll itemKey ps := by
  induction os with
  | nil => rfl
  | cons o os ih => rw [List.cons_append, nodesAll, nodesAll, ih, List.append_assoc]

theorem nodesAll_flatMap {α : Type} (itemKey : Option String) (f : α → List Outline)
    (xs : List α) :
    nodesAll itemKey (xs.flatMap f) = xs.flatMap fun x => nodesAll itemKey (f x) := by
  induction xs with
  | nil => rfl
  | cons x xs ih => rw [List.flatMap_cons, nodesAll_append, ih, List.flatMap_cons]

theorem nodesAll_map {α : Type} (itemKey : Option String) (f : α → Outline) (xs : List α) :
    nodesAll itemKey (xs.map f) = xs.flatMap fun x => nodes itemKey (f x) := by
  induction xs with
  | nil => rfl
  | cons x xs ih => rw [List.map_cons, nodesAll, ih, List.flatMap_cons]

mutual

/-- The account of an outline makes its nodes. -/
theorem draws_account : ∀ (o : Outline) {itemKey : Option String} {after : List Event}
    {ns : List Node}, Draws itemKey after ns →
      Draws itemKey (account o ++ after) (nodes itemKey o ++ ns)
  | .element shown inside, itemKey, after, ns, h => by
      have hinside : Draws none (accountAll inside) (nodesAll none inside) :=
        draws_accountAll inside
      rw [account, nodes]
      simpa using Draws.element shown hinside h
  | .item i inside, itemKey, after, ns, h => by
      have hinside : Draws (some i.key) (accountAll inside) (nodesAll (some i.key) inside) :=
        draws_accountAll inside
      rw [account, nodes]
      simpa using Draws.item i hinside h

theorem draws_accountAll : ∀ (os : List Outline) {itemKey : Option String},
    Draws itemKey (accountAll os) (nodesAll itemKey os)
  | [], _ => .nil
  | o :: os, _ => draws_account o (draws_accountAll os)

end

end Outline

/-! ## Drawing what there is to see -/

variable {spec : Spec}

theorem nodes_outline (room : Nat) (around : List String) (itemKey : Option String) (c : Context)
    (key : String) :
    nodesAll itemKey (spec.outline room around c key)
      = (spec.drawWithin room around itemKey c key).toList := by
  induction room generalizing around itemKey c key with
  | zero => rfl
  | succ room ih =>
    rw [Spec.outline, Spec.drawWithin]
    cases spec.element? key with
    | none => rfl
    | some e =>
      dsimp only
      split
      · rfl
      · have hchildren : ∀ itemKey c,
            nodesAll itemKey (e.children.flatMap (spec.outline room (key :: around) c))
              = e.children.filterMap (spec.drawWithin room (key :: around) itemKey c) := by
          intro itemKey c
          rw [nodesAll_flatMap, List.filterMap_eq_flatMap_toList]
          simp only [ih]
        rw [nodesAll, nodesAll, List.append_nil, nodes]
        cases e.repeated with
        | none =>
          dsimp only
          rw [hchildren]
          rfl
        | some r =>
          dsimp only
          rw [nodesAll_map]
          simp only [nodes, hchildren]
          rfl

theorem nodes_scene (state : Value) :
    nodesAll none (spec.scene state) = (spec.draw state).toList := by
  rw [Spec.scene, Spec.draw]
  split
  · rfl
  · exact nodes_outline maxDepth [] none { state } spec.root

/-! ## The builder -/

/-- The node with more children. -/
def Node.addChildren (n : Node) (children : List Node) : Node :=
  { n with children := n.children ++ children }

theorem Node.addChildren_nil (n : Node) : n.addChildren [] = n := by
  obtain ⟨key, type, props, bindings, itemKey, children⟩ := n
  rw [addChildren, List.append_nil]

theorem Node.addChildren_append (n : Node) (ms ns : List Node) :
    (n.addChildren ms).addChildren ns = n.addChildren (ms ++ ns) := by
  rw [addChildren, addChildren, addChildren, List.append_assoc]

namespace TreeBuilder

/-- No item belongs to a height above the stack. -/
def Level (b : TreeBuilder) : Prop := ∀ i ∈ b.items, i.2 ≤ b.stack.length

/-- A node just opened is no item's, and its children carry no key. -/
theorem itemKey?_push {b : TreeBuilder} (h : b.Level) (el : ShownElement) :
    (b.push el).itemKey? = none := by
  unfold itemKey?
  split
  · rename_i key height items hitems
    have hle : height ≤ b.stack.length := h (key, height) (by
      rw [show b.items = (key, height) :: items from hitems]
      exact List.mem_cons_self)
    rw [if_neg]
    rw [push, List.length_cons]
    omega
  · rfl

theorem level_push {b : TreeBuilder} (h : b.Level) (el : ShownElement) : (b.push el).Level := by
  intro i hi
  exact Nat.le_succ_of_le (h i hi)

theorem level_pushItem {b : TreeBuilder} (h : b.Level) (item : RepeatItem) :
    (b.pushItem item).Level := by
  intro i hi
  rcases List.mem_cons.mp hi with rfl | hi
  · exact Nat.le_refl _
  · exact h i hi

/-- The children of an item that was just opened carry its key. -/
theorem itemKey?_pushItem (b : TreeBuilder) (item : RepeatItem) :
    (b.pushItem item).itemKey? = some item.key := if_pos rfl

/-- Another node in the place of the innermost one changes nothing about items. -/
theorem itemKey?_replace {b : TreeBuilder} {parent : Node} {stack : List Node}
    (h : b.stack = parent :: stack) (n : Node) :
    ({ b with stack := n :: stack } : TreeBuilder).itemKey? = b.itemKey? := by
  unfold itemKey?
  rw [h]
  rfl

mutual

/-- **Inside an open node the builder adds what an outline makes to its children**, and nothing
else changes. -/
theorem tour_builder : ∀ (o : Outline) {b : TreeBuilder} {parent : Node} {stack : List Node},
    b.Level → b.stack = parent :: stack →
      tour visitor o b = { b with stack := parent.addChildren (nodes b.itemKey? o) :: stack }
  | .element shown inside, b, parent, stack, hlevel, hstack => by
      have hpush : (b.push shown).stack = .ofShown shown b.itemKey? :: parent :: stack := by
        rw [push, hstack]
      have ih := tourAll_builder inside (level_push hlevel shown) hpush
      rw [itemKey?_push hlevel] at ih
      have htour : tour visitor (.element shown inside) b
          = (tourAll visitor inside (b.push shown)).pop := rfl
      rw [htour, ih]
      rfl
  | .item i inside, b, parent, stack, hlevel, hstack => by
      have ih := tourAll_builder inside (level_pushItem hlevel i) hstack
      rw [itemKey?_pushItem] at ih
      have htour : tour visitor (.item i inside) b
          = (tourAll visitor inside (b.pushItem i)).popItem := rfl
      rw [htour, ih]
      rfl

theorem tourAll_builder : ∀ (os : List Outline) {b : TreeBuilder} {parent : Node}
    {stack : List Node}, b.Level → b.stack = parent :: stack →
      tourAll visitor os b
        = { b with stack := parent.addChildren (nodesAll b.itemKey? os) :: stack }
  | [], b, parent, stack, _, hstack => by
      rw [tourAll, nodesAll, Node.addChildren_nil, ← hstack]
  | o :: os, b, parent, stack, hlevel, hstack => by
      let next : TreeBuilder :=
        { b with stack := parent.addChildren (nodes b.itemKey? o) :: stack }
      have hone : tour visitor o b = next := tour_builder o hlevel hstack
      have hlevel' : next.Level := by
        intro i hi
        have hle := hlevel i hi
        rw [hstack] at hle
        exact hle
      have hnext : next.stack = parent.addChildren (nodes b.itemKey? o) :: stack := rfl
      have hrest := tourAll_builder os hlevel' hnext
      rw [itemKey?_replace hstack] at hrest
      rw [tourAll, hone, hrest, Node.addChildren_append, nodesAll]

end

/-- With nothing open, the builder makes a tree of an element, in place of the last one. -/
theorem tour_builder_root (root : Option Node) (shown : ShownElement) (inside : List Outline) :
    tour visitor (.element shown inside) { root := root }
      = { root := (nodes none (.element shown inside)).head? } := by
  let opened : TreeBuilder := { stack := [.ofShown shown none], root := root }
  have hlevel : opened.Level := fun i hi => absurd hi List.not_mem_nil
  have htour : tour visitor (.element shown inside) { root := root }
      = (tourAll visitor inside opened).pop := rfl
  rw [htour, tourAll_builder inside hlevel rfl]
  rfl

end TreeBuilder

/-- There is at most one element to see from the root. -/
theorem scene_cases (spec : Spec) (state : Value) :
    spec.scene state = [] ∨ ∃ shown inside, spec.scene state = [.element shown inside] := by
  rw [Spec.scene]
  split
  · exact Or.inl rfl
  · rw [maxDepth, Spec.outline]
    split
    · exact Or.inl rfl
    · split
      · exact Or.inl rfl
      · exact Or.inr ⟨_, _, rfl⟩

/-- **A walk leaves a builder with the tree of this walk**, or with the tree it had if nothing is
drawn. -/
theorem walk_builder (spec : Spec) (state : Value) (root : Option Node) :
    spec.walk TreeBuilder.visitor state { root := root }
      = { root := (spec.draw state).or root } := by
  have hwalk : spec.walk TreeBuilder.visitor state { root := root }
      = tourAll TreeBuilder.visitor (spec.scene state) { root := root } := walk_eq_tour ..
  have hnodes : nodesAll none (spec.scene state) = (spec.draw state).toList := nodes_scene state
  rw [hwalk]
  rcases scene_cases spec state with hscene | ⟨shown, inside, hscene⟩
  · rw [hscene] at hnodes ⊢
    have hnone : spec.draw state = none := Option.toList_eq_nil_iff.mp hnodes.symm
    rw [hnone, tourAll]
    rfl
  · rw [hscene, nodesAll, nodesAll, List.append_nil] at hnodes
    have hsome : spec.draw state = (nodes none (.element shown inside)).head? := by
      rw [hnodes, Option.head?_toList]
    rw [hscene, tourAll, tourAll, TreeBuilder.tour_builder_root, hsome]
    rfl

theorem render_eq_draw (spec : Spec) (state : Value) : spec.render state = spec.draw state := by
  rw [Spec.render, walk_builder]
  exact Option.or_none

/-- **Walks into one builder** leave the last tree that any of them drew. -/
theorem walks_builder (walks : List (Spec × Value)) (root : Option Node) :
    walks.foldl (fun b w => w.1.walk TreeBuilder.visitor w.2 b) { root := root }
      = { root := ((walks.filterMap fun w => w.1.draw w.2).getLast?).or root } := by
  induction walks generalizing root with
  | nil => rfl
  | cons w walks ih =>
    rw [List.foldl_cons, walk_builder, ih]
    rw [List.filterMap_cons]
    cases w.1.draw w.2 with
    | none => rfl
    | some n =>
      dsimp only
      rw [List.getLast?_cons]
      cases (walks.filterMap fun w => w.1.draw w.2).getLast? <;> rfl

/--
**The tree builder loses nothing and keeps no residue.** Take any spec and any state.

* The tree it builds is the tree drawn by recursion down the spec, and so none if the root is not
  shown. It has the item keys where an element has a repeat, and nowhere else.
* It is made by the events of the walk: one node for each element entered, with its key, type,
  props and bindings, inside the node of the innermost element that was open, in the order of
  entering; and there is none exactly if nothing is entered.
* When a builder takes in any walks of any specs and states, one after the other, it ends with the
  tree that the last of them builds alone, leaving aside those that build none.
-/
theorem render_faithful (spec : Spec) (state : Value) (walks : List (Spec × Value)) :
    let events := spec.walk (.scribe fun _ _ => true) state []
    spec.render state = spec.draw state
      ∧ Draws none events (spec.render state).toList
      ∧ (spec.render state = none ↔ ∀ el, .enter el ∉ events)
      ∧ (walks.foldl (fun b w => w.1.walk TreeBuilder.visitor w.2 b) ({} : TreeBuilder)).root
          = (walks.filterMap fun w => w.1.render w.2).getLast? := by
  intro events
  have hevents : events = accountAll (spec.scene state) := walk_scribe_eq_account spec state
  have hdraws : Draws none events (spec.render state).toList := by
    rw [render_eq_draw, ← nodes_scene, hevents]
    exact draws_accountAll (spec.scene state)
  refine ⟨render_eq_draw spec state, hdraws, ?_, ?_⟩
  · rw [← hdraws.nodes_eq_nil_iff]
    exact Option.toList_eq_nil_iff.symm
  · rw [walks_builder]
    simp only [render_eq_draw]
    exact Option.or_none

end ViewStream
