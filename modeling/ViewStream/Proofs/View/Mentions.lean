import ViewStream.Proofs.View.Outline
import ViewStream.View.Tree

/-!
# What a view depends on

Whoever draws a view need not draw it again for a change that it cannot show. What it can show is
written in it: an element **mentions** the pointers in its props, in its conditions and in its
repeat, and nothing else of the state is read for it. The items of a repeat are no exception, since
all of them come out of the array that the repeat mentions.

The congruences follow the definitions, from a template up to a whole element. A walk adds the
question which elements count: those that are `Reachable` from the root through lists of children,
whatever hides them and however deep they are. Reachability is what the induction in
`outline_congr` carries.
-/

namespace ViewStream

open Json (Value)

/-! ## The pointers that are mentioned -/

/-- The pointers in a template. -/
def Template.mentions (text : String) : List String :=
  (split text.toList).1.map fun p => String.ofList (Text.trim p.2)

/-- The state pointers in a reference. -/
def Reference.mentions : Reference → List String
  | .state path | .bindState path => [path]
  | .template text => Template.mentions text
  | .item _ | .bindItem _ | .index => []

mutual

/-- The state pointers in a prop. -/
def PropExpr.mentions : PropExpr → List String
  | .literal _ => []
  | .ref source => source.mentions
  | .cond test whenTrue whenFalse =>
    test.mentions ++ (PropExpr.optionMentions whenTrue ++ PropExpr.optionMentions whenFalse)
  | .object props => PropExpr.memberMentions props
  | .array items => PropExpr.itemMentions items

def PropExpr.optionMentions : Option PropExpr → List String
  | none => []
  | some e => e.mentions

def PropExpr.memberMentions : List (String × PropExpr) → List String
  | [] => []
  | (_, e) :: props => e.mentions ++ PropExpr.memberMentions props

def PropExpr.itemMentions : List PropExpr → List String
  | [] => []
  | e :: items => e.mentions ++ PropExpr.itemMentions items

/-- The state pointers in a visibility. -/
def Visibility.mentions : Visibility → List String
  | .one condition => condition.mentions
  | .all conditions => Condition.allMentions conditions

def Condition.allMentions : List Condition → List String
  | [] => []
  | d :: ds => d.mentions ++ Condition.allMentions ds

/-- The state pointers in a condition. -/
def Condition.mentions : Condition → List String
  | ⟨subject, comparison, _⟩ =>
    PropExpr.optionMentions subject ++ Condition.rightMentions comparison

def Condition.rightMentions : Option (Comparator × PropExpr) → List String
  | none => []
  | some (_, e) => e.mentions

end

/-- The state pointers in an element. -/
def Element.mentions (e : Element) : List String :=
  (match e.visible with
    | none => []
    | some v => v.mentions)
  ++ PropExpr.memberMentions e.props
  ++ match e.repeated with
    | none => []
    | some r => [r.statePath]

/-! ## States that agree -/

/-- Looking up any of these pointers gives the same in both states. -/
def AgreeAt (paths : List String) (state state' : Value) : Prop :=
  ∀ path ∈ paths, Pointer.read? path state = Pointer.read? path state'

variable {state state' : Value}

theorem agreeAt_append {paths more : List String} :
    AgreeAt (paths ++ more) state state'
      ↔ AgreeAt paths state state' ∧ AgreeAt more state state' :=
  List.forall_mem_append

theorem Template.expand_congr {text : String} (h : AgreeAt (mentions text) state state') :
    expand text state = expand text state' := by
  have hfill : ∀ p ∈ (split text.toList).1, fill state p.2 = fill state' p.2 := by
    intro p hp
    have hread := h _ (List.mem_map_of_mem hp)
    rw [fill, fill, hread]
  have hparts : (split text.toList).1.map (fun p => p.1 ++ fill state p.2)
      = (split text.toList).1.map fun p => p.1 ++ fill state' p.2 :=
    List.map_congr_left fun p hp => by rw [hfill p hp]
  rw [expand, expand]
  dsimp only
  rw [List.flatMap_def, hparts, ← List.flatMap_def]

variable (scope : Option Scope)

theorem Reference.read_congr {r : Reference} (h : AgreeAt r.mentions state state') :
    r.read ⟨state, scope⟩ = r.read ⟨state', scope⟩ := by
  cases r with
  | state path | bindState path => exact h path (List.mem_singleton_self path)
  | item field | bindItem field | index => rfl
  | template text => exact congrArg (some ∘ Value.str) (Template.expand_congr h)

mutual

/-- **A prop has the same value in states that agree at what it mentions.** -/
theorem PropExpr.resolve_congr : ∀ {e : PropExpr}, AgreeAt e.mentions state state' →
    e.resolve ⟨state, scope⟩ = e.resolve ⟨state', scope⟩
  | .literal v, _ => rfl
  | .ref source, h => Reference.read_congr scope h
  | .cond test x y, h => by
      obtain ⟨htest, harms⟩ := agreeAt_append.mp h
      obtain ⟨hx, hy⟩ := agreeAt_append.mp harms
      rw [PropExpr.resolve, PropExpr.resolve, Visibility.holds_congr htest,
        PropExpr.resolveOption_congr hx, PropExpr.resolveOption_congr hy]
  | .object props, h => by
      rw [PropExpr.resolve, PropExpr.resolve, PropExpr.resolveMembers_congr h]
  | .array items, h => by
      rw [PropExpr.resolve, PropExpr.resolve, PropExpr.resolveItems_congr h]

theorem PropExpr.resolveOption_congr : ∀ {e : Option PropExpr},
    AgreeAt (PropExpr.optionMentions e) state state' →
      PropExpr.resolveOption ⟨state, scope⟩ e = PropExpr.resolveOption ⟨state', scope⟩ e
  | none, _ => rfl
  | some _, h => PropExpr.resolve_congr h

theorem PropExpr.resolveMembers_congr : ∀ {props : List (String × PropExpr)},
    AgreeAt (PropExpr.memberMentions props) state state' →
      PropExpr.resolveMembers ⟨state, scope⟩ props = PropExpr.resolveMembers ⟨state', scope⟩ props
  | [], _ => rfl
  | (k, e) :: props, h => by
      obtain ⟨he, hprops⟩ := agreeAt_append.mp h
      rw [PropExpr.resolveMembers, PropExpr.resolveMembers, PropExpr.resolve_congr he,
        PropExpr.resolveMembers_congr hprops]

theorem PropExpr.resolveItems_congr : ∀ {items : List PropExpr},
    AgreeAt (PropExpr.itemMentions items) state state' →
      PropExpr.resolveItems ⟨state, scope⟩ items = PropExpr.resolveItems ⟨state', scope⟩ items
  | [], _ => rfl
  | e :: items, h => by
      obtain ⟨he, hitems⟩ := agreeAt_append.mp h
      rw [PropExpr.resolveItems, PropExpr.resolveItems, PropExpr.resolve_congr he,
        PropExpr.resolveItems_congr hitems]

/-- The same for a visibility. -/
theorem Visibility.holds_congr : ∀ {v : Visibility}, AgreeAt v.mentions state state' →
    v.holds ⟨state, scope⟩ = v.holds ⟨state', scope⟩
  | .one _, h => Condition.holds_congr h
  | .all _, h => Condition.allHold_congr h

theorem Condition.allHold_congr : ∀ {ds : List Condition},
    AgreeAt (Condition.allMentions ds) state state' →
      Condition.allHold ⟨state, scope⟩ ds = Condition.allHold ⟨state', scope⟩ ds
  | [], _ => rfl
  | d :: ds, h => by
      obtain ⟨hd, hds⟩ := agreeAt_append.mp h
      rw [Condition.allHold, Condition.allHold, Condition.holds_congr hd,
        Condition.allHold_congr hds]

theorem Condition.holds_congr : ∀ {d : Condition}, AgreeAt d.mentions state state' →
    d.holds ⟨state, scope⟩ = d.holds ⟨state', scope⟩
  | ⟨subject, comparison, negate⟩, h => by
      obtain ⟨hsubject, hright⟩ := agreeAt_append.mp h
      rw [Condition.holds, Condition.holds, PropExpr.resolveOption_congr hsubject,
        Condition.passes_congr hright]

theorem Condition.passes_congr : ∀ {subject : Option Value}
    {comparison : Option (Comparator × PropExpr)},
    AgreeAt (Condition.rightMentions comparison) state state' →
      Condition.passes ⟨state, scope⟩ subject comparison
        = Condition.passes ⟨state', scope⟩ subject comparison
  | _, none, _ => rfl
  | subject, some (op, e), h => by
      rw [Condition.passes, Condition.passes, PropExpr.resolve_congr h]

end

/-! ## Elements -/

/-- Where a prop writes to is written in the prop and in the scope. The state has no part in it. -/
theorem PropExpr.bindingPath?_congr (e : PropExpr) :
    e.bindingPath? ⟨state, scope⟩ = e.bindingPath? ⟨state', scope⟩ := by
  cases e with
  | ref source => cases source <;> rfl
  | literal _ | cond _ _ _ | object _ | array _ => rfl

namespace Element

theorem shows_congr {e : Element} (h : AgreeAt e.mentions state state') :
    e.shows ⟨state, scope⟩ = e.shows ⟨state', scope⟩ := by
  have hvisible := (agreeAt_append.mp (agreeAt_append.mp h).1).1
  rw [shows, shows]
  cases hv : e.visible with
  | none => rfl
  | some v =>
    rw [hv] at hvisible
    exact Visibility.holds_congr scope hvisible

theorem shown_congr {e : Element} (h : AgreeAt e.mentions state state') (key : String)
    (depth : Nat) : e.shown key depth ⟨state, scope⟩ = e.shown key depth ⟨state', scope⟩ := by
  have hprops := (agreeAt_append.mp (agreeAt_append.mp h).1).2
  have hpath : ∀ e : PropExpr, e.bindingPath? ⟨state, scope⟩ = e.bindingPath? ⟨state', scope⟩ :=
    fun e => e.bindingPath?_congr scope
  have hbindings : e.bindings ⟨state, scope⟩ = e.bindings ⟨state', scope⟩ := by
    unfold bindings
    simp only [hpath]
  rw [shown, shown, PropExpr.resolveMembers_congr scope hprops, hbindings]

/-- The items of a repeat are the same, whole, as they all come from one array. -/
theorem expand_congr {e : Element} (h : AgreeAt e.mentions state state') {r : Repeat}
    (hr : e.repeated = some r) : r.expand state = r.expand state' := by
  have harray := (agreeAt_append.mp h).2
  rw [hr] at harray
  rw [Repeat.expand, Repeat.expand, harray r.statePath (List.mem_singleton_self _)]

end Element

/-! ## Views -/

/-- The keys that a walk can come to: that of the root, and those of children of elements that it
can come to. -/
inductive Spec.Reachable (spec : Spec) : String → Prop
  | root : spec.Reachable spec.root
  | child {key child : String} {e : Element} (parent : spec.Reachable key)
      (element : spec.element? key = some e) (mem : child ∈ e.children) : spec.Reachable child

variable {s s' : Spec}

/-- **There is the same to see below a reachable key**, in states that agree at what reachable
elements mention. -/
theorem outline_congr (helements : ∀ key, s.Reachable key → s.element? key = s'.element? key)
    (hstates : ∀ key e, s.Reachable key → s.element? key = some e →
      AgreeAt e.mentions state state')
    (room : Nat) (around : List String) (scope : Option Scope) {key : String}
    (hkey : s.Reachable key) :
    s.outline room around ⟨state, scope⟩ key = s'.outline room around ⟨state', scope⟩ key := by
  induction room generalizing around scope key with
  | zero => rfl
  | succ room ih =>
    rw [Spec.outline, Spec.outline, ← helements key hkey]
    cases he : s.element? key with
    | none => rfl
    | some e =>
      have hagree := hstates key e hkey he
      -- the children are reachable, whatever the scope they are shown in
      have hchildren : ∀ scope : Option Scope,
          e.children.flatMap (s.outline room (key :: around) ⟨state, scope⟩)
            = e.children.flatMap (s'.outline room (key :: around) ⟨state', scope⟩) := by
        intro scope
        rw [List.flatMap_def, List.flatMap_def]
        congr 1
        exact List.map_congr_left fun child hchild =>
          ih (key :: around) scope (hkey.child he hchild)
      dsimp only
      rw [Element.shows_congr scope hagree, Element.shown_congr scope hagree]
      cases hr : e.repeated with
      | none =>
        dsimp only
        rw [hchildren scope]
      | some r =>
        dsimp only [Context.withItem]
        rw [Element.expand_congr hagree hr]
        simp only [hchildren]

/-- So no visitor can tell the walks apart. -/
theorem walk_congr {σ : Type} (hroot : s.root = s'.root)
    (helements : ∀ key, s.Reachable key → s.element? key = s'.element? key)
    (hstates : ∀ key e, s.Reachable key → s.element? key = some e →
      AgreeAt e.mentions state state')
    (v : Visitor σ) (start : σ) : s.walk v state start = s'.walk v state' start := by
  have hscene := outline_congr helements hstates maxDepth [] none Spec.Reachable.root
  rw [walk_eq_tour, walk_eq_tour, hscene, hroot]

/--
**A drawing depends only on what is mentioned.** Take two views with the same root and the same
element (or none) at every key that can be reached from it, and two states in which every pointer
that one of these elements mentions leads to the same. Then the one view draws in the one state
what the other draws in the other.
-/
theorem render_depends_on_mentions (hroot : s.root = s'.root)
    (helements : ∀ key, s.Reachable key → s.element? key = s'.element? key)
    (hstates : ∀ key e, s.Reachable key → s.element? key = some e →
      ∀ path ∈ e.mentions, Pointer.read? path state = Pointer.read? path state') :
    s.render state = s'.render state' :=
  congrArg TreeBuilder.root (walk_congr hroot helements hstates TreeBuilder.visitor {})

/-- A list with a row for each task, which greets the user. Neither an element that no child leads
to nor a draft that is not mentioned makes a difference. -/
theorem render_depends_on_mentions_in_list :
    let list : Element :=
      { type := "List", children := ["row"], repeated := some ⟨"/tasks", none⟩ }
    let row : Element := {
      type := "Row"
      props := [("text", .ref (.item "name")), ("for", .ref (.template "to $\x7b /user \x7d"))] }
    let tasks : Value := .arr [.obj [("name", .str "sow")], .obj [("name", .str "reap")]]
    let s : Spec := { root := "list", elements := [("list", list), ("row", row)] }
    let s' : Spec := { s with elements := s.elements ++ [("old", { type := "Old" })] }
    let state : Value := .obj [("tasks", tasks), ("user", .str "Ann"), ("draft", .str "a")]
    let state' : Value := .obj [("draft", .str "b"), ("tasks", tasks), ("user", .str "Ann")]
    s ≠ s' ∧ state ≠ state' ∧ (s.render state).isSome ∧ s.render state = s'.render state' := by
  intro list row tasks s s' state state'
  have hkeys : ∀ key, s.Reachable key → key = "list" ∨ key = "row" := by
    intro key h
    induction h with
    | root => exact Or.inl rfl
    | child parent element mem ih =>
      rcases ih with rfl | rfl
      · obtain rfl := Option.some.inj element
        exact Or.inr (List.mem_singleton.mp mem)
      · obtain rfl := Option.some.inj element
        exact absurd mem List.not_mem_nil
  refine ⟨by decide +kernel, by decide +kernel, by decide +kernel,
    render_depends_on_mentions rfl (fun key h => ?_) (fun key e h he path hpath => ?_)⟩
  · rcases hkeys key h with rfl | rfl <;> decide +kernel
  · have hmentions : path = "/tasks" ∨ path = "/user" := by
      rcases hkeys key h with rfl | rfl
      · obtain rfl := Option.some.inj he
        exact Or.inl (List.mem_singleton.mp hpath)
      · obtain rfl := Option.some.inj he
        have hrow : row.mentions = ["/user"] := by decide +kernel
        rw [hrow] at hpath
        exact Or.inr (List.mem_singleton.mp hpath)
    rcases hmentions with rfl | rfl <;> decide +kernel

end ViewStream
