import ViewStream.Proofs.View.Gaps
import ViewStream.Proofs.View.Pruning
import ViewStream.Proofs.View.Scope

/-!
# A complete view hides nothing by accident

A walk passes over a child that is no element without a word, so what is missing from a view shows
only as something that never appears. Whoever has looked through the issues of a view and found
none need not fear this (`complete_view_shown_in_full`): each entry in a list of children gives an
element that is entered, but for the three reasons that a walk has by design. It is hidden, it is
open already, or too many elements are.

What is told of an element is looked up in the tree of what there is to see. An element is entered
at an outline of that tree, and the events before leave open what lies around the outline
(`entered_accountAll`). What lies around an outline is all one needs to know what there is to see
inside (`fixed_of_reached`).
-/

namespace ViewStream

open Json (Value)

namespace Outline

/-- Somewhere in these outlines there is this one, inside these elements and items, innermost
first. -/
inductive Reached (os : List Outline) :
    List ShownElement → List RepeatItem → Outline → Prop
  | top {o : Outline} : o ∈ os → Reached os [] [] o
  | element {els : List ShownElement} {items : List RepeatItem} {shown : ShownElement}
      {inside : List Outline} {o : Outline} :
      Reached os els items (.element shown inside) → o ∈ inside → Reached os (shown :: els) items o
  | item {els : List ShownElement} {items : List RepeatItem} {i : RepeatItem}
      {inside : List Outline} {o : Outline} :
      Reached os els items (.item i inside) → o ∈ inside → Reached os els (i :: items) o

variable {els : List ShownElement} {items : List RepeatItem} {o : Outline}

/-- What is reached inside an element is reached from outside it. -/
theorem Reached.of_element {os : List Outline} {shown : ShownElement} {inside : List Outline}
    (hmem : .element shown inside ∈ os) (h : Reached inside els items o) :
    Reached os (els ++ [shown]) items o := by
  induction h with
  | top ho => exact .element (.top hmem) ho
  | element _ ho ih => exact .element ih ho
  | item _ ho ih => exact .item ih ho

theorem Reached.of_item {os : List Outline} {i : RepeatItem} {inside : List Outline}
    (hmem : .item i inside ∈ os) (h : Reached inside els items o) :
    Reached os els (items ++ [i]) o := by
  induction h with
  | top ho => exact .item (.top hmem) ho
  | element _ ho ih => exact .element ih ho
  | item _ ho ih => exact .item ih ho

theorem Reached.mono {os ps : List Outline} (hsub : ∀ p ∈ os, p ∈ ps)
    (h : Reached os els items o) : Reached ps els items o := by
  induction h with
  | top ho => exact .top (hsub _ ho)
  | element _ ho ih => exact .element ih ho
  | item _ ho ih => exact .item ih ho

end Outline

open Event Outline

/-! ## Where an element is entered -/

/-- Balanced events leave open the items that were open. -/
theorem Event.Balanced.openItems_eq {es : List Event} (h : Balanced es) (items : List RepeatItem) :
    openItems items es = items := by
  induction h generalizing items with
  | nil => rfl
  | element el _ _ ihInside ihAfter =>
    rw [openItems, openItems_append, ihInside]
    exact ihAfter items
  | item i _ _ ihInside ihAfter =>
    rw [openItems, openItems_append, ihInside]
    exact ihAfter items

/-- Where an element is entered in an account: at an outline, which is told of from there on. What
the events `before` leave open is what lies around the outline. -/
structure EnteredAt (os : List Outline) (before : List Event) (el : ShownElement)
    (after : List Event) (els : List ShownElement) (items : List RepeatItem)
    (inside : List Outline) (rest : List Event) : Prop where
  reached : Reached os els items (.element el inside)
  openElements : ∀ around, openElements around before = els ++ around
  openItems : ∀ around, openItems around before = items ++ around
  after : after = accountAll inside ++ .leave el :: rest

namespace EnteredAt

variable {os inside : List Outline} {before after rest : List Event} {el : ShownElement}
  {els : List ShownElement} {items : List RepeatItem}

/-- It is entered in the same place when more is told before and after it. -/
theorem among (h : EnteredAt os before el after els items inside rest) {ps : List Outline}
    (hsub : ∀ p ∈ os, p ∈ ps) {earlier : List Event} (hearlier : Balanced earlier)
    (later : List Event) :
    EnteredAt ps (earlier ++ before) el (after ++ later) els items inside (rest ++ later) where
  reached := h.reached.mono hsub
  openElements := by
    intro around
    rw [openElements_append, hearlier.openElements_eq, h.openElements]
  openItems := by
    intro around
    rw [openItems_append, hearlier.openItems_eq, h.openItems]
  after := by rw [h.after, List.append_assoc, List.cons_append]

theorem inElement (h : EnteredAt os before el after els items inside rest) (shown : ShownElement)
    (later : List Event) :
    EnteredAt [.element shown os] (.enter shown :: before) el (after ++ later)
      (els ++ [shown]) items inside (rest ++ later) where
  reached := h.reached.of_element List.mem_cons_self
  openElements := by
    intro around
    rw [Event.openElements, h.openElements, List.append_assoc, List.singleton_append]
  openItems := h.openItems
  after := by rw [h.after, List.append_assoc, List.cons_append]

theorem inItem (h : EnteredAt os before el after els items inside rest) (i : RepeatItem)
    (later : List Event) :
    EnteredAt [.item i os] (.enterItem i :: before) el (after ++ later) els (items ++ [i])
      inside (rest ++ later) where
  reached := h.reached.of_item List.mem_cons_self
  openElements := h.openElements
  openItems := by
    intro around
    rw [Event.openItems, h.openItems, List.append_assoc, List.singleton_append]
  after := by rw [h.after, List.append_assoc, List.cons_append]

end EnteredAt

mutual

theorem Outline.entered_account : ∀ (o : Outline) {before after : List Event} {el : ShownElement},
    account o = before ++ .enter el :: after →
      ∃ els items inside rest, EnteredAt [o] before el after els items inside rest
  | .element shown inside, before, after, el, h => by
      rw [account] at h
      cases before with
      | nil =>
        obtain ⟨hel, rfl⟩ := List.cons.inj h
        obtain rfl := Event.enter.inj hel
        exact ⟨[], [], inside, [], {
          reached := .top List.mem_cons_self
          openElements := fun _ => rfl
          openItems := fun _ => rfl
          after := rfl }⟩
      | cons e before =>
        obtain ⟨rfl, htail⟩ := List.cons.inj h
        rcases append_cases htail with ⟨rest, hinside, rfl⟩ | ⟨more, _, hleave⟩
        · obtain ⟨els, items, within, rest', hat⟩ := Outline.entered_accountAll inside hinside
          exact ⟨_, _, _, _, hat.inElement shown [.leave shown]⟩
        · -- the leaving at the end is no entering
          exact absurd hleave (by cases more <;> simp)
  | .item i inside, before, after, el, h => by
      rw [account] at h
      cases before with
      | nil => exact absurd h (by simp)
      | cons e before =>
        obtain ⟨rfl, htail⟩ := List.cons.inj h
        rcases append_cases htail with ⟨rest, hinside, rfl⟩ | ⟨more, _, hleave⟩
        · obtain ⟨els, items, within, rest', hat⟩ := Outline.entered_accountAll inside hinside
          exact ⟨_, _, _, _, hat.inItem i [.leaveItem i]⟩
        · exact absurd hleave (by cases more <;> simp)

/-- **An element that is entered in an account is entered at one of its outlines.** -/
theorem Outline.entered_accountAll : ∀ (os : List Outline) {before after : List Event}
    {el : ShownElement}, accountAll os = before ++ .enter el :: after →
      ∃ els items inside rest, EnteredAt os before el after els items inside rest
  | [], before, after, el, h => by
      rw [accountAll] at h
      exact absurd h.symm (by simp)
  | o :: os, before, after, el, h => by
      rw [accountAll] at h
      rcases append_cases h with ⟨rest, ho, rfl⟩ | ⟨more, rfl, hos⟩
      · obtain ⟨els, items, inside, rest', hat⟩ := Outline.entered_account o ho
        exact ⟨_, _, _, _, hat.among (by simp) .nil (accountAll os)⟩
      · obtain ⟨els, items, inside, rest, hat⟩ := Outline.entered_accountAll os hos
        have hsub : ∀ p ∈ os, p ∈ o :: os := fun p hp => List.mem_cons_of_mem o hp
        have hmore := hat.among hsub (Outline.balanced_account o) []
        rw [List.append_nil] at hmore
        exact ⟨_, _, _, _, hmore⟩

end

/-! ## What lies around fixes what is inside -/

variable {spec : Spec} {room : Nat} {around : List String} {c : Context} {key : String}
  {e : Element}

/-- What there is to see inside an outline is fixed by the elements and items around it. -/
def Outline.Fixed (spec : Spec) (state : Value) (els : List ShownElement)
    (items : List RepeatItem) : Outline → Prop
  | .element el inside => ∃ room e, els.length + (room + 1) = maxDepth
      ∧ spec.element? el.key = some e
      ∧ inside = spec.interior room ((el :: els).map (·.key)) (.inside state items) e
  | .item i inside => ∃ (room : Nat) (e : Element), els.length + room = maxDepth
      ∧ inside = e.children.flatMap
          (spec.outline room (els.map (·.key)) (.inside state (i :: items)))

variable {state : Value} {els : List ShownElement} {items : List RepeatItem}

theorem fixed_of_mem_outline {o : Outline} (hroom : els.length + room = maxDepth)
    (h : o ∈ spec.outline room (els.map (·.key)) (.inside state items) key) :
    o.Fixed spec state els items := by
  obtain ⟨n, e, rfl, he, rfl⟩ := mem_outline h
  exact ⟨n, e, hroom, he, rfl⟩

/-- **All that is reached from the root is fixed by what lies around it.** -/
theorem fixed_of_reached {o : Outline} (h : Reached (spec.scene state) els items o) :
    o.Fixed spec state els items := by
  induction h with
  | top ho =>
    rw [Spec.scene] at ho
    split at ho
    · exact absurd ho List.not_mem_nil
    · exact fixed_of_mem_outline (Nat.zero_add maxDepth) ho
  | @element els items shown inside o _ ho ih =>
    obtain ⟨room, e, hroom, he, rfl⟩ := ih
    -- one element more is around, and there is room for one less
    have hroom' : (shown :: els).length + room = maxDepth := by
      rw [List.length_cons]
      omega
    rcases interior_cases ho with ⟨child, _, ho⟩ | ⟨r, i, _, rfl⟩
    · exact fixed_of_mem_outline hroom' ho
    · exact ⟨room, e, hroom', rfl⟩
  | @item els items i inside o _ ho ih =>
    obtain ⟨room, e, hroom, rfl⟩ := ih
    obtain ⟨child, _, ho⟩ := List.mem_flatMap.mp ho
    exact fixed_of_mem_outline hroom ho

/-! ## Entries in a list of children -/

/-- What is told of an entry in a list of children, with elements `around` it open: nothing if the
element is open already or hidden, and else that it is entered, all of it, and that it is left. -/
def Spec.TellsEntry (spec : Spec) (c : Context) (around : List String) (child : String)
    (told : List Event) : Prop :=
  ∃ e, spec.element? child = some e ∧
    if child ∈ around ∨ e.shows c = false then told = []
    else ∃ inside, Balanced inside ∧ told = .enter (e.shown child around.length c) ::
      (inside ++ [.leave (e.shown child around.length c)])

/-- What is told of a list of children: of each entry, in order. -/
def Spec.TellsChildren (spec : Spec) (c : Context) (around children : List String)
    (told : List Event) : Prop :=
  ∃ entry : String → List Event, told = children.flatMap entry
    ∧ ∀ child ∈ children, spec.TellsEntry c around child (entry child)

/-- What is told inside an element, with elements `around` it open, itself among them, and `items`:
of its children, once for each item if it has a repeat. -/
def Spec.TellsInside (spec : Spec) (state : Value) (items : List RepeatItem)
    (around : List String) (e : Element) (told : List Event) : Prop :=
  match e.repeated with
  | none => spec.TellsChildren (.inside state items) around e.children told
  | some r => ∃ perItem : RepeatItem → List Event,
      told = (r.expand state).flatMap (fun i => block (i, perItem i))
      ∧ ∀ i ∈ r.expand state,
        spec.TellsChildren (.inside state (i :: items)) around e.children (perItem i)

theorem tellsEntry_outline (he : spec.element? key = some e) :
    spec.TellsEntry c around key (accountAll (spec.outline (room + 1) around c key)) := by
  refine ⟨e, he, ?_⟩
  by_cases hguard : key ∈ around ∨ e.shows c = false
  · rw [if_pos hguard, outline_hidden he hguard]
    rfl
  · rw [if_neg hguard, outline_shown he hguard, accountAll, accountAll, account, List.append_nil]
    exact ⟨_, balanced_accountAll _, rfl⟩

theorem tellsChildren_outline {children : List String}
    (h : ∀ child ∈ children, (spec.element? child).isSome) :
    spec.TellsChildren c around children
      (accountAll (children.flatMap (spec.outline (room + 1) around c))) := by
  refine ⟨_, accountAll_flatMap _ _, ?_⟩
  intro child hchild
  obtain ⟨e, he⟩ := Option.isSome_iff_exists.mp (h child hchild)
  exact tellsEntry_outline he

theorem tellsInside_interior (h : ∀ child ∈ e.children, (spec.element? child).isSome) :
    spec.TellsInside state items around e
      (accountAll (spec.interior (room + 1) around (.inside state items) e)) := by
  unfold Spec.TellsInside Spec.interior
  cases e.repeated with
  | none => exact tellsChildren_outline h
  | some r =>
    refine ⟨fun i => accountAll
      (e.children.flatMap (spec.outline (room + 1) around (.inside state (i :: items)))), ?_, ?_⟩
    · exact accountAll_map _ _
    · intro i _
      exact tellsChildren_outline h

/-! ## Complete views -/

/-- Where an element is entered with fewer than the most elements open, all of its children are
told of, if they are elements. -/
theorem tellsInside_of_entered (h : spec.Complete) {before after : List Event} {el : ShownElement}
    (hevents : accountAll (spec.scene state) = before ++ .enter el :: after)
    (hroom : (el :: openElements [] before).length < maxDepth) :
    ∃ e told rest, spec.element? el.key = some e ∧ after = told ++ .leave el :: rest
      ∧ Balanced told
      ∧ spec.TellsInside state (openItems [] before)
          ((el :: openElements [] before).map (·.key)) e told := by
  obtain ⟨els, items, inside, rest, hat⟩ := entered_accountAll (spec.scene state) hevents
  have hels : openElements [] before = els := (hat.openElements []).trans (List.append_nil els)
  have hitems : openItems [] before = items := (hat.openItems []).trans (List.append_nil items)
  obtain ⟨room, e, hdepth, he, rfl⟩ := fixed_of_reached hat.reached
  rw [hels] at hroom
  rw [hels, hitems]
  -- a child is one deeper than the element, so it takes room for one more
  obtain ⟨room, rfl⟩ : ∃ n, room = n + 1 := by
    rw [List.length_cons] at hroom
    exact Nat.exists_eq_succ_of_ne_zero (by omega)
  exact ⟨e, _, rest, he, hat.after, balanced_accountAll _,
    tellsInside_interior (h.child el.key e he)⟩

/--
**The issues of a view are all it lacks, and a view without any hides nothing by accident.** Take
any view that has its elements in key order.

* It has no issues exactly if it is complete: there is a root, which is an element, every element
  has a type and every child is an element.
* Its issues are those of its gaps, one for each, in the order of their places.
* If it has none, take any state and the events that a visitor is told who always goes further
  down. Wherever an element is entered so that fewer elements than the bound are open, it and those
  around it, each entry in its list of children gives an element that is entered, once for each
  item if there is a repeat. Only an entry that is hidden in its scope or is one of the open
  elements gives nothing.
-/
theorem complete_view_shown_in_full (spec : Spec) (h : spec.Ordered) :
    (spec.issues = [] ↔ spec.Complete)
      ∧ (∃ gaps : List Gap, (∀ g, g ∈ gaps ↔ g.In spec) ∧ gaps.Nodup ∧ gaps.Pairwise Gap.Before
        ∧ spec.issues = gaps.map (Gap.issue spec))
      ∧ (spec.issues = [] → ∀ state,
        let events := spec.events (fun _ => true) state
        (∀ {σ : Type} (v : Visitor σ) (s : σ), v.Descends →
            spec.walk v state s = events.foldl v.hear s)
          ∧ ∀ before el after, events = before ++ .enter el :: after →
            (el :: openElements [] before).length < maxDepth →
            ∃ e told rest, spec.element? el.key = some e ∧ after = told ++ .leave el :: rest
              ∧ Balanced told
              ∧ spec.TellsInside state (openItems [] before)
                  ((el :: openElements [] before).map (·.key)) e told) := by
  have hbefore := gaps_before h
  refine ⟨issues_eq_nil_iff h, ⟨spec.gaps, fun g => mem_gaps h, ?_, hbefore, issues_eq h⟩, ?_⟩
  · exact hbefore.imp Gap.Before.ne
  · intro hnone state events
    have hcomplete := (issues_eq_nil_iff h).mp hnone
    have hevents : events = accountAll (spec.scene state) := spec.events_account state
    refine ⟨?_, ?_⟩
    · intro σ v s hv
      rw [hevents]
      exact walk_eq_account hv spec state s
    · intro before el after heq hroom
      exact tellsInside_of_entered hcomplete (hevents.symm.trans heq) hroom

/-- A list that is repeated for two items and has itself among its children, with a note that is
shown for one of the items. -/
theorem complete_view_shown_in_full_repeat :
    let list : Element :=
      { type := "List", children := ["list", "note"], repeated := some ⟨"/xs", none⟩ }
    let whole : Condition := ⟨some (.ref (.item "")), none, false⟩
    let note : Element := { type := "Note", visible := some (.one whole) }
    let spec : Spec := { root := "list", elements := [("list", list), ("note", note)] }
    let state : Value := .obj [("xs", .arr [.bool true, .bool false])]
    let el := list.shown "list" 0 { state }
    let events := spec.events (fun _ => true) state
    spec.Ordered ∧ spec.issues = [] ∧ events.length = 8
      ∧ ∃ told rest, events = .enter el :: (told ++ .leave el :: rest)
        ∧ spec.TellsInside state [] ["list"] list told := by
  intro list whole note spec state el events
  have hordered : spec.Ordered := by
    unfold Spec.Ordered
    decide +kernel
  have hissues : spec.issues = [] := by decide +kernel
  have hevents : events = [] ++ .enter el :: events.tail := by decide +kernel
  obtain ⟨_, _, hfull⟩ := complete_view_shown_in_full spec hordered
  obtain ⟨e, told, rest, he, hafter, _, htold⟩ :=
    (hfull hissues state).2 [] el events.tail hevents (by decide)
  obtain rfl : list = e := Option.some.inj he
  refine ⟨hordered, hissues, by decide +kernel, told, rest, ?_, htold⟩
  rw [← hafter]
  exact hevents

end ViewStream
