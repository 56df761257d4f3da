import ViewStream.Proofs.View.Outline

/-!
# The calls of a walk are properly nested

A visitor that keeps a stack of its own relies on the order of the calls it receives: on what is
entered being left again, in the right order, and on nothing being told of an element it did not
want to go into. `visit_wellNested` says all it may rely on, **whatever it answers**, and however
the spec refers back to itself.

The properties of a stream are said of its events alone. `Balanced` is the grammar of brackets.
What a single call may count on (`Event.Allowed`) looks at the events before it and after it, and
says of those after it only how they begin. So it survives when more is told, which is why streams
that are sound can be put together (`sound_append`).
-/

namespace ViewStream

open Json (Value)

/-- The array that a repeat goes through, empty where there is none. -/
def Repeat.array (r : Repeat) (state : Value) : List Value :=
  match Pointer.read? r.statePath state with
  | some (.arr xs) => xs
  | _ => []

namespace Repeat

theorem expand_eq (r : Repeat) (state : Value) :
    r.expand state = (r.array state).mapIdx r.itemAt := by
  unfold expand array
  rcases Pointer.read? r.statePath state with _ | v
  · rfl
  · cases v <;> rfl

/-- The items of a repeat are those of its array. -/
theorem expand_items (r : Repeat) (state : Value) :
    (r.expand state).map (·.item) = r.array state := by
  rw [expand_eq]
  exact List.ext_getElem (by simp) fun n _ _ => by simp [itemAt]

/-- They are numbered from 0. -/
theorem expand_indices (r : Repeat) (state : Value) :
    (r.expand state).map (·.index) = List.range (r.array state).length := by
  rw [expand_eq]
  exact List.ext_getElem (by simp) fun n _ _ => by simp [itemAt]

end Repeat

namespace Event

/-- Events that open and close in matching pairs: an element is left as it was entered, an item
too, and what is opened in between is closed in between. -/
inductive Balanced : List Event → Prop
  | nil : Balanced []
  | element (el : ShownElement) {inside after : List Event} :
      Balanced inside → Balanced after → Balanced (.enter el :: (inside ++ .leave el :: after))
  | item (i : RepeatItem) {inside after : List Event} :
      Balanced inside → Balanced after →
        Balanced (.enterItem i :: (inside ++ .leaveItem i :: after))

/-- The elements that are open after events, innermost first, if `els` were open before. -/
def openElements : (els : List ShownElement) → List Event → List ShownElement
  | els, [] => els
  | els, .enter el :: es => openElements (el :: els) es
  | els, .leave _ :: es => openElements els.tail es
  | els, .enterItem _ :: es => openElements els es
  | els, .leaveItem _ :: es => openElements els es

/-- The item with what is told between its beginning and its end. -/
def block (b : RepeatItem × List Event) : List Event :=
  .enterItem b.1 :: (b.2 ++ [.leaveItem b.1])

/-- Entering an element, after the events `before` and before the events `after`. -/
structure EnterAllowed (spec : Spec) (state : Value)
    (answer : List Event → ShownElement → Bool) (before : List Event) (el : ShownElement)
    (after : List Event) : Prop where
  /-- The spec has the element. -/
  known : (spec.element? el.key).isSome = true
  /-- It is as deep as there are elements open. -/
  depth : el.depth = (openElements [] before).length
  /-- That is less than the bound. -/
  bounded : el.depth < maxDepth
  /-- It is not within itself, and neither is any other. -/
  distinct : ((el :: openElements [] before).map (·.key)).Nodup
  /-- If the answer is no, then the element is left at once. -/
  pruned : answer before el = false → ∃ rest, after = .leave el :: rest
  /-- If the answer is yes and the element has a repeat, then everything up to its leaving lies
  within items: one for each item of the array, in order. -/
  repeated : answer before el = true → ∀ e r, spec.element? el.key = some e →
    e.repeated = some r → ∃ (blocks : List (RepeatItem × List Event)) (rest : List Event),
      after = blocks.flatMap block ++ .leave el :: rest
      ∧ (∀ b ∈ blocks, Balanced b.2)
      ∧ blocks.map (·.1.item) = r.array state
      ∧ blocks.map (·.1.index) = List.range (r.array state).length

/-- An item begins only directly inside an element with a repeat whose entering was answered with
yes. -/
def EnterItemAllowed (spec : Spec) (answer : List Event → ShownElement → Bool)
    (before : List Event) : Prop :=
  ∃ earlier el between e, before = earlier ++ .enter el :: between ∧ Balanced between
    ∧ answer earlier el = true ∧ spec.element? el.key = some e ∧ e.repeated.isSome = true

/-- A stream of events as a visitor may rely on it. -/
structure WellNested (spec : Spec) (state : Value) (answer : List Event → ShownElement → Bool)
    (es : List Event) : Prop where
  /-- What is opened is closed, in matching pairs. -/
  balanced : Balanced es
  /-- Every element is entered as it may be. -/
  enter : ∀ before el after, es = before ++ .enter el :: after →
    EnterAllowed spec state answer before el after
  /-- Every item begins where it may. -/
  enterItem : ∀ before i after, es = before ++ .enterItem i :: after →
    EnterItemAllowed spec answer before

/-! ## Putting streams together -/

/-- An event of one stream behind another is an event of the first one or of the second. -/
theorem append_cases {es fs before after : List Event} {e : Event}
    (h : es ++ fs = before ++ e :: after) :
    (∃ rest, es = before ++ e :: rest ∧ after = rest ++ fs)
      ∨ ∃ more, before = es ++ more ∧ fs = more ++ e :: after := by
  rcases List.append_eq_append_iff.mp h with ⟨more, hbefore, hfs⟩ | ⟨rest, hes, hafter⟩
  · exact Or.inr ⟨more, hbefore, hfs⟩
  · cases rest with
    | nil => exact Or.inr ⟨[], by rw [hes, List.append_nil, List.append_nil], hafter.symm⟩
    | cons e' rest =>
      obtain ⟨rfl, htail⟩ := List.cons.inj hafter
      exact Or.inl ⟨rest, hes, htail⟩

theorem Balanced.append {es fs : List Event} (he : Balanced es) (hf : Balanced fs) :
    Balanced (es ++ fs) := by
  induction he with
  | nil => exact hf
  | element el hinside _ _ ih =>
    rw [List.cons_append, List.append_assoc]
    exact .element el hinside ih
  | item i hinside _ _ ih =>
    rw [List.cons_append, List.append_assoc]
    exact .item i hinside ih

theorem openElements_append (els : List ShownElement) (es fs : List Event) :
    openElements els (es ++ fs) = openElements (openElements els es) fs := by
  induction es generalizing els with
  | nil => rfl
  | cons e es ih => cases e <;> exact ih _

/-- Balanced events leave open what was open. -/
theorem Balanced.openElements_eq {es : List Event} (h : Balanced es) (els : List ShownElement) :
    openElements els es = els := by
  induction h generalizing els with
  | nil => rfl
  | element el _ _ ihInside ihAfter =>
    rw [openElements, openElements_append, ihInside]
    exact ihAfter els
  | item i _ _ ihInside ihAfter =>
    rw [openElements, openElements_append, ihInside]
    exact ihAfter els

variable {spec : Spec} {state : Value} {answer : List Event → ShownElement → Bool}

/-- What must be true of an event that comes after `before` and before `after`. -/
def Allowed (spec : Spec) (state : Value) (answer : List Event → ShownElement → Bool)
    (before : List Event) : Event → (after : List Event) → Prop
  | .enter el, after => EnterAllowed spec state answer before el after
  | .enterItem _, _ => EnterItemAllowed spec answer before
  | .leave _, _ => True
  | .leaveItem _, _ => True

/-- Every event of a stream that comes after `past` is allowed where it stands. -/
def Sound (spec : Spec) (state : Value) (answer : List Event → ShownElement → Bool)
    (past es : List Event) : Prop :=
  ∀ before e after, es = before ++ e :: after →
    Allowed spec state answer (past ++ before) e after

/-- What was allowed stays allowed when more is told. -/
theorem Allowed.more {before after : List Event} {e : Event}
    (h : Allowed spec state answer before e after) (more : List Event) :
    Allowed spec state answer before e (after ++ more) := by
  cases e with
  | enter el =>
    have h : EnterAllowed spec state answer before el after := h
    exact {
      known := h.known
      depth := h.depth
      bounded := h.bounded
      distinct := h.distinct
      pruned := by
        intro hno
        obtain ⟨rest, rfl⟩ := h.pruned hno
        exact ⟨rest ++ more, rfl⟩
      repeated := by
        intro hyes e r he hr
        obtain ⟨blocks, rest, rfl, hblocks⟩ := h.repeated hyes e r he hr
        exact ⟨blocks, rest ++ more, by rw [List.append_assoc]; rfl, hblocks⟩ }
  | enterItem i => exact h
  | leave el => trivial
  | leaveItem i => trivial

theorem sound_nil (past : List Event) : Sound spec state answer past [] := by
  intro before e after h
  exact absurd h (by simp)

theorem sound_cons {past es : List Event} {e : Event}
    (he : Allowed spec state answer past e es) (h : Sound spec state answer (past ++ [e]) es) :
    Sound spec state answer past (e :: es) := by
  intro before e' after heq
  cases before with
  | nil =>
    obtain ⟨rfl, rfl⟩ := List.cons.inj heq
    rw [List.append_nil]
    exact he
  | cons b before =>
    obtain ⟨rfl, htail⟩ := List.cons.inj heq
    have hallowed := h before e' after htail
    rw [List.append_assoc] at hallowed
    exact hallowed

/-- **Sound streams can be put together.** -/
theorem sound_append {past es fs : List Event} (he : Sound spec state answer past es)
    (hf : Sound spec state answer (past ++ es) fs) : Sound spec state answer past (es ++ fs) := by
  intro before e after heq
  rcases append_cases heq with ⟨rest, hes, rfl⟩ | ⟨more, rfl, hfs⟩
  · exact (he before e rest hes).more fs
  · have hallowed := hf more e after hfs
    rw [List.append_assoc] at hallowed
    exact hallowed

theorem sound_leave (past : List Event) (el : ShownElement) :
    Sound spec state answer past [.leave el] := sound_cons trivial (sound_nil _)

theorem sound_leaveItem (past : List Event) (i : RepeatItem) :
    Sound spec state answer past [.leaveItem i] := sound_cons trivial (sound_nil _)

end Event

open Event Outline

mutual

/-- A full account is balanced. -/
theorem Outline.balanced_account : ∀ o : Outline, Balanced (account o)
  | .element shown inside => by
      rw [account]
      exact .element shown (Outline.balanced_accountAll inside) .nil
  | .item i inside => by
      rw [account]
      exact .item i (Outline.balanced_accountAll inside) .nil

theorem Outline.balanced_accountAll : ∀ os : List Outline, Balanced (accountAll os)
  | [] => .nil
  | o :: os => by
      rw [accountAll]
      exact (Outline.balanced_account o).append (Outline.balanced_accountAll os)

end

variable {spec : Spec} {state : Value} {answer : List Event → ShownElement → Bool}

/-! ## What a scribe is told -/

/-- Of these outlines a scribe writes only what is balanced and sound, inside open elements with
these keys. -/
def Nests (spec : Spec) (state : Value) (answer : List Event → ShownElement → Bool)
    (around : List String) (os : List Outline) : Prop :=
  ∀ past, (openElements [] past).map (·.key) = around →
    ∃ told, tourAll (.scribe answer) os past = past ++ told ∧ Balanced told
      ∧ Sound spec state answer past told

theorem nests_nil (around : List String) : Nests spec state answer around [] := by
  intro past _
  exact ⟨[], by rw [tourAll, List.append_nil], .nil, sound_nil past⟩

theorem nests_append {around : List String} {os ps : List Outline}
    (ho : Nests spec state answer around os) (hp : Nests spec state answer around ps) :
    Nests spec state answer around (os ++ ps) := by
  intro past hpast
  obtain ⟨told, htour, hbalanced, hsound⟩ := ho past hpast
  have hopen : openElements [] (past ++ told) = openElements [] past := by
    rw [openElements_append, hbalanced.openElements_eq]
  obtain ⟨told', htour', hbalanced', hsound'⟩ := hp (past ++ told) (by rw [hopen, hpast])
  refine ⟨told ++ told', ?_, hbalanced.append hbalanced', sound_append hsound hsound'⟩
  rw [tourAll_append, htour, htour', List.append_assoc]

theorem nests_flatMap {α : Type} {around : List String} {f : α → List Outline} {xs : List α}
    (h : ∀ x ∈ xs, Nests spec state answer around (f x)) :
    Nests spec state answer around (xs.flatMap f) := by
  induction xs with
  | nil => exact nests_nil around
  | cons x xs ih =>
    rw [List.flatMap_cons]
    exact nests_append (h x List.mem_cons_self) (ih fun y hy => h y (List.mem_cons_of_mem x hy))

/-- The items of a repeat, in order, inside an element that was entered. Of what is told up to now,
`between` was told inside that element. -/
theorem items_told {around : List String} {earlier : List Event} {el : ShownElement} {e : Element}
    (hyes : answer earlier el = true) (he : spec.element? el.key = some e)
    (hr : e.repeated.isSome = true) {inside : RepeatItem → List Outline} {items : List RepeatItem}
    (h : ∀ i ∈ items, Nests spec state answer around (inside i)) {between : List Event}
    (hbetween : Balanced between)
    (hpast : (openElements [] (earlier ++ .enter el :: between)).map (·.key) = around) :
    ∃ blocks : List (RepeatItem × List Event),
      tourAll (.scribe answer) (items.map fun i => .item i (inside i))
          (earlier ++ .enter el :: between)
        = earlier ++ .enter el :: (between ++ blocks.flatMap block)
      ∧ blocks.map Prod.fst = items
      ∧ (∀ b ∈ blocks, Balanced b.2)
      ∧ Balanced (blocks.flatMap block)
      ∧ Sound spec state answer (earlier ++ .enter el :: between) (blocks.flatMap block) := by
  induction items generalizing between with
  | nil =>
    refine ⟨[], ?_, rfl, by simp, .nil, sound_nil _⟩
    rw [List.map_nil, tourAll, List.flatMap_nil, List.append_nil]
  | cons i items ih =>
    let past := earlier ++ .enter el :: between
    have hopen : openElements [] (past ++ [.enterItem i]) = openElements [] past := by
      rw [openElements_append]
      rfl
    obtain ⟨told, htour, hbalanced, hsound⟩ :=
      h i List.mem_cons_self (past ++ [.enterItem i]) (by rw [hopen, hpast])
    have hblock : Balanced (block (i, told)) := .item i hbalanced .nil
    have hpast' : (openElements [] (earlier ++ .enter el :: (between ++ block (i, told)))).map
        (·.key) = around := by
      have hsplit : earlier ++ .enter el :: (between ++ block (i, told))
          = past ++ block (i, told) := by simp [past]
      rw [hsplit, openElements_append, hblock.openElements_eq, hpast]
    obtain ⟨blocks, htours, hitems, hinside, hblocks, hsounds⟩ :=
      ih (fun j hj => h j (List.mem_cons_of_mem i hj)) (hbetween.append hblock) hpast'
    have hone : tour (.scribe answer) (.item i (inside i)) past
        = earlier ++ .enter el :: (between ++ block (i, told)) := by
      have henter : (Visitor.scribe answer).enterItem past i = past ++ [.enterItem i] := rfl
      have hleave : ∀ es, (Visitor.scribe answer).leaveItem es i = es ++ [.leaveItem i] :=
        fun _ => rfl
      rw [tour, henter, htour, hleave]
      simp [past, block]
    refine ⟨(i, told) :: blocks, ?_, ?_, ?_, ?_, ?_⟩
    · rw [List.map_cons, tourAll, hone, htours, List.flatMap_cons]
      simp
    · rw [List.map_cons, hitems]
    · intro b hb
      rcases List.mem_cons.mp hb with rfl | hb
      · exact hbalanced
      · exact hinside b hb
    · rw [List.flatMap_cons]
      exact hblock.append hblocks
    · have hbegins : EnterItemAllowed spec answer past :=
        ⟨earlier, el, between, e, rfl, hbetween, hyes, he, hr⟩
      rw [List.flatMap_cons]
      refine sound_append ?_ ?_
      · exact sound_cons hbegins (sound_append hsound (sound_leaveItem _ i))
      · simpa using hsounds

/-- What is told of an element that may be entered, and of what is inside it. -/
theorem nests_element {around : List String} {el : ShownElement} {e : Element}
    {inside : List Outline} (he : spec.element? el.key = some e)
    (hdepth : el.depth = around.length) (hbound : around.length < maxDepth)
    (hdistinct : (el.key :: around).Nodup)
    (hplain : e.repeated = none → Nests spec state answer (el.key :: around) inside)
    (hrepeat : ∀ r, e.repeated = some r → ∃ f : RepeatItem → List Outline,
      inside = (r.expand state).map (fun i => .item i (f i))
        ∧ ∀ i ∈ r.expand state, Nests spec state answer (el.key :: around) (f i)) :
    Nests spec state answer around [.element el inside] := by
  intro past hpast
  have hopen : (openElements [] (past ++ [.enter el])).map (·.key) = el.key :: around := by
    rw [openElements_append, ← hpast]
    rfl
  have hlength : el.depth = (openElements [] past).length := by
    rw [hdepth, ← hpast, List.length_map]
  have hkeys : ((el :: openElements [] past).map (·.key)).Nodup := by
    rw [List.map_cons, hpast]
    exact hdistinct
  rw [tourAll, tourAll, tour, Visitor.scribe]
  dsimp only
  cases hanswer : answer past el with
  | false =>
    have hallowed : EnterAllowed spec state answer past el [.leave el] := {
      known := by rw [he]; rfl
      depth := hlength
      bounded := hdepth ▸ hbound
      distinct := hkeys
      pruned := fun _ => ⟨[], rfl⟩
      repeated := fun hyes => absurd (hanswer.symm.trans hyes) (by simp) }
    refine ⟨[.enter el, .leave el], by simp, .element el .nil .nil, ?_⟩
    exact sound_cons hallowed (sound_leave _ el)
  | true =>
    -- it is enough to know what is told inside, and that the items of a repeat are all of it
    suffices h : ∃ told, tourAll (.scribe answer) inside (past ++ [.enter el])
          = past ++ .enter el :: told
        ∧ Balanced told ∧ Sound spec state answer (past ++ [.enter el]) told
        ∧ ∀ r, e.repeated = some r → ∃ blocks : List (RepeatItem × List Event),
          told = blocks.flatMap block ∧ (∀ b ∈ blocks, Balanced b.2)
            ∧ blocks.map Prod.fst = r.expand state by
      obtain ⟨told, htour, hbalanced, hsound, hblocks⟩ := h
      have hallowed : EnterAllowed spec state answer past el (told ++ [.leave el]) := {
        known := by rw [he]; rfl
        depth := hlength
        bounded := hdepth ▸ hbound
        distinct := hkeys
        pruned := fun hno => absurd (hanswer.symm.trans hno) (by simp)
        repeated := by
          intro _ e' r he' hr
          obtain rfl : e = e' := Option.some.inj (he.symm.trans he')
          obtain ⟨blocks, rfl, hinside, hitems⟩ := hblocks r hr
          refine ⟨blocks, [], rfl, hinside, ?_, ?_⟩
          · rw [← r.expand_items, ← hitems, List.map_map]
            rfl
          · rw [← r.expand_indices, ← hitems, List.map_map]
            rfl }
      refine ⟨.enter el :: (told ++ [.leave el]), ?_, .element el hbalanced .nil, ?_⟩
      · dsimp only
        rw [← Visitor.scribe, htour]
        simp
      · exact sound_cons hallowed (sound_append hsound (sound_leave _ el))
    cases hr : e.repeated with
    | none =>
      obtain ⟨told, htour, hbalanced, hsound⟩ := hplain hr (past ++ [.enter el]) hopen
      refine ⟨told, ?_, hbalanced, hsound, fun r h => absurd h (by simp)⟩
      rw [htour, List.append_assoc]
      rfl
    | some r =>
      obtain ⟨f, rfl, hf⟩ := hrepeat r hr
      obtain ⟨blocks, htour, hitems, hinside, hbalanced, hsound⟩ :=
        items_told hanswer he (by rw [hr]; rfl) hf .nil hopen
      refine ⟨blocks.flatMap block, htour, hbalanced, hsound, ?_⟩
      intro r' hr'
      obtain rfl : r = r' := Option.some.inj hr'
      exact ⟨blocks, rfl, hinside, hitems⟩

/-- **What there is to see below a key is told properly nested**, inside whatever elements are
open. -/
theorem nests_outline (room : Nat) (around : List String) (c : Context) (key : String)
    (hroom : around.length + room = maxDepth) (hdistinct : around.Nodup) :
    Nests spec c.state answer around (spec.outline room around c key) := by
  induction room generalizing around c key with
  | zero => exact nests_nil around
  | succ room ih =>
    rw [Spec.outline]
    cases he : spec.element? key with
    | none => exact nests_nil around
    | some e =>
      dsimp only
      split
      · exact nests_nil around
      · rename_i hguard
        have hnot : key ∉ around := by
          intro hmem
          exact hguard (by simp [hmem])
        have hdistinct' : (key :: around).Nodup := List.nodup_cons.mpr ⟨hnot, hdistinct⟩
        have hchildren : ∀ c' : Context, c'.state = c.state →
            Nests spec c.state answer (key :: around)
              (e.children.flatMap (spec.outline room (key :: around) c')) := by
          intro c' hc'
          refine nests_flatMap fun child _ => ?_
          rw [← hc']
          exact ih (key :: around) c' child (by rw [List.length_cons]; omega) hdistinct'
        refine nests_element he rfl (by omega) hdistinct' ?_ ?_
        · intro hr
          rw [hr]
          exact hchildren c rfl
        · intro r hr
          rw [hr]
          exact ⟨_, rfl, fun i _ => hchildren (c.withItem i) rfl⟩

/--
**The calls of a walk are well nested, for any visitor.** Take any spec, any state, any key to
start from and any repeat item to start in, and any visitor `v` in any state. The calls it receives
are the `events`, and they come to an end.

* What is opened is closed, in matching pairs: elements by elements, items by items.
* An element that is entered is as deep as there are elements open, which is less than the bound,
  and the keys of these and its own are all different.
* When it answers no, the next call leaves the same element.
* Items begin only directly inside an element with a repeat for which it answered yes. Inside such
  an element there is nothing but its items, one for each item of its array, in order from 0.
-/
theorem visit_wellNested {σ : Type} (spec : Spec) (v : Visitor σ) (c : Context) (key : String)
    (s : σ) :
    let events := spec.visit (.scribe (v.answerAfter s)) c key []
    spec.visit v c key s = events.foldl v.hear s
      ∧ WellNested spec c.state (v.answerAfter s) events := by
  intro events
  have hnests : Nests spec c.state (v.answerAfter s) [] (spec.outline maxDepth [] c key) :=
    nests_outline maxDepth [] c key (Nat.zero_add maxDepth) List.nodup_nil
  obtain ⟨told, htour, hbalanced, hsound⟩ := hnests [] rfl
  have hevents : events = told := by
    rw [List.nil_append, ← visit_eq_tour] at htour
    exact htour
  refine ⟨visit_eq_foldl spec v c key s, hevents ▸ hbalanced, ?_, ?_⟩
  · intro before el after h
    exact hsound before (.enter el) after (hevents ▸ h)
  · intro before i after h
    exact hsound before (.enterItem i) after (hevents ▸ h)

end ViewStream
