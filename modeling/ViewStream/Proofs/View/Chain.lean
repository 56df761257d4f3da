import Mathlib.Data.List.Forall2
import ViewStream.Proofs.View.Outline

/-!
# Which elements a walk enters

Said without a walk: a **chain** goes from the root down to an element, from each member to one of
its children, and at a repeat for one of its items as well. It is no longer than the walk may go,
has no key twice, and each of its members is shown in the scope it is reached in.

**A walk enters the end of every chain, once for each chain, and nothing else**
(`walk_enters_chains`). It cuts no more than the two guards require: an element that two parents
share, or that one parent names twice, is the end of as many chains and is entered as often.

Chains are ordered as the walk goes: by the items and positions they choose, and a chain before all
that go on from it.
-/

namespace ViewStream

open Json (Value)

/-- A key in the scope in which it is reached. -/
structure Place where
  /-- The key of an element. -/
  key : String
  /-- The repeat item it is reached for. -/
  scope : Option Scope

/-- How to go on from an element. -/
structure Turn where
  /-- For which item of its repeat, if it has a repeat. -/
  item : Option Nat
  /-- To which entry of its list of children. -/
  child : Nat

/-- One turn comes before another: the item decides, then the child. -/
def Turn.Before (t u : Turn) : Prop := t.item < u.item ∨ t.item = u.item ∧ t.child < u.child

/-- A way down, with every place it comes to and the turn that leads there. -/
structure Chain where
  /-- Where it begins. -/
  start : Place
  /-- Where it goes from there. -/
  steps : List (Turn × Place)

/-- The turn leads from one place to the other: to a child of the element, in the same scope if the
element has no repeat and otherwise in that of one item. -/
def Turn.Leads (spec : Spec) (state : Value) (p : Place) (t : Turn) (q : Place) : Prop :=
  ∃ e, spec.element? p.key = some e ∧ e.children[t.child]? = some q.key
    ∧ match e.repeated with
      | none => t.item = none ∧ q.scope = p.scope
      | some _ => ∃ n i, t.item = some n ∧ (e.expand state)[n]? = some i
          ∧ q.scope = some i.toScope

/-- Each step leads on from the place before it. -/
def Place.LeadsOn (spec : Spec) (state : Value) : Place → List (Turn × Place) → Prop
  | _, [] => True
  | p, (t, q) :: steps => t.Leads spec state p q ∧ q.LeadsOn spec state steps

/-- There is an element in this place, and it is shown. -/
def Place.Shown (spec : Spec) (state : Value) (p : Place) : Prop :=
  ∃ e, spec.element? p.key = some e ∧ e.shows ⟨state, p.scope⟩ = true

namespace Chain

/-- All places of a chain. -/
def places (c : Chain) : List Place := c.start :: c.steps.map Prod.snd

/-- The place where a chain ends. -/
def last (c : Chain) : Place := (c.steps.map Prod.snd).getLastD c.start

/-- A chain comes before another one: at the first turn where they part, or because the other one
goes on from it. -/
def Before (c d : Chain) : Prop :=
  List.Lex Turn.Before (c.steps.map Prod.fst) (d.steps.map Prod.fst)

/-- A chain of the spec in this state. -/
structure Visible (spec : Spec) (state : Value) (c : Chain) : Prop where
  /-- There is a root. -/
  root : spec.root ≠ ""
  /-- The chain begins at the root, outside all items. -/
  start : c.start = ⟨spec.root, none⟩
  /-- Each member is reached from the one before it. -/
  leads : c.start.LeadsOn spec state c.steps
  /-- It is not too long. -/
  short : c.places.length ≤ maxDepth
  /-- No element is in it twice. -/
  distinct : (c.places.map Place.key).Nodup
  /-- Every member is shown. -/
  shown : ∀ p ∈ c.places, p.Shown spec state

/-- An element as it is shown at the end of a chain. -/
def EndsIn (spec : Spec) (state : Value) (c : Chain) (el : ShownElement) : Prop :=
  ∃ e, spec.element? c.last.key = some e
    ∧ el.key = c.last.key
    ∧ el.type = e.type
    ∧ el.depth = c.places.length - 1
    ∧ el.props = PropExpr.resolveMembers ⟨state, c.last.scope⟩ e.props
    ∧ el.bindings = e.bindings ⟨state, c.last.scope⟩

theorem Before.ne {c d : Chain} (h : c.Before d) : c ≠ d := by
  rintro rfl
  have irrefl : ∀ t : Turn, ¬ t.Before t := by
    rintro ⟨_ | n, child⟩ (h | h)
    · exact h
    · omega
    · exact Nat.lt_irrefl n h
    · omega
  exact List.lex_irrefl irrefl _ h

end Chain

/-- The elements entered, in order. -/
def Event.entered (es : List Event) : List ShownElement :=
  es.filterMap fun
    | .enter el => some el
    | _ => none

theorem Event.entered_append (es fs : List Event) :
    entered (es ++ fs) = entered es ++ entered fs := List.filterMap_append ..

open Outline Event

theorem entered_element (shown : ShownElement) (inside : List Outline) :
    entered (account (.element shown inside)) = shown :: entered (accountAll inside) := by
  have hcons : entered (account (.element shown inside))
      = shown :: entered (accountAll inside ++ [.leave shown]) := by
    rw [account]
    rfl
  rw [hcons, entered_append]
  exact congrArg (shown :: ·) (List.append_nil _)

theorem entered_item (i : RepeatItem) (inside : List Outline) :
    entered (account (.item i inside)) = entered (accountAll inside) := by
  have hcons : entered (account (.item i inside))
      = entered (accountAll inside ++ [.leaveItem i]) := by
    rw [account]
    rfl
  rw [hcons, entered_append]
  exact List.append_nil _

variable {spec : Spec} {state : Value}

/-! ## All ways down -/

/-- The turns at an element, in order, each with the place it leads to. -/
def Element.turns (e : Element) (state : Value) (scope : Option Scope) : List (Turn × Place) :=
  match e.repeated with
  | none => e.children.zipIdx.map fun c => (⟨none, c.2⟩, ⟨c.1, scope⟩)
  | some _ => (e.expand state).zipIdx.flatMap fun i =>
      e.children.zipIdx.map fun c => (⟨some i.2, c.2⟩, ⟨c.1, some i.1.toScope⟩)

/-- All ways down from a place, in order, with the elements `around` it open and room for `room`
levels more. -/
def Spec.ways (spec : Spec) (state : Value) :
    (room : Nat) → (around : List String) → Place → List (List (Turn × Place))
  | 0, _, _ => []
  | room + 1, around, p =>
    match spec.element? p.key with
    | none => []
    | some e =>
      if around.contains p.key || !e.shows ⟨state, p.scope⟩ then []
      else [] :: (e.turns state p.scope).flatMap fun s =>
        (ways spec state room (p.key :: around) s.2).map (s :: ·)

/-- What `ways` lists: the steps of a chain, begun at any place. -/
structure Place.Way (spec : Spec) (state : Value) (room : Nat) (around : List String) (p : Place)
    (steps : List (Turn × Place)) : Prop where
  leads : p.LeadsOn spec state steps
  short : steps.length < room
  distinct : ((p :: steps.map Prod.snd).map Place.key).Nodup
  apart : ∀ q ∈ p :: steps.map Prod.snd, q.key ∉ around
  shown : ∀ q ∈ p :: steps.map Prod.snd, q.Shown spec state

theorem Element.mem_turns {e : Element} {p q : Place} {t : Turn}
    (he : spec.element? p.key = some e) :
    (t, q) ∈ e.turns state p.scope ↔ t.Leads spec state p q := by
  obtain ⟨item, child⟩ := t
  obtain ⟨key, scope⟩ := q
  have hleads : Turn.Leads spec state p ⟨item, child⟩ ⟨key, scope⟩
      ↔ e.children[child]? = some key
        ∧ match e.repeated with
          | none => item = none ∧ scope = p.scope
          | some _ => ∃ n i, item = some n ∧ (e.expand state)[n]? = some i
              ∧ scope = some i.toScope := by
    simp [Turn.Leads, he]
  rw [hleads, Element.turns]
  cases e.repeated with
  | none =>
    simp only [List.mem_map, List.mem_zipIdx_iff_getElem?, Prod.exists, Prod.mk.injEq,
      Turn.mk.injEq, Place.mk.injEq]
    constructor
    · rintro ⟨k, n, hk, ⟨rfl, rfl⟩, rfl, rfl⟩
      exact ⟨hk, rfl, rfl⟩
    · rintro ⟨hk, rfl, rfl⟩
      exact ⟨key, child, hk, ⟨rfl, rfl⟩, rfl, rfl⟩
  | some r =>
    simp only [List.mem_flatMap, List.mem_map, List.mem_zipIdx_iff_getElem?, Prod.exists,
      Prod.mk.injEq, Turn.mk.injEq, Place.mk.injEq]
    constructor
    · rintro ⟨i, m, hi, k, n, hk, ⟨rfl, rfl⟩, rfl, rfl⟩
      exact ⟨hk, m, i, rfl, hi, rfl⟩
    · rintro ⟨hk, m, i, rfl, hi, rfl⟩
      exact ⟨i, m, hi, key, child, hk, ⟨rfl, rfl⟩, rfl, rfl⟩

/-- The positions in a list ascend. -/
theorem zipIdx_ascending {α : Type} (xs : List α) :
    xs.zipIdx.Pairwise fun a b => a.2 < b.2 := by
  rw [← List.pairwise_map (f := Prod.snd), List.zipIdx_map_snd]
  exact List.pairwise_lt_range'

theorem Element.turns_before (e : Element) (state : Value) (scope : Option Scope) :
    (e.turns state scope).Pairwise fun s s' => s.1.Before s'.1 := by
  have hchildren : ∀ (item : Option Nat) (scope : Option Scope),
      (e.children.zipIdx.map fun c => (Turn.mk item c.2, Place.mk c.1 scope)).Pairwise
        fun s s' => s.1.Before s'.1 := by
    intro item scope
    rw [List.pairwise_map]
    exact (zipIdx_ascending e.children).imp fun h => Or.inr ⟨rfl, h⟩
  rw [Element.turns]
  cases e.repeated with
  | none => exact hchildren none scope
  | some r =>
    refine List.pairwise_flatMap.mpr ⟨fun i _ => hchildren (some i.2) _, ?_⟩
    refine (zipIdx_ascending (e.expand state)).imp ?_
    intro i j hij s hs s' hs'
    obtain ⟨c, _, rfl⟩ := List.mem_map.mp hs
    obtain ⟨c', _, rfl⟩ := List.mem_map.mp hs'
    exact Or.inl hij

theorem way_nil {room : Nat} {around : List String} {p : Place} :
    p.Way spec state (room + 1) around [] ↔ p.key ∉ around ∧ p.Shown spec state := by
  constructor
  · intro h
    exact ⟨h.apart p List.mem_cons_self, h.shown p List.mem_cons_self⟩
  · rintro ⟨hapart, hshown⟩
    exact ⟨trivial, Nat.succ_pos room, by simp, by simpa using hapart, by simpa using hshown⟩

/-- A way goes on as a way from the next place, inside the element it came from. -/
theorem way_cons {room : Nat} {around : List String} {p q : Place} {t : Turn}
    {steps : List (Turn × Place)} :
    p.Way spec state (room + 1) around ((t, q) :: steps)
      ↔ (p.key ∉ around ∧ p.Shown spec state) ∧ t.Leads spec state p q
        ∧ q.Way spec state room (p.key :: around) steps := by
  constructor
  · intro h
    obtain ⟨hp, hdistinct⟩ := List.nodup_cons.mp h.distinct
    refine ⟨⟨h.apart p List.mem_cons_self, h.shown p List.mem_cons_self⟩, h.leads.1, ?_⟩
    exact {
      leads := h.leads.2
      short := Nat.lt_of_succ_lt_succ h.short
      distinct := hdistinct
      apart := by
        intro r hr hmem
        rcases List.mem_cons.mp hmem with heq | hmem
        · exact hp (heq ▸ List.mem_map_of_mem hr)
        · exact h.apart r (List.mem_cons_of_mem p hr) hmem
      shown := fun r hr => h.shown r (List.mem_cons_of_mem p hr) }
  · rintro ⟨⟨hapart, hshown⟩, hleads, h⟩
    exact {
      leads := ⟨hleads, h.leads⟩
      short := Nat.succ_lt_succ h.short
      distinct := by
        refine List.nodup_cons.mpr ⟨?_, h.distinct⟩
        intro hmem
        obtain ⟨r, hr, heq⟩ := List.mem_map.mp hmem
        exact h.apart r hr (heq ▸ List.mem_cons_self)
      apart := by
        intro r hr
        rcases List.mem_cons.mp hr with rfl | hr
        · exact hapart
        · exact fun hmem => h.apart r hr (List.mem_cons_of_mem _ hmem)
      shown := by
        intro r hr
        rcases List.mem_cons.mp hr with rfl | hr
        · exact hshown
        · exact h.shown r hr }

/-- **`ways` lists all ways down**, and nothing else. -/
theorem mem_ways {room : Nat} {around : List String} {p : Place} {steps : List (Turn × Place)} :
    steps ∈ spec.ways state room around p ↔ p.Way spec state room around steps := by
  induction room generalizing around p steps with
  | zero => exact ⟨fun h => absurd h (by simp [Spec.ways]), fun h => absurd h.short (by simp)⟩
  | succ room ih =>
    rw [Spec.ways]
    cases he : spec.element? p.key with
    | none =>
      refine ⟨fun h => absurd h (by simp), fun h => ?_⟩
      obtain ⟨e, he', _⟩ := h.shown p List.mem_cons_self
      exact absurd (he.symm.trans he') (by simp)
    | some e =>
      dsimp only
      have hguard : (around.contains p.key || !e.shows ⟨state, p.scope⟩) = false
          ↔ p.key ∉ around ∧ p.Shown spec state := by
        simp [Place.Shown, he]
      cases hg : (around.contains p.key || !e.shows ⟨state, p.scope⟩) with
      | true =>
        refine ⟨fun h => absurd h (by simp), fun h => ?_⟩
        have hopen := hguard.mpr
          ⟨h.apart p List.mem_cons_self, h.shown p List.mem_cons_self⟩
        rw [hg] at hopen
        exact absurd hopen (by simp)
      | false =>
        have hopen := hguard.mp hg
        rw [if_neg (by simp)]
        cases steps with
        | nil => exact ⟨fun _ => way_nil.mpr hopen, fun _ => List.mem_cons_self⟩
        | cons s steps =>
          obtain ⟨t, q⟩ := s
          rw [way_cons, ← ih, ← Element.mem_turns he]
          simp [hopen]

/-- They are listed in order. -/
theorem ways_before (room : Nat) (around : List String) (p : Place) :
    (spec.ways state room around p).Pairwise fun a b =>
      List.Lex Turn.Before (a.map Prod.fst) (b.map Prod.fst) := by
  induction room generalizing around p with
  | zero => exact List.Pairwise.nil
  | succ room ih =>
    rw [Spec.ways]
    cases spec.element? p.key with
    | none => exact List.Pairwise.nil
    | some e =>
      dsimp only
      split
      · exact List.Pairwise.nil
      · refine List.pairwise_cons.mpr ⟨?_, List.pairwise_flatMap.mpr ⟨?_, ?_⟩⟩
        · -- to end here comes before going on
          intro steps h
          obtain ⟨s, _, hs⟩ := List.mem_flatMap.mp h
          obtain ⟨rest, _, rfl⟩ := List.mem_map.mp hs
          exact List.Lex.nil
        · intro s _
          rw [List.pairwise_map]
          exact (ih (p.key :: around) s.2).imp List.Lex.cons
        · refine (e.turns_before state p.scope).imp ?_
          intro s s' hs a ha b hb
          obtain ⟨_, _, rfl⟩ := List.mem_map.mp ha
          obtain ⟨_, _, rfl⟩ := List.mem_map.mp hb
          exact List.Lex.rel hs

/-- The element in a place, as it is shown there. -/
def Place.sight (spec : Spec) (state : Value) (depth : Nat) (p : Place) : ShownElement :=
  ((spec.element? p.key).getD {}).shown p.key depth ⟨state, p.scope⟩

theorem flatMap_zipIdx {α β : Type} (xs : List α) (f : α → List β) :
    (xs.zipIdx.flatMap fun x => f x.1) = xs.flatMap f := by
  rw [← List.flatMap_map Prod.fst f, List.zipIdx_map_fst]

/-- To go through the turns is to go through the children, for each item if there are items. -/
theorem Element.turns_flatMap {β : Type} (e : Element) (state : Value) (scope : Option Scope)
    (f : Place → List β) :
    ((e.turns state scope).flatMap fun s => f s.2)
      = match e.repeated with
        | none => e.children.flatMap fun k => f ⟨k, scope⟩
        | some r => (r.expand state).flatMap fun i =>
            e.children.flatMap fun k => f ⟨k, some i.toScope⟩ := by
  rw [Element.turns]
  cases hr : e.repeated with
  | none =>
    dsimp only
    rw [List.flatMap_map]
    exact flatMap_zipIdx e.children fun k => f ⟨k, scope⟩
  | some r =>
    have hexpand : e.expand state = r.expand state := by rw [Element.expand, hr]
    dsimp only
    rw [List.flatMap_assoc, hexpand,
      ← flatMap_zipIdx (r.expand state) fun i => e.children.flatMap fun k => f ⟨k, some i.toScope⟩]
    congr 1
    funext i
    rw [List.flatMap_map]
    exact flatMap_zipIdx e.children fun k => f ⟨k, some i.1.toScope⟩

/-- **A full account enters the end of every way down**, in the order of the ways. -/
theorem entered_outline (room : Nat) (around : List String) (p : Place) :
    entered (accountAll (spec.outline room around ⟨state, p.scope⟩ p.key))
      = (spec.ways state room around p).map fun steps =>
          ((steps.map Prod.snd).getLastD p).sight spec state (around.length + steps.length) := by
  induction room generalizing around p with
  | zero => rfl
  | succ room ih =>
    rw [Spec.outline, Spec.ways]
    cases he : spec.element? p.key with
    | none => rfl
    | some e =>
      dsimp only
      split
      · rfl
      · -- what is entered below a place, one level further down
        let below := fun q : Place => (spec.ways state room (p.key :: around) q).map fun steps =>
          ((steps.map Prod.snd).getLastD q).sight spec state (around.length + 1 + steps.length)
        have hchildren : ∀ scope, entered (accountAll (e.children.flatMap
            (spec.outline room (p.key :: around) ⟨state, scope⟩)))
              = e.children.flatMap fun k => below ⟨k, scope⟩ := by
          intro scope
          rw [accountAll_flatMap, entered, List.filterMap_flatMap]
          congr 1
          funext k
          exact ih (p.key :: around) ⟨k, scope⟩
        have hbelow : entered (accountAll (match e.repeated with
            | none => e.children.flatMap (spec.outline room (p.key :: around) ⟨state, p.scope⟩)
            | some r => (r.expand state).map fun i => .item i (e.children.flatMap
                (spec.outline room (p.key :: around) ⟨state, some i.toScope⟩))))
              = (e.turns state p.scope).flatMap fun s => below s.2 := by
          rw [e.turns_flatMap]
          cases e.repeated with
          | none => exact hchildren p.scope
          | some r =>
            dsimp only
            rw [accountAll_map, entered, List.filterMap_flatMap]
            congr 1
            funext i
            rw [← hchildren]
            exact entered_item i _
        have hsight : p.sight spec state around.length
            = e.shown p.key around.length ⟨state, p.scope⟩ := by
          rw [Place.sight, he]
          rfl
        have hways : ∀ s : Turn × Place,
            ((spec.ways state room (p.key :: around) s.2).map (s :: ·)).map (fun steps =>
              ((steps.map Prod.snd).getLastD p).sight spec state (around.length + steps.length))
              = below s.2 := by
          intro s
          rw [List.map_map]
          refine List.map_congr_left fun steps _ => ?_
          simp only [Function.comp, List.map_cons, List.getLastD_cons, List.length_cons]
          rw [Nat.add_right_comm, Nat.add_assoc]
        rw [accountAll, accountAll, List.append_nil, entered_element, List.map_cons,
          List.map_flatMap]
        simp only [hways]
        rw [← hbelow]
        exact congrArg (· :: _) hsight.symm

/-! ## From the root -/

/-- All chains of a spec in a state, in order. -/
def Spec.chains (spec : Spec) (state : Value) : List Chain :=
  if spec.root = "" then []
  else (spec.ways state maxDepth [] ⟨spec.root, none⟩).map (Chain.mk ⟨spec.root, none⟩)

theorem mem_chains {c : Chain} : c ∈ spec.chains state ↔ c.Visible spec state := by
  obtain ⟨start, steps⟩ := c
  rw [Spec.chains]
  split
  · rename_i hroot
    exact ⟨fun h => absurd h (by simp), fun h => absurd hroot h.root⟩
  · rename_i hroot
    rw [List.mem_map]
    constructor
    · rintro ⟨steps', hmem, heq⟩
      obtain ⟨rfl, rfl⟩ := Chain.mk.inj heq
      have h := mem_ways.mp hmem
      exact {
        root := hroot
        start := rfl
        leads := h.leads
        short := by simpa [Chain.places] using Nat.succ_le_of_lt h.short
        distinct := h.distinct
        shown := h.shown }
    · intro h
      obtain rfl : start = ⟨spec.root, none⟩ := h.start
      refine ⟨steps, mem_ways.mpr ?_, rfl⟩
      exact {
        leads := h.leads
        short := Nat.lt_of_succ_le (by simpa [Chain.places] using h.short)
        distinct := h.distinct
        apart := fun _ _ => List.not_mem_nil
        shown := h.shown }

theorem chains_before (spec : Spec) (state : Value) :
    (spec.chains state).Pairwise Chain.Before := by
  rw [Spec.chains]
  split
  · exact List.Pairwise.nil
  · exact List.pairwise_map.mpr (ways_before maxDepth [] ⟨spec.root, none⟩)

theorem entered_scene (spec : Spec) (state : Value) :
    entered (accountAll (spec.scene state))
      = (spec.chains state).map fun c => c.last.sight spec state c.steps.length := by
  rw [Spec.scene, Spec.chains]
  split
  · rfl
  · rw [entered_outline maxDepth [] ⟨spec.root, none⟩, List.map_map]
    refine List.map_congr_left fun steps _ => ?_
    exact congrArg (Place.sight spec state · _) (Nat.zero_add steps.length)

/-- What there is at the end of a chain of the spec. -/
theorem Chain.Visible.endsIn {c : Chain} (h : c.Visible spec state) :
    c.EndsIn spec state (c.last.sight spec state c.steps.length) := by
  have hlast : c.last ∈ c.places := by
    rw [Chain.last, Chain.places, ← List.getLast_eq_getLastD (List.cons_ne_nil _ _)]
    exact List.getLast_mem _
  obtain ⟨e, he, _⟩ := h.shown c.last hlast
  have hsight : c.last.sight spec state c.steps.length
      = e.shown c.last.key c.steps.length ⟨state, c.last.scope⟩ := by
    rw [Place.sight, he]
    rfl
  rw [hsight]
  exact ⟨e, he, rfl, rfl, by simp [Chain.places, Element.shown], rfl, rfl⟩

/--
**A walk enters exactly the visible chains.** Take any spec, with cycles or without, and any state.

A visitor that always goes further down is told the same events, whatever it makes of them. Among
these the elements entered are, one by one, the ends of the chains: of every chain of the spec in
this state, each once, in the order of the items and child positions they choose. Each is reported
under the last key of its chain, as deep as the chain is long, with its props and bindings resolved
in the last scope.
-/
theorem walk_enters_chains (spec : Spec) (state : Value) :
    let events := spec.walk (.scribe fun _ _ => true) state []
    (∀ {σ : Type} (v : Visitor σ) (s : σ), v.Descends →
        spec.walk v state s = events.foldl v.hear s)
      ∧ ∃ chains : List Chain,
        (∀ c, c ∈ chains ↔ c.Visible spec state)
          ∧ chains.Nodup
          ∧ chains.Pairwise Chain.Before
          ∧ List.Forall₂ (Chain.EndsIn spec state) chains (entered events) := by
  intro events
  have hevents : events = accountAll (spec.scene state) := walk_scribe_eq_account spec state
  refine ⟨?_, spec.chains state, fun _ => mem_chains, ?_, chains_before spec state, ?_⟩
  · intro σ v s hv
    rw [hevents]
    exact walk_eq_account hv spec state s
  · exact (chains_before spec state).imp Chain.Before.ne
  · rw [hevents, entered_scene, List.forall₂_map_right_iff, List.forall₂_same]
    intro c hc
    exact (mem_chains.mp hc).endsIn

/-- A child that is named twice and names its parent as a child of its own. -/
theorem walk_enters_chains_of_shared_child :
    let root : Element := { type := "Root", children := ["a", "missing", "a"] }
    let a : Element := { type := "A", children := ["root", "b"] }
    let b : Element := { type := "B" }
    let spec : Spec := { root := "root", elements := [("a", a), ("b", b), ("root", root)] }
    let events := spec.walk (.scribe fun _ _ => true) .null []
    (entered events).map (·.key) = ["root", "a", "b", "a", "b"]
      ∧ (∃ chains : List Chain, chains.length = 5 ∧ chains.Nodup
          ∧ ∀ c, c ∈ chains ↔ c.Visible spec .null)
      ∧ spec.walk (.recorder fun _ => true) .null #[]
          = events.foldl (Visitor.recorder fun _ => true).hear #[] := by
  intro root a b spec events
  have hkeys : (entered events).map (·.key) = ["root", "a", "b", "a", "b"] := by decide +kernel
  obtain ⟨hvisitor, chains, hmem, hnodup, _, hends⟩ := walk_enters_chains spec .null
  refine ⟨hkeys, ⟨chains, ?_, hnodup, hmem⟩, hvisitor _ #[] fun _ _ => rfl⟩
  have hlength : (entered events).length = 5 := by
    have h := congrArg List.length hkeys
    simpa using h
  exact hends.length_eq.trans hlength

end ViewStream
