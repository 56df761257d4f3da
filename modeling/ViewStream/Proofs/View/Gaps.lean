import ViewStream.Proofs.View.Chain
import ViewStream.Spec.Issue

/-!
# Every issue of a view is listed, and nothing else

A view lacks something in one of three places: at its root, at the type of an element, at an entry
in the list of children of an element. Such a **gap** is known by where it is and said to be there
by lookups alone (`Gap.In`). **The issues of a view are its gaps, one for each, in the order of
their places** (`issues_eq`): a child that is named twice and is no element is a gap twice.

A view that was read from a document has its elements in key order (`Spec.Ordered`), which the
order of the issues takes over.
-/

namespace ViewStream

open Json (Value)

/-! ## Elements in key order -/

/-- The elements are in key order, each key once. -/
def Spec.Ordered (spec : Spec) : Prop := spec.elements.Pairwise fun a b => a.1 < b.1

theorem Spec.Ordered.element?_iff {spec : Spec} (h : spec.Ordered) {key : String} {e : Element} :
    spec.element? key = some e ↔ (key, e) ∈ spec.elements := by
  constructor
  · exact KeyMap.mem_of_lookup
  · exact KeyMap.lookup_of_mem (List.pairwise_map.mpr (h.imp String.ne_of_lt))

theorem Spec.elementsOf_ordered {ms : List (String × Value)} (h : Value.Ascending ms) :
    (elementsOf ms).Pairwise fun a b => a.1 < b.1 := by
  refine List.Pairwise.filterMap _ ?_ h
  intro m m' hlt a ha b hb
  obtain ⟨e, _, rfl⟩ := Option.map_eq_some_iff.mp ha
  obtain ⟨e', _, rfl⟩ := Option.map_eq_some_iff.mp hb
  exact hlt

/-- A document in key order describes such a view. -/
theorem Spec.ofDocument_ordered {d : Value} (h : d.InOrder) : (Spec.ofDocument d).Ordered := by
  unfold Spec.Ordered
  cases d with
  | obj ms =>
    rw [Value.InOrder] at h
    rw [Spec.ofDocument]
    cases hlookup : ms.lookup "elements" with
    | none => exact List.Pairwise.nil
    | some v =>
      have hv := h.2.of_mem (KeyMap.mem_of_lookup hlookup)
      cases v with
      | obj elements =>
        rw [Value.InOrder] at hv
        exact elementsOf_ordered hv.1
      | _ => exact List.Pairwise.nil
  | _ => exact List.Pairwise.nil

/-! ## Gaps -/

/-- A place where a view may lack something. -/
inductive Gap where
  /-- The root. -/
  | root
  /-- The type of an element. -/
  | type (key : String)
  /-- An entry in the children of an element. -/
  | child (key : String) (position : Nat)
deriving DecidableEq

namespace Gap

/-- The view lacks something in this place: there is no root, the element has no type, or the child
is no element. -/
def In (spec : Spec) : Gap → Prop
  | .root => spec.root = "" ∨ spec.element? spec.root = none
  | .type key => ∃ e, spec.element? key = some e ∧ e.type = ""
  | .child key n => ∃ e child, spec.element? key = some e ∧ e.children[n]? = some child
      ∧ spec.element? child = none

/-- One place comes before another: the root first, then by element, the type before the
children. -/
def Before : Gap → Gap → Prop
  | _, .root => False
  | .root, _ => True
  | .type k, .type k' => k < k'
  | .type k, .child k' _ => k < k' ∨ k = k'
  | .child k _, .type k' => k < k'
  | .child k n, .child k' n' => k < k' ∨ k = k' ∧ n < n'

/-- What is to be said of a gap. -/
def issue (spec : Spec) : Gap → Issue
  | .root => if spec.root = "" then .missingRoot else .danglingRoot spec.root
  | .type key => .missingType key
  | .child key n =>
    .danglingChild key (((spec.element? key).bind fun e => e.children[n]?).getD "")

theorem Before.ne {g h : Gap} (hgh : g.Before h) : g ≠ h := by
  intro heq
  subst heq
  cases g with
  | root => exact hgh
  | type key => exact String.lt_irrefl key hgh
  | child key n =>
    rcases hgh with hkey | ⟨_, hn⟩
    · exact String.lt_irrefl key hkey
    · exact Nat.lt_irrefl n hn

end Gap

variable {spec : Spec}

theorem hasElement_eq_false {key : String} :
    spec.hasElement key = false ↔ spec.element? key = none :=
  Option.isSome_eq_false_iff.trans Option.isNone_iff_eq_none

/-! ## All gaps -/

/-- The gaps of one element, in order. -/
def Spec.elementGaps (spec : Spec) (key : String) (e : Element) : List Gap :=
  (if e.type = "" then [.type key] else [])
    ++ (e.children.zipIdx.filter fun c => !spec.hasElement c.1).map fun c => .child key c.2

/-- All gaps of a view, in order. -/
def Spec.gaps (spec : Spec) : List Gap :=
  (if spec.root = "" ∨ spec.element? spec.root = none then [.root] else [])
    ++ spec.elements.flatMap fun m => spec.elementGaps m.1 m.2

theorem mem_elementGaps {key : String} {e : Element} {g : Gap} :
    g ∈ spec.elementGaps key e
      ↔ g = .type key ∧ e.type = ""
        ∨ ∃ n child, g = .child key n ∧ e.children[n]? = some child
          ∧ spec.element? child = none := by
  have htype : (g ∈ if e.type = "" then [Gap.type key] else []) ↔ g = .type key ∧ e.type = "" := by
    split <;> simp [*]
  rw [Spec.elementGaps, List.mem_append, htype, List.mem_map]
  refine or_congr_right ?_
  constructor
  · intro hg
    obtain ⟨⟨child, n⟩, hmem, rfl⟩ := hg
    obtain ⟨hat, hnone⟩ := List.mem_filter.mp hmem
    exact ⟨n, child, rfl, List.mem_zipIdx_iff_getElem?.mp hat,
      hasElement_eq_false.mp (by simpa using hnone)⟩
  · intro hg
    obtain ⟨n, child, rfl, hat, hnone⟩ := hg
    refine ⟨(child, n), List.mem_filter.mpr ⟨List.mem_zipIdx_iff_getElem?.mpr hat, ?_⟩, rfl⟩
    simpa using hasElement_eq_false.mpr hnone

theorem Gap.in_iff {g : Gap} :
    g.In spec ↔ g = .root ∧ (spec.root = "" ∨ spec.element? spec.root = none)
      ∨ ∃ key e, spec.element? key = some e ∧ (g = .type key ∧ e.type = ""
        ∨ ∃ n child, g = .child key n ∧ e.children[n]? = some child
          ∧ spec.element? child = none) := by
  cases g with
  | root => simp [In]
  | type key => simp [In]
  | child key n => simp [In]

theorem mem_gaps (h : spec.Ordered) {g : Gap} : g ∈ spec.gaps ↔ g.In spec := by
  have hroot : (g ∈ if spec.root = "" ∨ spec.element? spec.root = none then [Gap.root] else [])
      ↔ g = .root ∧ (spec.root = "" ∨ spec.element? spec.root = none) := by
    split <;> simp [*]
  have helements : (g ∈ spec.elements.flatMap fun m => spec.elementGaps m.1 m.2)
      ↔ ∃ key e, spec.element? key = some e ∧ g ∈ spec.elementGaps key e := by
    rw [List.mem_flatMap]
    constructor
    · intro hg
      obtain ⟨⟨key, e⟩, hmem, hg⟩ := hg
      exact ⟨key, e, h.element?_iff.mpr hmem, hg⟩
    · intro hg
      obtain ⟨key, e, he, hg⟩ := hg
      exact ⟨(key, e), h.element?_iff.mp he, hg⟩
  rw [Spec.gaps, List.mem_append, hroot, helements, Gap.in_iff]
  simp only [mem_elementGaps]

/-! ## Their order -/

theorem elementGaps_before (spec : Spec) (key : String) (e : Element) :
    (spec.elementGaps key e).Pairwise Gap.Before := by
  refine List.pairwise_append.mpr ⟨?_, ?_, ?_⟩
  · split
    · exact List.pairwise_singleton Gap.Before _
    · exact List.Pairwise.nil
  · -- the positions ascend, and they still do when some are left out
    rw [List.pairwise_map]
    refine ((zipIdx_ascending e.children).sublist List.filter_sublist).imp ?_
    intro c d hcd
    exact Or.inr ⟨rfl, hcd⟩
  · intro g hg g' hg'
    split at hg
    · obtain rfl := List.mem_singleton.mp hg
      obtain ⟨c, _, rfl⟩ := List.mem_map.mp hg'
      exact Or.inr rfl
    · exact absurd hg List.not_mem_nil

/-- The gaps of an element come before those of an element with a greater key. -/
theorem elementGaps_before_of_lt {key key' : String} (h : key < key') {e e' : Element} {g g' : Gap}
    (hg : g ∈ spec.elementGaps key e) (hg' : g' ∈ spec.elementGaps key' e') : g.Before g' := by
  rcases mem_elementGaps.mp hg with ⟨rfl, _⟩ | ⟨n, _, rfl, _⟩
  · rcases mem_elementGaps.mp hg' with ⟨rfl, _⟩ | ⟨n', _, rfl, _⟩
    · exact h
    · exact Or.inl h
  · rcases mem_elementGaps.mp hg' with ⟨rfl, _⟩ | ⟨n', _, rfl, _⟩
    · exact h
    · exact Or.inl h

theorem gaps_before (h : spec.Ordered) : spec.gaps.Pairwise Gap.Before := by
  refine List.pairwise_append.mpr ⟨?_, List.pairwise_flatMap.mpr ⟨?_, ?_⟩, ?_⟩
  · split
    · exact List.pairwise_singleton Gap.Before _
    · exact List.Pairwise.nil
  · intro m _
    exact elementGaps_before spec m.1 m.2
  · refine h.imp ?_
    intro m m' hlt g hg g' hg'
    exact elementGaps_before_of_lt hlt hg hg'
  · intro g hg g' hg'
    split at hg
    · obtain rfl := List.mem_singleton.mp hg
      obtain ⟨m, _, hg'⟩ := List.mem_flatMap.mp hg'
      rcases mem_elementGaps.mp hg' with ⟨rfl, _⟩ | ⟨n, _, rfl, _⟩ <;> trivial
    · exact absurd hg List.not_mem_nil

/-! ## The issues -/

theorem rootIssues_eq (spec : Spec) :
    spec.rootIssues
      = (if spec.root = "" ∨ spec.element? spec.root = none then [Gap.root] else []).map
          (Gap.issue spec) := by
  rw [Spec.rootIssues]
  by_cases hroot : spec.root = ""
  · rw [if_pos hroot, if_pos (Or.inl hroot), List.map_singleton, Gap.issue, if_pos hroot]
  · rw [if_neg hroot]
    cases he : spec.hasElement spec.root with
    | true =>
      have hsome : spec.element? spec.root ≠ none := by
        intro hnone
        rw [hasElement_eq_false.mpr hnone] at he
        exact Bool.noConfusion he
      rw [if_pos rfl, if_neg (not_or.mpr ⟨hroot, hsome⟩), List.map_nil]
    | false =>
      have hnone := hasElement_eq_false.mp he
      rw [if_neg Bool.false_ne_true, if_pos (Or.inr hnone), List.map_singleton, Gap.issue,
        if_neg hroot]

theorem elementIssues_eq {key : String} {e : Element} (he : spec.element? key = some e) :
    spec.elementIssues key e = (spec.elementGaps key e).map (Gap.issue spec) := by
  have htype : (if e.type = "" then [Gap.type key] else []).map (Gap.issue spec)
      = if e.type = "" then [.missingType key] else [] := by
    split <;> rfl
  have hchild : ∀ c ∈ e.children.zipIdx.filter fun c => !spec.hasElement c.1,
      Gap.issue spec (.child key c.2) = .danglingChild key c.1 := by
    intro c hc
    have hat : e.children[c.2]? = some c.1 :=
      List.mem_zipIdx_iff_getElem?.mp (List.mem_filter.mp hc).1
    rw [Gap.issue, he, Option.bind_some, hat, Option.getD_some]
  -- the code looks at children and not at positions
  have hchildren : e.children.filter (fun c => !spec.hasElement c)
      = (e.children.zipIdx.filter fun c => !spec.hasElement c.1).map Prod.fst := by
    rw [← List.zipIdx_map_fst 0 e.children, List.filter_map, List.zipIdx_map_fst]
    rfl
  rw [Spec.elementIssues, Spec.elementGaps, List.map_append, htype, hchildren, List.map_map,
    List.map_map]
  congr 1
  exact (List.map_congr_left hchild).symm

/-- **An issue for every gap, in order.** -/
theorem issues_eq (h : spec.Ordered) : spec.issues = spec.gaps.map (Gap.issue spec) := by
  have helement : ∀ m ∈ spec.elements,
      spec.elementIssues m.1 m.2 = (spec.elementGaps m.1 m.2).map (Gap.issue spec) := by
    intro m hm
    exact elementIssues_eq (h.element?_iff.mpr hm)
  rw [Spec.issues, Spec.gaps, List.map_append, rootIssues_eq, List.map_flatMap, List.flatMap_def,
    List.flatMap_def, List.map_congr_left helement]

/-- A view that lacks nothing. -/
structure Spec.Complete (spec : Spec) : Prop where
  /-- There is a root. -/
  root : spec.root ≠ ""
  /-- It is an element. -/
  rootElement : (spec.element? spec.root).isSome
  /-- Every element has a type. -/
  type : ∀ key e, spec.element? key = some e → e.type ≠ ""
  /-- Every child is an element. -/
  child : ∀ key e, spec.element? key = some e → ∀ c ∈ e.children, (spec.element? c).isSome

theorem issues_eq_nil_iff (h : spec.Ordered) : spec.issues = [] ↔ spec.Complete := by
  rw [issues_eq h, List.map_eq_nil_iff, List.eq_nil_iff_forall_not_mem]
  constructor
  · intro hnone
    have hnot : ∀ g : Gap, ¬ g.In spec := fun g hg => hnone g ((mem_gaps h).mpr hg)
    exact {
      root := fun hroot => hnot .root (Or.inl hroot)
      rootElement := Option.isSome_iff_ne_none.mpr fun he => hnot .root (Or.inr he)
      type := fun key e he htype => hnot (.type key) ⟨e, he, htype⟩
      child := by
        intro key e he c hc
        obtain ⟨n, hat⟩ := List.getElem?_of_mem hc
        refine Option.isSome_iff_ne_none.mpr ?_
        intro hnone
        exact hnot (.child key n) ⟨e, c, he, hat, hnone⟩ }
  · intro hcomplete g hg
    have hin := (mem_gaps h).mp hg
    cases g with
    | root =>
      rcases hin with hroot | hnone
      · exact hcomplete.root hroot
      · exact Option.isSome_iff_ne_none.mp hcomplete.rootElement hnone
    | type key =>
      obtain ⟨e, he, htype⟩ := hin
      exact hcomplete.type key e he htype
    | child key n =>
      obtain ⟨e, c, he, hat, hnone⟩ := hin
      exact Option.isSome_iff_ne_none.mp (hcomplete.child key e he c (List.mem_of_getElem? hat))
        hnone

end ViewStream
