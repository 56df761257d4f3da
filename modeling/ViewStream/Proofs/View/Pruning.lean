import ViewStream.Proofs.View.Nesting

/-!
# Pruning only removes

A visitor that stops at some elements sees less, and one could fear that it also sees something
else: the walk carries along which elements are open, and a visitor that stops leaves some unopened
that would have counted as open for the rest of the walk, for its cycles and for its depth.

It does not. What is told can be had from the full account by deleting (`Event.prune`), which looks
at the events alone and knows nothing of the spec. The reason is that **an account is balanced**,
so that what is deleted is all of what was told inside, and that what there is to see elsewhere
never depended on it.
-/

namespace ViewStream

open Json (Value)

namespace Event

/-- The events without those between the entering of an element that is `cut` and its leaving.
While such an element is open, `inside` says how many elements are, itself among them: the leaving
at which that comes to none is its own. -/
def prune (cut : String → Bool) : (inside : Nat) → List Event → List Event
  | _, [] => []
  | 0, .enter el :: es => .enter el :: prune cut (if cut el.key then 1 else 0) es
  | 0, e :: es => e :: prune cut 0 es
  | inside + 1, .enter _ :: es => prune cut (inside + 2) es
  | 1, .leave el :: es => .leave el :: prune cut 0 es
  | inside + 2, .leave _ :: es => prune cut (inside + 1) es
  | inside + 1, _ :: es => prune cut (inside + 1) es

variable {cut : String → Bool}

/-- Inside an element that is cut, events that open and close in pairs are passed over. -/
theorem Balanced.prune_inside {es : List Event} (h : Balanced es) (inside : Nat)
    (fs : List Event) : prune cut (inside + 1) (es ++ fs) = prune cut (inside + 1) fs := by
  induction h generalizing inside fs with
  | nil => rfl
  | element el _ _ ihInside ihAfter =>
    rw [List.cons_append, List.append_assoc, List.cons_append, prune, ihInside, prune, ihAfter]
  | item i _ _ ihInside ihAfter =>
    rw [List.cons_append, List.append_assoc, List.cons_append, prune, ihInside, prune, ihAfter]
    all_goals simp

theorem prune_cut {el : ShownElement} (hcut : cut el.key = true) {inside : List Event}
    (h : Balanced inside) (after : List Event) :
    prune cut 0 (.enter el :: (inside ++ .leave el :: after))
      = .enter el :: .leave el :: prune cut 0 after := by
  rw [prune, if_pos hcut, h.prune_inside, prune]

theorem prune_kept {el : ShownElement} (hcut : cut el.key = false) (es : List Event) :
    prune cut 0 (.enter el :: es) = .enter el :: prune cut 0 es := by
  rw [prune, hcut]
  rfl

theorem prune_other {e : Event} (h : ∀ el, e ≠ .enter el) (es : List Event) :
    prune cut 0 (e :: es) = e :: prune cut 0 es := by
  cases e with
  | enter el => exact absurd rfl (h el)
  | leave _ | enterItem _ | leaveItem _ => rfl

/-- **Nothing that is deleted reaches beyond events that open and close in pairs.** -/
theorem Balanced.prune_append {es : List Event} (h : Balanced es) (fs : List Event) :
    prune cut 0 (es ++ fs) = prune cut 0 es ++ prune cut 0 fs := by
  induction h generalizing fs with
  | nil => rfl
  | @element el inside after hinside _ ihInside ihAfter =>
    have hleave : ∀ gs, prune cut 0 (.leave el :: gs) = .leave el :: prune cut 0 gs :=
      prune_other fun _ => Event.noConfusion
    rw [List.cons_append, List.append_assoc, List.cons_append]
    cases hcut : cut el.key with
    | true =>
      rw [prune_cut hcut hinside, prune_cut hcut hinside, ihAfter]
      rfl
    | false =>
      rw [prune_kept hcut, prune_kept hcut, ihInside, ihInside, hleave, hleave, ihAfter,
        List.cons_append, List.append_assoc]
      rfl
  | @item i inside after _ _ ihInside ihAfter =>
    have henter : ∀ gs, prune cut 0 (.enterItem i :: gs) = .enterItem i :: prune cut 0 gs :=
      prune_other fun _ => Event.noConfusion
    have hleave : ∀ gs, prune cut 0 (.leaveItem i :: gs) = .leaveItem i :: prune cut 0 gs :=
      prune_other fun _ => Event.noConfusion
    rw [List.cons_append, List.append_assoc, List.cons_append, henter, henter, ihInside, ihInside,
      hleave, hleave, ihAfter, List.cons_append, List.append_assoc]
    rfl

end Event

open Event Outline

/-! ## What a scribe writes -/

variable {cut : String → Bool}

mutual

/-- **A scribe that stops at some elements writes the pruned account.** -/
theorem Outline.tour_pruned : ∀ (o : Outline) (past : List Event),
    tour (.scribe fun _ el => !cut el.key) o past = past ++ prune cut 0 (account o)
  | .element shown inside, past => by
      have ih := Outline.tourAll_pruned inside (past ++ [.enter shown])
      have hbalanced := Outline.balanced_accountAll inside
      have hleave : ∀ es, (Visitor.scribe fun _ el => !cut el.key).leave es shown
          = es ++ [.leave shown] := fun _ => rfl
      rw [tour, account]
      cases hcut : cut shown.key with
      | true =>
        -- nothing is told of what is inside, and all of it is deleted
        have henter : (Visitor.scribe fun _ el => !cut el.key).enter past shown
            = (false, past ++ [.enter shown]) := congrArg (fun b => (!b, _)) hcut
        rw [prune_cut hcut hbalanced, henter]
        dsimp only
        rw [hleave, List.append_assoc]
        rfl
      | false =>
        -- what is inside is pruned by itself, since nothing that is deleted reaches beyond it
        have henter : (Visitor.scribe fun _ el => !cut el.key).enter past shown
            = (true, past ++ [.enter shown]) := congrArg (fun b => (!b, _)) hcut
        rw [prune_kept hcut, hbalanced.prune_append, henter]
        dsimp only
        rw [hleave, ih, List.append_assoc, List.append_assoc]
        rfl
  | .item i inside, past => by
      have ih := Outline.tourAll_pruned inside (past ++ [.enterItem i])
      have hbalanced := Outline.balanced_accountAll inside
      have henter : (Visitor.scribe fun _ el => !cut el.key).enterItem past i
          = past ++ [.enterItem i] := rfl
      have hleave : ∀ es, (Visitor.scribe fun _ el => !cut el.key).leaveItem es i
          = es ++ [.leaveItem i] := fun _ => rfl
      rw [tour, henter, ih, hleave, account, prune_other fun _ => Event.noConfusion,
        hbalanced.prune_append, List.append_assoc, List.append_assoc]
      rfl

theorem Outline.tourAll_pruned : ∀ (os : List Outline) (past : List Event),
    tourAll (.scribe fun _ el => !cut el.key) os past = past ++ prune cut 0 (accountAll os)
  | [], past => (List.append_nil past).symm
  | o :: os, past => by
      rw [tourAll, Outline.tour_pruned o, Outline.tourAll_pruned os, accountAll,
        (Outline.balanced_account o).prune_append, List.append_assoc]

end

/-! ## Recorded events -/

theorem Visitor.foldl_hear_recorder (descend : ShownElement → Bool) (past : Array Event)
    (es : List Event) :
    (es.foldl (Visitor.recorder descend).hear past).toList = past.toList ++ es := by
  induction es generalizing past with
  | nil => exact (List.append_nil past.toList).symm
  | cons e es ih =>
    have hear : (Visitor.recorder descend).hear past e = past.push e := by cases e <;> rfl
    rw [List.foldl_cons, hear, ih, Array.toList_push, List.append_assoc]
    rfl

/-- The recorder records what a scribe writes that gives the same answers. -/
theorem Spec.events_eq (spec : Spec) (descend : ShownElement → Bool) (state : Value) :
    spec.events descend state = spec.walk (.scribe fun _ => descend) state [] := by
  have hanswer : (Visitor.recorder descend).answerAfter #[] = fun _ => descend := rfl
  rw [Spec.events, walk_eq_foldl, Visitor.foldl_hear_recorder, hanswer]
  rfl

theorem Spec.events_account (spec : Spec) (state : Value) :
    spec.events (fun _ => true) state = accountAll (spec.scene state) := by
  rw [Spec.events_eq, walk_scribe_eq_account]

theorem walk_scribe_pruned (spec : Spec) (state : Value) (cut : String → Bool) :
    spec.walk (.scribe fun _ el => !cut el.key) state []
      = prune cut 0 (spec.events (fun _ => true) state) := by
  rw [walk_eq_tour, Spec.events_account]
  exact Outline.tourAll_pruned (spec.scene state) []

/--
**Pruning only removes.** Take any spec, with cycles or without, any state and any set of keys that
are cut.

The events of the walk that goes below every element but these are the events of the walk that goes
below every element, without those strictly between the entering of an element that is cut and its
leaving. They are also what any other visitor is told that answers no exactly on entering an
element that is cut.
-/
theorem pruning_only_removes (spec : Spec) (state : Value) (cut : String → Bool) :
    spec.events (fun el => !cut el.key) state = prune cut 0 (spec.events (fun _ => true) state)
      ∧ ∀ {σ : Type} (v : Visitor σ) (s : σ), (∀ s el, (v.enter s el).1 = !cut el.key) →
        spec.walk v state s
          = (prune cut 0 (spec.events (fun _ => true) state)).foldl v.hear s := by
  refine ⟨?_, ?_⟩
  · rw [Spec.events_eq]
    exact walk_scribe_pruned spec state cut
  · intro σ v s hv
    have hanswer : v.answerAfter s = fun _ el => !cut el.key := by
      funext es el
      exact hv (es.foldl v.hear s) el
    rw [walk_eq_foldl, hanswer, walk_scribe_pruned]

/-- Two elements that are children of each other, of which one is cut: inside the other one as
well, where nothing is told of it but that it is there. -/
theorem pruning_only_removes_in_cycle :
    let a : Element := { type := "A", children := ["b", "c"] }
    let b : Element := { type := "B", children := ["c"] }
    let c : Element := { type := "C", children := ["b"] }
    let spec : Spec := { root := "a", elements := [("a", a), ("b", b), ("c", c)] }
    let full := spec.events (fun _ => true) .null
    let stop : ShownElement → Bool := fun el => !(el.key == "b")
    full.length = 10 ∧ (spec.events stop .null).length = 8
      ∧ spec.events stop .null = prune (· == "b") 0 full
      ∧ spec.walk (.recorder stop) .null #[]
          = (prune (· == "b") 0 full).foldl (Visitor.recorder stop).hear #[] := by
  intro a b c spec full stop
  obtain ⟨hevents, hvisitor⟩ := pruning_only_removes spec .null (· == "b")
  exact ⟨by decide +kernel, by decide +kernel, hevents, hvisitor _ #[] fun _ _ => rfl⟩

end ViewStream
