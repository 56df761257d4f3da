import ViewStream.Document.Apply

/-!
# A failed edit leaves no trace

A lenient walk makes the containers it misses, and it may be stopped by an obstacle. If it could be
stopped *after* it had made something, a failed patch would leave containers behind that nobody
asked for. It cannot:

**once a walk has made a container, nothing stops it any more.** The container was made for the
segment that is looked up in it next, so that segment is accepted; what it names is missing from an
empty container, so the next container is made as well, and so on down to the leaf.

So an obstacle is met, if at all, while everything entered so far was there before, and putting the
children back in their places changes nothing (`KeyMap.insert_lookup`, `putItem_getElem?`).

What the last segment does is a parameter of the walk. `Leaf.Atomic` and `Leaf.Fits` are what a
walk asks of it.
-/

namespace ViewStream.Document

open Json (Value)

/-! ## What a walk asks of its leaf -/

/-- A leaf that leaves the container it cannot change as it was. -/
def Leaf.Atomic (leaf : String → Value → Value × Option Obstacle) : Prop :=
  ∀ last v o, (leaf last v).2 = some o → (leaf last v).1 = v

/-- A leaf that accepts every container made for its segment. -/
def Leaf.Fits (leaf : String → Value → Value × Option Obstacle) : Prop :=
  ∀ last, (leaf last (containerFor last)).2 = none

/-- A container is made as an array for a place in an array, and as an object otherwise. -/
theorem containerFor_cases (s : String) :
    (Pointer.isIndexLike s = true ∧ containerFor s = .arr []) ∨ containerFor s = .obj [] := by
  unfold containerFor
  split
  · rename_i h; exact Or.inl ⟨h, rfl⟩
  · exact Or.inr rfl

/-- Every place one can name in an empty array is its end, for a lenient edit. -/
theorem slot_lenient_empty {s : String} (h : Pointer.isIndexLike s = true) :
    slot .lenient 0 s = .ok 0 := by
  unfold slot
  split
  · rfl
  · rename_i hdash
    cases hi : Pointer.index? s with
    | none => exact absurd h (by simp [Pointer.isIndexLike, hdash, hi])
    | some i =>
      dsimp only
      split
      · rename_i hle; rw [Nat.le_zero.mp hle]
      · rfl

theorem addLeaf_atomic (value : Value) : Leaf.Atomic (addLeaf value) := by
  intro last v o h
  cases v with
  | obj ms =>
    unfold addLeaf at h
    dsimp only at h
    split at h <;> exact absurd h (by simp)
  | arr xs => exact absurd h (by simp [addLeaf])
  | null | bool _ | num _ | str _ => rfl

theorem addLeaf_fits (value : Value) : Leaf.Fits (addLeaf value) := by
  intro last
  rcases containerFor_cases last with ⟨_, hc⟩ | hc <;> rw [hc]
  · rfl
  · simp [addLeaf]

theorem setLeaf_atomic (mode : Mode) (value : Value) : Leaf.Atomic (setLeaf mode value) := by
  intro last v o h
  cases v with
  | obj ms => exact absurd h (by simp [setLeaf])
  | arr xs =>
    rw [setLeaf] at h ⊢
    cases hs : slot mode xs.length last with
    | error o' => rfl
    | ok i => rw [hs] at h; exact absurd h (by simp)
  | null | bool _ | num _ | str _ => rfl

theorem setLeaf_fits (value : Value) : Leaf.Fits (setLeaf .lenient value) := by
  intro last
  rcases containerFor_cases last with ⟨hidx, hc⟩ | hc <;> rw [hc]
  · rw [setLeaf, List.length_nil, slot_lenient_empty hidx]
  · rfl

/-! ## Walks that make containers -/

/-- A walk enters a child that is there, or one it has made. -/
theorem enter_cases {mode : Mode} {next : String} {found : Option Value} {child : Value}
    (h : enter mode next found = .ok child) :
    found = some child ∨ (mode = .lenient ∧ child = containerFor next) := by
  unfold enter at h
  split at h
  · exact absurd h (by simp)
  · exact absurd h (by simp)
  · exact Or.inr ⟨rfl, (Except.ok.inj h).symm⟩
  · exact Or.inr ⟨rfl, (Except.ok.inj h).symm⟩
  · exact Or.inl (congrArg some (Except.ok.inj h))

/-- Putting an item back in its place changes nothing. -/
theorem putItem_getElem? {i : Nat} {v : Value} {xs : List Value} (h : xs[i]? = some v) :
    putItem i v xs = xs := by
  obtain ⟨hi, hv⟩ := List.getElem?_eq_some_iff.mp h
  rw [putItem, if_pos hi, ← hv, List.set_getElem_self]

/-- **Nothing stops a walk in a container made for its first segment.** -/
theorem write_containerFor {leaf : String → Value → Value × Option Obstacle}
    (hfit : Leaf.Fits leaf) : ∀ (rest : List String) (first : String),
    (write .lenient leaf first rest (containerFor first)).2 = none
  | [], first => hfit first
  | next :: rest, first => by
      have ih := write_containerFor hfit rest next
      -- what the segment names is missing from the empty container, so the walk goes on in another
      rcases containerFor_cases first with ⟨hidx, hc⟩ | hc <;> rw [hc, write]
      · rw [List.length_nil, slot_lenient_empty hidx]
        exact ih
      · exact ih

/--
**A walk that is stopped leaves the document as it was.**

By induction along the path. A child that was there is unchanged by the induction hypothesis and
goes back where it was; behind a child that was made there is no obstacle.
-/
theorem write_atomic {mode : Mode} {leaf : String → Value → Value × Option Obstacle}
    (hleaf : Leaf.Atomic leaf) (hfit : mode = .lenient → Leaf.Fits leaf) :
    ∀ (rest : List String) (first : String) (v : Value) (o : Obstacle),
    (write mode leaf first rest v).2 = some o → (write mode leaf first rest v).1 = v
  | [], first, v, o, h => hleaf first v o h
  | next :: rest, first, v, o, h => by
      -- an obstacle further down was met in a child that was there
      have there : ∀ (found : Option Value) (child : Value), enter mode next found = .ok child →
          (write mode leaf next rest child).2 = some o →
          found = some child ∧ (write mode leaf next rest child).1 = child := by
        intro found child hent hstop
        rcases enter_cases hent with hf | ⟨hm, hc⟩
        · exact ⟨hf, write_atomic hleaf hfit rest next child o hstop⟩
        · subst hm; subst hc
          rw [write_containerFor (hfit rfl)] at hstop
          exact absurd hstop (by simp)
      cases v with
      | obj ms =>
        rw [write] at h ⊢
        cases hent : enter mode next (ms.lookup first) with
        | error o' => rfl
        | ok child =>
          rw [hent] at h
          obtain ⟨hf, hsame⟩ := there _ child hent h
          dsimp only
          rw [hsame, KeyMap.insert_lookup hf]
      | arr xs =>
        rw [write] at h ⊢
        cases hslot : slot mode xs.length first with
        | error o' => rfl
        | ok i =>
          rw [hslot] at h
          dsimp only at h ⊢
          cases hent : enter mode next xs[i]? with
          | error o' => rfl
          | ok child =>
            rw [hent] at h
            obtain ⟨hf, hsame⟩ := there _ child hent h
            dsimp only
            rw [hsame, putItem_getElem? hf]
      | null | bool _ | num _ | str _ => rfl

/-! ## The four operations -/

theorem add_atomic {mode : Mode} {path : Pointer} {value v : Value} {o : Obstacle}
    (h : (add mode path value v).2 = some o) : (add mode path value v).1 = v := by
  unfold add at h ⊢
  split at h
  · exact absurd h (by simp)
  · exact write_atomic (addLeaf_atomic value) (fun _ => addLeaf_fits value) _ _ v o h

theorem set_atomic {mode : Mode} {path : Pointer} {value v : Value} {o : Obstacle}
    (h : (set mode path value v).2 = some o) : (set mode path value v).1 = v := by
  unfold set at h ⊢
  split at h
  · exact absurd h (by simp)
  · exact write_atomic (setLeaf_atomic mode value)
      (fun hm => by subst hm; exact setLeaf_fits value) _ _ v o h

/-- An edit that only reports its obstacle has not touched the document. -/
theorem recover_atomic {mode : Mode} {v : Value} {r : Except Obstacle Value} {o : Obstacle}
    (h : (recover mode v r).2 = some o) : (recover mode v r).1 = v := by
  unfold recover at h ⊢
  split at h
  · exact absurd h (by simp)
  · split at h <;> rfl

theorem replace_atomic {mode : Mode} {path : Pointer} {value v : Value} {o : Obstacle}
    (h : (replace mode path value v).2 = some o) : (replace mode path value v).1 = v := by
  unfold replace at h ⊢
  split at h
  · exact absurd h (by simp)
  · exact recover_atomic h

theorem remove_atomic {mode : Mode} {path : Pointer} {v : Value} {o : Obstacle}
    (h : (remove mode path v).2 = some o) : (remove mode path v).1 = v := by
  unfold remove at h ⊢
  split at h
  · exact absurd h (by simp)
  · exact recover_atomic h

end ViewStream.Document

namespace ViewStream.Patch

open Json (Value)
open Document

/-! ## Patches -/

theorem edit_atomic {mode : Mode} {p : Patch} {v v' : Value} {o : Obstacle}
    (h : p.edit mode v = some (v', some o)) : v' = v := by
  obtain ⟨op, path, value⟩ := p
  -- each operation hands over the pair that its document edit returns
  have pair : ∀ {r : Value × Option Obstacle}, some r = some (v', some o) →
      (r.2 = some o → r.1 = v) → v' = v := by
    intro r hr hv
    have hr := Option.some.inj hr
    have := hv (by rw [hr])
    rwa [hr] at this
  unfold edit at h
  dsimp only at h
  split at h
  · exact pair h remove_atomic
  · exact pair h add_atomic
  · exact pair h set_atomic
  · exact pair h replace_atomic
  · exact absurd h (by simp)

/-- **All that applying a patch can do**: it succeeds, or it is stopped and the document is the one
it was given, or it lacks its value and is not tried. -/
theorem apply_cases (mode : Mode) (p : Patch) (v : Value) :
    (∃ v', p.edit mode v = some (v', none) ∧ p.apply mode v = (v', none))
      ∨ (∃ o, p.edit mode v = some (v, some o)
        ∧ p.apply mode v = (v, some (.blocked p.op p.path o)))
      ∨ (p.edit mode v = none ∧ p.apply mode v = (v, some (.missingValue p.op))) := by
  unfold apply
  cases hed : p.edit mode v with
  | none => exact Or.inr (Or.inr ⟨rfl, rfl⟩)
  | some r =>
    obtain ⟨v', stop⟩ := r
    cases stop with
    | none => exact Or.inl ⟨v', rfl, rfl⟩
    | some o =>
      have := edit_atomic hed
      subst this
      exact Or.inr (Or.inl ⟨o, rfl, rfl⟩)

/--
**A failed patch is atomic.** Whatever the operation, the path, the value and the mode: if applying
a patch reports an error, the document afterwards is the document before.

In particular a lenient `add` or `set` that fails leaves behind no container it made on the way, no
null it filled and no slot it appended.
-/
theorem apply_atomic (mode : Mode) (p : Patch) (v : Value) {e : ApplyError}
    (h : (p.apply mode v).2 = some e) : (p.apply mode v).1 = v := by
  rcases apply_cases mode p v with ⟨v', _, ha⟩ | ⟨o, _, ha⟩ | ⟨_, ha⟩
  · rw [ha] at h
    exact absurd h (by simp)
  · rw [ha]
  · rw [ha]

/-- A walk that finds a string where it wants to make containers leaves the string. -/
theorem apply_atomic_into_string :
    let p : Patch := ⟨.add, "/a/s/new/0", some .null⟩
    let v := Value.obj [("a", .obj [("n", .null), ("s", .str "x")])]
    (p.apply .lenient v).2 = some (.blocked .add "/a/s/new/0" (.notAContainer .string))
      ∧ (p.apply .lenient v).1 = v := by
  intro p v
  have hstop : (p.apply .lenient v).2
      = some (.blocked .add "/a/s/new/0" (.notAContainer .string)) := by decide
  exact ⟨hstop, apply_atomic .lenient p v hstop⟩

end ViewStream.Patch
