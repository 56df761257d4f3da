import ViewStream.Proofs.Document.Lookup

/-!
# Adds accumulate in the order of their arrival

An item is appended to an array in two ways: by an `add` at the array itself, which looks at what
the object around it holds, and by an `add` one segment below it, whatever that segment says. The
two take different branches of the walk and of its leaf, but they leave the same document: **the
one before, with the array exchanged for a longer one** (`Patch.apply_extends`).

So nothing else is there to be found by the next one. The array is still an array and the object
around it is still an object, and an exchange made after another at the same place is as if it were
the only one (`graft_graft`): a run of such adds is one exchange.
-/

namespace ViewStream

open Json (Value)
open Document
open Pointer (child? follow?)

namespace Patch

/-- The patch adds to the array that `p` reads in `d`. -/
inductive Extends (p : Pointer) (d : Value) : Patch → Prop
  /-- It is an `add` at `p`, of a value that is no array, and `p` is a member of an object. -/
  | member {path t : String} {q : Pointer} {ms : List (String × Value)} {value : Value}
      (hpath : Pointer.parse path = p) (hsplit : p.splitLast = some (q, t))
      (hparent : q.get? d = some (.obj ms)) (hvalue : value.kind ≠ .array) :
      Extends p d ⟨.add, path, some value⟩
  /-- It is an `add` one segment below `p`, of any value. -/
  | below {path t : String} {value : Value} (hpath : Pointer.parse path = p.join t) :
      Extends p d ⟨.add, path, some value⟩

/-! ## One add -/

theorem apply_add (mode : Mode) (path : String) (value d : Value) :
    apply mode ⟨.add, path, some value⟩ d
      = ((add mode (Pointer.parse path) value d).1,
        (add mode (Pointer.parse path) value d).2.map (.blocked .add path)) := rfl

/-- An `add` whose parent is there exchanges the parent for what the leaf makes of it. -/
theorem add_eq_graft {path : Pointer} {q : List String} {t : String} (h : path.segments = q ++ [t])
    (mode : Mode) (value : Value) {d c : Value} (hc : follow? q d = some c) (hne : c ≠ .null) :
    add mode path value d = (graft q (addLeaf value t c).1 d, (addLeaf value t c).2) := by
  obtain ⟨first, rest, hfirst⟩ := exists_cons_eq_concat q t
  rw [add, h, hfirst]
  exact write_eq_graft mode (addLeaf value) hfirst.symm hc hne

/-- At a member that is an array, a value that is no array is appended to it. -/
theorem addLeaf_member {ms : List (String × Value)} {t : String} {xs : List Value}
    (h : ms.lookup t = some (.arr xs)) {value : Value} (hvalue : value.kind ≠ .array) :
    addLeaf value t (.obj ms) = (.obj (KeyMap.insert t (.arr (xs ++ [value])) ms), none) := by
  unfold addLeaf
  dsimp only
  rw [h]
  cases value with
  | arr ys => exact absurd rfl hvalue
  | null | bool _ | num _ | str _ | obj _ => rfl

/--
**Both ways to add to an array are one**: the patch succeeds, and the document is the one before
with its value appended to the array.
-/
theorem apply_extends {p : Pointer} {d : Value} {xs : List Value} (hxs : p.get? d = some (.arr xs))
    {patch : Patch} (h : patch.Extends p d) (mode : Mode) :
    ∃ value, patch.value = some value
      ∧ patch.apply mode d = (graft p.segments (.arr (xs ++ [value])) d, none) := by
  cases h with
  | @member path t q ms value hpath hsplit hparent hvalue =>
    refine ⟨value, rfl, ?_⟩
    have hsegments := Pointer.segments_of_splitLast hsplit
    have hlookup : ms.lookup t = some (.arr xs) := by
      rw [get?_eq_child? hsegments, show follow? q.segments d = some (.obj ms) from hparent] at hxs
      exact hxs
    rw [apply_add, hpath, add_eq_graft hsegments mode value hparent (by simp),
      addLeaf_member hlookup hvalue]
    -- the object with a longer member is what exchanging the member makes of it
    rw [hsegments, graft_append hparent, graft, show child? (.obj ms) t = _ from hlookup]
    rfl
  | @below path t value hpath =>
    refine ⟨value, rfl, ?_⟩
    have hsegments : (Pointer.parse path).segments = p.segments ++ [t] := by rw [hpath]; rfl
    rw [apply_add, add_eq_graft hsegments mode value hxs (by simp)]
    rfl

/-! ## A run of them -/

/-- What adds to an array still does when the array has been exchanged for another value. -/
theorem Extends.exchange {p : Pointer} {d x : Value} (hx : p.get? d = some x) {patch : Patch}
    (h : patch.Extends p d) (w : Value) : patch.Extends p (graft p.segments w d) := by
  cases h with
  | below hpath => exact .below hpath
  | @member path t q ms value hpath hsplit hparent hvalue =>
    have hsegments := Pointer.segments_of_splitLast hsplit
    have hlookup : child? (.obj ms) t = some x := by
      rw [get?_eq_child? hsegments, show follow? q.segments d = some (.obj ms) from hparent] at hx
      exact hx
    have hparent' : q.get? (graft p.segments w d) = some (.obj (KeyMap.insert t w ms)) := by
      rw [Pointer.get?, hsegments, graft_append hparent, follow?_graft hparent, graft, hlookup]
      rfl
    exact .member hpath hsplit hparent' hvalue

/-- **A run of adds to an array is one exchange of it.** -/
theorem applyAll_extends (mode : Mode) {p : Pointer} {ps : List Patch} {d : Value}
    {xs : List Value} (hxs : p.get? d = some (.arr xs)) (hps : ∀ patch ∈ ps, patch.Extends p d) :
    ∃ values, ps.map Patch.value = values.map some
      ∧ applyAll mode ps d = (graft p.segments (.arr (xs ++ values)) d, none) := by
  induction ps generalizing d xs with
  | nil =>
    refine ⟨[], rfl, ?_⟩
    rw [List.append_nil, graft_follow? hxs]
    rfl
  | cons patch ps ih =>
    obtain ⟨hpatch, hrest⟩ := List.forall_mem_cons.mp hps
    obtain ⟨value, hvalue, happly⟩ := apply_extends hxs hpatch mode
    -- the rest of the run finds the array one item longer
    obtain ⟨values, hvalues, hrun⟩ :=
      ih (follow?_graft hxs _) fun patch' h => (hrest patch' h).exchange hxs (.arr (xs ++ [value]))
    refine ⟨value :: values, by rw [List.map_cons, List.map_cons, hvalue, hvalues], ?_⟩
    rw [applyAll, happly]
    dsimp only
    rw [hrun, graft_graft hxs, List.append_assoc]
    rfl

end Patch

/--
**Adds accumulate in the order of their arrival.** Let `p` read an array in a document, and take
any run of `add`s each of which is at `p`, if `p` is a member of an object and the value is no
array, or one segment below `p`, whatever the segment and the value. In either mode every one of
them succeeds, `p` then reads the array followed by the values in their order, and nothing else in
the document is different.
-/
theorem adds_accumulate {p : Pointer} {d : Value} {xs : List Value}
    (hxs : p.get? d = some (.arr xs)) {ps : List Patch}
    (hps : ∀ patch ∈ ps, patch.Extends p d) (mode : Mode) :
    ∃ values d', ps.map Patch.value = values.map some
      ∧ Patch.applyAll mode ps d = (d', none)
      ∧ p.get? d' = some (.arr (xs ++ values))
      ∧ d' = graft p.segments (.arr (xs ++ values)) d := by
  obtain ⟨values, hvalues, hrun⟩ := Patch.applyAll_extends mode hxs hps
  exact ⟨values, _, hvalues, hrun, follow?_graft hxs _, rfl⟩

/-- Adds at a list and below it, at its first position, its end, a position far beyond and a name;
an array is a value for those below. -/
theorem adds_accumulate_by_both_ways :
    let d : Value := .obj [("a", .obj [("xs", .arr [.ofNat 1])])]
    let ps : List Patch := [⟨.add, "/a/xs/0", some (.arr [])⟩, ⟨.add, "/a/xs", some (.str "b")⟩,
      ⟨.add, "a/xs/-", some .null⟩, ⟨.add, "/a/xs/99", some (.str "c")⟩,
      ⟨.add, "/a/xs/last", some (.bool true)⟩, ⟨.add, "/a/xs", some (.obj [])⟩]
    (⟨["a", "xs"]⟩ : Pointer).get? d = some (.arr [.ofNat 1])
      ∧ (∀ patch ∈ ps, patch.Extends ⟨["a", "xs"]⟩ d)
      ∧ Patch.applyAll .strict ps d
        = (.obj [("a", .obj [("xs", .arr [.ofNat 1, .arr [], .str "b", .null,
          .str "c", .bool true, .obj []])])], none) := by
  intro d ps
  have hxs : (⟨["a", "xs"]⟩ : Pointer).get? d = some (.arr [.ofNat 1]) := by decide +kernel
  have hparent : (⟨["a"]⟩ : Pointer).get? d = some (.obj [("xs", .arr [.ofNat 1])]) := by
    decide +kernel
  have hps : ∀ patch ∈ ps, patch.Extends ⟨["a", "xs"]⟩ d := by
    intro patch hpatch
    simp only [ps, List.mem_cons, List.not_mem_nil, or_false] at hpatch
    rcases hpatch with rfl | rfl | rfl | rfl | rfl | rfl
    · exact .below (by decide +kernel : _ = Pointer.join _ "0")
    · exact .member (by decide +kernel) (by decide +kernel : _ = some (⟨["a"]⟩, "xs")) hparent
        (by decide)
    · exact .below (by decide +kernel : _ = Pointer.join _ "-")
    · exact .below (by decide +kernel : _ = Pointer.join _ "99")
    · exact .below (by decide +kernel : _ = Pointer.join _ "last")
    · exact .member (by decide +kernel) (by decide +kernel : _ = some (⟨["a"]⟩, "xs")) hparent
        (by decide)
  obtain ⟨values, d', hvalues, hrun, _, hd'⟩ := adds_accumulate hxs hps .strict
  refine ⟨hxs, hps, ?_⟩
  obtain rfl : values = [.arr [], .str "b", .null, .str "c", .bool true, .obj []] :=
    (List.map_inj_right fun _ _ => Option.some.inj).mp hvalues.symm
  rw [hrun, hd']
  decide +kernel

end ViewStream
