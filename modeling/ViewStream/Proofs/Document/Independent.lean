import ViewStream.Proofs.Document.Location

/-!
# Independent sets may arrive in any order

The parts of a view arrive in the order in which they were thought of, and a `set` makes what it
needs on its way. Of several sets below one place that is missing the first makes the container,
and the others find it there: **that must not make a difference**, neither to the document nor to
whether a set fails.

It makes none for lenient sets whose paths are names all the way and none of which leads to a part
of another. A name is never a place in an array, so whatever they make is an object, in the same
places, and what is in the way of one of them is out of reach of the others. `write_set_comm` says
so of two walks; every order of a list then follows from exchanging two at a time.
-/

namespace ViewStream.Document

open Json (Value)
open Pointer (child? follow? index?)

/-! ## One walk along names -/

/-- No segment is a place in an array. -/
def Named (path : List String) : Prop := ∀ s ∈ path, Pointer.isIndexLike s = false

theorem Named.tail {s : String} {path : List String} (h : Named (s :: path)) : Named path :=
  fun t ht => h t (List.mem_cons_of_mem s ht)

theorem containerFor_named {s : String} (h : Pointer.isIndexLike s = false) :
    containerFor s = .obj [] := by
  rw [containerFor, h]
  rfl

/-- So which of two names comes next does not matter to what is made. -/
theorem childFor_named {s t : String} (hs : Pointer.isIndexLike s = false)
    (ht : Pointer.isIndexLike t = false) (found : Option Value) :
    childFor s found = childFor t found := by
  cases found with
  | none => rw [childFor, childFor, containerFor_named hs, containerFor_named ht]
  | some child =>
    cases child with
    | null => rw [childFor, childFor, containerFor_named hs, containerFor_named ht]
    | bool _ | num _ | str _ | arr _ | obj _ => rfl

/-- What a lenient set makes of the member that its first segment names, and what stops it
below. -/
def grown (value : Value) : List String → Option Value → Value × Option Obstacle
  | [], _ => (value, none)
  | next :: rest, found => write .lenient (setLeaf .lenient value) next rest (childFor next found)

/-- **A set in an object writes one member**, also if it was stopped below. -/
theorem write_set_obj (value : Value) (s : String) (rest : List String)
    (ms : List (String × Value)) :
    write .lenient (setLeaf .lenient value) s rest (.obj ms)
      = (.obj (KeyMap.insert s (grown value rest (ms.lookup s)).1 ms),
        (grown value rest (ms.lookup s)).2) := by
  cases rest with
  | nil => rfl
  | cons next rest =>
    have hobj : barrier .lenient s (.obj ms) = none := rfl
    rw [write_cons, hobj]
    dsimp only
    rw [enter_lenient]
    rfl

/-- Where there is no object, a name is not written. -/
theorem write_set_named {s : String} (hs : Pointer.isIndexLike s = false) {v : Value}
    (h : ∀ ms, v ≠ .obj ms) (value : Value) (rest : List String) :
    ∃ o, write .lenient (setLeaf .lenient value) s rest v = (v, some o) := by
  have hbar : ∃ o, barrier .lenient s v = some o := by
    cases v with
    | obj ms => exact absurd rfl (h ms)
    | arr xs => exact ⟨.badIndex s, by rw [barrier, slot_not_index hs]⟩
    | null | bool _ | num _ | str _ => exact ⟨_, rfl⟩
  obtain ⟨o, hbar⟩ := hbar
  refine ⟨o, ?_⟩
  cases rest with
  | nil => rw [write, setLeaf_eq, hbar]
  | cons next rest => rw [write_cons, hbar]

/-- Whether it was stopped or not, a set leaves no null where there was none. -/
theorem write_set_keeps_ne_null (value : Value) (s : String) (rest : List String) {v : Value}
    (h : v ≠ .null) : (write .lenient (setLeaf .lenient value) s rest v).1 ≠ .null := by
  have hatomic : ∀ o, (write .lenient (setLeaf .lenient value) s rest v).2 = some o →
      (write .lenient (setLeaf .lenient value) s rest v).1 = v :=
    fun o => write_atomic (setLeaf_atomic .lenient value) (fun _ => setLeaf_fits value) rest s v o
  cases hstop : (write .lenient (setLeaf .lenient value) s rest v).2 with
  | some o =>
    rw [hatomic o hstop]
    exact h
  | none => exact write_set_ne_null (Prod.ext rfl hstop)

/-! ## Two walks -/

section

variable {value value' : Value} {s s' : String} {rest rest' : List String}

/-- Two runs over one value that commute: the same comes of both orders, and the second of them
comes out as it would have without the first. -/
def Commute (run run' : Value → Value × Option Obstacle) (v : Value) : Prop :=
  (run' (run v).1).1 = (run (run' v).1).1 ∧ (run' (run v).1).2 = (run' v).2

theorem write_set_comm_stopped {v : Value} (hs : Pointer.isIndexLike s = false)
    (hs' : Pointer.isIndexLike s' = false) (h : ∀ ms, v ≠ .obj ms) :
    Commute (write .lenient (setLeaf .lenient value) s rest)
      (write .lenient (setLeaf .lenient value') s' rest') v := by
  obtain ⟨o, hrun⟩ := write_set_named hs h value rest
  obtain ⟨o', hrun'⟩ := write_set_named hs' h value' rest'
  rw [Commute, hrun, hrun']
  dsimp only
  rw [hrun]
  exact ⟨rfl, rfl⟩

/-- Where they part they write different members. -/
theorem write_set_comm_members (hne : s ≠ s') (ms : List (String × Value)) :
    Commute (write .lenient (setLeaf .lenient value) s rest)
      (write .lenient (setLeaf .lenient value') s' rest') (.obj ms) := by
  rw [Commute, write_set_obj, write_set_obj]
  dsimp only
  rw [write_set_obj, write_set_obj, KeyMap.lookup_insert_of_ne (Ne.symm hne),
    KeyMap.lookup_insert_of_ne hne, KeyMap.insert_comm hne]
  exact ⟨rfl, rfl⟩

/-- Before that each goes on in what the other has left of the child that both go on in. -/
theorem write_set_comm_below {next next' : String} (hnext : Pointer.isIndexLike next = false)
    (hnext' : Pointer.isIndexLike next' = false) (ms : List (String × Value))
    (h : Commute (write .lenient (setLeaf .lenient value) next rest)
      (write .lenient (setLeaf .lenient value') next' rest') (childFor next (ms.lookup s))) :
    Commute (write .lenient (setLeaf .lenient value) s (next :: rest))
      (write .lenient (setLeaf .lenient value') s (next' :: rest')) (.obj ms) := by
  have hchild : childFor next' (ms.lookup s) = childFor next (ms.lookup s) :=
    childFor_named hnext' hnext _
  have hgrown : grown value' (next' :: rest') (ms.lookup s)
      = write .lenient (setLeaf .lenient value') next' rest' (childFor next (ms.lookup s)) := by
    rw [grown, hchild]
  have hleft := write_set_keeps_ne_null value next rest (childFor_ne_null next (ms.lookup s))
  have hleft' := write_set_keeps_ne_null value' next' rest' (childFor_ne_null next (ms.lookup s))
  obtain ⟨hdoc, hstop⟩ := h
  rw [Commute, write_set_obj, write_set_obj]
  dsimp only
  rw [write_set_obj, write_set_obj, KeyMap.lookup_insert_self, KeyMap.lookup_insert_self,
    KeyMap.insert_insert, KeyMap.insert_insert, hgrown, grown, grown, grown, childFor_of_ne hleft,
    childFor_of_ne hleft', hdoc]
  exact ⟨rfl, hstop⟩

end

/--
**Two sets along names commute**, and neither decides whether the other one fails, if neither path
leads to a part of the other. By induction along what the paths have in common.
-/
theorem write_set_comm {value value' : Value} : ∀ (rest rest' : List String) (s s' : String)
    (v : Value), Named (s :: rest) → Named (s' :: rest') → Apart (s :: rest) (s' :: rest') →
    Commute (write .lenient (setLeaf .lenient value) s rest)
      (write .lenient (setLeaf .lenient value') s' rest') v := by
  intro rest
  induction rest with
  | nil =>
    intro rest' s s' v hname hname' hapart
    have hne : s ≠ s' := by
      rintro rfl
      exact apart_nil (apart_cons.mp hapart)
    cases v with
    | obj ms => exact write_set_comm_members hne ms
    | null | bool _ | num _ | str _ | arr _ =>
      exact write_set_comm_stopped (hname s List.mem_cons_self) (hname' s' List.mem_cons_self)
        (by simp)
  | cons next rest ih =>
    intro rest' s s' v hname hname' hapart
    cases v with
    | obj ms =>
      by_cases hsame : s = s'
      · subst hsame
        rw [apart_cons] at hapart
        cases rest' with
        | nil => exact absurd hapart apart_nil_right
        | cons next' rest' =>
          -- they part further down, so both go on in the same child
          exact write_set_comm_below (hname.tail next List.mem_cons_self)
            (hname'.tail next' List.mem_cons_self) ms
            (ih rest' next next' _ hname.tail hname'.tail hapart)
      · exact write_set_comm_members hsame ms
    | null | bool _ | num _ | str _ | arr _ =>
      exact write_set_comm_stopped (hname s List.mem_cons_self) (hname' s' List.mem_cons_self)
        (by simp)

theorem set_comm {path path' : Pointer} (hname : Named path.segments)
    (hname' : Named path'.segments) (hapart : Apart path.segments path'.segments)
    (value value' v : Value) :
    Commute (set .lenient path value) (set .lenient path' value') v := by
  cases hp : path.segments with
  | nil => exact absurd (hp ▸ hapart) apart_nil
  | cons s rest =>
    cases hp' : path'.segments with
    | nil => exact absurd (hp' ▸ hapart) apart_nil_right
    | cons s' rest' =>
      rw [set_of_segments hp, set_of_segments hp']
      rw [hp] at hname hapart
      rw [hp'] at hname' hapart
      exact write_set_comm rest rest' s s' v hname hname' hapart

end ViewStream.Document

namespace ViewStream

open Json (Value)
open Document

namespace Patch

/-! ## Many patches -/

/-- A `set` with a value whose path is names all the way. -/
def IsNamedSet (p : Patch) : Prop :=
  p.op = .set ∧ p.value.isSome ∧ Named (Pointer.parse p.path).segments

/-- Neither path leads to a part of the other. -/
def Independent (p q : Patch) : Prop :=
  Apart (Pointer.parse p.path).segments (Pointer.parse q.path).segments

/-- Apply patches in order, each of them whatever becomes of the others: the document at the end,
and how each patch came out. -/
def applyEach (mode : Mode) : List Patch → Value → Value × List (Option ApplyError)
  | [], d => (d, [])
  | p :: ps, d =>
    let (d, outcome) := p.apply mode d
    let (d, outcomes) := applyEach mode ps d
    (d, outcome :: outcomes)

theorem applyEach_document (mode : Mode) (ps : List Patch) (d : Value) :
    (applyEach mode ps d).1 = ps.foldl (fun d p => (p.apply mode d).1) d := by
  induction ps generalizing d with
  | nil => rfl
  | cons p ps ih => exact ih (p.apply mode d).1

/-- Stopping at the first error makes no difference where there is none. -/
theorem applyAll_eq_applyEach (mode : Mode) (ps : List Patch) (d : Value) :
    ((applyAll mode ps d).2 = none ↔ ∀ outcome ∈ (applyEach mode ps d).2, outcome = none)
      ∧ ((applyAll mode ps d).2 = none → (applyAll mode ps d).1 = (applyEach mode ps d).1) := by
  induction ps generalizing d with
  | nil => exact ⟨by simp [applyAll, applyEach], fun _ => rfl⟩
  | cons p ps ih =>
    rw [applyAll, applyEach]
    cases hp : p.apply mode d with
    | mk d' stop =>
      cases stop with
      | some e =>
        dsimp only
        rw [List.forall_mem_cons]
        exact ⟨iff_of_false (by simp) (by simp), fun h => absurd h (by simp)⟩
      | none =>
        obtain ⟨hiff, hdoc⟩ := ih d'
        dsimp only
        rw [List.forall_mem_cons]
        exact ⟨hiff.trans (and_iff_right rfl).symm, hdoc⟩

/-- Two of the patches, in either order. -/
theorem apply_comm {p q : Patch} (hp : p.IsNamedSet) (hq : q.IsNamedSet) (h : p.Independent q)
    (d : Value) :
    (q.apply .lenient (p.apply .lenient d).1).1 = (p.apply .lenient (q.apply .lenient d).1).1
      ∧ (q.apply .lenient (p.apply .lenient d).1).2 = (q.apply .lenient d).2 := by
  obtain ⟨op, path, value⟩ := p
  obtain ⟨op', path', value'⟩ := q
  obtain ⟨hop, hvalue, hname⟩ := hp
  obtain ⟨hop', hvalue', hname'⟩ := hq
  dsimp only at hop hvalue hname hop' hvalue' hname'
  subst hop hop'
  obtain ⟨value, rfl⟩ := Option.isSome_iff_exists.mp hvalue
  obtain ⟨value', rfl⟩ := Option.isSome_iff_exists.mp hvalue'
  obtain ⟨hdoc, hstop⟩ := set_comm hname hname' h value value' d
  have hout : ∀ w, (apply .lenient ⟨.set, path', some value'⟩ w).2
      = (set .lenient (Pointer.parse path') value' w).2.map (ApplyError.blocked .set path') :=
    fun _ => rfl
  refine ⟨hdoc, ?_⟩
  rw [hout, hout, ← hstop]
  rfl

/-- Each of the patches comes out as if it were the only one. -/
theorem applyEach_outcomes {ps : List Patch} (hsets : ∀ p ∈ ps, p.IsNamedSet)
    (hapart : ps.Pairwise Independent) (d : Value) :
    (applyEach .lenient ps d).2 = ps.map fun p => (p.apply .lenient d).2 := by
  induction ps generalizing d with
  | nil => rfl
  | cons p ps ih =>
    obtain ⟨hp, hps⟩ := List.forall_mem_cons.mp hsets
    obtain ⟨hfirst, hrest⟩ := List.pairwise_cons.mp hapart
    -- the rest come out as they would in `d`, where the first one was not applied
    rw [applyEach, List.map_cons]
    dsimp only
    rw [ih hps hrest]
    congr 1
    refine List.map_congr_left ?_
    intro q hq
    exact (apply_comm hp (hps q hq) (hfirst q hq) d).2

/-- And the document at the end does not depend on their order. -/
theorem foldl_perm {ps ps' : List Patch} (hsets : ∀ p ∈ ps, p.IsNamedSet)
    (hapart : ps.Pairwise Independent) (hperm : ps'.Perm ps) (d : Value) :
    ps'.foldl (fun d p => (p.apply .lenient d).1) d
      = ps.foldl (fun d p => (p.apply .lenient d).1) d := by
  -- two patches of the list are exchanged in either order, and one of them may meet itself
  have hone : ps.Pairwise fun p q => p = q ∨ p.Independent q := hapart.imp Or.inr
  have hother : ps.Pairwise fun p q => q = p ∨ q.Independent p :=
    hapart.imp fun h => Or.inr ⟨h.2, h.1⟩
  have hcomm : ∀ p ∈ ps, ∀ q ∈ ps, p = q ∨ p.Independent q := by
    intro p hp q hq
    refine List.Pairwise.forall_of_forall_of_flip ?_ hone hother hp hq
    exact fun _ _ => Or.inl rfl
  refine (hperm.symm.foldl_eq' ?_ d).symm
  intro p hp q hq d
  rcases hcomm p hp q hq with rfl | hpq
  · rfl
  · exact (apply_comm (hsets p hp) (hsets q hq) hpq d).1

end Patch

/--
**Independent sets may arrive in any order.** Take lenient `set` patches with values, whose paths
are names all the way and of which none leads to a part of another. Whatever the document and the
order:

* the document at the end is the same;
* each patch comes out as it does when it is applied to the document alone;
* and where patches are applied up to the first error, if there is none in one order there is none
  in any other, with the same document.
-/
theorem independent_sets_in_any_order {ps ps' : List Patch} (hsets : ∀ p ∈ ps, p.IsNamedSet)
    (hapart : ps.Pairwise Patch.Independent) (hperm : ps'.Perm ps) (d : Value) :
    (Patch.applyEach .lenient ps' d).1 = (Patch.applyEach .lenient ps d).1
      ∧ (Patch.applyEach .lenient ps d).2 = ps.map (fun p => (p.apply .lenient d).2)
      ∧ (Patch.applyEach .lenient ps' d).2 = ps'.map (fun p => (p.apply .lenient d).2)
      ∧ ((Patch.applyAll .lenient ps d).2 = none →
          Patch.applyAll .lenient ps' d = Patch.applyAll .lenient ps d) := by
  have hsets' : ∀ p ∈ ps', p.IsNamedSet := fun p hp => hsets p (hperm.mem_iff.mp hp)
  have hapart' : ps'.Pairwise Patch.Independent :=
    hapart.perm hperm.symm fun h => ⟨h.2, h.1⟩
  have hdoc : (Patch.applyEach .lenient ps' d).1 = (Patch.applyEach .lenient ps d).1 := by
    rw [Patch.applyEach_document, Patch.applyEach_document]
    exact Patch.foldl_perm hsets hapart hperm d
  have hout := Patch.applyEach_outcomes hsets hapart d
  have hout' := Patch.applyEach_outcomes hsets' hapart' d
  refine ⟨hdoc, hout, hout', ?_⟩
  intro hok
  obtain ⟨hiff, hsame⟩ := Patch.applyAll_eq_applyEach .lenient ps d
  obtain ⟨hiff', hsame'⟩ := Patch.applyAll_eq_applyEach .lenient ps' d
  have hok' : (Patch.applyAll .lenient ps' d).2 = none := by
    rw [hiff', hout', List.forall_mem_map]
    have hnone := hiff.mp hok
    rw [hout, List.forall_mem_map] at hnone
    exact fun p hp => hnone p (hperm.mem_iff.mp hp)
  exact Prod.ext ((hsame' hok').trans (hdoc.trans (hsame hok).symm)) (hok'.trans hok.symm)

/-- Two sets fill the same null, and a third one fails below a string, in either order. -/
theorem independent_sets_in_reverse :
    let ps : List Patch := [⟨.set, "/n/a", some (.str "1")⟩, ⟨.set, "/n/b", some (.str "2")⟩,
      ⟨.set, "/s/c", some (.str "3")⟩]
    let d : Value := .obj [("n", .null), ("s", .str "x")]
    (∀ p ∈ ps, p.IsNamedSet) ∧ ps.Pairwise Patch.Independent ∧ ps.reverse.Perm ps
      ∧ (Patch.applyEach .lenient ps.reverse d).1
          = .obj [("n", .obj [("a", .str "1"), ("b", .str "2")]), ("s", .str "x")]
      ∧ (Patch.applyEach .lenient ps.reverse d).2
          = [some (.blocked .set "/s/c" (.notAContainer .string)), none, none] := by
  intro ps d
  have hsets : ∀ p ∈ ps, p.IsNamedSet := by
    have hall : ∀ p ∈ ps, p.op = .set ∧ p.value.isSome
        ∧ ∀ s ∈ (Pointer.parse p.path).segments, Pointer.isIndexLike s = false := by decide +kernel
    exact hall
  have hapart : ps.Pairwise Patch.Independent := by
    have hall : ps.Pairwise fun p q =>
        ¬ (Pointer.parse p.path).segments <+: (Pointer.parse q.path).segments
          ∧ ¬ (Pointer.parse q.path).segments <+: (Pointer.parse p.path).segments := by
      decide +kernel
    exact hall
  obtain ⟨hdoc, _, hout, _⟩ :=
    independent_sets_in_any_order hsets hapart (List.reverse_perm ps) d
  refine ⟨hsets, hapart, List.reverse_perm ps, ?_, ?_⟩
  · rw [hdoc]
    decide +kernel
  · rw [hout]
    decide +kernel

end ViewStream
