import ViewStream.Proofs.Document.Location
import ViewStream.Proofs.Document.Lookup

/-!
# Patches touch nothing else

A write may do several things at once: fill a null, append to an array, make containers several
levels deep, and an `add` to an array that is already there appends one level below its own path.
There is one location all the same that everything new is at or below (`Patch.written`):

* the first place on the way where the walk makes a container, be it missing or null; or else
* the member or item that is inserted, overwritten or appended at the end of the path.

What is apart from that location reads as before. Where there is no such location the patch was
passed over (`Patch.applied_cases`). A removal from an array is the one edit that moves what it
does not remove, and only within the array.
-/

namespace ViewStream.Document

open Json (Value)
open Pointer (child? follow? index?)

/-! ## The location written -/

/-- Where a walk that makes containers writes: the first place with nothing in it or null, or else
the location that its leaf writes. -/
def site (leafSite : String → Value → Location) : String → List String → Value → Location
  | last, [], v => leafSite last v
  | s, next :: rest, v =>
    branchOf s v ::
      match (child? v s).bind Value.nonNull? with
      | none => []
      | some child => site leafSite next rest child

/-- What a `set` writes in the container at the end of its way. -/
def setSite (last : String) (v : Value) : Location := [branchOf last v]

/-- What an `add` writes below the member that it finds: the end of an array, unless it adds
one. -/
def appendSite (value : Value) : Option Value → Location
  | some (.arr xs) => if value.kind = .array then [] else [.item xs.length]
  | _ => []

/-- What an `add` writes in the container at the end of its way: a member, or what is below it, or
the end of an array. -/
def addSite (value : Value) (last : String) (v : Value) : Location :=
  match v with
  | .obj ms => .member last :: appendSite value (ms.lookup last)
  | v => [branchOf "-" v]

/-- Where a walk through what is there ends up, if it is not stopped. -/
def reach (leafSite : String → Value → Option Location) :
    String → List String → Value → Option Location
  | last, [], v => leafSite last v
  | s, next :: rest, v =>
    (child? v s).bind fun child => (reach leafSite next rest child).map (branchOf s v :: ·)

/-- What a `replace` overwrites or inserts at the end of its way: a member of an object, or an item
that is there. -/
def replaceSite (last : String) (v : Value) : Option Location :=
  if v.kind = .object ∨ (child? v last).isSome then some [branchOf last v] else none

/-- What a `remove` deletes at the end of its way, which must be there. -/
def removeSite (last : String) (v : Value) : Option Location :=
  if (child? v last).isSome then some [branchOf last v] else none

/-! ## Writes -/

/-- What an `add` does to an object: it writes a member, or it appends to the array that is one. -/
theorem addLeaf_obj (value : Value) (t : String) (ms : List (String × Value)) :
    (addLeaf value t (.obj ms) = (plant t value (.obj ms), none)
        ∧ appendSite value (ms.lookup t) = [])
      ∨ ∃ xs, ms.lookup t = some (.arr xs)
          ∧ addLeaf value t (.obj ms) = (plant t (.arr (xs ++ [value])) (.obj ms), none)
          ∧ appendSite value (ms.lookup t) = [.item xs.length] := by
  unfold addLeaf
  dsimp only
  cases ms.lookup t with
  | none => exact Or.inl ⟨rfl, rfl⟩
  | some child =>
    cases child with
    | arr xs =>
      cases value with
      | arr _ => exact Or.inl ⟨rfl, rfl⟩
      | null | bool _ | num _ | str _ | obj _ => exact Or.inr ⟨xs, rfl, rfl, rfl⟩
    | null | bool _ | num _ | str _ | obj _ => exact Or.inl ⟨rfl, rfl⟩

theorem branchOf_dash (xs : List Value) : branchOf "-" (.arr xs) = .item xs.length := by
  rw [branchOf, index?_dash, Option.getD_none, Nat.min_self]

theorem spares_append (xs : List Value) (value : Value) :
    Spares [.item xs.length] (.arr xs) (.arr (xs ++ [value])) := by
  have hplant : plant "-" value (.arr xs) = .arr (xs ++ [value]) := by
    rw [plant, index?_dash, Option.getD_none, putItem, if_neg (Nat.lt_irrefl _)]
  have hend : barrier .lenient "-" (.arr xs) = none := rfl
  have hspares : Spares [branchOf "-" (.arr xs)] (.arr xs) (plant "-" value (.arr xs)) :=
    spares_plant hend (Or.inl rfl)
  rwa [branchOf_dash, hplant] at hspares

theorem addLeaf_spares {value : Value} {t : String} {v v' : Value}
    (h : addLeaf value t v = (v', none)) : Spares (addSite value t v) v v' := by
  cases v with
  | obj ms =>
    have hobj : barrier .lenient t (.obj ms) = none := rfl
    rw [addSite]
    rcases addLeaf_obj value t ms with ⟨hadd, hsite⟩ | ⟨xs, hchild, hadd, hsite⟩
    · rw [hsite, (Prod.mk.inj (h.symm.trans hadd)).1]
      exact spares_plant hobj (Or.inl rfl)
    · rw [hsite, (Prod.mk.inj (h.symm.trans hadd)).1]
      exact spares_plant hobj (Or.inr ⟨.arr xs, hchild, spares_append xs value⟩)
  | arr xs =>
    have hsite : addSite value t (.arr xs) = [branchOf "-" (.arr xs)] := rfl
    rw [addLeaf] at h
    rw [hsite, branchOf_dash, ← (Prod.mk.inj h).1]
    exact spares_append xs value
  | null | bool _ | num _ | str _ => exact absurd h (by simp [addLeaf])

theorem setLeaf_spares {mode : Mode} {value : Value} {t : String} {v v' : Value}
    (h : setLeaf mode value t v = (v', none)) : Spares (setSite t v) v v' := by
  obtain ⟨hbar, rfl⟩ := setLeaf_ok h
  exact spares_plant hbar (Or.inl rfl)

/--
**A walk that makes containers spares all but the location it writes.**

By induction along the path, down to the first place where there is nothing to go on in: whatever
the walk makes of that is below the place.
-/
theorem write_spares {mode : Mode} {leaf : String → Value → Value × Option Obstacle}
    {leafSite : String → Value → Location}
    (hleaf : ∀ {t v v'}, leaf t v = (v', none) → Spares (leafSite t v) v v') :
    ∀ (rest : List String) (first : String) (v v' : Value),
    write mode leaf first rest v = (v', none) → Spares (site leafSite first rest v) v v'
  | [], first, v, v', h => hleaf h
  | next :: rest, first, v, v', h => by
      obtain ⟨hbar, child, child', hent, hrest, rfl⟩ := write_cons_ok h
      rw [site]
      cases hfound : (child? v first).bind Value.nonNull? with
      -- missing or null: the place itself is the location
      | none => exact spares_plant hbar (Or.inl rfl)
      | some found =>
        obtain ⟨there, hchild, hthere⟩ := Option.bind_eq_some_iff.mp hfound
        obtain ⟨rfl, hnull⟩ := Value.nonNull?_eq_some hthere
        rw [hchild, enter_there hnull] at hent
        have hsame : found = child := Except.ok.inj hent
        subst hsame
        have ih := write_spares hleaf rest next found child' hrest
        exact spares_plant hbar (Or.inr ⟨found, hchild, ih⟩)

/-! ## Walks through what is there -/

theorem replaceLeaf_spares {mode : Mode} {value : Value} (t : String) (v v' : Value)
    (h : replaceLeaf mode value t v = .ok v') :
    ∃ l, replaceSite t v = some l ∧ Spares l v v' := by
  cases v with
  | obj ms =>
    rw [replaceLeaf] at h
    split at h
    · exact absurd h (by simp)
    · rw [← Except.ok.inj h]
      have hobj : barrier .lenient t (.obj ms) = none := rfl
      exact ⟨[.member t], if_pos (Or.inl rfl), spares_plant hobj (Or.inl rfl)⟩
  | arr xs =>
    rw [replaceLeaf] at h
    cases hpos : index? t with
    | none => rw [hpos] at h; exact absurd h (by simp)
    | some i =>
      rw [hpos] at h
      dsimp only at h
      by_cases hlt : i < xs.length
      · rw [if_pos hlt] at h
        have hchild : child? (.arr xs) t = some xs[i] := by
          rw [child?, hpos, Option.bind_some, List.getElem?_eq_getElem hlt]
        have hplant : v' = plant t value (.arr xs) := by
          rw [← Except.ok.inj h, plant, hpos, Option.getD_some, putItem, if_pos hlt]
        rw [hplant]
        refine ⟨[branchOf t (.arr xs)], if_pos (Or.inr (by rw [hchild]; rfl)), ?_⟩
        exact spares_plant (barrier_of_child? hchild mode) (Or.inl rfl)
      · rw [if_neg hlt] at h
        exact absurd h (by simp)
  | null | bool _ | num _ | str _ => exact absurd h (by simp [replaceLeaf])

/-- A lenient `replace` is stopped where there is nothing for it to write. -/
theorem replaceLeaf_error_iff (value : Value) (t : String) (v : Value) :
    (∃ o, replaceLeaf .lenient value t v = .error o) ↔ replaceSite t v = none := by
  cases v with
  | obj ms =>
    have hsite : replaceSite t (.obj ms) = some [.member t] := if_pos (Or.inl rfl)
    rw [hsite]
    simp [replaceLeaf]
  | arr xs =>
    rw [replaceLeaf, replaceSite, child?]
    cases index? t with
    | none => simp [Value.kind]
    | some i =>
      dsimp only [Option.bind]
      by_cases hi : i < xs.length <;> simp [hi, Value.kind]
  | null | bool _ | num _ | str _ => simp [replaceLeaf, replaceSite, child?, Value.kind]

theorem removeLeaf_error_iff (t : String) (v : Value) :
    (∃ o, removeLeaf t v = .error o) ↔ removeSite t v = none := by
  have hok := removeLeaf_isOk t v
  rw [removeSite]
  cases hleaf : removeLeaf t v with
  | error o =>
    have hnone : ¬ (child? v t).isSome := fun hsome => by
      obtain ⟨v', hv'⟩ := hok.mpr hsome
      exact absurd (hleaf.symm.trans hv') (by simp)
    exact iff_of_true ⟨o, rfl⟩ (if_neg hnone)
  | ok v' =>
    rw [if_pos (hok.mp ⟨v', hleaf⟩)]
    exact iff_of_false (by simp) (by simp)

section

variable {leaf : String → Value → Except Obstacle Value}
variable {leafSite : String → Value → Option Location}

/-- **A walk through what is there spares all but the location that it ends up at.** -/
theorem amend_spares {missing : Obstacle}
    (hleaf : ∀ t v v', leaf t v = .ok v' → ∃ l, leafSite t v = some l ∧ Spares l v v') :
    ∀ (rest : List String) (first : String) (v v' : Value),
    amend missing leaf first rest v = .ok v' →
    ∃ l, reach leafSite first rest v = some l ∧ Spares l v v'
  | [], first, v, v', h => hleaf first v v' h
  | next :: rest, first, v, v', h => by
      rw [amend] at h
      cases hchild : child? v first with
      | none => rw [hchild] at h; exact absurd h (by simp)
      | some child =>
        rw [hchild] at h
        dsimp only at h
        cases hrest : amend missing leaf next rest child with
        | error o => rw [hrest] at h; exact absurd h (by simp)
        | ok child' =>
          rw [hrest] at h
          obtain ⟨l, hl, hspares⟩ := amend_spares hleaf rest next child child' hrest
          refine ⟨branchOf first v :: l, ?_, ?_⟩
          · rw [reach, hchild, Option.bind_some, hl]
            rfl
          · rw [← Except.ok.inj h, setChild_eq_plant hchild]
            exact spares_plant (barrier_of_child? hchild .lenient)
              (Or.inr ⟨child, hchild, hspares⟩)

/-- **It is stopped if and only if it ends up nowhere.** -/
theorem amend_error_iff (missing : Obstacle)
    (hleaf : ∀ t v, (∃ o, leaf t v = .error o) ↔ leafSite t v = none) :
    ∀ (rest : List String) (first : String) (v : Value),
    (∃ o, amend missing leaf first rest v = .error o) ↔ reach leafSite first rest v = none
  | [], first, v => hleaf first v
  | next :: rest, first, v => by
      rw [amend, reach]
      cases child? v first with
      | none => exact iff_of_true ⟨missing, rfl⟩ rfl
      | some child =>
        dsimp only
        rw [Option.bind_some, Option.map_eq_none_iff,
          ← amend_error_iff missing hleaf rest next child]
        cases amend missing leaf next rest child with
        | error o => exact Iff.rfl
        | ok child' => simp

end

/-- An edit that succeeds has changed the document as its walk did, or it was a lenient one, was
recovered and has changed nothing. -/
theorem recover_ok {mode : Mode} {v v' : Value} {r : Except Obstacle Value}
    (h : recover mode v r = (v', none)) :
    r = .ok v' ∨ (∃ o, r = .error o) ∧ mode = .lenient ∧ v' = v := by
  cases r with
  | ok w =>
    have hw : w = v' := (Prod.mk.inj h).1
    exact Or.inl (by rw [hw])
  | error o =>
    cases mode with
    | strict => exact absurd h (by simp [recover])
    | lenient => exact Or.inr ⟨⟨o, rfl⟩, rfl, (Prod.mk.inj h).1.symm⟩

/-! ## Exchanging one value -/

/-- The exchanged value is where the other one was. -/
theorem valueAt_graft {q : List String} {v : Value} {l : Location} (h : locate q v = some l)
    (w : Value) : valueAt l (graft q w v) = some w := by
  induction q generalizing v l with
  | nil =>
    rw [← Option.some.inj h]
    rfl
  | cons s q ih =>
    obtain ⟨child, m, hchild, hm, rfl⟩ := locate_cons h
    rw [graft, hchild]
    dsimp only
    rw [setChild_eq_plant hchild, valueAt, get?_plant_self (barrier_of_child? hchild .lenient),
      Option.bind_some, ih hm]

/-- **What the exchanged value spares of the other one, the document spares.** -/
theorem graft_spares {q : List String} {v c c' : Value} {l m : Location} (hl : locate q v = some l)
    (hc : valueAt l v = some c) (h : Spares m c c') : Spares (l ++ m) v (graft q c' v) := by
  induction q generalizing v l with
  | nil =>
    rw [← Option.some.inj hl] at hc ⊢
    have hv : v = c := Option.some.inj hc
    rw [hv]
    exact h
  | cons s q ih =>
    obtain ⟨child, k, hchild, hk, rfl⟩ := locate_cons hl
    rw [valueAt, get?_branchOf, hchild, Option.bind_some] at hc
    rw [graft, hchild]
    dsimp only
    rw [setChild_eq_plant hchild, List.cons_append]
    exact spares_plant (barrier_of_child? hchild .lenient) (Or.inr ⟨child, hchild, ih hk hc⟩)

/-! ## Removals -/

/-- `d'` is `d` with item `i` taken out of the array at `l`. -/
structure ItemRemoved (l : Location) (i : Nat) (d d' : Value) : Prop where
  /-- Whatever is outside the array is unchanged. -/
  outside : Spares l d d'
  /-- Earlier items keep their position. -/
  earlier : ∀ j below, j < i →
    valueAt (l ++ .item j :: below) d' = valueAt (l ++ .item j :: below) d
  /-- Later items move down by one. -/
  later : ∀ j below, i < j →
    valueAt (l ++ .item (j - 1) :: below) d' = valueAt (l ++ .item j :: below) d

/-- `d'` is `d` without the member at `l`. -/
structure MemberRemoved (l : Location) (d d' : Value) : Prop where
  /-- The member is there no more. -/
  gone : valueAt l d' = none
  /-- Everything else is unchanged. -/
  elsewhere : Spares l d d'

theorem itemRemoved_graft {q : List String} {d : Value} {xs : List Value} {l : Location}
    (hl : locate q d = some l) (hxs : valueAt l d = some (.arr xs)) (i : Nat) :
    ItemRemoved l i d (graft q (.arr (xs.eraseIdx i)) d) where
  outside := by
    have hspares := graft_spares hl hxs (spares_root (.arr xs) (.arr (xs.eraseIdx i)))
    rwa [List.append_nil] at hspares
  earlier := by
    intro j below hj
    rw [valueAt_append, valueAt_append, valueAt_graft hl, hxs, Option.bind_some, Option.bind_some,
      valueAt, valueAt, Branch.get?, Branch.get?, List.getElem?_eraseIdx, if_pos hj]
  later := by
    intro j below hj
    -- `j` is at least one, so taking one away and adding it again comes back to `j`
    have hdown : ¬ j - 1 < i := by omega
    have hback : j - 1 + 1 = j := by omega
    rw [valueAt_append, valueAt_append, valueAt_graft hl, hxs, Option.bind_some, Option.bind_some,
      valueAt, valueAt, Branch.get?, Branch.get?, List.getElem?_eraseIdx, if_neg hdown, hback]

theorem memberRemoved_graft {q : List String} {d : Value} {ms : List (String × Value)}
    {l : Location} (hl : locate q d = some l) (hms : valueAt l d = some (.obj ms)) (t : String) :
    MemberRemoved (l ++ [.member t]) d (graft q (.obj (KeyMap.erase t ms)) d) where
  gone := by
    rw [valueAt_append, valueAt_graft hl, Option.bind_some, valueAt, Branch.get?,
      KeyMap.lookup_erase_self]
    rfl
  elsewhere := by
    refine graft_spares hl hms ?_
    intro m hapart
    cases m with
    | nil => exact absurd hapart apart_nil_right
    | cons branch m =>
      rw [valueAt, valueAt]
      cases branch with
      | item j => rfl
      | member k =>
        have hk : k ≠ t := by
          rintro rfl
          exact absurd (apart_cons.mp hapart) apart_nil
        rw [Branch.get?, Branch.get?, KeyMap.lookup_erase_of_ne hk]

end ViewStream.Document

namespace ViewStream

open Json (Value)
open Document
open Pointer (child? follow? index?)

/-! ## Patches -/

/-- The location that a patch writes or removes; there is none if it has nothing to do. -/
def Patch.written (p : Patch) (d : Value) : Option Location :=
  match (Pointer.parse p.path).segments with
  | [] => some []
  | s :: rest =>
    match p.op, p.value with
    | .add, some value => some (site (addSite value) s rest d)
    | .set, some _ => some (site setSite s rest d)
    | .replace, some _ => reach replaceSite s rest d
    | .remove, _ => reach removeSite s rest d
    | _, none => none

/-- The walk of a `replace` or a `remove`, whose obstacles a lenient application passes over. -/
def Patch.walk (mode : Mode) (p : Patch) (d : Value) : Option (Except Obstacle Value) :=
  match (Pointer.parse p.path).segments with
  | [] => none
  | s :: rest =>
    match p.op, p.value with
    | .replace, some value => some (amend .missingParent (replaceLeaf mode value) s rest d)
    | .remove, _ => some (amend .missingTarget removeLeaf s rest d)
    | _, _ => none

/-- The patch was stopped on its way, and passed over. -/
def Patch.PassedOver (mode : Mode) (p : Patch) (d : Value) : Prop :=
  ∃ o, p.walk mode d = some (.error o)

theorem Patch.edit_of_apply {mode : Mode} {p : Patch} {d d' : Value}
    (h : p.apply mode d = (d', none)) : p.edit mode d = some (d', none) := by
  rcases Patch.apply_cases mode p d with ⟨v', hedit, ha⟩ | ⟨o, _, ha⟩ | ⟨_, ha⟩
  · have hsame : v' = d' := (Prod.mk.inj (ha.symm.trans h)).1
    rw [← hsame]
    exact hedit
  · exact absurd (ha.symm.trans h) (by simp)
  · exact absurd (ha.symm.trans h) (by simp)

theorem Patch.edit_of_walk {mode : Mode} {p : Patch} {d : Value} {r : Except Obstacle Value}
    (h : p.walk mode d = some r) : p.edit mode d = some (recover mode d r) := by
  obtain ⟨op, path, value⟩ := p
  unfold Patch.walk at h
  unfold Patch.edit
  dsimp only at h ⊢
  cases hsegments : (Pointer.parse path).segments with
  | nil => rw [hsegments] at h; exact absurd h (by simp)
  | cons first rest =>
    rw [hsegments] at h
    cases op with
    | add => exact absurd h (by simp)
    | set => exact absurd h (by simp)
    | replace =>
      cases value with
      | none => exact absurd h (by simp)
      | some value =>
        dsimp only
        rw [← Option.some.inj h, Document.replace, hsegments]
    | remove =>
      dsimp only
      rw [← Option.some.inj h, Document.remove, hsegments]

/-- The walk of a patch that was applied has made the document, or it was passed over. -/
theorem Patch.walk_of_apply {mode : Mode} {p : Patch} {d d' : Value} {r : Except Obstacle Value}
    (h : p.apply mode d = (d', none)) (hwalk : p.walk mode d = some r) :
    r = .ok d' ∨ (∃ o, r = .error o) ∧ mode = .lenient ∧ d' = d :=
  recover_ok (Option.some.inj ((Patch.edit_of_walk hwalk).symm.trans (Patch.edit_of_apply h)))

/-- **All that an applied patch can have done**: it had a location to write or to remove, and if it
wrote it has spared the rest; or it had none, was passed over and has changed nothing. -/
theorem Patch.applied_cases {mode : Mode} {p : Patch} {d d' : Value}
    (h : p.apply mode d = (d', none)) :
    (∃ l, p.written d = some l ∧ ¬ p.PassedOver mode d ∧ (p.op ≠ .remove → Spares l d d'))
      ∨ (p.written d = none ∧ p.PassedOver mode d ∧ d' = d) := by
  have hedit := Patch.edit_of_apply h
  have hmade : ∀ r, p.walk mode d = some r →
      r = .ok d' ∨ (∃ o, r = .error o) ∧ mode = .lenient ∧ d' = d := fun _ => Patch.walk_of_apply h
  obtain ⟨op, path, value⟩ := p
  unfold Patch.edit at hedit
  unfold Patch.PassedOver
  unfold Patch.walk at hmade ⊢
  unfold Patch.written
  dsimp only at hedit hmade ⊢
  cases hsegments : (Pointer.parse path).segments with
  | nil => exact Or.inl ⟨[], rfl, by simp, fun _ => spares_root d d'⟩
  | cons first rest =>
    rw [hsegments] at hmade
    cases op with
    | add =>
      cases value with
      | none => exact absurd hedit (by simp)
      | some value =>
        have hwrite := Option.some.inj hedit
        rw [add, hsegments] at hwrite
        exact Or.inl ⟨_, rfl, by simp,
          fun _ => write_spares addLeaf_spares rest first d d' hwrite⟩
    | set =>
      cases value with
      | none => exact absurd hedit (by simp)
      | some value =>
        have hwrite := Option.some.inj hedit
        rw [Document.set, hsegments] at hwrite
        exact Or.inl ⟨_, rfl, by simp,
          fun _ => write_spares setLeaf_spares rest first d d' hwrite⟩
    | replace =>
      cases value with
      | none => exact absurd hedit (by simp)
      | some value =>
        -- only a lenient walk may have been stopped, and that one ends up nowhere
        rcases hmade _ rfl with hok | ⟨⟨o, ho⟩, rfl, hsame⟩
        · obtain ⟨l, hl, hspares⟩ := amend_spares replaceLeaf_spares rest first d d' hok
          exact Or.inl ⟨l, hl, by simp [hok], fun _ => hspares⟩
        · have hnone := (amend_error_iff _ (replaceLeaf_error_iff value) rest first d).mp ⟨o, ho⟩
          exact Or.inr ⟨hnone, ⟨o, congrArg some ho⟩, hsame⟩
    | remove =>
      have hsite := amend_error_iff .missingTarget removeLeaf_error_iff rest first d
      rcases hmade _ rfl with hok | ⟨⟨o, ho⟩, _, hsame⟩
      · have hsome : reach removeSite first rest d ≠ none := by
          rw [ne_eq, ← hsite, hok]
          simp
        obtain ⟨l, hl⟩ := Option.ne_none_iff_exists'.mp hsome
        exact Or.inl ⟨l, hl, by simp [hok], fun hop => absurd rfl hop⟩
      · exact Or.inr ⟨hsite.mp ⟨o, ho⟩, ⟨o, congrArg some ho⟩, hsame⟩

/-- **An applied patch has no location if and only if it was passed over.** -/
theorem Patch.written_eq_none_iff {mode : Mode} {p : Patch} {d d' : Value}
    (h : p.apply mode d = (d', none)) : p.written d = none ↔ p.PassedOver mode d := by
  rcases Patch.applied_cases h with ⟨l, hl, hover, _⟩ | ⟨hnone, hover, _⟩
  · rw [hl]
    exact iff_of_false (by simp) hover
  · exact iff_of_true hnone hover

theorem Patch.PassedOver.unchanged {mode : Mode} {p : Patch} {d d' : Value}
    (hover : p.PassedOver mode d) (h : p.apply mode d = (d', none)) : d' = d := by
  rcases Patch.applied_cases h with ⟨_, _, hnot, _⟩ | ⟨_, _, hsame⟩
  · exact absurd hover hnot
  · exact hsame

section

variable {mode : Mode} {p : Patch} {d d' : Value} {q : Pointer} {t : String}

/-- **All that an applied removal can have done** to a document with something at its path: it has
deleted an item or a member. -/
theorem Patch.removed_cases (h : p.apply mode d = (d', none)) (hop : p.op = .remove)
    (hpath : (Pointer.parse p.path).splitLast = some (q, t))
    (hthere : (Pointer.read? p.path d).isSome) :
    (∃ l xs i, locate q.segments d = some l ∧ q.get? d = some (.arr xs) ∧ index? t = some i
        ∧ ItemRemoved l i d d')
      ∨ ∃ l ms, locate q.segments d = some l ∧ q.get? d = some (.obj ms)
          ∧ MemberRemoved (l ++ [.member t]) d d' := by
  have hedit := Patch.edit_of_apply h
  obtain ⟨op, path, value⟩ := p
  dsimp only at hop hpath hthere
  subst hop
  have hremove : remove mode (Pointer.parse path) d = (d', none) := Option.some.inj hedit
  have hsegments := Pointer.segments_of_splitLast hpath
  rcases remove_cases hsegments mode d with ⟨c, c', hc, hleaf, _, heq⟩ | ⟨habsent, _⟩
  · have hd' : d' = graft q.segments c' d := (Prod.mk.inj (hremove.symm.trans heq)).1
    obtain ⟨l, hl, hat⟩ := locate_of_follow? hc
    rw [hd']
    rcases removeLeaf_ok hleaf with ⟨ms, rfl, rfl⟩ | ⟨xs, i, rfl, hi, _, rfl⟩
    · exact Or.inr ⟨l, ms, hl, hc, memberRemoved_graft hl hat t⟩
    · exact Or.inl ⟨l, xs, i, hl, hc, hi, itemRemoved_graft hl hat i⟩
  · have hnone : Pointer.read? path d = none := habsent
    rw [hnone] at hthere
    exact absurd hthere (by simp)

theorem Patch.item_removed (h : p.apply mode d = (d', none)) (hop : p.op = .remove)
    (hpath : (Pointer.parse p.path).splitLast = some (q, t)) {xs : List Value} {i : Nat}
    (hxs : q.get? d = some (.arr xs)) (hi : index? t = some i) (hlt : i < xs.length) :
    ∃ l, locate q.segments d = some l ∧ ItemRemoved l i d d' := by
  have hread : Pointer.read? p.path d = some xs[i] := by
    have hchild := get?_eq_child? (Pointer.segments_of_splitLast hpath) d
    rw [Pointer.get?] at hxs
    rw [Pointer.read?, hchild, hxs, Option.bind_some, child?, hi, Option.bind_some,
      List.getElem?_eq_getElem hlt]
  rcases Patch.removed_cases h hop hpath (by rw [hread]; rfl) with
    ⟨l, _, j, hl, _, hj, hremoved⟩ | ⟨_, ms, _, hms, _⟩
  · have hsame : j = i := Option.some.inj (hj.symm.trans hi)
    rw [hsame] at hremoved
    exact ⟨l, hl, hremoved⟩
  · exact absurd (hxs.symm.trans hms) (by simp)

theorem Patch.member_removed (h : p.apply mode d = (d', none)) (hop : p.op = .remove)
    (hpath : (Pointer.parse p.path).splitLast = some (q, t)) {ms : List (String × Value)}
    (hms : q.get? d = some (.obj ms)) (hmember : (ms.lookup t).isSome) :
    ∃ l, locate q.segments d = some l ∧ MemberRemoved (l ++ [.member t]) d d' := by
  have hread : Pointer.read? p.path d = ms.lookup t := by
    have hchild := get?_eq_child? (Pointer.segments_of_splitLast hpath) d
    rw [Pointer.get?] at hms
    rw [Pointer.read?, hchild, hms, Option.bind_some, child?]
  rcases Patch.removed_cases h hop hpath (by rw [hread]; exact hmember) with
    ⟨_, xs, _, _, hxs, _, _⟩ | ⟨l, _, hl, _, hremoved⟩
  · exact absurd (hms.symm.trans hxs) (by simp)
  · exact ⟨l, hl, hremoved⟩

end

/--
**Patches touch nothing else**, in either mode.

* After an `add`, a `set` or a `replace`, every pointer whose location was there before and is not
  the location written, not below it and not one that it is in reads what it read.
* A patch has no such location if and only if it was passed over, and then it has changed nothing.
* After the removal of an item the earlier items are where they were, the later ones one place
  further down, and whatever is outside the array is unchanged; the removal of a member changes
  nothing else.
-/
theorem patch_touches_nothing_else {mode : Mode} {p : Patch} {d d' : Value}
    (h : p.apply mode d = (d', none)) :
    (p.op ≠ .remove → ∀ l, p.written d = some l → ReadsSame l d d')
      ∧ (p.written d = none ↔ p.PassedOver mode d)
      ∧ (p.PassedOver mode d → d' = d)
      ∧ (p.op = .remove → ∀ q t, (Pointer.parse p.path).splitLast = some (q, t) →
          (∀ xs i, q.get? d = some (.arr xs) → index? t = some i → i < xs.length →
            ∃ l, locate q.segments d = some l ∧ ItemRemoved l i d d')
          ∧ (∀ ms, q.get? d = some (.obj ms) → (ms.lookup t).isSome →
            ∃ l, locate q.segments d = some l ∧ MemberRemoved (l ++ [.member t]) d d')) := by
  refine ⟨?_, Patch.written_eq_none_iff h, fun hover => hover.unchanged h, ?_⟩
  · intro hop l hl
    rcases Patch.applied_cases h with ⟨l', hl', _, hspares⟩ | ⟨hnone, _, _⟩
    · have hsite : l = l' := Option.some.inj (hl.symm.trans hl')
      rw [hsite]
      exact (hspares hop).readsSame
    · exact absurd (hl.symm.trans hnone) (by simp)
  · intro hop q t hpath
    exact ⟨fun xs i => Patch.item_removed h hop hpath, fun ms => Patch.member_removed h hop hpath⟩

/-- An `add` to a list writes its second item; the first one reads as before, also where its
position is written `00`. -/
theorem patch_touches_nothing_else_in_list :
    let p : Patch := ⟨.add, "/a/list", some (.str "new")⟩
    let d : Value := .obj [("a", .obj [("list", .arr [.str "old"])])]
    let d' : Value := .obj [("a", .obj [("list", .arr [.str "old", .str "new"])])]
    p.apply .strict d = (d', none)
      ∧ p.written d = some [.member "a", .member "list", .item 1]
      ∧ (⟨["a", "list", "00"]⟩ : Pointer).get? d' = (⟨["a", "list", "00"]⟩ : Pointer).get? d := by
  intro p d d'
  have happly : p.apply .strict d = (d', none) := by decide +kernel
  have hwritten : p.written d = some [.member "a", .member "list", .item 1] := by decide +kernel
  have hlocate : locate ["a", "list", "00"] d = some [.member "a", .member "list", .item 0] := by
    decide +kernel
  have hapart : Apart [Branch.member "a", .member "list", .item 1]
      [.member "a", .member "list", .item 0] := ⟨by decide, by decide⟩
  obtain ⟨hreads, _⟩ := patch_touches_nothing_else happly
  exact ⟨happly, hwritten, hreads (by decide) _ hwritten ⟨["a", "list", "00"]⟩ _ hlocate hapart⟩

end ViewStream
