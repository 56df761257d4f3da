import ViewStream.Proofs.Document.Walk

/-!
# Locations, and what an edit leaves alone

A segment says different things in different containers, and different segments say the same: in an
array `0` and `00` are one position. So what an edit leaves alone is said of **locations**, which
are made of keys and positions, and carried over to pointers afterwards.

`Spares l v v'` says that `v'` differs from `v` nowhere but at `l`, below it, and in the containers
that `l` is in. It is built up along the path, one container at a time (`spares_plant`). A pointer
that had a location away from `l` still reads there what it read before (`Spares.follow?_eq`): the
containers on its way may have changed, but not their kind, so its segments mean what they meant.
-/

namespace ViewStream.Document

open Json (Value)
open Pointer (child? follow? index?)

/-! ## Branches and locations -/

/-- A way down from a container. -/
inductive Branch where
  /-- To the member with a key. -/
  | member (key : String)
  /-- To the item at a position. -/
  | item (position : Nat)
deriving DecidableEq, Repr

/-- What a branch leads to. -/
def Branch.get? : Branch → Value → Option Value
  | .member key, .obj ms => ms.lookup key
  | .item position, .arr xs => xs[position]?
  | _, _ => none

/-- The branches from a document down to one of its parts. -/
abbrev Location := List Branch

/-- What stands at a location. -/
def valueAt : Location → Value → Option Value
  | [], v => some v
  | branch :: l, v => (branch.get? v).bind (valueAt l)

/-- The branch in `v` that a segment stands for. In an array every segment without a position of
its own stands for the end. -/
def branchOf (s : String) : Value → Branch
  | .arr xs => .item (min ((index? s).getD xs.length) xs.length)
  | _ => .member s

/-- The location in `v` that segments lead to, if they lead anywhere. -/
def locate : List String → Value → Option Location
  | [], _ => some []
  | s :: rest, v => (child? v s).bind fun child => (locate rest child).map (branchOf s v :: ·)

/-- Neither leads to a part of the other. -/
def Apart {α : Type} (l m : List α) : Prop := ¬ l <+: m ∧ ¬ m <+: l

theorem apart_nil {α : Type} {l : List α} : ¬ Apart [] l := fun h => h.1 (List.nil_prefix)

theorem apart_nil_right {α : Type} {l : List α} : ¬ Apart l [] := fun h => h.2 (List.nil_prefix)

theorem apart_cons {α : Type} {a : α} {l m : List α} : Apart (a :: l) (a :: m) ↔ Apart l m := by
  simp only [Apart, List.cons_prefix_cons, true_and]

theorem valueAt_append (l m : Location) (v : Value) :
    valueAt (l ++ m) v = (valueAt l v).bind (valueAt m) := by
  induction l generalizing v with
  | nil => rfl
  | cons branch l ih =>
    rw [List.cons_append, valueAt, valueAt]
    cases branch.get? v with
    | none => rfl
    | some w => exact ih w

/-- The branch that a segment stands for leads to what a lookup finds. -/
theorem get?_branchOf (s : String) (v : Value) : (branchOf s v).get? v = child? v s := by
  cases v with
  | arr xs =>
    rw [branchOf, Branch.get?, child?]
    cases index? s with
    | none => rw [Option.getD_none, Nat.min_self, List.getElem?_eq_none (Nat.le_refl _)]; rfl
    | some i =>
      rw [Option.getD_some, Option.bind_some]
      by_cases hi : i < xs.length
      · rw [Nat.min_eq_left (Nat.le_of_lt hi)]
      · rw [List.getElem?_eq_none (by omega), List.getElem?_eq_none (by omega)]
  | obj ms => rfl
  | null | bool _ | num _ | str _ => rfl

/-- A segment that leads somewhere stands for the same branch in every container that has one. -/
theorem child?_of_branch {s : String} {v child v' child' : Value} (h : child? v s = some child)
    (h' : (branchOf s v).get? v' = some child') : child? v' s = some child' := by
  cases v with
  | obj ms =>
    cases v' with
    | obj ms' => exact h'
    | null | bool _ | num _ | str _ | arr _ => exact absurd h' (by simp [branchOf, Branch.get?])
  | arr xs =>
    obtain ⟨i, hpos, hi⟩ := Option.bind_eq_some_iff.mp h
    obtain ⟨hlt, _⟩ := List.getElem?_eq_some_iff.mp hi
    rw [branchOf, hpos, Option.getD_some, Nat.min_eq_left (Nat.le_of_lt hlt)] at h'
    cases v' with
    | arr xs' => rw [child?, hpos, Option.bind_some]; exact h'
    | null | bool _ | num _ | str _ | obj _ => exact absurd h' (by simp [Branch.get?])
  | null | bool _ | num _ | str _ => exact absurd h (by simp [child?])

/-! ## The location of a pointer -/

theorem locate_cons {s : String} {rest : List String} {v : Value} {l : Location}
    (h : locate (s :: rest) v = some l) :
    ∃ child m, child? v s = some child ∧ locate rest child = some m ∧ l = branchOf s v :: m := by
  obtain ⟨child, hchild, hrest⟩ := Option.bind_eq_some_iff.mp h
  obtain ⟨m, hm, rfl⟩ := Option.map_eq_some_iff.mp hrest
  exact ⟨child, m, hchild, hm, rfl⟩

/-- Segments that lead to something have a location, and it is there. -/
theorem locate_of_follow? {q : List String} {v c : Value} (h : follow? q v = some c) :
    ∃ l, locate q v = some l ∧ valueAt l v = some c := by
  induction q generalizing v with
  | nil => exact ⟨[], rfl, h⟩
  | cons s q ih =>
    obtain ⟨child, hchild, hrest⟩ := Option.bind_eq_some_iff.mp h
    obtain ⟨l, hl, hc⟩ := ih hrest
    refine ⟨branchOf s v :: l, ?_, ?_⟩
    · rw [locate, hchild, Option.bind_some, hl]
      rfl
    · rw [valueAt, get?_branchOf, hchild, Option.bind_some, hc]

/-- **Segments read what is at their location**, in the document itself. -/
theorem valueAt_locate {r : List String} {v : Value} {l : Location} (h : locate r v = some l) :
    ∃ c, follow? r v = some c ∧ valueAt l v = some c := by
  induction r generalizing v l with
  | nil =>
    rw [← Option.some.inj h]
    exact ⟨v, rfl, rfl⟩
  | cons s r ih =>
    obtain ⟨child, m, hchild, hm, rfl⟩ := locate_cons h
    obtain ⟨c, hread, hat⟩ := ih hm
    refine ⟨c, ?_, ?_⟩
    · rw [follow?, hchild, Option.bind_some, hread]
    · rw [valueAt, get?_branchOf, hchild, Option.bind_some, hat]

/-- **Segments read what is at their location**, also in a document that they were not located in,
if there is anything. -/
theorem follow?_of_locate {r : List String} {v v' x : Value} {l : Location}
    (h : locate r v = some l) (hx : valueAt l v' = some x) : follow? r v' = some x := by
  induction r generalizing v v' l with
  | nil =>
    rw [← Option.some.inj h] at hx
    exact hx
  | cons s r ih =>
    obtain ⟨child, m, hchild, hm, rfl⟩ := locate_cons h
    obtain ⟨child', hbranch, hbelow⟩ := Option.bind_eq_some_iff.mp hx
    rw [follow?, child?_of_branch hchild hbranch, Option.bind_some]
    exact ih hm hbelow

/-! ## What is left alone -/

/-- `v'` is as `v` but for what is at `l`, below it, and what `l` is in. -/
def Spares (l : Location) (v v' : Value) : Prop :=
  ∀ m, Apart l m → valueAt m v' = valueAt m v

/-- Every pointer whose location in `v` is apart from `l` reads the same in `v'`. -/
def ReadsSame (l : Location) (v v' : Value) : Prop :=
  ∀ (r : Pointer) (m : Location), locate r.segments v = some m → Apart l m → r.get? v' = r.get? v

theorem spares_root (v v' : Value) : Spares [] v v' := fun _ h => absurd h apart_nil

/-- **What is spared is read as before.** -/
theorem Spares.readsSame {l : Location} {v v' : Value} (h : Spares l v v') : ReadsSame l v v' := by
  intro r m hm hapart
  obtain ⟨c, hread, hat⟩ := valueAt_locate hm
  -- the value is found there in `v'`, so the pointer still leads to where it led
  have hsame : valueAt m v' = some c := (h m hapart).trans hat
  rw [Pointer.get?, Pointer.get?, hread]
  exact follow?_of_locate hm hsame

/-- The branch that a segment stands for leads to what was written, also if it was appended. -/
theorem get?_plant_self {mode : Mode} {s : String} {v : Value} (h : barrier mode s v = none)
    (child : Value) : (branchOf s v).get? (plant s child v) = some child := by
  rcases barrier_cases h with ⟨ms, rfl⟩ | ⟨xs, _, rfl, _⟩
  · exact KeyMap.lookup_insert_self s child ms
  · rw [branchOf, plant, Branch.get?]
    by_cases hi : (index? s).getD xs.length < xs.length
    · rw [Nat.min_eq_left (Nat.le_of_lt hi)]
      exact getElem?_putItem_self (Nat.le_of_lt hi) child
    · rw [putItem, if_neg hi, Nat.min_eq_right (Nat.not_lt.mp hi)]
      exact List.getElem?_concat_length

/-- Other branches lead to what they led to. -/
theorem get?_plant_of_ne {s : String} {v : Value} {branch : Branch} (h : branch ≠ branchOf s v)
    (child : Value) : branch.get? (plant s child v) = branch.get? v := by
  cases v with
  | obj ms =>
    cases branch with
    | item i => rfl
    | member k =>
      have hk : k ≠ s := by
        rintro rfl
        exact h rfl
      exact KeyMap.lookup_insert_of_ne hk child ms
  | arr xs =>
    cases branch with
    | member k => rfl
    | item i =>
      have hne : i ≠ min ((index? s).getD xs.length) xs.length := by
        rintro rfl
        exact h rfl
      rw [plant, Branch.get?, Branch.get?, putItem]
      by_cases hi : (index? s).getD xs.length < xs.length
      · rw [if_pos hi, List.getElem?_set_ne (by omega)]
      -- appended: the items that were there are, and the one at the end is not `i`
      · rw [if_neg hi]
        by_cases hlt : i < xs.length
        · rw [List.getElem?_append_left hlt]
        · rw [List.getElem?_eq_none (by rw [List.length_append, List.length_singleton]; omega),
            List.getElem?_eq_none (by omega)]
  | null | bool _ | num _ | str _ => rfl

/-- **What a child spares, its container spares**, with the child back in its place. Where there
was no child before, all that is new is below the branch itself. -/
theorem spares_plant {mode : Mode} {s : String} {v child' : Value} {l : Location}
    (hbar : barrier mode s v = none)
    (h : l = [] ∨ ∃ child, child? v s = some child ∧ Spares l child child') :
    Spares (branchOf s v :: l) v (plant s child' v) := by
  intro m hapart
  cases m with
  | nil => exact absurd hapart apart_nil_right
  | cons branch m =>
    rw [valueAt, valueAt]
    by_cases hbranch : branch = branchOf s v
    -- only what goes down the branch itself may have changed
    · subst hbranch
      rw [apart_cons] at hapart
      rcases h with rfl | ⟨child, hchild, hspares⟩
      · exact absurd hapart apart_nil
      · rw [get?_plant_self hbar, get?_branchOf, hchild, Option.bind_some, Option.bind_some]
        exact hspares m hapart
    · rw [get?_plant_of_ne hbranch]

end ViewStream.Document
