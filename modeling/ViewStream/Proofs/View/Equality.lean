import Mathlib.Data.List.Perm.Subperm
import ViewStream.View.Comparison

/-!
# Equality is an equivalence

Two objects are compared from one side: they have as many members, and each member of the left one
has an equal on the right. Nothing in that says that the right one would be found equal to the
left, and of lists in which a key may stand twice it is not true. In key order it is: **a list that
lies within another one of the same length is that list** (`Ascending.eq_of_subset`).

So equality comes down to being the same. Put the rank of its double in place of every number
within a value; what is left is its **ranked** form, and two values are equal if and only if their
ranked forms are the same (`sameValue_iff_ranked`). That is the only induction on both sides of a
comparison.
-/

namespace ViewStream

open Json (Value Number)

namespace Json

/-! ## Ranked forms -/

namespace Value

mutual

/-- The value with the rank of its double in place of every number. -/
def ranked : Value → Value
  | .num n => .num (.int n.rank)
  | .arr xs => .arr (rankedItems xs)
  | .obj ms => .obj (rankedMembers ms)
  | v => v

/-- The items of an array in ranked form. -/
def rankedItems : List Value → List Value
  | [] => []
  | x :: xs => x.ranked :: rankedItems xs

/-- The members of an object in ranked form. -/
def rankedMembers : List (String × Value) → List (String × Value)
  | [] => []
  | (k, v) :: ms => (k, v.ranked) :: rankedMembers ms

end

theorem rankedMembers_eq_map (ms : List (String × Value)) :
    rankedMembers ms = ms.map fun m => (m.1, m.2.ranked) := by
  induction ms with
  | nil => rfl
  | cons m ms ih => rw [rankedMembers, ih, List.map_cons]

theorem kind_ranked (v : Value) : v.ranked.kind = v.kind := by
  cases v <;> rfl

/-! ## Members in key order -/

namespace Ascending

theorem rankedMembers {ms : List (String × Value)} (h : Ascending ms) :
    Ascending (rankedMembers ms) := by
  rw [rankedMembers_eq_map]
  exact List.pairwise_map.mpr h

/-- **In key order, a list of members that lies within another one of the same length is that
list.** -/
theorem eq_of_subset {xs ys : List (String × Value)} (hx : Ascending xs) (hy : Ascending ys)
    (hsub : xs ⊆ ys) (hlen : xs.length = ys.length) : xs = ys := by
  have hnodup : xs.Nodup := hx.imp fun hlt heq => String.ne_of_lt hlt (congrArg Prod.fst heq)
  have hperm : xs.Perm ys :=
    (List.subperm_of_subset hnodup hsub).perm_of_length_le (Nat.le_of_eq hlen.symm)
  refine hperm.eq_of_pairwise ?_ hx hy
  intro a b _ _ hab hba
  exact absurd hba (String.lt_asymm hab)

end Ascending

end Value

end Json

/-! ## Equal values -/

theorem sameItems_iff_ranked {xs ys : List Value}
    (h : ∀ x ∈ xs, ∀ y ∈ ys, (sameValue x y = true ↔ x.ranked = y.ranked)) :
    sameItems xs ys = true ↔ Value.rankedItems xs = Value.rankedItems ys := by
  induction xs generalizing ys with
  | nil => cases ys <;> simp [sameItems, Value.rankedItems]
  | cons x xs ih =>
    cases ys with
    | nil => simp [sameItems, Value.rankedItems]
    | cons y ys =>
      have hhead := h x List.mem_cons_self y List.mem_cons_self
      have htail :=
        ih fun v hv w hw => h v (List.mem_cons_of_mem x hv) w (List.mem_cons_of_mem y hw)
      rw [sameItems, Bool.and_eq_true, hhead, htail, Value.rankedItems, Value.rankedItems,
        List.cons.injEq]

/-- Each member has an equal under its key. -/
theorem sameMembers_iff (xs ys : List (String × Value)) :
    sameMembers xs ys = true
      ↔ ∀ m ∈ xs, ∃ w, ys.lookup m.1 = some w ∧ sameValue m.2 w = true := by
  induction xs with
  | nil => simp [sameMembers]
  | cons m xs ih =>
    obtain ⟨k, v⟩ := m
    rw [sameMembers, Bool.and_eq_true, ih, List.forall_mem_cons]
    cases ys.lookup k <;> simp

/-- Two objects are equal if and only if their members are the same in ranked form. -/
theorem sameMembers_iff_ranked {xs ys : List (String × Value)} (hx : Value.Ascending xs)
    (hy : Value.Ascending ys)
    (h : ∀ m ∈ xs, ∀ n ∈ ys, (sameValue m.2 n.2 = true ↔ m.2.ranked = n.2.ranked)) :
    (xs.length = ys.length ∧ sameMembers xs ys = true)
      ↔ Value.rankedMembers xs = Value.rankedMembers ys := by
  rw [sameMembers_iff]
  constructor
  · rintro ⟨hlen, hall⟩
    refine hx.rankedMembers.eq_of_subset hy.rankedMembers ?_ ?_
    · intro m' hm'
      rw [Value.rankedMembers_eq_map] at hm' ⊢
      obtain ⟨m, hm, rfl⟩ := List.mem_map.mp hm'
      obtain ⟨w, hw, hsame⟩ := hall m hm
      have hmem := KeyMap.mem_of_lookup hw
      rw [(h m hm (m.1, w) hmem).mp hsame]
      exact List.mem_map_of_mem (f := fun n => (n.1, n.2.ranked)) hmem
    · simpa [Value.rankedMembers_eq_map] using hlen
  · intro heq
    rw [Value.rankedMembers_eq_map, Value.rankedMembers_eq_map] at heq
    refine ⟨by simpa using congrArg List.length heq, ?_⟩
    intro m hm
    -- the member of the right list that has the same ranked form stands under the same key
    have hmem : (m.1, m.2.ranked) ∈ ys.map fun n => (n.1, n.2.ranked) :=
      heq ▸ List.mem_map_of_mem (f := fun n => (n.1, n.2.ranked)) hm
    obtain ⟨n, hn, hsame⟩ := List.mem_map.mp hmem
    obtain ⟨hkey, hranked⟩ := Prod.mk.inj hsame
    exact ⟨n.2, hkey ▸ hy.lookup_of_mem hn, (h m hm n hn).mpr hranked.symm⟩

/--
**Two values are equal if and only if their ranked forms are the same.**

By induction on the left one; its items and members meet those of the right one only.
-/
theorem sameValue_iff_ranked {v w : Value} (hv : v.InOrder) (hw : w.InOrder) :
    sameValue v w = true ↔ v.ranked = w.ranked := by
  induction v using Value.induction_parts generalizing w with
  | null | bool _ | str _ => cases w <;> simp [sameValue, Value.ranked]
  | num _ => cases w <;> simp [sameValue, Value.ranked]
  | arr xs ih =>
    cases w with
    | arr ys =>
      rw [sameValue, Value.ranked, Value.ranked, Value.arr.injEq]
      exact sameItems_iff_ranked fun x hx y hy => ih x hx (hv.of_mem hx) (hw.of_mem hy)
    | null | bool _ | num _ | str _ | obj _ => simp [sameValue, Value.ranked]
  | obj xs ih =>
    cases w with
    | obj ys =>
      rw [sameValue, Bool.and_eq_true, beq_iff_eq, Value.ranked, Value.ranked, Value.obj.injEq]
      exact sameMembers_iff_ranked hv.1 hw.1 fun m hm n hn =>
        ih m hm (hv.2.of_mem hm) (hw.2.of_mem hn)
    | null | bool _ | num _ | str _ | arr _ => simp [sameValue, Value.ranked]

/-! ## Values of one structure -/

namespace Json.Value

mutual

/-- Two values have the same structure: the same items in the same order, the same members under
the same keys, and in the places of numbers the same integer or doubles that are equal. -/
inductive Alike : Value → Value → Prop where
  | null : Alike .null .null
  | bool (b : Bool) : Alike (.bool b) (.bool b)
  | int (n : Int) : Alike (.num (.int n)) (.num (.int n))
  | double {x y : Double} (h : x.rank = y.rank) : Alike (.num (.double x)) (.num (.double y))
  | str (s : String) : Alike (.str s) (.str s)
  | arr {xs ys : List Value} (h : ItemsAlike xs ys) : Alike (.arr xs) (.arr ys)
  | obj {ms ns : List (String × Value)} (h : MembersAlike ms ns) : Alike (.obj ms) (.obj ns)

/-- The items of two arrays are alike in turn. -/
inductive ItemsAlike : List Value → List Value → Prop where
  | nil : ItemsAlike [] []
  | cons {x y : Value} {xs ys : List Value} (head : Alike x y) (tail : ItemsAlike xs ys) :
      ItemsAlike (x :: xs) (y :: ys)

/-- The members of two objects are alike in turn. -/
inductive MembersAlike : List (String × Value) → List (String × Value) → Prop where
  | nil : MembersAlike [] []
  | cons {v w : Value} {ms ns : List (String × Value)} (key : String) (head : Alike v w)
      (tail : MembersAlike ms ns) : MembersAlike ((key, v) :: ms) ((key, w) :: ns)

end

mutual

/-- Values of the same structure have the same ranked form. -/
theorem Alike.ranked_eq : ∀ {v w : Value}, Alike v w → v.ranked = w.ranked
  | _, _, .null => rfl
  | _, _, .bool _ => rfl
  | _, _, .int _ => rfl
  | _, _, .double h => congrArg (fun r => Value.num (.int r)) h
  | _, _, .str _ => rfl
  | _, _, .arr h => congrArg Value.arr h.ranked_eq
  | _, _, .obj h => congrArg Value.obj h.ranked_eq

theorem ItemsAlike.ranked_eq : ∀ {xs ys : List Value}, ItemsAlike xs ys →
    rankedItems xs = rankedItems ys
  | _, _, .nil => rfl
  | _, _, .cons head tail => by
      rw [rankedItems, rankedItems, head.ranked_eq, tail.ranked_eq]

theorem MembersAlike.ranked_eq : ∀ {ms ns : List (String × Value)}, MembersAlike ms ns →
    rankedMembers ms = rankedMembers ns
  | _, _, .nil => rfl
  | _, _, .cons _ head tail => by
      rw [rankedMembers, rankedMembers, head.ranked_eq, tail.ranked_eq]

end

end Json.Value

/-! ## Operands -/

/-- What a condition compares: undefined, or a value in which each key of an object stands once. -/
structure Operand where
  /-- The value, if it is defined. -/
  value : Option Value
  /-- Its objects are in key order. -/
  inOrder : ∀ v ∈ value, v.InOrder

/-- Undefined is equal to undefined only, and a value to those with the same ranked form. -/
theorem eq_holds_iff_ranked (a b : Operand) :
    Comparator.eq.holds a.value b.value = true
      ↔ a.value.map Value.ranked = b.value.map Value.ranked := by
  obtain ⟨a, ha⟩ := a
  obtain ⟨b, hb⟩ := b
  cases a with
  | none => cases b <;> simp [Comparator.holds, sameOperand]
  | some v =>
    cases b with
    | none => simp [Comparator.holds, sameOperand]
    | some w =>
      rw [Comparator.holds, sameOperand, sameValue_iff_ranked (ha v rfl) (hb w rfl)]
      simp

/--
**Equality is an equivalence**, on whatever a condition may compare, with arrays and objects nested
to any depth. Operands of the same structure are equal, and equal ones are both undefined or values
of one kind; two numbers are equal if and only if the doubles are that they convert to. Inequality
is the opposite.
-/
theorem equality_is_equivalence :
    Equivalence (fun a b : Operand => Comparator.eq.holds a.value b.value = true)
      ∧ (∀ a b : Operand, Option.Rel Value.Alike a.value b.value →
          Comparator.eq.holds a.value b.value = true)
      ∧ (∀ a b : Operand, Comparator.eq.holds a.value b.value = true →
          a.value.map Value.kind = b.value.map Value.kind)
      ∧ (∀ n m : Number, Comparator.eq.holds (some (.num n)) (some (.num m)) = true
          ↔ n.rank = m.rank)
      ∧ ∀ a b : Option Value, Comparator.neq.holds a b = !Comparator.eq.holds a b := by
  refine ⟨⟨?_, ?_, ?_⟩, ?_, ?_, ?_, fun _ _ => rfl⟩
  · intro a
    exact (eq_holds_iff_ranked a a).mpr rfl
  · intro a b hab
    exact (eq_holds_iff_ranked b a).mpr ((eq_holds_iff_ranked a b).mp hab).symm
  · intro a b c hab hbc
    have hsame := ((eq_holds_iff_ranked a b).mp hab).trans ((eq_holds_iff_ranked b c).mp hbc)
    exact (eq_holds_iff_ranked a c).mpr hsame
  · rintro ⟨a, ha⟩ ⟨b, hb⟩ halike
    refine (eq_holds_iff_ranked ⟨a, ha⟩ ⟨b, hb⟩).mpr ?_
    cases halike with
    | none => rfl
    | some h => exact congrArg some h.ranked_eq
  · intro a b heq
    have hkind : Value.kind ∘ Value.ranked = Value.kind := funext Value.kind_ranked
    have hsame := congrArg (Option.map Value.kind) ((eq_holds_iff_ranked a b).mp heq)
    rwa [Option.map_map, Option.map_map, hkind] at hsame
  · intro n m
    rw [Comparator.holds, sameOperand, sameValue, beq_iff_eq]

/-- Three objects that nest arrays: `1` and `1.0` are equal, and so are an integer that no double
stands for and the one before it, which both convert to the same double. So are the two zeros. -/
theorem equality_is_equivalence_across_numbers :
    let one : Double := ⟨false, 1023 * Nat.pow 2 52, by decide⟩
    let zero (negative : Bool) : Double := ⟨negative, 0, by decide⟩
    let object (n : Number) (m : Int) : Value :=
      .obj [("a", .arr [.num n, .null]), ("b", .num (.int m))]
    let a := object (.int 1) (Int.ofNat (Nat.pow 2 53))
    let b := object (.double one) (Int.ofNat (Nat.pow 2 53))
    let c := object (.double one) (Int.ofNat (Nat.pow 2 53) + 1)
    Comparator.eq.holds (some a) (some b) = true ∧ Comparator.eq.holds (some b) (some c) = true
      ∧ Comparator.eq.holds (some a) (some c) = true ∧ Comparator.eq.holds (some c) (some a) = true
      ∧ Comparator.eq.holds (some (.num (.double (zero true))))
          (some (.num (.double (zero false)))) = true := by
  intro one zero object a b c
  obtain ⟨hequiv, halike, _⟩ := equality_is_equivalence
  have hkeys : "a" < "b" := by decide
  have hobject : ∀ n m, (object n m).InOrder := fun n m =>
    ⟨List.pairwise_pair.mpr hkeys, ⟨trivial, trivial, trivial⟩, trivial, trivial⟩
  have hab : Comparator.eq.holds (some a) (some b) = true := by decide +kernel
  have hbc : Comparator.eq.holds (some b) (some c) = true := by decide +kernel
  let x : Operand := ⟨some a, by simpa using hobject _ _⟩
  let y : Operand := ⟨some b, by simpa using hobject _ _⟩
  let z : Operand := ⟨some c, by simpa using hobject _ _⟩
  have hxz : Comparator.eq.holds x.value z.value = true :=
    hequiv.trans (show Comparator.eq.holds x.value y.value = true from hab) hbc
  refine ⟨hab, hbc, hxz, hequiv.symm hxz, ?_⟩
  exact halike ⟨_, by simp [Value.InOrder]⟩ ⟨_, by simp [Value.InOrder]⟩ (.some (.double rfl))

-- The members of the left object all have equals on the right, but not the other way round: with a
-- key that stands twice equality would not be symmetric.
example :
    let twice : Value := .obj [("a", .null), ("a", .null)]
    let once : Value := .obj [("a", .null), ("b", .null)]
    sameValue twice once = true ∧ sameValue once twice = false := by
  decide

end ViewStream
