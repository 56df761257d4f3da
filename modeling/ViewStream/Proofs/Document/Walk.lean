import ViewStream.Proofs.Document.Atomic

/-!
# One step of a walk

`write` goes through objects and through arrays, and in an array it speaks of places, ends and
positions. What a step does can be said without all that:

* something may keep the walk from using the segment in this value at all (`barrier`);
* otherwise what stands in its place is **what a lookup finds**, also for `-` and for a position
  beyond the end, where a lookup finds nothing;
* the child that comes back is written under the segment (`plant`), and where there was nothing in
  an array it is appended.

`write_cons` puts the three together, and `setLeaf_eq` says the same of the last step of a `set`.
What is proved about writes from here on is proved from these two.
-/

namespace ViewStream.Document

open Json (Value)
open Pointer (child? follow? index?)

/-! ## The parts of a step -/

/-- What keeps a walk from using the segment `s` in `v`. -/
def barrier (mode : Mode) (s : String) : Value → Option Obstacle
  | .obj _ => none
  | .arr xs =>
    match slot mode xs.length s with
    | .error o => some o
    | .ok _ => none
  | v => some (.notAContainer v.kind)

/-- `v` with `child` written under the segment `s`: a member, or an item, which is appended where
there was none. -/
def plant (s : String) (child : Value) : Value → Value
  | .obj ms => .obj (KeyMap.insert s child ms)
  | .arr xs => .arr (putItem ((index? s).getD xs.length) child xs)
  | v => v

/-- The segment names a place beyond the one where an item would be appended, or the end as
such. -/
def Overshoots (s : String) (v : Value) : Prop :=
  ∃ xs, v = .arr xs ∧ (s = "-" ∨ ∃ i, index? s = some i ∧ xs.length < i)

/-- The child that a lenient walk goes on in: the one that is there, or one made for the segment
that is looked up in it next. -/
def childFor (next : String) : Option Value → Value
  | none => containerFor next
  | some .null => containerFor next
  | some child => child

/-! ## Places in an array -/

theorem index?_dash : index? "-" = none := by decide +kernel

/-- **Every place is the position named, or the end if that comes first.** -/
theorem slot_ok {mode : Mode} {n i : Nat} {s : String} (h : slot mode n s = .ok i) :
    i = min ((index? s).getD n) n := by
  unfold slot at h
  split at h
  -- `-` has no position, so it falls to the end
  · rename_i hdash
    have hi : n = i := Except.ok.inj h
    rw [hdash, index?_dash, ← hi]
    exact (Nat.min_self n).symm
  · cases hpos : index? s with
    | none => rw [hpos] at h; exact absurd h (by simp)
    | some j =>
      rw [hpos] at h
      dsimp only at h
      by_cases hle : j ≤ n
      · rw [if_pos hle] at h
        have hi : j = i := Except.ok.inj h
        rw [Option.getD_some]
        omega
      · rw [if_neg hle] at h
        cases mode with
        | strict => exact absurd h (by simp)
        | lenient =>
          -- and so does a position beyond it, if the walk is lenient
          have hi : n = i := Except.ok.inj h
          rw [Option.getD_some]
          omega

theorem slot_not_index {s : String} (h : Pointer.isIndexLike s = false) (mode : Mode) (n : Nat) :
    slot mode n s = .error (.badIndex s) := by
  obtain ⟨hdash, hpos⟩ := Bool.or_eq_false_iff.mp h
  have hne : s ≠ "-" := by simpa using hdash
  have hnone : index? s = none := Option.not_isSome_iff_eq_none.mp (by simpa using hpos)
  rw [slot, if_neg hne, hnone]

/-- What stands at the place a walk takes is what a lookup finds. -/
theorem getElem?_slot {mode : Mode} {xs : List Value} {i : Nat} {s : String}
    (h : slot mode xs.length s = .ok i) : xs[i]? = child? (.arr xs) s := by
  have hi := slot_ok h
  rw [child?]
  cases hpos : index? s with
  | none =>
    rw [hpos, Option.getD_none, Nat.min_self] at hi
    rw [hi]
    exact List.getElem?_eq_none (Nat.le_refl _)
  | some j =>
    rw [hpos, Option.getD_some] at hi
    rw [Option.bind_some]
    by_cases hj : j < xs.length
    · rw [hi, Nat.min_eq_left (Nat.le_of_lt hj)]
    -- beyond the items the place may be another one than the position, but there is nothing at
    -- either
    · rw [List.getElem?_eq_none (by omega), List.getElem?_eq_none (by omega)]

/-- Writing at the place a walk takes is writing under the segment. -/
theorem putItem_slot {mode : Mode} {xs : List Value} {i : Nat} {s : String}
    (h : slot mode xs.length s = .ok i) (child : Value) :
    putItem i child xs = putItem ((index? s).getD xs.length) child xs := by
  have hi := slot_ok h
  unfold putItem
  by_cases hj : (index? s).getD xs.length < xs.length
  · have heq : i = (index? s).getD xs.length := by omega
    rw [heq]
  · rw [if_neg hj, if_neg (by omega)]

/-! ## The step -/

/-- What a walk can use a segment in. -/
theorem barrier_cases {mode : Mode} {s : String} {v : Value} (h : barrier mode s v = none) :
    (∃ ms, v = .obj ms) ∨ ∃ xs i, v = .arr xs ∧ slot mode xs.length s = .ok i := by
  cases v with
  | obj ms => exact Or.inl ⟨ms, rfl⟩
  | arr xs =>
    rw [barrier] at h
    cases hs : slot mode xs.length s with
    | error o => rw [hs] at h; exact absurd h (by simp)
    | ok i => exact Or.inr ⟨xs, i, rfl, hs⟩
  | null | bool _ | num _ | str _ => exact absurd h (by simp [barrier])

/-- **One step of a walk**: nothing bars it, a child is entered, and what becomes of the child is
written in its place. -/
theorem write_cons (mode : Mode) (leaf : String → Value → Value × Option Obstacle)
    (s next : String) (rest : List String) (v : Value) :
    write mode leaf s (next :: rest) v
      = match barrier mode s v with
        | some o => (v, some o)
        | none =>
          match enter mode next (child? v s) with
          | .error o => (v, some o)
          | .ok child =>
            (plant s (write mode leaf next rest child).1 v,
              (write mode leaf next rest child).2) := by
  cases v with
  | obj ms =>
    rw [write, barrier, child?]
    cases enter mode next (ms.lookup s) <;> rfl
  | arr xs =>
    rw [write, barrier]
    cases hs : slot mode xs.length s with
    | error o => rfl
    | ok i =>
      dsimp only
      rw [getElem?_slot hs]
      cases enter mode next (child? (.arr xs) s) with
      | error o => rfl
      | ok child =>
        dsimp only
        rw [putItem_slot hs, plant]
  | null | bool _ | num _ | str _ => rfl

theorem setLeaf_eq (mode : Mode) (value : Value) (s : String) (v : Value) :
    setLeaf mode value s v
      = match barrier mode s v with
        | some o => (v, some o)
        | none => (plant s value v, none) := by
  cases v with
  | obj ms => rfl
  | arr xs =>
    rw [setLeaf, barrier]
    cases hs : slot mode xs.length s with
    | error o => rfl
    | ok i =>
      dsimp only
      rw [putItem_slot hs, plant]
  | null | bool _ | num _ | str _ => rfl

theorem set_of_segments {path : Pointer} {s : String} {rest : List String}
    (h : path.segments = s :: rest) (mode : Mode) (value : Value) :
    set mode path value = write mode (setLeaf mode value) s rest := by
  funext v
  rw [set, h]

/-- **All that a step that succeeds has done.** -/
theorem write_cons_ok {mode : Mode} {leaf : String → Value → Value × Option Obstacle}
    {s next : String} {rest : List String} {v v' : Value}
    (h : write mode leaf s (next :: rest) v = (v', none)) :
    barrier mode s v = none ∧ ∃ child child', enter mode next (child? v s) = .ok child
      ∧ write mode leaf next rest child = (child', none) ∧ v' = plant s child' v := by
  rw [write_cons] at h
  cases hbar : barrier mode s v with
  | some o => rw [hbar] at h; exact absurd h (by simp)
  | none =>
    rw [hbar] at h
    dsimp only at h
    refine ⟨rfl, ?_⟩
    cases hent : enter mode next (child? v s) with
    | error o => rw [hent] at h; exact absurd h (by simp)
    | ok child =>
      rw [hent] at h
      obtain ⟨hdoc, hstop⟩ := Prod.mk.inj h
      exact ⟨child, _, rfl, Prod.ext rfl hstop, hdoc.symm⟩

theorem setLeaf_ok {mode : Mode} {value : Value} {s : String} {v v' : Value}
    (h : setLeaf mode value s v = (v', none)) :
    barrier mode s v = none ∧ v' = plant s value v := by
  rw [setLeaf_eq] at h
  cases hbar : barrier mode s v with
  | some o => rw [hbar] at h; exact absurd h (by simp)
  | none =>
    rw [hbar] at h
    exact ⟨rfl, (Prod.mk.inj h).1.symm⟩

/-! ## What is entered -/

theorem enter_lenient (next : String) (found : Option Value) :
    enter .lenient next found = .ok (childFor next found) := by
  cases found with
  | none => rfl
  | some child => cases child <;> rfl

theorem childFor_of_ne {next : String} {child : Value} (h : child ≠ .null) :
    childFor next (some child) = child := by
  cases child with
  | null => exact absurd rfl h
  | bool _ | num _ | str _ | arr _ | obj _ => rfl

theorem containerFor_ne_null (s : String) : containerFor s ≠ .null := by
  rcases containerFor_cases s with ⟨_, hc⟩ | hc <;> rw [hc] <;> simp

/-- No walk goes on in null. -/
theorem enter_ne_null {mode : Mode} {next : String} {found : Option Value} {child : Value}
    (h : enter mode next found = .ok child) : child ≠ .null := by
  rcases enter_cases h with hfound | ⟨_, hchild⟩
  · rintro rfl
    rw [hfound] at h
    cases mode with
    | strict => exact absurd h (by simp [enter])
    | lenient => exact containerFor_ne_null next (Except.ok.inj h)
  · rw [hchild]
    exact containerFor_ne_null next

theorem enter_there {mode : Mode} {next : String} {child : Value} (h : child ≠ .null) :
    enter mode next (some child) = .ok child := by
  cases child with
  | null => exact absurd rfl h
  | bool _ | num _ | str _ | arr _ | obj _ => rfl

theorem childFor_ne_null (next : String) (found : Option Value) : childFor next found ≠ .null :=
  enter_ne_null (enter_lenient next found)

/-! ## What is written -/

/-- Where a lookup finds something a walk can go. -/
theorem barrier_of_child? {s : String} {v child : Value} (h : child? v s = some child)
    (mode : Mode) : barrier mode s v = none := by
  cases v with
  | obj ms => rfl
  | arr xs =>
    obtain ⟨i, hpos, hi⟩ := Option.bind_eq_some_iff.mp h
    obtain ⟨hlt, _⟩ := List.getElem?_eq_some_iff.mp hi
    have hdash : s ≠ "-" := by
      rintro rfl
      exact absurd (hpos.symm.trans index?_dash) (by simp)
    rw [barrier, slot, if_neg hdash, hpos]
    dsimp only
    rw [if_pos (Nat.le_of_lt hlt)]
  | null | bool _ | num _ | str _ => exact absurd h (by simp [child?])

/-- Writing back what is there changes nothing. -/
theorem plant_child? {s : String} {v child : Value} (h : child? v s = some child) :
    plant s child v = v := by
  cases v with
  | obj ms => rw [plant, KeyMap.insert_lookup h]
  | arr xs =>
    obtain ⟨i, hpos, hi⟩ := Option.bind_eq_some_iff.mp h
    rw [plant, hpos, Option.getD_some, putItem_getElem? hi]
  | null | bool _ | num _ | str _ => exact absurd h (by simp [child?])

theorem getElem?_putItem_self {i : Nat} {xs : List Value} (h : i ≤ xs.length) (child : Value) :
    (putItem i child xs)[i]? = some child := by
  unfold putItem
  by_cases hi : i < xs.length
  · rw [if_pos hi, List.getElem?_set_self hi]
  · have heq : i = xs.length := by omega
    rw [if_neg hi, heq, List.getElem?_concat_length]

/-- **What is written is found there**, unless it was appended under a segment that names something
else. -/
theorem child?_plant {mode : Mode} {s : String} {v : Value} (hbar : barrier mode s v = none)
    (h : ¬ Overshoots s v) (child : Value) : child? (plant s child v) s = some child := by
  rcases barrier_cases hbar with ⟨ms, rfl⟩ | ⟨xs, i, rfl, hslot⟩
  · exact KeyMap.lookup_insert_self s child ms
  · rw [plant, child?]
    cases hpos : index? s with
    | none =>
      -- without a position only `-` has a place, and it overshoots
      by_cases hdash : s = "-"
      · exact absurd ⟨xs, rfl, Or.inl hdash⟩ h
      · rw [slot, if_neg hdash, hpos] at hslot
        exact absurd hslot (by simp)
    | some j =>
      have hj : j ≤ xs.length := Nat.not_lt.mp fun hlt => h ⟨xs, rfl, Or.inr ⟨j, hpos, hlt⟩⟩
      rw [Option.bind_some, Option.getD_some]
      exact getElem?_putItem_self hj child

/-- Under a segment that overshoots, the value is appended one place before or more: nothing is
found there afterwards. -/
theorem child?_plant_overshoots {s : String} {v : Value} (h : Overshoots s v) (child : Value) :
    child? (plant s child v) s = none := by
  obtain ⟨xs, rfl, rfl | ⟨i, hpos, hi⟩⟩ := h
  · rw [plant, child?, index?_dash]
    rfl
  · rw [plant, child?, hpos, Option.bind_some, Option.getD_some, putItem, if_neg (by omega)]
    exact List.getElem?_eq_none (by rw [List.length_append, List.length_singleton]; omega)

theorem plant_ne_null {mode : Mode} {s : String} {v : Value} (h : barrier mode s v = none)
    (child : Value) : plant s child v ≠ .null := by
  rcases barrier_cases h with ⟨ms, rfl⟩ | ⟨xs, i, rfl, _⟩ <;> simp [plant]

/-- A `set` that succeeds has left a container. -/
theorem write_set_ne_null {mode : Mode} {value v v' : Value} {s : String} {rest : List String}
    (h : write mode (setLeaf mode value) s rest v = (v', none)) : v' ≠ .null := by
  cases rest with
  | nil =>
    obtain ⟨hbar, rfl⟩ := setLeaf_ok h
    exact plant_ne_null hbar value
  | cons next rest =>
    obtain ⟨hbar, _, _, _, _, rfl⟩ := write_cons_ok h
    exact plant_ne_null hbar _

end ViewStream.Document
