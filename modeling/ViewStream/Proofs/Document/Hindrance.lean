import ViewStream.Proofs.Document.Walk

/-!
# What stops a lenient write

A lenient `add` or `set` makes what is missing and fills what is null, so hardly anything is in its
way. This file says exactly what is, in terms of **what the document reads along the path before
the write**. The walk itself soon leaves that document: behind the first container it has made
nothing it meets was there before. But behind that container nothing stops it either
(`write_containerFor`), and there is nothing to be read further down, so the two ways of going down
the path end together.

* `hindrance` says whether a value on the path is in the way;
* `firstHindrance` reads down the path for the first one that is, and finds the one with the
  shortest prefix (`firstHindrance_eq_some_iff`);
* a walk stops where that reading finds something, and nowhere else (`write_lenient_stop`).
-/

namespace ViewStream.Document

open Json (Value)
open Pointer (child? follow? index?)

/-! ## Reading down a path -/

/-- What keeps a lenient `op` from going on below a value that the segments `passed` lead to, where
`t` comes next and then `rest`. An `add` appends to an array whatever its last segment says. -/
def hindrance (op : Op) (passed : List String) (t : String) (rest : List String) :
    Value → Option Obstacle
  | .obj _ => none
  | .arr _ =>
    if Pointer.isIndexLike t ∨ (op = .add ∧ rest = []) then none else some (.badIndex t)
  | .null => if passed = [] then some (.notAContainer .null) else none
  | v => some (.notAContainer v.kind)

/-- After its proper prefix `q` the path reads a value in `v` that is in the way, with obstacle
`o`. Here `passed` are the segments that lead to `v` itself. -/
def Hindered (op : Op) (passed path : List String) (v : Value) (q : List String) (o : Obstacle) :
    Prop :=
  ∃ t rest x, path = q ++ t :: rest ∧ follow? q v = some x
    ∧ hindrance op (passed ++ q) t rest x = some o

/-- The first obstacle there is on reading down a path. -/
def firstHindrance (op : Op) (passed : List String) : List String → Value → Option Obstacle
  | [], _ => none
  | t :: rest, v =>
    match hindrance op passed t rest v with
    | some o => some o
    | none => (child? v t).bind (firstHindrance op (passed ++ [t]) rest)

section

variable {op : Op} {passed q : List String} {o : Obstacle}

theorem not_hindered_nil {v : Value} : ¬ Hindered op passed [] v q o := by
  rintro ⟨t, rest, x, hpath, _, _⟩
  exact absurd hpath (by simp)

/-- A value in the way is the first one on the path, or one below the first. -/
theorem hindered_cons {t : String} {rest : List String} {v : Value} :
    Hindered op passed (t :: rest) v q o
      ↔ (q = [] ∧ hindrance op passed t rest v = some o)
        ∨ ∃ q' child, q = t :: q' ∧ child? v t = some child
            ∧ Hindered op (passed ++ [t]) rest child q' o := by
  constructor
  · rintro ⟨t', rest', x, hpath, hread, ho⟩
    cases q with
    | nil =>
      obtain ⟨rfl, rfl⟩ := List.cons.inj hpath
      have hx : v = x := Option.some.inj hread
      rw [List.append_nil, ← hx] at ho
      exact Or.inl ⟨rfl, ho⟩
    | cons s q' =>
      rw [List.cons_append] at hpath
      obtain ⟨rfl, hrest⟩ := List.cons.inj hpath
      obtain ⟨child, hchild, hbelow⟩ := Option.bind_eq_some_iff.mp hread
      rw [List.append_cons] at ho
      exact Or.inr ⟨q', child, rfl, hchild, t', rest', x, hrest, hbelow, ho⟩
  · rintro (⟨rfl, ho⟩ | ⟨q', child, rfl, hchild, t', rest', x, hrest, hbelow, ho⟩)
    · exact ⟨t, rest, v, rfl, rfl, by rw [List.append_nil]; exact ho⟩
    · refine ⟨t', rest', x, by rw [hrest, List.cons_append], ?_, ?_⟩
      · rw [follow?, hchild, Option.bind_some, hbelow]
      · rw [List.append_cons]
        exact ho

/-- **Reading down finds something if anything is in the way.** -/
theorem firstHindrance_ne_none_iff (path : List String) (v : Value) :
    firstHindrance op passed path v ≠ none ↔ ∃ q o, Hindered op passed path v q o := by
  induction path generalizing passed v with
  | nil =>
    constructor
    · intro h
      exact absurd rfl h
    · rintro ⟨q, o, h⟩
      exact absurd h not_hindered_nil
  | cons t rest ih =>
    rw [firstHindrance]
    cases ho : hindrance op passed t rest v with
    | some o =>
      have hhere : Hindered op passed (t :: rest) v [] o := hindered_cons.mpr (Or.inl ⟨rfl, ho⟩)
      exact iff_of_true (by simp) ⟨[], o, hhere⟩
    | none =>
      dsimp only
      constructor
      · intro h
        cases hchild : child? v t with
        | none => rw [hchild] at h; exact absurd rfl h
        | some child =>
          rw [hchild, Option.bind_some] at h
          obtain ⟨q, o, hbelow⟩ := (ih child).mp h
          exact ⟨t :: q, o, hindered_cons.mpr (Or.inr ⟨q, child, rfl, hchild, hbelow⟩)⟩
      · rintro ⟨q, o, h⟩
        rcases hindered_cons.mp h with ⟨_, hhere⟩ | ⟨q', child, _, hchild, hbelow⟩
        · exact absurd (ho.symm.trans hhere) (by simp)
        · rw [hchild, Option.bind_some]
          exact (ih child).mpr ⟨q', o, hbelow⟩

/-- **What it finds belongs to the shortest prefix** at which anything is in the way. -/
theorem firstHindrance_eq_some_iff (path : List String) (v : Value) (o : Obstacle) :
    firstHindrance op passed path v = some o
      ↔ ∃ q, Hindered op passed path v q o
          ∧ ∀ q' o', Hindered op passed path v q' o' → q.length ≤ q'.length := by
  induction path generalizing passed v with
  | nil =>
    constructor
    · intro h
      exact absurd h (by simp [firstHindrance])
    · rintro ⟨q, h, _⟩
      exact absurd h not_hindered_nil
  | cons t rest ih =>
    rw [firstHindrance]
    cases hv : hindrance op passed t rest v with
    | some o₀ =>
      have hhere : Hindered op passed (t :: rest) v [] o₀ := hindered_cons.mpr (Or.inl ⟨rfl, hv⟩)
      constructor
      · intro h
        rw [← Option.some.inj h]
        exact ⟨[], hhere, fun _ _ _ => Nat.zero_le _⟩
      · rintro ⟨q, h, hshortest⟩
        -- no prefix is shorter than the empty one
        have hq : q = [] := List.length_eq_zero_iff.mp (Nat.le_zero.mp (hshortest [] o₀ hhere))
        rcases hindered_cons.mp h with ⟨_, ho⟩ | ⟨q', child, hcons, _, _⟩
        · exact hv.symm.trans ho
        · exact absurd (hq.symm.trans hcons) (by simp)
    | none =>
      dsimp only
      constructor
      · intro h
        obtain ⟨child, hchild, hfound⟩ := Option.bind_eq_some_iff.mp h
        obtain ⟨q, hbelow, hshortest⟩ := (ih child).mp hfound
        refine ⟨t :: q, hindered_cons.mpr (Or.inr ⟨q, child, rfl, hchild, hbelow⟩), ?_⟩
        intro q' o' h'
        rcases hindered_cons.mp h' with ⟨_, hhere⟩ | ⟨q'', child', rfl, hchild', hbelow'⟩
        · exact absurd (hv.symm.trans hhere) (by simp)
        · have hsame : child = child' := Option.some.inj (hchild.symm.trans hchild')
          rw [← hsame] at hbelow'
          have := hshortest q'' o' hbelow'
          simp only [List.length_cons]
          omega
      · rintro ⟨q, h, hshortest⟩
        rcases hindered_cons.mp h with ⟨_, hhere⟩ | ⟨q', child, rfl, hchild, hbelow⟩
        · exact absurd (hv.symm.trans hhere) (by simp)
        · rw [hchild, Option.bind_some]
          refine (ih child).mpr ⟨q', hbelow, ?_⟩
          intro q'' o' h'
          have := hshortest (t :: q'') o'
            (hindered_cons.mpr (Or.inr ⟨q'', child, rfl, hchild, h'⟩))
          simp only [List.length_cons] at this
          omega

end

/-! ## The walk beside the reading -/

theorem slot_lenient_index {s : String} (h : Pointer.isIndexLike s = true) (n : Nat) :
    ∃ i, slot .lenient n s = .ok i := by
  unfold slot
  by_cases hdash : s = "-"
  · exact ⟨n, by rw [if_pos hdash]⟩
  · rw [if_neg hdash]
    cases hpos : index? s with
    | none => exact absurd h (by simp [Pointer.isIndexLike, hdash, hpos])
    | some i =>
      dsimp only
      by_cases hle : i ≤ n
      · exact ⟨i, by rw [if_pos hle]⟩
      · exact ⟨n, by rw [if_neg hle]⟩

/-- What bars a lenient walk is what the reading takes for a hindrance, unless an `add` has arrived
at its last segment. Null is a hindrance at the root alone, for a walk enters it nowhere else. -/
theorem barrier_lenient {op : Op} {passed : List String} {t : String} {rest : List String}
    {v : Value} (hnull : passed = [] ∨ v ≠ .null) (hadd : ¬ (op = .add ∧ rest = [])) :
    barrier .lenient t v = hindrance op passed t rest v := by
  cases v with
  | null =>
    rcases hnull with hroot | hne
    · rw [hindrance, if_pos hroot]
      rfl
    · exact absurd rfl hne
  | arr xs =>
    rw [barrier, hindrance]
    cases hidx : Pointer.isIndexLike t with
    | true =>
      obtain ⟨i, hi⟩ := slot_lenient_index hidx xs.length
      rw [hi, if_pos (Or.inl rfl)]
    | false =>
      rw [slot_not_index hidx, if_neg]
      rintro (h | h)
      · exact absurd h (by simp)
      · exact hadd h
  | obj _ | bool _ | num _ | str _ => rfl

theorem addLeaf_stop {passed : List String} (value : Value) (t : String) {v : Value}
    (hnull : passed = [] ∨ v ≠ .null) : (addLeaf value t v).2 = hindrance .add passed t [] v := by
  cases v with
  | null =>
    rcases hnull with hroot | hne
    · rw [hindrance, if_pos hroot]
      rfl
    · exact absurd rfl hne
  | obj ms =>
    unfold addLeaf
    dsimp only
    split <;> rfl
  | arr xs => rw [hindrance, if_pos (Or.inr ⟨rfl, rfl⟩), addLeaf]
  | bool _ | num _ | str _ => rfl

theorem setLeaf_stop {passed : List String} (value : Value) (t : String) {v : Value}
    (hnull : passed = [] ∨ v ≠ .null) :
    (setLeaf .lenient value t v).2 = hindrance .set passed t [] v := by
  rw [setLeaf_eq, ← barrier_lenient hnull (by simp)]
  cases barrier .lenient t v <;> rfl

/--
**A lenient walk stops where the reading finds something in the way, with that obstacle.**

By induction along the path. Where there is a child to go on in, the reading goes on in the same
one; where there is none, or null, the walk goes on in a container it has made and is not stopped
any more, and the reading ends.
-/
theorem write_lenient_stop {op : Op} {leaf : String → Value → Value × Option Obstacle}
    (hfit : Leaf.Fits leaf)
    (hleaf : ∀ (passed : List String) (t : String) (v : Value), passed = [] ∨ v ≠ .null →
      (leaf t v).2 = hindrance op passed t [] v) :
    ∀ (rest : List String) (first : String) (passed : List String) (v : Value),
    passed = [] ∨ v ≠ .null →
    (write .lenient leaf first rest v).2 = firstHindrance op passed (first :: rest) v
  | [], first, passed, v, hnull => by
      rw [write, hleaf passed first v hnull, firstHindrance]
      cases hindrance op passed first [] v with
      | some o => rfl
      | none => cases child? v first <;> rfl
  | next :: rest, first, passed, v, hnull => by
      rw [write_cons, firstHindrance, ← barrier_lenient hnull (by simp)]
      cases barrier .lenient first v with
      | some o => rfl
      | none =>
        dsimp only
        rw [enter_lenient]
        dsimp only
        cases hchild : child? v first with
        -- nothing is there: the reading ends, and what the walk makes does not stop it
        | none => exact write_containerFor hfit rest next
        | some child =>
          rw [Option.bind_some]
          by_cases hne : child = .null
          -- below null nothing is read, and the walk has filled it
          · rw [hne]
            have hread : firstHindrance op (passed ++ [first]) (next :: rest) .null = none := by
              rw [firstHindrance, hindrance, if_neg (by simp)]
              rfl
            rw [hread]
            exact write_containerFor hfit rest next
          · rw [childFor_of_ne hne]
            exact write_lenient_stop hfit hleaf rest next (passed ++ [first]) child (Or.inr hne)

theorem add_lenient_stop (path : Pointer) (value v : Value) :
    (add .lenient path value v).2 = firstHindrance .add [] path.segments v := by
  unfold add
  split
  · rename_i h
    rw [h]
    rfl
  · rename_i first rest h
    rw [h]
    exact write_lenient_stop (addLeaf_fits value) (fun _ t _ hn => addLeaf_stop value t hn) rest
      first [] v (Or.inl rfl)

theorem set_lenient_stop (path : Pointer) (value v : Value) :
    (set .lenient path value v).2 = firstHindrance .set [] path.segments v := by
  unfold set
  split
  · rename_i h
    rw [h]
    rfl
  · rename_i first rest h
    rw [h]
    exact write_lenient_stop (setLeaf_fits value) (fun _ t _ hn => setLeaf_stop value t hn) rest
      first [] v (Or.inl rfl)

end ViewStream.Document

namespace ViewStream

open Json (Value)
open Document

/-! ## Patches -/

/-- The error of a lenient `add` or `set` is read off the document along the path. -/
theorem Patch.apply_lenient_stop {op : Op} (hop : op = .add ∨ op = .set) (path : String)
    (value d : Value) :
    (Patch.apply .lenient ⟨op, path, some value⟩ d).2
      = (firstHindrance op [] (Pointer.parse path).segments d).map (.blocked op path) := by
  rcases hop with rfl | rfl
  · rw [← add_lenient_stop _ value d]
    rfl
  · rw [← set_lenient_stop _ value d]
    rfl

/--
**Exactly when a lenient write fails.** A lenient `add` or `set` fails if and only if some proper
prefix of its path reads a value in the document that is in the way: a boolean, a number or a
string, null if it is the whole document, or an array in which the next segment is neither `-` nor
a position, where an `add` takes any last segment.

The error is the one for the shortest such prefix: the kind of the value, or the segment that is no
position.
-/
theorem lenient_write_fails_iff {op : Op} (hop : op = .add ∨ op = .set) (path : String)
    (value d : Value) :
    let failure := (Patch.apply .lenient ⟨op, path, some value⟩ d).2
    let segments := (Pointer.parse path).segments
    (failure ≠ none ↔ ∃ q o, Hindered op [] segments d q o)
      ∧ ∀ e, failure = some e ↔ ∃ q o, Hindered op [] segments d q o
          ∧ (∀ q' o', Hindered op [] segments d q' o' → q.length ≤ q'.length)
          ∧ e = .blocked op path o := by
  intro failure segments
  have hfailure : failure = (firstHindrance op [] segments d).map (.blocked op path) :=
    Patch.apply_lenient_stop hop path value d
  refine ⟨?_, ?_⟩
  · rw [← firstHindrance_ne_none_iff, hfailure, ne_eq, Option.map_eq_none_iff]
  · intro e
    rw [hfailure, Option.map_eq_some_iff]
    constructor
    · rintro ⟨o, hfound, rfl⟩
      obtain ⟨q, hq, hshortest⟩ := (firstHindrance_eq_some_iff segments d o).mp hfound
      exact ⟨q, o, hq, hshortest, rfl⟩
    · rintro ⟨q, o, hq, hshortest, rfl⟩
      exact ⟨o, (firstHindrance_eq_some_iff segments d o).mpr ⟨q, hq, hshortest⟩, rfl⟩

/-- Below the list the path goes on with a name; that there is a string further down does not
matter. -/
theorem lenient_write_fails_in_list :
    let d : Value := .obj [("list", .arr [.obj [("name", .str "x")]])]
    (Op.set = .add ∨ Op.set = .set)
      ∧ Hindered .set [] ["list", "first", "name", "text"] d ["list"] (.badIndex "first")
      ∧ ∃ q o, Hindered .set [] ["list", "first", "name", "text"] d q o
          ∧ (∀ q' o', Hindered .set [] ["list", "first", "name", "text"] d q' o' →
              q.length ≤ q'.length)
          ∧ ApplyError.blocked .set "/list/first/name/text" (.badIndex "first")
              = .blocked .set "/list/first/name/text" o := by
  intro d
  have hset : Op.set = .add ∨ Op.set = .set := Or.inr rfl
  have hsegments : (Pointer.parse "/list/first/name/text").segments
      = ["list", "first", "name", "text"] := by decide +kernel
  have hstop : (Patch.apply .lenient ⟨.set, "/list/first/name/text", some .null⟩ d).2
      = some (.blocked .set "/list/first/name/text" (.badIndex "first")) := by decide +kernel
  have hwrite := lenient_write_fails_iff hset "/list/first/name/text" .null d
  rw [hsegments] at hwrite
  refine ⟨hset, ⟨"first", ["name", "text"], .arr [.obj [("name", .str "x")]], rfl, ?_, ?_⟩, ?_⟩
  · decide +kernel
  · decide +kernel
  · exact (hwrite.2 _).mp hstop

end ViewStream
