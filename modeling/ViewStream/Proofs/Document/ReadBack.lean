import ViewStream.Proofs.Document.Walk

/-!
# What a set leaves to be read, and what a second one does

After a `set` one would like to read the value at the path, and a second `set` of the same value
should change nothing. Both hold but for one thing: **in an array a segment may name a place beyond
its end**, or the end as such, and then the item is appended where the segment does not lead. The
path then reads nothing, and the next `set` appends once more.

The two are one property. `write_set_same_iff` says, of any document, that a `set` leaves it as it
is if and only if the path reads the value in it already; so what remains is to say when a `set`
makes the path read its value. That is decided container by container on the way down (`met`), and
a container may be one that the walk itself has made.
-/

namespace ViewStream.Document

open Json (Value)
open Pointer (child? follow? index?)

/-- The values in which a walk looks its segments up, each with its segment, as they are when the
walk gets there. -/
def met (mode : Mode) : List String → Value → List (String × Value)
  | [], _ => []
  | [last], v => [(last, v)]
  | s :: next :: rest, v =>
    (s, v) ::
      match enter mode next (child? v s) with
      | .error _ => []
      | .ok child => met mode (next :: rest) child

/-! ## One container -/

/-- Under a segment that overshoots, the value goes to the end of the array. -/
theorem plant_overshoots {s : String} {v : Value} (h : Overshoots s v) :
    ∃ xs, v = .arr xs ∧ ∀ child, plant s child v = .arr (xs ++ [child]) := by
  obtain ⟨xs, rfl, hs⟩ := h
  refine ⟨xs, rfl, ?_⟩
  intro child
  have hend : ¬ (index? s).getD xs.length < xs.length := by
    rcases hs with rfl | ⟨i, hpos, hi⟩
    · rw [index?_dash, Option.getD_none]
      omega
    · rw [hpos, Option.getD_some]
      omega
  rw [plant, putItem, if_neg hend]

/-- **Writing changes nothing only if what is written is there already.** -/
theorem child?_of_plant_eq {mode : Mode} {s : String} {v child : Value}
    (hbar : barrier mode s v = none) (h : plant s child v = v) : child? v s = some child := by
  by_cases hover : Overshoots s v
  -- an array that something was appended to is longer than it was
  · obtain ⟨xs, rfl, happend⟩ := plant_overshoots hover
    have hlen := congrArg List.length (Value.arr.inj ((happend child).symm.trans h))
    rw [List.length_append, List.length_singleton] at hlen
    omega
  · have hthere := child?_plant hbar hover child
    rwa [h] at hthere

theorem follow?_plant {mode : Mode} {s : String} {rest : List String} {v : Value}
    (hbar : barrier mode s v = none) (h : ¬ Overshoots s v) (child : Value) :
    follow? (s :: rest) (plant s child v) = follow? rest child := by
  rw [follow?, child?_plant hbar h, Option.bind_some]

theorem follow?_plant_overshoots {s : String} {rest : List String} {v : Value} (h : Overshoots s v)
    (child : Value) : follow? (s :: rest) (plant s child v) = none := by
  rw [follow?, child?_plant_overshoots h]
  rfl

/-! ## Down the path -/

/-- **A set writes into what it meets**, from the last container back to the document. -/
theorem write_set_met {mode : Mode} {value : Value} : ∀ (rest : List String) (first : String)
    (v v' : Value), write mode (setLeaf mode value) first rest v = (v', none) →
    v' = (met mode (first :: rest) v).foldr (fun m child => plant m.1 child m.2) value
  | [], first, v, v', h => (setLeaf_ok h).2
  | next :: rest, first, v, v', h => by
      obtain ⟨_, child, child', hent, hrest, hdoc⟩ := write_cons_ok h
      have ih := write_set_met rest next child child' hrest
      rw [met, hent, List.foldr_cons, hdoc]
      dsimp only
      rw [← ih]

/-- **What a set makes its path read**: its value, unless one of its segments overshoots. -/
theorem write_set_read_iff {mode : Mode} {value : Value} : ∀ (rest : List String) (first : String)
    (v v' : Value), write mode (setLeaf mode value) first rest v = (v', none) →
    (follow? (first :: rest) v' = some value
      ↔ ∀ m ∈ met mode (first :: rest) v, ¬ Overshoots m.1 m.2)
  | [], first, v, v', h => by
      obtain ⟨hbar, rfl⟩ := setLeaf_ok h
      rw [met]
      by_cases hover : Overshoots first v
      · rw [follow?_plant_overshoots hover]
        exact iff_of_false (by simp) fun hall => hall _ List.mem_cons_self hover
      · rw [follow?_plant hbar hover]
        refine iff_of_true rfl ?_
        intro m hm
        rw [List.mem_singleton.mp hm]
        exact hover
  | next :: rest, first, v, v', h => by
      obtain ⟨hbar, child, child', hent, hrest, rfl⟩ := write_cons_ok h
      have ih := write_set_read_iff rest next child child' hrest
      rw [met, hent]
      dsimp only
      rw [List.forall_mem_cons]
      by_cases hover : Overshoots first v
      · rw [follow?_plant_overshoots hover]
        exact iff_of_false (by simp) fun hall => hall.1 hover
      · rw [follow?_plant hbar hover, ih]
        exact (and_iff_right hover).symm

/--
**A set leaves a document as it is if and only if the path reads the value in it already.**

By induction along the path. To leave a container as it is, the walk must have put back the child
that was there; a child that it enters and changes is never the one it would have made, for the one
it puts back is not null.
-/
theorem write_set_same_iff (mode : Mode) (value : Value) : ∀ (rest : List String) (first : String)
    (v : Value), write mode (setLeaf mode value) first rest v = (v, none)
      ↔ follow? (first :: rest) v = some value
  | [], first, v => by
      have hlast : follow? [first] v = child? v first := by
        rw [follow?]
        cases child? v first <;> rfl
      rw [hlast]
      constructor
      · intro h
        obtain ⟨hbar, hdoc⟩ := setLeaf_ok h
        exact child?_of_plant_eq hbar hdoc.symm
      · intro hchild
        rw [write, setLeaf_eq, barrier_of_child? hchild mode]
        dsimp only
        rw [plant_child? hchild]
  | next :: rest, first, v => by
      constructor
      · intro h
        obtain ⟨hbar, child, child', hent, hrest, hdoc⟩ := write_cons_ok h
        have hchild : child? v first = some child' := child?_of_plant_eq hbar hdoc.symm
        have hne : child' ≠ .null := write_set_ne_null hrest
        rw [hchild, enter_there hne] at hent
        have hsame : child' = child := Except.ok.inj hent
        rw [hsame] at hchild hrest
        rw [follow?, hchild, Option.bind_some]
        exact (write_set_same_iff mode value rest next child).mp hrest
      · intro hread
        obtain ⟨child, hchild, hbelow⟩ := Option.bind_eq_some_iff.mp hread
        -- there is a value below the child, and below null there is none
        have hne : child ≠ .null := by
          rintro rfl
          exact absurd hbelow (by simp [follow?, child?])
        have hrest := (write_set_same_iff mode value rest next child).mpr hbelow
        rw [write_cons, barrier_of_child? hchild mode, hchild]
        dsimp only
        rw [enter_there hne]
        dsimp only
        rw [hrest, plant_child? hchild]

/-! ## Sets -/

theorem set_met {mode : Mode} {path : Pointer} {value v v' : Value}
    (h : set mode path value v = (v', none)) :
    v' = (met mode path.segments v).foldr (fun m child => plant m.1 child m.2) value := by
  unfold set at h
  split at h
  · rename_i hroot
    rw [hroot]
    exact (Prod.mk.inj h).1.symm
  · rename_i first rest hsegments
    rw [hsegments]
    exact write_set_met rest first v v' h

theorem set_read_iff {mode : Mode} {path : Pointer} {value v v' : Value}
    (h : set mode path value v = (v', none)) :
    path.get? v' = some value ↔ ∀ m ∈ met mode path.segments v, ¬ Overshoots m.1 m.2 := by
  rw [Pointer.get?]
  unfold set at h
  split at h
  · rename_i hroot
    rw [hroot, ← (Prod.mk.inj h).1]
    exact iff_of_true rfl (by simp [met])
  · rename_i first rest hsegments
    rw [hsegments]
    exact write_set_read_iff rest first v v' h

theorem set_same_iff (mode : Mode) (path : Pointer) (value v : Value) :
    set mode path value v = (v, none) ↔ path.get? v = some value := by
  rw [Pointer.get?]
  unfold set
  split
  · rename_i hroot
    rw [hroot, follow?, Prod.mk.injEq, Option.some.injEq, and_iff_left rfl]
    exact eq_comm
  · rename_i first rest hsegments
    rw [hsegments]
    exact write_set_same_iff mode value rest first v

end ViewStream.Document

namespace ViewStream

open Json (Value)
open Document

/-! ## Patches -/

theorem Patch.apply_set_iff {mode : Mode} {path : String} {value d d' : Value} :
    Patch.apply mode ⟨.set, path, some value⟩ d = (d', none)
      ↔ set mode (Pointer.parse path) value d = (d', none) := by
  have hedit : Patch.apply mode ⟨.set, path, some value⟩ d
      = ((set mode (Pointer.parse path) value d).1,
        (set mode (Pointer.parse path) value d).2.map (.blocked .set path)) := rfl
  rw [hedit, Prod.ext_iff, Prod.ext_iff, Option.map_eq_none_iff]

/--
**Read-back and idempotence of set**, in either mode. A `set` that succeeds writes into the
containers it meets, and

* its path reads the value afterwards if and only if in none of them that is an array the segment
  was `-` or a position greater than the length the array then had;
* applying it again succeeds and changes nothing if and only if its path reads the value.
-/
theorem set_reads_back {mode : Mode} {path : String} {value d d' : Value}
    (h : Patch.apply mode ⟨.set, path, some value⟩ d = (d', none)) :
    let containers := met mode (Pointer.parse path).segments d
    d' = containers.foldr (fun m child => plant m.1 child m.2) value
      ∧ (Pointer.read? path d' = some value ↔ ∀ m ∈ containers, ¬ Overshoots m.1 m.2)
      ∧ (Patch.apply mode ⟨.set, path, some value⟩ d' = (d', none)
          ↔ Pointer.read? path d' = some value) := by
  intro containers
  have hset := Patch.apply_set_iff.mp h
  refine ⟨set_met hset, set_read_iff hset, ?_⟩
  rw [Patch.apply_set_iff]
  exact set_same_iff mode (Pointer.parse path) value d'

/-- The fourth item of a list of one becomes its second one: the path does not read it, and a
second `set` appends a third. -/
theorem set_reads_back_not_beyond_end :
    let d : Value := .obj [("xs", .arr [.null])]
    let d' : Value := .obj [("xs", .arr [.null, .obj [("n", .str "v")]])]
    Patch.apply .lenient ⟨.set, "/xs/3/n", some (.str "v")⟩ d = (d', none)
      ∧ Pointer.read? "/xs/3/n" d' ≠ some (.str "v")
      ∧ Patch.apply .lenient ⟨.set, "/xs/3/n", some (.str "v")⟩ d' ≠ (d', none) := by
  intro d d'
  have happly : Patch.apply .lenient ⟨.set, "/xs/3/n", some (.str "v")⟩ d = (d', none) := by
    decide +kernel
  obtain ⟨_, hread, hagain⟩ := set_reads_back happly
  have hsegments : (Pointer.parse "/xs/3/n").segments = ["xs", "3", "n"] := by decide +kernel
  have hthree : Pointer.index? "3" = some 3 := by decide +kernel
  have hmet : ("3", Value.arr [.null]) ∈ met .lenient (Pointer.parse "/xs/3/n").segments d := by
    rw [hsegments]
    exact List.mem_cons_of_mem _ List.mem_cons_self
  have hover : Overshoots "3" (.arr [.null]) := ⟨[.null], rfl, Or.inr ⟨3, hthree, by decide⟩⟩
  have hnot : Pointer.read? "/xs/3/n" d' ≠ some (.str "v") :=
    fun hr => hread.mp hr _ hmet hover
  exact ⟨happly, hnot, fun h => hnot (hagain.mp h)⟩

end ViewStream
