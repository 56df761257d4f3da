import ViewStream.Proofs.Document.Walk

/-!
# Edits and lookups

A document is walked in three ways: a lookup follows a pointer, `amend` enters what is there, and
`write` enters it too but makes what is missing. They ask different questions on the way, of a
position in an array in particular: a lookup wants a position below the length, `write` also takes
the length itself and `-`.

They agree all the same. **A walk that makes nothing arrives where a lookup arrives, and nowhere
else** (`write_strict_iff`, `amend_eq`), so whether a strict edit succeeds is decided by what the
pointer to the parent finds, and what the edit leaves behind is the document with one container
exchanged for another (`graft`).
-/

namespace ViewStream.Document

open Json (Value)
open Pointer (child? follow? index?)

/-! ## Exchanging one value -/

/-- The document with `w` in place of what the segments lead to, if they lead anywhere. -/
def graft : List String → Value → Value → Value
  | [], w, _ => w
  | s :: rest, w, v =>
    match child? v s with
    | none => v
    | some child => setChild v s (graft rest w child)

/-- A child that was put in place of another is found there. -/
theorem child?_setChild {v child : Value} {s : String} (h : child? v s = some child) (w : Value) :
    child? (setChild v s w) s = some w := by
  cases v with
  | obj ms => exact KeyMap.lookup_insert_self s w ms
  | arr xs =>
    obtain ⟨i, hi, hx⟩ := Option.bind_eq_some_iff.mp h
    obtain ⟨hlt, _⟩ := List.getElem?_eq_some_iff.mp hx
    rw [setChild, hi]
    dsimp only [child?]
    rw [hi, Option.bind_some, List.getElem?_set_self hlt]
  | null | bool _ | num _ | str _ => exact absurd h (by simp [child?])

/-- Where there is a child, exchanging it is writing in its place. -/
theorem setChild_eq_plant {s : String} {v child : Value} (h : child? v s = some child)
    (w : Value) : setChild v s w = plant s w v := by
  cases v with
  | obj ms => rfl
  | arr xs =>
    obtain ⟨i, hpos, hi⟩ := Option.bind_eq_some_iff.mp h
    obtain ⟨hlt, _⟩ := List.getElem?_eq_some_iff.mp hi
    rw [setChild, hpos, plant, hpos, Option.getD_some, putItem, if_pos hlt]
  | null | bool _ | num _ | str _ => rfl

/-- The second of two exchanges of a child is the one that counts. -/
theorem setChild_setChild {v child : Value} {s : String} (h : child? v s = some child)
    (w w' : Value) : setChild (setChild v s w) s w' = setChild v s w' := by
  cases v with
  | obj ms => rw [setChild, setChild, setChild, KeyMap.insert_insert]
  | arr xs =>
    obtain ⟨i, hi, _⟩ := Option.bind_eq_some_iff.mp h
    simp only [setChild, hi, List.set_set]
  | null | bool _ | num _ | str _ => rfl

theorem follow?_graft {q : List String} {v c : Value} (h : follow? q v = some c) (w : Value) :
    follow? q (graft q w v) = some w := by
  induction q generalizing v with
  | nil => rfl
  | cons s q ih =>
    obtain ⟨child, hchild, hrest⟩ := Option.bind_eq_some_iff.mp h
    rw [graft, hchild]
    dsimp only
    rw [follow?, child?_setChild hchild, Option.bind_some, ih hrest]

/-- Exchanging what is below a part is exchanging the part. -/
theorem graft_append {q : List String} {v c : Value} (h : follow? q v = some c) (r : List String)
    (w : Value) : graft (q ++ r) w v = graft q (graft r w c) v := by
  induction q generalizing v with
  | nil =>
    have hself : v = c := Option.some.inj h
    rw [hself]
    rfl
  | cons s q ih =>
    obtain ⟨child, hchild, hrest⟩ := Option.bind_eq_some_iff.mp h
    rw [List.cons_append, graft, graft, hchild]
    dsimp only
    rw [ih hrest]

/-- **The second of two exchanges is the one that counts.** -/
theorem graft_graft {q : List String} {v c : Value} (h : follow? q v = some c) (w w' : Value) :
    graft q w' (graft q w v) = graft q w' v := by
  induction q generalizing v with
  | nil => rfl
  | cons s q ih =>
    obtain ⟨child, hchild, hrest⟩ := Option.bind_eq_some_iff.mp h
    simp only [graft, hchild, child?_setChild hchild, ih hrest, setChild_setChild hchild]

/-- **Putting back what is there changes nothing.** -/
theorem graft_follow? {q : List String} {v c : Value} (h : follow? q v = some c) :
    graft q c v = v := by
  induction q generalizing v with
  | nil => exact (Option.some.inj h).symm
  | cons s q ih =>
    obtain ⟨child, hchild, hrest⟩ := Option.bind_eq_some_iff.mp h
    rw [graft, hchild]
    dsimp only
    rw [ih hrest, setChild_eq_plant hchild, plant_child? hchild]

/-! ## Walks through what is there -/

/-- The segments of a path that goes on below its first one. -/
theorem exists_cons_eq_concat {α : Type} (q : List α) (t : α) :
    ∃ next rest, q ++ [t] = next :: rest := by
  cases q with
  | nil => exact ⟨t, [], rfl⟩
  | cons s q => exact ⟨s, q ++ [t], rfl⟩

/-- **A walk through what is there arrives where the lookup of the parent arrives**, and exchanges
what it finds for what the leaf makes of it. -/
theorem amend_eq (missing : Obstacle) (leaf : String → Value → Except Obstacle Value)
    {q : List String} {t first : String} {rest : List String} (h : first :: rest = q ++ [t])
    (v : Value) :
    amend missing leaf first rest v
      = match follow? q v with
        | none => .error missing
        | some c => (leaf t c).map fun c' => graft q c' v := by
  induction q generalizing first rest v with
  | nil =>
    obtain ⟨rfl, rfl⟩ := List.cons.inj h
    rw [amend, follow?]
    dsimp only
    cases leaf first v <;> rfl
  | cons s q ih =>
    rw [List.cons_append] at h
    obtain ⟨rfl, rfl⟩ := List.cons.inj h
    obtain ⟨next, rest, hnext⟩ := exists_cons_eq_concat q t
    rw [hnext, amend, follow?]
    cases hchild : child? v first with
    | none => rfl
    | some child =>
      dsimp only [Option.bind]
      rw [ih hnext.symm]
      cases follow? q child with
      | none => rfl
      | some c =>
        dsimp only
        cases leaf t c with
        | error o => rfl
        | ok c' =>
          dsimp only [Except.map]
          rw [graft, hchild]

/-- What overwrites in strict mode finds something to overwrite, and so does what deletes. -/
theorem replaceLeaf_strict (value : Value) (t : String) (c : Value) :
    replaceLeaf .strict value t c
      = if (child? c t).isSome then .ok (setChild c t value) else .error .missingTarget := by
  cases c with
  | obj ms =>
    rw [replaceLeaf, child?, KeyMap.contains]
    cases ms.lookup t <;> simp [setChild]
  | arr xs =>
    rw [replaceLeaf, child?, setChild]
    cases index? t with
    | none => rfl
    | some i =>
      dsimp only [Option.bind]
      by_cases hi : i < xs.length <;> simp [hi]
  | null | bool _ | num _ | str _ => rfl

theorem removeLeaf_isOk (t : String) (c : Value) :
    (∃ c', removeLeaf t c = .ok c') ↔ (child? c t).isSome := by
  cases c with
  | obj ms =>
    rw [removeLeaf, child?, KeyMap.contains]
    cases ms.lookup t <;> simp
  | arr xs =>
    rw [removeLeaf, child?]
    cases index? t with
    | none => simp
    | some i =>
      dsimp only [Option.bind]
      by_cases hi : i < xs.length <;> simp [hi]
  | null | bool _ | num _ | str _ => simp [removeLeaf, child?]

/-! ## Walks that might make containers and need not -/

/-- **A walk to a container that is there makes nothing**, in either mode: it arrives where the
lookup arrives, and exchanges the container for what the leaf makes of it. -/
theorem write_eq_graft (mode : Mode) (leaf : String → Value → Value × Option Obstacle)
    {q : List String} {t first : String} {rest : List String} (h : first :: rest = q ++ [t])
    {v c : Value} (hc : follow? q v = some c) (hne : c ≠ .null) :
    write mode leaf first rest v = (graft q (leaf t c).1 v, (leaf t c).2) := by
  induction q generalizing first rest v with
  | nil =>
    obtain ⟨rfl, rfl⟩ := List.cons.inj h
    have hself : v = c := Option.some.inj hc
    rw [hself]
    rfl
  | cons s q ih =>
    rw [List.cons_append] at h
    obtain ⟨rfl, rfl⟩ := List.cons.inj h
    obtain ⟨next, rest, hnext⟩ := exists_cons_eq_concat q t
    obtain ⟨child, hchild, hrest⟩ := Option.bind_eq_some_iff.mp hc
    -- below null there is nothing, so a child that is null is the container itself
    have hchild_ne : child ≠ .null := by
      rintro rfl
      cases q with
      | nil => exact hne (Option.some.inj hrest).symm
      | cons s q => exact absurd hrest (by simp [follow?, child?])
    rw [hnext, write_cons, barrier_of_child? hchild mode, hchild]
    dsimp only
    rw [enter_there hchild_ne]
    dsimp only
    rw [ih hnext.symm hrest, ← setChild_eq_plant hchild, graft, hchild]

/-! ## Walks that make containers, in strict mode -/

/-- The child that a strict walk enters is the one that is there, unless it is null. -/
theorem enter_strict_iff (next : String) (found : Option Value) (child : Value) :
    enter .strict next found = .ok child ↔ found = some child ∧ child ≠ .null := by
  cases found with
  | none => simp [enter]
  | some v =>
    cases v with
    | null =>
      constructor
      · exact fun h => absurd h (by simp [enter])
      · rintro ⟨h, hne⟩
        exact absurd (Option.some.inj h).symm hne
    | bool _ | num _ | str _ | arr _ | obj _ =>
      simp only [enter, Except.ok.injEq, Option.some.injEq]
      constructor
      · rintro rfl
        exact ⟨rfl, by simp⟩
      · exact fun h => h.1

/-- **A strict walk goes on in the child that a lookup finds**, unless that is null. -/
theorem write_strict_cons (leaf : String → Value → Value × Option Obstacle) (s next : String)
    (rest : List String) (v : Value) :
    (write .strict leaf s (next :: rest) v).2 = none
      ↔ ∃ child, child? v s = some child ∧ child ≠ .null
          ∧ (write .strict leaf next rest child).2 = none := by
  constructor
  · intro h
    obtain ⟨_, child, child', hent, hrest, _⟩ := write_cons_ok (Prod.ext rfl h)
    obtain ⟨hchild, hne⟩ := (enter_strict_iff next _ child).mp hent
    refine ⟨child, hchild, hne, ?_⟩
    rw [hrest]
  · rintro ⟨child, hchild, hne, hrest⟩
    rw [write_cons, barrier_of_child? hchild .strict, hchild]
    dsimp only
    rw [enter_there hne]
    exact hrest

/-- **A strict walk arrives where the lookup of the parent arrives**, if its leaf takes no null. -/
theorem write_strict_iff {leaf : String → Value → Value × Option Obstacle} {q : List String}
    {t first : String} {rest : List String} (h : first :: rest = q ++ [t])
    (hnull : (leaf t .null).2 ≠ none) (v : Value) :
    (write .strict leaf first rest v).2 = none
      ↔ ∃ c, follow? q v = some c ∧ (leaf t c).2 = none := by
  constructor
  · induction q generalizing first rest v with
    | nil =>
      obtain ⟨rfl, rfl⟩ := List.cons.inj h
      exact fun hleaf => ⟨v, rfl, hleaf⟩
    | cons s q ih =>
      rw [List.cons_append] at h
      obtain ⟨rfl, rfl⟩ := List.cons.inj h
      obtain ⟨next, rest, hnext⟩ := exists_cons_eq_concat q t
      rw [hnext, write_strict_cons, follow?]
      rintro ⟨child, hchild, _, hrest⟩
      obtain ⟨c, hc, hleaf⟩ := ih hnext.symm child hrest
      exact ⟨c, by rw [hchild, Option.bind_some, hc], hleaf⟩
  · rintro ⟨c, hc, hleaf⟩
    have hne : c ≠ .null := fun hnone => hnull (hnone ▸ hleaf)
    rw [write_eq_graft .strict leaf h hc hne]
    exact hleaf

theorem addLeaf_iff (value : Value) (t : String) (c : Value) :
    (addLeaf value t c).2 = none ↔ (∃ ms, c = .obj ms) ∨ ∃ xs, c = .arr xs := by
  cases c with
  | obj ms =>
    unfold addLeaf
    dsimp only
    split <;> simp
  | arr xs => simp [addLeaf]
  | null | bool _ | num _ | str _ => simp [addLeaf]

theorem setLeaf_strict_iff (value : Value) (t : String) (c : Value) :
    (setLeaf .strict value t c).2 = none
      ↔ (∃ ms, c = .obj ms)
        ∨ ∃ xs, c = .arr xs ∧ (t = "-" ∨ ∃ i, index? t = some i ∧ i ≤ xs.length) := by
  cases c with
  | obj ms => simp [setLeaf]
  | arr xs =>
    rw [setLeaf, slot]
    by_cases hdash : t = "-"
    · simp [hdash]
    · rw [if_neg hdash]
      cases index? t with
      | none => simp [hdash]
      | some i => by_cases hi : i ≤ xs.length <;> simp [hdash, hi]
  | null | bool _ | num _ | str _ => simp [setLeaf]

theorem removeLeaf_ok {t : String} {c c' : Value} (h : removeLeaf t c = .ok c') :
    (∃ ms, c = .obj ms ∧ c' = .obj (KeyMap.erase t ms))
      ∨ ∃ xs i, c = .arr xs ∧ index? t = some i ∧ i < xs.length ∧ c' = .arr (xs.eraseIdx i) := by
  cases c with
  | obj ms =>
    rw [removeLeaf] at h
    split at h
    · exact Or.inl ⟨ms, rfl, (Except.ok.inj h).symm⟩
    · exact absurd h (by simp)
  | arr xs =>
    rw [removeLeaf] at h
    cases hi : index? t with
    | none => rw [hi] at h; exact absurd h (by simp)
    | some i =>
      rw [hi] at h
      dsimp only at h
      split at h
      · rename_i hlt
        exact Or.inr ⟨xs, i, rfl, rfl, hlt, (Except.ok.inj h).symm⟩
      · exact absurd h (by simp)
  | null | bool _ | num _ | str _ => exact absurd h (by simp [removeLeaf])

/-- A lenient application passes over every obstacle on a walk through what is there. -/
theorem recover_lenient_stop (v : Value) (r : Except Obstacle Value) :
    (recover .lenient v r).2 = none := by
  cases r <;> rfl

/-! ## The four operations -/

section

variable {path : Pointer} {q : List String} {t : String}

/-- What is at a path is the child of what is at the parent. -/
theorem get?_eq_child? (h : path.segments = q ++ [t]) (v : Value) :
    path.get? v = (follow? q v).bind fun c => child? c t := by
  rw [Pointer.get?, h, Pointer.follow?_append]
  congr 1
  funext c
  rw [follow?]
  cases child? c t <;> rfl

theorem add_strict_iff (h : path.segments = q ++ [t]) (value v : Value) :
    (add .strict path value v).2 = none
      ↔ (∃ ms, follow? q v = some (.obj ms)) ∨ ∃ xs, follow? q v = some (.arr xs) := by
  obtain ⟨first, rest, hfirst⟩ := exists_cons_eq_concat q t
  rw [add, h, hfirst]
  dsimp only
  rw [write_strict_iff hfirst.symm (by simp [addLeaf])]
  simp only [addLeaf_iff]
  constructor
  · rintro ⟨c, hc, ⟨ms, rfl⟩ | ⟨xs, rfl⟩⟩
    · exact Or.inl ⟨ms, hc⟩
    · exact Or.inr ⟨xs, hc⟩
  · rintro (⟨ms, hc⟩ | ⟨xs, hc⟩)
    · exact ⟨_, hc, Or.inl ⟨ms, rfl⟩⟩
    · exact ⟨_, hc, Or.inr ⟨xs, rfl⟩⟩

theorem set_strict_iff (h : path.segments = q ++ [t]) (value v : Value) :
    (set .strict path value v).2 = none
      ↔ (∃ ms, follow? q v = some (.obj ms))
        ∨ ∃ xs, follow? q v = some (.arr xs)
            ∧ (t = "-" ∨ ∃ i, index? t = some i ∧ i ≤ xs.length) := by
  obtain ⟨first, rest, hfirst⟩ := exists_cons_eq_concat q t
  rw [set, h, hfirst]
  dsimp only
  rw [write_strict_iff hfirst.symm (by simp [setLeaf])]
  simp only [setLeaf_strict_iff]
  constructor
  · rintro ⟨c, hc, ⟨ms, rfl⟩ | ⟨xs, rfl, hplace⟩⟩
    · exact Or.inl ⟨ms, hc⟩
    · exact Or.inr ⟨xs, hc, hplace⟩
  · rintro (⟨ms, hc⟩ | ⟨xs, hc, hplace⟩)
    · exact ⟨_, hc, Or.inl ⟨ms, rfl⟩⟩
    · exact ⟨_, hc, Or.inr ⟨xs, rfl, hplace⟩⟩

theorem replace_eq (h : path.segments = q ++ [t]) (mode : Mode) (value v : Value) :
    replace mode path value v = recover mode v (match follow? q v with
      | none => .error .missingParent
      | some c => (replaceLeaf mode value t c).map fun c' => graft q c' v) := by
  obtain ⟨first, rest, hfirst⟩ := exists_cons_eq_concat q t
  rw [replace, h, hfirst]
  dsimp only
  rw [amend_eq _ _ hfirst.symm]

theorem remove_eq (h : path.segments = q ++ [t]) (mode : Mode) (v : Value) :
    remove mode path v = recover mode v (match follow? q v with
      | none => .error .missingTarget
      | some c => (removeLeaf t c).map fun c' => graft q c' v) := by
  obtain ⟨first, rest, hfirst⟩ := exists_cons_eq_concat q t
  rw [remove, h, hfirst]
  dsimp only
  rw [amend_eq _ _ hfirst.symm]

/-- **All that a strict `replace` can do**: it exchanges what is at the path, or there is
nothing. -/
theorem replace_strict_cases (h : path.segments = q ++ [t]) (value v : Value) :
    (∃ c x, follow? q v = some c ∧ child? c t = some x
        ∧ replace .strict path value v = (graft q (setChild c t value) v, none))
      ∨ path.get? v = none ∧ (replace .strict path value v).2 ≠ none := by
  rw [replace_eq h, get?_eq_child? h]
  cases hc : follow? q v with
  | none => exact Or.inr ⟨rfl, by simp [recover]⟩
  | some c =>
    dsimp only [Option.bind]
    rw [replaceLeaf_strict]
    cases hx : child? c t with
    | none => exact Or.inr ⟨rfl, by simp [recover, Except.map]⟩
    | some x => exact Or.inl ⟨c, x, rfl, hx, rfl⟩

/-- **All that a `remove` can do**: it deletes what is at the path, or there is nothing. -/
theorem remove_cases (h : path.segments = q ++ [t]) (mode : Mode) (v : Value) :
    (∃ c c', follow? q v = some c ∧ removeLeaf t c = .ok c' ∧ (path.get? v).isSome
        ∧ remove mode path v = (graft q c' v, none))
      ∨ path.get? v = none ∧ ∃ o, remove mode path v = recover mode v (.error o) := by
  rw [remove_eq h, get?_eq_child? h]
  cases hc : follow? q v with
  | none => exact Or.inr ⟨rfl, _, rfl⟩
  | some c =>
    have hok := removeLeaf_isOk t c
    dsimp only [Option.bind]
    cases hleaf : removeLeaf t c with
    | ok c' => exact Or.inl ⟨c, c', rfl, hleaf, hok.mp ⟨c', hleaf⟩, rfl⟩
    | error o =>
      refine Or.inr ⟨?_, o, rfl⟩
      rw [hleaf] at hok
      cases hx : child? c t with
      | none => rfl
      | some x =>
        obtain ⟨c', hc'⟩ := hok.mpr (by rw [hx]; rfl)
        exact absurd hc' (by simp)

/-- Where there is nothing at the path, a lenient `replace` adds a member or does nothing. -/
theorem replace_lenient_absent (h : path.segments = q ++ [t]) (value v : Value)
    (habsent : path.get? v = none) :
    (∃ ms, follow? q v = some (.obj ms)
        ∧ (replace .lenient path value v).1 = graft q (.obj (KeyMap.insert t value ms)) v)
      ∨ (∀ ms, follow? q v ≠ some (.obj ms)) ∧ (replace .lenient path value v).1 = v := by
  rw [get?_eq_child? h] at habsent
  rw [replace_eq h]
  cases hc : follow? q v with
  | none => exact Or.inr ⟨by simp, rfl⟩
  | some c =>
    rw [hc] at habsent
    dsimp only [Option.bind] at habsent ⊢
    cases c with
    | obj ms => exact Or.inl ⟨ms, rfl, by simp [replaceLeaf, recover, Except.map]⟩
    | arr xs =>
      refine Or.inr ⟨by simp, ?_⟩
      rw [replaceLeaf]
      rw [child?] at habsent
      cases hi : index? t with
      | none => rfl
      | some i =>
        rw [hi] at habsent
        have hlen : ¬ i < xs.length := Nat.not_lt.mpr (List.getElem?_eq_none_iff.mp habsent)
        dsimp only
        rw [if_neg hlen]
        rfl
    | null | bool _ | num _ | str _ => exact Or.inr ⟨by simp, rfl⟩

theorem replace_lenient_stop (path : Pointer) (value v : Value) :
    (replace .lenient path value v).2 = none := by
  rw [replace]
  split
  · rfl
  · exact recover_lenient_stop v _

theorem remove_lenient_stop (path : Pointer) (v : Value) :
    (remove .lenient path v).2 = none := by
  rw [remove]
  split
  · rfl
  · exact recover_lenient_stop v _

theorem replace_strict_iff (h : path.segments = q ++ [t]) (value v : Value) :
    (replace .strict path value v).2 = none ↔ (path.get? v).isSome := by
  rcases replace_strict_cases h value v with ⟨c, x, hc, hx, heq⟩ | ⟨habsent, hstop⟩
  · rw [heq, get?_eq_child? h, hc, Option.bind_some, hx]
    exact iff_of_true rfl rfl
  · rw [habsent]
    exact iff_of_false hstop (by simp)

theorem get?_replace_strict (h : path.segments = q ++ [t]) {value v : Value}
    (hok : (replace .strict path value v).2 = none) :
    path.get? (replace .strict path value v).1 = some value := by
  rcases replace_strict_cases h value v with ⟨c, x, hc, hx, heq⟩ | ⟨_, hstop⟩
  · rw [heq, get?_eq_child? h, follow?_graft hc, Option.bind_some, child?_setChild hx]
  · exact absurd hok hstop

theorem remove_strict_iff (h : path.segments = q ++ [t]) (v : Value) :
    (remove .strict path v).2 = none ↔ (path.get? v).isSome := by
  rcases remove_cases h .strict v with ⟨c, c', _, _, hsome, heq⟩ | ⟨habsent, o, heq⟩
  · rw [heq]
    exact iff_of_true rfl hsome
  · rw [heq, habsent]
    exact iff_of_false (by simp [recover]) (by simp)

/-- What a strict `remove` leaves is the document with just that member or item missing. -/
theorem remove_strict_ok (h : path.segments = q ++ [t]) {v : Value}
    (hok : (remove .strict path v).2 = none) :
    (∃ ms, follow? q v = some (.obj ms)
        ∧ (remove .strict path v).1 = graft q (.obj (KeyMap.erase t ms)) v)
      ∨ ∃ xs i, follow? q v = some (.arr xs) ∧ index? t = some i ∧ i < xs.length
        ∧ (remove .strict path v).1 = graft q (.arr (xs.eraseIdx i)) v := by
  rcases remove_cases h .strict v with ⟨c, c', hc, hleaf, _, heq⟩ | ⟨_, o, heq⟩
  · rw [heq]
    rcases removeLeaf_ok hleaf with ⟨ms, rfl, rfl⟩ | ⟨xs, i, rfl, hi, hlt, rfl⟩
    · exact Or.inl ⟨ms, hc, rfl⟩
    · exact Or.inr ⟨xs, i, hc, hi, hlt, rfl⟩
  · exact absurd (heq ▸ hok) (by simp [recover])

theorem remove_lenient_absent (h : path.segments = q ++ [t]) {v : Value}
    (habsent : path.get? v = none) : (remove .lenient path v).1 = v := by
  rcases remove_cases h .lenient v with ⟨_, _, _, _, hsome, _⟩ | ⟨_, o, heq⟩
  · rw [habsent] at hsome
    exact absurd hsome (by simp)
  · rw [heq]
    rfl

end

end ViewStream.Document

namespace ViewStream

open Json (Value)
open Document

/-! ## Patches -/

theorem Pointer.segments_of_splitLast {p q : Pointer} {t : String}
    (h : p.splitLast = some (q, t)) : p.segments = q.segments ++ [t] := by
  obtain ⟨last, hlast, heq⟩ := Option.map_eq_some_iff.mp h
  obtain ⟨rfl, rfl⟩ := Prod.mk.inj heq
  obtain ⟨front, hfront⟩ := List.getLast?_eq_some_iff.mp hlast
  rw [hfront]
  simp

theorem Patch.apply_some (mode : Mode) (p : Patch) (v : Value) {r : Value × Option Obstacle}
    (h : p.edit mode v = some r) :
    (p.apply mode v).1 = r.1 ∧ ((p.apply mode v).2 = none ↔ r.2 = none) := by
  rw [apply, h]
  exact ⟨rfl, Option.map_eq_none_iff⟩

/--
**Whether a strict patch succeeds is decided by lookups.** Let `q` be the parent and `t` the last
segment of a path.

* A strict `add` succeeds if and only if there is an object or an array at `q`, a strict `set` if
  and only if there is an object, or an array in which `t` is the end or a position up to the end.
* A strict `replace` and a strict `remove` succeed if and only if there is something at the path.
  Then the path leads to the new value, or the document has lost just that member or item.

A lenient `replace` or `remove` always succeeds. Where there is nothing at the path the `remove`
changes nothing, and neither does the `replace`, but that it adds a member to an object at `q`.
-/
theorem strict_success_by_lookup {path : String} {q : Pointer} {t : String}
    (h : (Pointer.parse path).splitLast = some (q, t)) (value : Value) (spare : Option Value)
    (d : Value) :
    let add := Patch.apply .strict ⟨.add, path, some value⟩ d
    let set := Patch.apply .strict ⟨.set, path, some value⟩ d
    let replace := fun mode => Patch.apply mode ⟨.replace, path, some value⟩ d
    let remove := fun mode => Patch.apply mode ⟨.remove, path, spare⟩ d
    (add.2 = none ↔ (∃ ms, q.get? d = some (.obj ms)) ∨ ∃ xs, q.get? d = some (.arr xs))
      ∧ (set.2 = none ↔ (∃ ms, q.get? d = some (.obj ms))
          ∨ ∃ xs, q.get? d = some (.arr xs)
              ∧ (t = "-" ∨ ∃ i, Pointer.index? t = some i ∧ i ≤ xs.length))
      ∧ ((replace .strict).2 = none ↔ (Pointer.read? path d).isSome)
      ∧ ((replace .strict).2 = none → Pointer.read? path (replace .strict).1 = some value)
      ∧ ((remove .strict).2 = none ↔ (Pointer.read? path d).isSome)
      ∧ ((remove .strict).2 = none →
          (∃ ms, q.get? d = some (.obj ms)
            ∧ (remove .strict).1 = graft q.segments (.obj (KeyMap.erase t ms)) d)
          ∨ ∃ xs i, q.get? d = some (.arr xs) ∧ Pointer.index? t = some i ∧ i < xs.length
            ∧ (remove .strict).1 = graft q.segments (.arr (xs.eraseIdx i)) d)
      ∧ (replace .lenient).2 = none
      ∧ (remove .lenient).2 = none
      ∧ (Pointer.read? path d = none →
          (remove .lenient).1 = d
          ∧ (∀ ms, q.get? d = some (.obj ms) →
              (replace .lenient).1 = graft q.segments (.obj (KeyMap.insert t value ms)) d)
          ∧ ((∀ ms, q.get? d ≠ some (.obj ms)) → (replace .lenient).1 = d)) := by
  intro add set replace remove
  have hpath := Pointer.segments_of_splitLast h
  -- each operation with a value is an edit
  have hadd := Patch.apply_some .strict ⟨.add, path, some value⟩ d rfl
  have hset := Patch.apply_some .strict ⟨.set, path, some value⟩ d rfl
  have hreplace := fun mode => Patch.apply_some mode ⟨.replace, path, some value⟩ d rfl
  have hremove := fun mode => Patch.apply_some mode ⟨.remove, path, spare⟩ d rfl
  refine ⟨?_, ?_, ?_, ?_, ?_, ?_, ?_, ?_, ?_⟩
  · exact hadd.2.trans (add_strict_iff hpath value d)
  · exact hset.2.trans (set_strict_iff hpath value d)
  · exact (hreplace .strict).2.trans (replace_strict_iff hpath value d)
  · intro hok
    have hedit := (hreplace .strict).2.mp hok
    exact (congrArg _ (hreplace .strict).1).trans (get?_replace_strict hpath hedit)
  · exact (hremove .strict).2.trans (remove_strict_iff hpath d)
  · intro hok
    have hdoc := (hremove .strict).1
    have hedit := (hremove .strict).2.mp hok
    rw [hdoc]
    exact remove_strict_ok hpath hedit
  · exact (hreplace .lenient).2.mpr (replace_lenient_stop _ value d)
  · exact (hremove .lenient).2.mpr (remove_lenient_stop _ d)
  · intro habsent
    have hdoc := (hreplace .lenient).1
    refine ⟨(hremove .lenient).1.trans (remove_lenient_absent hpath habsent), ?_⟩
    rcases replace_lenient_absent hpath value d habsent with ⟨ms, hms, heq⟩ | ⟨hnone, heq⟩
    · refine ⟨fun ms' hms' => ?_, fun hnone => absurd hms (hnone ms)⟩
      have hsame : ms = ms' := Value.obj.inj (Option.some.inj (hms.symm.trans hms'))
      rw [← hsame]
      exact hdoc.trans heq
    · exact ⟨fun ms hms => absurd hms (hnone ms), fun _ => hdoc.trans heq⟩

/-- In a list of two, the second item can be replaced and can be removed, and then the first one is
left. -/
theorem strict_success_at_second_item :
    let d : Value := .obj [("xs", .arr [.ofNat 1, .ofNat 2])]
    (Pointer.parse "/xs/1").splitLast = some (⟨["xs"]⟩, "1")
      ∧ Pointer.read? "/xs/1" (Patch.apply .strict ⟨.replace, "/xs/1", some (.str "b")⟩ d).1
          = some (.str "b")
      ∧ (Patch.apply .strict ⟨.remove, "/xs/1", none⟩ d).1 = .obj [("xs", .arr [.ofNat 1])] := by
  intro d
  have hsplit : (Pointer.parse "/xs/1").splitLast = some (⟨["xs"]⟩, "1") := by decide +kernel
  have hthere : (Pointer.read? "/xs/1" d).isSome := by decide +kernel
  have hparent : (⟨["xs"]⟩ : Pointer).get? d = some (.arr [.ofNat 1, .ofNat 2]) := by
    decide +kernel
  have hindex : Pointer.index? "1" = some 1 := by decide +kernel
  obtain ⟨_, _, hreplace, hnew, hremove, hleft, _⟩ :=
    strict_success_by_lookup hsplit (.str "b") none d
  refine ⟨hsplit, hnew (hreplace.mpr hthere), ?_⟩
  rcases hleft (hremove.mpr hthere) with ⟨ms, hms, _⟩ | ⟨xs, i, hxs, hi, _, hdoc⟩
  · exact absurd (hparent.symm.trans hms) (by simp)
  · obtain rfl : [.ofNat 1, .ofNat 2] = xs :=
      Value.arr.inj (Option.some.inj (hparent.symm.trans hxs))
    obtain rfl : 1 = i := Option.some.inj (hindex.symm.trans hi)
    rw [hdoc]
    decide +kernel

end ViewStream
