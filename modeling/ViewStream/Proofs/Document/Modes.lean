import ViewStream.Proofs.Document.Atomic

/-!
# Strict and lenient edits side by side

The mode is asked in several places: when a child is missing, when it is null, when a position lies
beyond the end, and once more by the leaf or by `recover`. A strict edit that stops early might
therefore hide what a lenient one finds further down.

It does not. The two walks enter the same children until one of those places is reached, and there
**the strict walk stops with an obstacle of four kinds, and the lenient one makes a container,
behind which nothing stops it** (`write_containerFor`). So for every edit there are two cases only
(`Beside`):

* both modes return the same document and the same obstacle, if any;
* the strict edit stops with a `Recoverable` obstacle and the lenient one succeeds.
-/

namespace ViewStream

open Json (Value)

/-- The obstacles that a lenient edit gets past: it makes what is missing, fills what is null,
takes a position beyond the end for the end, or does nothing. -/
def Obstacle.Recoverable (o : Obstacle) : Prop :=
  o = .missingParent ∨ o = .missingTarget ∨ (∃ i n, o = .indexOutOfRange i n)
    ∨ o = .notAContainer .null

namespace Document

/-- The outcomes of a strict and a lenient edit that belong together: equal, or a strict failure
that the lenient edit gets past. -/
def Beside (strict lenient : Value × Option Obstacle) : Prop :=
  strict = lenient ∨ ∃ o, strict.2 = some o ∧ o.Recoverable ∧ lenient.2 = none

/-! ## The places where a walk asks for its mode -/

/-- Both modes name the same place in an array, unless the position lies beyond the end. -/
theorem slot_modes (n : Nat) (s : String) :
    slot .strict n s = slot .lenient n s
      ∨ ∃ i, slot .strict n s = .error (.indexOutOfRange i n) ∧ slot .lenient n s = .ok n := by
  unfold slot
  split
  · exact Or.inl rfl
  · split
    · exact Or.inl rfl
    · rename_i i _
      split
      · exact Or.inl rfl
      · exact Or.inr ⟨i, rfl, rfl⟩

/-- Both modes enter the same child, unless there is none or it is null. -/
theorem enter_modes (next : String) (found : Option Value) :
    (∃ child, enter .strict next found = .ok child ∧ enter .lenient next found = .ok child)
      ∨ ∃ o, enter .strict next found = .error o ∧ o.Recoverable
          ∧ enter .lenient next found = .ok (containerFor next) := by
  cases found with
  | none => exact Or.inr ⟨.missingParent, rfl, Or.inl rfl, rfl⟩
  | some child =>
    cases child with
    | null => exact Or.inr ⟨.notAContainer .null, rfl, Or.inr (Or.inr (Or.inr rfl)), rfl⟩
    | bool _ | num _ | str _ | arr _ | obj _ => exact Or.inl ⟨_, rfl, rfl⟩

/-- A place beyond the items of an array is entered by making a container. -/
theorem enter_lenient_end (next : String) (xs : List Value) :
    enter .lenient next xs[xs.length]? = .ok (containerFor next) := by
  rw [List.getElem?_eq_none (Nat.le_refl _)]
  rfl

theorem setLeaf_modes (value : Value) (last : String) (v : Value) :
    Beside (setLeaf .strict value last v) (setLeaf .lenient value last v) := by
  cases v with
  | arr xs =>
    rw [setLeaf, setLeaf]
    rcases slot_modes xs.length last with hs | ⟨i, hs, hl⟩
    · rw [hs]; exact Or.inl rfl
    · rw [hs, hl]
      exact Or.inr ⟨_, rfl, Or.inr (Or.inr (Or.inl ⟨i, xs.length, rfl⟩)), rfl⟩
  | null | bool _ | num _ | str _ | obj _ => exact Or.inl rfl

/-! ## Walks that make containers -/

/-- Outcomes further down belong together also when they are put back in the same place. -/
theorem Beside.map {strict lenient : Value × Option Obstacle} (h : Beside strict lenient)
    (f : Value → Value) : Beside (f strict.1, strict.2) (f lenient.1, lenient.2) := by
  rcases h with h | h
  · exact Or.inl (by rw [h])
  · exact Or.inr h

/--
**A strict walk beside the lenient one.**

By induction along the path. Where both enter the same child the induction hypothesis decides;
where the strict walk stops, the lenient one goes on in a container it has made.
-/
theorem write_modes {strictLeaf lenientLeaf : String → Value → Value × Option Obstacle}
    (hleaf : ∀ last v, Beside (strictLeaf last v) (lenientLeaf last v))
    (hfit : Leaf.Fits lenientLeaf) :
    ∀ (rest : List String) (first : String) (v : Value),
    Beside (write .strict strictLeaf first rest v) (write .lenient lenientLeaf first rest v)
  | [], first, v => hleaf first v
  | next :: rest, first, v => by
      cases v with
      | obj ms =>
        rw [write, write]
        rcases enter_modes next (ms.lookup first) with ⟨child, hs, hl⟩ | ⟨o, hs, hrec, hl⟩
        · rw [hs, hl]
          exact (write_modes hleaf hfit rest next child).map
            (fun child => .obj (KeyMap.insert first child ms))
        · rw [hs, hl]
          exact Or.inr ⟨o, rfl, hrec, write_containerFor hfit rest next⟩
      | arr xs =>
        rw [write, write]
        rcases slot_modes xs.length first with hslot | ⟨i, hslot, hlen⟩
        · rw [hslot]
          cases slot .lenient xs.length first with
          | error o => exact Or.inl rfl
          | ok i =>
            dsimp only
            rcases enter_modes next xs[i]? with ⟨child, hs, hl⟩ | ⟨o, hs, hrec, hl⟩
            · rw [hs, hl]
              exact (write_modes hleaf hfit rest next child).map
                (fun child => .arr (putItem i child xs))
            · rw [hs, hl]
              exact Or.inr ⟨o, rfl, hrec, write_containerFor hfit rest next⟩
        · -- beyond the end the lenient walk appends the container it goes on in
          rw [hslot, hlen]
          dsimp only
          rw [enter_lenient_end]
          exact Or.inr ⟨_, rfl, Or.inr (Or.inr (Or.inl ⟨i, xs.length, rfl⟩)),
            write_containerFor hfit rest next⟩
      | null | bool _ | num _ | str _ => exact Or.inl rfl

/-! ## Walks through what is there -/

/-- A walk that arrives with one leaf arrives with every leaf that agrees with it. -/
theorem amend_ok_mono {missing : Obstacle} {leaf leaf' : String → Value → Except Obstacle Value}
    (hleaf : ∀ {last v w}, leaf last v = .ok w → leaf' last v = .ok w) :
    ∀ (rest : List String) (first : String) (v : Value) {w : Value},
    amend missing leaf first rest v = .ok w → amend missing leaf' first rest v = .ok w
  | [], first, v, w, h => hleaf h
  | next :: rest, first, v, w, h => by
      rw [amend] at h ⊢
      cases hc : Pointer.child? v first with
      | none => rw [hc] at h; exact absurd h (by simp)
      | some child =>
        rw [hc] at h
        dsimp only at h ⊢
        cases hrec : amend missing leaf next rest child with
        | error o => rw [hrec] at h; exact absurd h (by simp)
        | ok child' =>
          rw [hrec] at h
          rw [amend_ok_mono hleaf rest next child hrec]
          exact h

/-- Only the missing child and the leaf can stop a walk through what is there. -/
theorem amend_error {missing : Obstacle} {leaf : String → Value → Except Obstacle Value} :
    ∀ (rest : List String) (first : String) (v : Value) {o : Obstacle},
    amend missing leaf first rest v = .error o → o = missing ∨ ∃ last v, leaf last v = .error o
  | [], first, v, o, h => Or.inr ⟨first, v, h⟩
  | next :: rest, first, v, o, h => by
      rw [amend] at h
      cases hc : Pointer.child? v first with
      | none => rw [hc] at h; exact Or.inl (Except.error.inj h).symm
      | some child =>
        rw [hc] at h
        dsimp only at h
        cases hrec : amend missing leaf next rest child with
        | error o' =>
          rw [hrec] at h
          have := Except.error.inj h
          subst this
          exact amend_error rest next child hrec
        | ok child' => rw [hrec] at h; exact absurd h (by simp)

theorem replaceLeaf_ok_mono {value : Value} {last : String} {v w : Value}
    (h : replaceLeaf .strict value last v = .ok w) :
    replaceLeaf .lenient value last v = .ok w := by
  cases v with
  | obj ms =>
    rw [replaceLeaf] at h ⊢
    rw [if_neg (by simp)]
    split at h
    · exact absurd h (by simp)
    · exact h
  | null | bool _ | num _ | str _ | arr _ => exact h

theorem replaceLeaf_error {mode : Mode} {value : Value} {last : String} {v : Value} {o : Obstacle}
    (h : replaceLeaf mode value last v = .error o) : o = .missingTarget := by
  unfold replaceLeaf at h
  split at h
  · split at h
    · exact (Except.error.inj h).symm
    · exact absurd h (by simp)
  · split at h
    · exact (Except.error.inj h).symm
    · split at h
      · exact absurd h (by simp)
      · exact (Except.error.inj h).symm
  · exact (Except.error.inj h).symm

theorem removeLeaf_error {last : String} {v : Value} {o : Obstacle}
    (h : removeLeaf last v = .error o) : o = .missingTarget := by
  unfold removeLeaf at h
  split at h
  · split at h
    · exact absurd h (by simp)
    · exact (Except.error.inj h).symm
  · split at h
    · exact (Except.error.inj h).symm
    · split at h
      · exact absurd h (by simp)
      · exact (Except.error.inj h).symm
  · exact (Except.error.inj h).symm

/-- A strict edit that only reports its obstacle, beside the lenient one that passes over it. -/
theorem recover_modes {v : Value} {strict lenient : Except Obstacle Value}
    (hok : ∀ {w}, strict = .ok w → lenient = .ok w)
    (herr : ∀ {o}, strict = .error o → o.Recoverable) :
    Beside (recover .strict v strict) (recover .lenient v lenient) := by
  cases hs : strict with
  | ok w => rw [hok hs]; exact Or.inl rfl
  | error o =>
    refine Or.inr ⟨o, rfl, herr hs, ?_⟩
    cases lenient <;> rfl

/-! ## The four operations -/

theorem add_modes (path : Pointer) (value v : Value) :
    Beside (add .strict path value v) (add .lenient path value v) := by
  unfold add
  split
  · exact Or.inl rfl
  · exact write_modes (fun _ _ => Or.inl rfl) (addLeaf_fits value) _ _ v

theorem set_modes (path : Pointer) (value v : Value) :
    Beside (set .strict path value v) (set .lenient path value v) := by
  unfold set
  split
  · exact Or.inl rfl
  · exact write_modes (setLeaf_modes value) (setLeaf_fits value) _ _ v

theorem replace_modes (path : Pointer) (value v : Value) :
    Beside (replace .strict path value v) (replace .lenient path value v) := by
  unfold replace
  split
  · exact Or.inl rfl
  · refine recover_modes (amend_ok_mono replaceLeaf_ok_mono _ _ v) ?_
    intro o h
    rcases amend_error _ _ v h with ho | ⟨last, w, hw⟩
    · exact Or.inl ho
    · exact Or.inr (Or.inl (replaceLeaf_error hw))

theorem remove_modes (path : Pointer) (v : Value) :
    Beside (remove .strict path v) (remove .lenient path v) := by
  unfold remove
  split
  · exact Or.inl rfl
  · -- the leaf does not ask for the mode, so both walks are the same walk
    refine recover_modes id ?_
    intro o h
    rcases amend_error _ _ v h with ho | ⟨last, w, hw⟩
    · exact Or.inr (Or.inl ho)
    · exact Or.inr (Or.inl (removeLeaf_error hw))

end Document

namespace Patch

open Document

/-! ## Patches -/

/-- **A patch applied strictly beside the same patch applied leniently**: the same outcome, or a
strict failure that the lenient application gets past. -/
theorem apply_modes (p : Patch) (v : Value) :
    p.apply .strict v = p.apply .lenient v
      ∨ ∃ o, (p.apply .strict v).2 = some (.blocked p.op p.path o) ∧ o.Recoverable
          ∧ (p.apply .lenient v).2 = none := by
  -- an operation with its value hands over the pairs of its document edit
  have pair : ∀ {s l : Value × Option Obstacle}, p.edit .strict v = some s →
      p.edit .lenient v = some l → Beside s l →
      p.apply .strict v = p.apply .lenient v
        ∨ ∃ o, (p.apply .strict v).2 = some (.blocked p.op p.path o) ∧ o.Recoverable
            ∧ (p.apply .lenient v).2 = none := by
    intro s l hs hl hb
    unfold apply
    rw [hs, hl]
    rcases hb with heq | ⟨o, ho, hrec, hnone⟩
    · rw [heq]; exact Or.inl rfl
    · exact Or.inr ⟨o, by dsimp only; rw [ho]; rfl, hrec, by dsimp only; rw [hnone]; rfl⟩
  obtain ⟨op, path, value⟩ := p
  cases op with
  | remove => exact pair rfl rfl (remove_modes _ v)
  | add =>
    cases value with
    | none => exact Or.inl rfl
    | some value => exact pair rfl rfl (add_modes _ value v)
  | set =>
    cases value with
    | none => exact Or.inl rfl
    | some value => exact pair rfl rfl (set_modes _ value v)
  | replace =>
    cases value with
    | none => exact Or.inl rfl
    | some value => exact pair rfl rfl (replace_modes _ value v)

end Patch

end ViewStream
