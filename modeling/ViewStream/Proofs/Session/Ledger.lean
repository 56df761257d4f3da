import ViewStream.Proofs.Document.Atomic
import ViewStream.Session

/-!
# What entries do to a session

A session carries more than its entries act on: a view that was read earlier, a flag that says
whether the view is stale, the bytes of a line that is not complete. The **ledger** is what remains
without them, the document and the two counts, and `Ledger.takeAll` works on it alone.

That a session's entries do to its ledger exactly what `Ledger.takeAll` does (`takeAll_ledger`)
rests on failed patches being atomic: in a ledger **an entry that cannot be used changes a count
and nothing else**, while a session writes back the document that the failed patch returned.

The rest of the session is dealt with once, by `Session.Worked`: entries touch neither the options
nor the reader, the count of lines or the view, and they never leave a stale view unmarked.
-/

namespace ViewStream

open Json (Value)

/-! ## Entries and ledgers -/

/-- Whether an error is that of a line or of a patch, and not the answer of a session that takes no
more. -/
def CompileError.isFault : CompileError → Bool
  | .line _ => true
  | .apply _ => true
  | .finished => false

/-- What an entry makes of a document, or why it cannot be used. -/
def Entry.apply (mode : Mode) (v : Value) : Entry → Except CompileError (Patch × Value)
  | .error e => .error (.line e)
  | .ok p =>
    match p.apply mode v with
    | (v', none) => .ok (p, v')
    | (_, some e) => .error (.apply e)

theorem Entry.apply_isFault {mode : Mode} {v : Value} {e : Entry} {err : CompileError}
    (h : Entry.apply mode v e = .error err) : err.isFault = true := by
  cases e with
  | error d => rw [← Except.error.inj h]; rfl
  | ok p =>
    rw [Entry.apply] at h
    rcases ha : p.apply mode v with ⟨v', _ | stop⟩
    · rw [ha] at h
      exact absurd h (by simp)
    · rw [ha] at h
      rw [← Except.error.inj h]; rfl

/-- The part of a session that entries act on. -/
structure Ledger where
  /-- The document so far. -/
  document : Value
  /-- How many patches were applied. -/
  applied : Nat
  /-- How many entries could not be used. -/
  dropped : Nat

namespace Ledger

/-- Use entries in order, in strict mode up to the first that cannot be used: the patches
applied. -/
def takeAll (mode : Mode) : List Entry → Ledger → Ledger × Except CompileError (List Patch)
  | [], l => (l, .ok [])
  | e :: es, l =>
    match Entry.apply mode l.document e with
    | .ok (p, v) =>
      let rest := takeAll mode es ⟨v, l.applied + 1, l.dropped⟩
      (rest.1, rest.2.map (p :: ·))
    | .error err =>
      match mode with
      | .strict => (l, .error err)
      | .lenient => takeAll mode es { l with dropped := l.dropped + 1 }

/-- **Entries may be taken in two goes**, the second of which is left out after an error. -/
theorem takeAll_append (mode : Mode) (es fs : List Entry) (l : Ledger) :
    takeAll mode (es ++ fs) l =
      match takeAll mode es l with
      | (l', .error err) => (l', .error err)
      | (l', .ok ps) => ((takeAll mode fs l').1, (takeAll mode fs l').2.map (ps ++ ·)) := by
  induction es generalizing l with
  | nil =>
    rw [List.nil_append, takeAll]
    dsimp only
    rcases takeAll mode fs l with ⟨l', _ | ps⟩ <;> rfl
  | cons e es ih =>
    rw [List.cons_append, takeAll, takeAll]
    cases Entry.apply mode l.document e with
    | ok pv =>
      dsimp only
      rw [ih]
      rcases takeAll mode es ⟨pv.2, l.applied + 1, l.dropped⟩ with ⟨l', _ | ps⟩
      · rfl
      · dsimp only [Except.map]
        rcases takeAll mode fs l' with ⟨l'', _ | qs⟩ <;> rfl
    | error err =>
      cases mode with
      | strict => rfl
      -- in lenient mode only the count has changed, and the rest is as the hypothesis says
      | lenient => exact ih _

/-- A lenient ledger gets through all entries. -/
theorem takeAll_lenient (es : List Entry) (l : Ledger) :
    ∃ ps, (takeAll .lenient es l).2 = .ok ps := by
  induction es generalizing l with
  | nil => exact ⟨[], rfl⟩
  | cons e es ih =>
    rw [takeAll]
    cases Entry.apply .lenient l.document e with
    | ok pv =>
      obtain ⟨ps, hps⟩ := ih ⟨pv.2, l.applied + 1, l.dropped⟩
      exact ⟨pv.1 :: ps, by dsimp only; rw [hps]; rfl⟩
    | error err => exact ih _

end Ledger

namespace Session

/-- The ledger of a session. -/
def ledger (s : Session) : Ledger := ⟨s.document, s.stats.applied, s.stats.dropped⟩

/-! ## One entry -/

/-- **All that one entry can do to a session**: its patch is applied, or it is rejected by a
session that differs at most in taking its view for stale. -/
theorem take_cases (s : Session) (e : Entry) :
    (∃ p v, Entry.apply s.options.mode s.document e = .ok (p, v)
        ∧ s.take e = ({ s with
            document := v, dirty := true,
            stats := { s.stats with applied := s.stats.applied + 1 } }, .ok (some p)))
      ∨ ∃ err dirty, Entry.apply s.options.mode s.document e = .error err
          ∧ (dirty = false → s.dirty = false)
          ∧ s.take e = { s with dirty }.reject err := by
  cases e with
  | error err => exact Or.inr ⟨.line err, s.dirty, rfl, id, rfl⟩
  | ok p =>
    rw [Entry.apply, take]
    -- a failed patch hands back the document it was given, so writing that back changes nothing
    rcases Patch.apply_cases s.options.mode p s.document with ⟨v', _, ha⟩ | ⟨o, _, ha⟩ | ⟨_, ha⟩
    · rw [ha]
      exact Or.inl ⟨p, v', rfl, rfl⟩
    · rw [ha]
      exact Or.inr ⟨_, true, rfl, by simp, rfl⟩
    · rw [ha]
      exact Or.inr ⟨_, true, rfl, by simp, rfl⟩

/-- The view, unless it is marked as stale, is the view of the document. -/
def Coherent (s : Session) : Prop := s.dirty = false → s.snapshot = Spec.ofDocument s.document

/-- `s'` is `s` after work on its ledger. -/
structure Worked (s s' : Session) : Prop where
  /-- The options are the same. -/
  options : s'.options = s.options
  /-- No further bytes were read. -/
  reader : s'.reader = s.reader
  /-- No further lines were counted. -/
  lines : s'.stats.lines = s.stats.lines
  /-- The view was not read anew. -/
  snapshot : s'.snapshot = s.snapshot
  /-- A stale view is marked. -/
  coherent : s.Coherent → s'.Coherent

theorem worked_refl (s : Session) : Worked s s := ⟨rfl, rfl, rfl, rfl, id⟩

theorem worked_trans {s t u : Session} (h₁ : Worked s t) (h₂ : Worked t u) : Worked s u :=
  ⟨h₂.options.trans h₁.options, h₂.reader.trans h₁.reader, h₂.lines.trans h₁.lines,
    h₂.snapshot.trans h₁.snapshot, fun h => h₂.coherent (h₁.coherent h)⟩

theorem take_worked (s : Session) (e : Entry) : Worked s (s.take e).1 := by
  rcases take_cases s e with ⟨p, v, _, ht⟩ | ⟨err, dirty, _, hd, ht⟩
  · rw [ht]
    exact ⟨rfl, rfl, rfl, rfl, fun _ h => Bool.noConfusion h⟩
  · rw [ht, reject]
    dsimp only
    split <;> exact ⟨rfl, rfl, rfl, rfl, fun hc h => hc (hd h)⟩

/-- Only an error finishes a session. -/
theorem take_finished {s s' : Session} {e : Entry} {p : Option Patch}
    (h : s.take e = (s', .ok p)) : s'.finished = s.finished := by
  rcases take_cases s e with ⟨p', v, _, ht⟩ | ⟨err, dirty, _, _, ht⟩
  · rw [← (Prod.mk.inj (ht.symm.trans h)).1]
  · rw [ht, reject] at h
    dsimp only at h
    split at h
    · exact absurd h (by simp)
    · rw [← (Prod.mk.inj h).1]

/-- Only a strict session fails, and that finishes it. -/
theorem take_error {s s' : Session} {e : Entry} {err : CompileError}
    (h : s.take e = (s', .error err)) :
    s.options.mode = .strict ∧ s'.finished = true ∧ err.isFault = true := by
  rcases take_cases s e with ⟨p, v, _, ht⟩ | ⟨err', dirty, ha, _, ht⟩
  · rw [ht] at h
    exact absurd h (by simp)
  · rw [ht, reject] at h
    dsimp only at h
    split at h
    · rename_i hm
      obtain ⟨hs, he⟩ := Prod.mk.inj h
      have hfault := Entry.apply_isFault ha
      rw [Except.error.inj he] at hfault
      exact ⟨hm, by rw [← hs], hfault⟩
    · exact absurd h (by simp)

/-! ## All entries of a chunk -/

theorem takeAll_worked (es : List Entry) (s : Session) : Worked s (s.takeAll es).1 := by
  induction es generalizing s with
  | nil => exact worked_refl s
  | cons e es ih =>
    have hw := take_worked s e
    rw [takeAll]
    rcases ht : s.take e with ⟨s', _ | p⟩
    · rw [ht] at hw
      exact hw
    · rw [ht] at hw
      have := worked_trans hw (ih s')
      dsimp only at this ⊢
      rcases hr : s'.takeAll es with ⟨s'', _ | ps⟩ <;> rw [hr] at this <;> exact this

theorem takeAll_finished {es : List Entry} {s s' : Session} {ps : List Patch}
    (h : s.takeAll es = (s', .ok ps)) : s'.finished = s.finished := by
  induction es generalizing s s' ps with
  | nil => rw [← (Prod.mk.inj h).1]
  | cons e es ih =>
    rw [takeAll] at h
    rcases ht : s.take e with ⟨s₁, _ | p⟩
    · rw [ht] at h
      exact absurd h (by simp)
    · rw [ht] at h
      dsimp only at h
      rcases hr : s₁.takeAll es with ⟨s₂, _ | qs⟩
      · rw [hr] at h
        exact absurd h (by simp)
      · rw [hr] at h
        rw [← (Prod.mk.inj h).1]
        exact (ih hr).trans (take_finished ht)

theorem takeAll_error {es : List Entry} {s s' : Session} {err : CompileError}
    (h : s.takeAll es = (s', .error err)) :
    s.options.mode = .strict ∧ s'.finished = true ∧ err.isFault = true := by
  induction es generalizing s with
  | nil => exact absurd h (by simp [takeAll])
  | cons e es ih =>
    have hopt := (take_worked s e).options
    rw [takeAll] at h
    rcases ht : s.take e with ⟨s₁, err' | p⟩
    · rw [ht] at h
      obtain ⟨hs, he⟩ := Prod.mk.inj h
      subst hs
      rw [← Except.error.inj he]
      exact take_error ht
    · rw [ht] at h hopt
      dsimp only at h hopt
      rcases hr : s₁.takeAll es with ⟨s₂, err' | ps⟩
      · rw [hr] at h
        have := ih (hr.trans h)
        rwa [hopt] at this
      · rw [hr] at h
        exact absurd h (by simp)

/-- What one entry does to the ledger of a session, and what the session says of it. -/
theorem take_ledger (s : Session) (e : Entry) :
    (∃ p v, Entry.apply s.options.mode s.ledger.document e = .ok (p, v)
        ∧ (s.take e).2 = .ok (some p)
        ∧ (s.take e).1.ledger = ⟨v, s.ledger.applied + 1, s.ledger.dropped⟩)
      ∨ ∃ err, Entry.apply s.options.mode s.ledger.document e = .error err
          ∧ ((s.options.mode = .strict ∧ (s.take e).2 = .error err
              ∧ (s.take e).1.ledger = s.ledger)
            ∨ (s.options.mode = .lenient ∧ (s.take e).2 = .ok none
                ∧ (s.take e).1.ledger = { s.ledger with dropped := s.ledger.dropped + 1 })) := by
  rcases take_cases s e with ⟨p, v, ha, ht⟩ | ⟨err, dirty, ha, _, ht⟩
  · exact Or.inl ⟨p, v, ha, by rw [ht], by rw [ht]; rfl⟩
  · refine Or.inr ⟨err, ha, ?_⟩
    rw [ht, reject]
    dsimp only
    cases s.options.mode with
    | strict => exact Or.inl ⟨rfl, rfl, rfl⟩
    | lenient => exact Or.inr ⟨rfl, rfl, rfl⟩

/--
**A session's entries do to its ledger what they do to the ledger by itself**, and report the same
patches or the same error.
-/
theorem takeAll_ledger (es : List Entry) (s : Session) :
    ((s.takeAll es).1.ledger, (s.takeAll es).2) = s.ledger.takeAll s.options.mode es := by
  induction es generalizing s with
  | nil => rfl
  | cons e es ih =>
    have hopt := (take_worked s e).options
    have hstep := take_ledger s e
    rw [takeAll, Ledger.takeAll]
    generalize s.take e = step at hopt hstep ⊢
    obtain ⟨s', r⟩ := step
    dsimp only at hopt hstep ⊢
    rcases hstep with ⟨p, v, ha, hr, hl⟩ | ⟨err, ha, ⟨hm, hr, hl⟩ | ⟨hm, hr, hl⟩⟩ <;> subst hr
    · rw [ha]
      dsimp only
      rw [← hl, ← hopt, ← ih s']
      rcases s'.takeAll es with ⟨s'', _ | ps⟩ <;> rfl
    · -- a strict session stops, and its ledger has not moved
      rw [ha, hm]
      exact congrArg (·, Except.error err) hl
    · rw [ha, hm]
      dsimp only
      rw [← hl, ← hm, ← hopt, ← ih s']
      rcases s'.takeAll es with ⟨s'', _ | ps⟩ <;> rfl

end Session

end ViewStream
