import ViewStream.Proofs.Document.Modes
import ViewStream.Proofs.Session.Run

/-!
# Wherever strictness has no objection, leniency changes nothing

`Document/Modes` puts a strict edit beside the lenient one. Here the same is done for sessions: as
long as a strict session meets no error, **a lenient session over the same document runs in step
with it** (`InStep`), returns the same from every push and drops nothing.

That makes strict mode a check one can switch on: it rejects streams, and never changes what the
ones it accepts mean.
-/

namespace ViewStream

open Json (Value)

/-! ## Entries -/

/-- An entry that strict mode can use does the same in lenient mode. -/
theorem Entry.apply_strict {e : Entry} {v : Value} {pv : Patch × Value}
    (h : Entry.apply .strict v e = .ok pv) : Entry.apply .lenient v e = .ok pv := by
  cases e with
  | error err => exact absurd h (by simp [Entry.apply])
  | ok p =>
    rw [Entry.apply] at h ⊢
    rcases Patch.apply_modes p v with heq | ⟨o, ho, _, _⟩
    · rw [heq] at h
      exact h
    · -- a strict failure yields no document
      generalize p.apply .strict v = a at h ho
      obtain ⟨v', stop⟩ := a
      dsimp only at ho
      subst ho
      exact absurd h (by simp)

/-- Entries that strict mode can use throughout do the same in lenient mode, and drop nothing. -/
theorem Ledger.takeAll_strict {es : List Entry} {l l' : Ledger} {ps : List Patch}
    (h : takeAll .strict es l = (l', .ok ps)) :
    takeAll .lenient es l = (l', .ok ps) ∧ l'.dropped = l.dropped := by
  induction es generalizing l l' ps with
  | nil =>
    obtain ⟨hl, _⟩ := Prod.mk.inj h
    exact ⟨h, hl ▸ rfl⟩
  | cons e es ih =>
    rw [takeAll] at h ⊢
    cases ha : Entry.apply .strict l.document e with
    | error err => rw [ha] at h; exact absurd h (by simp)
    | ok pv =>
      rw [ha] at h
      rw [Entry.apply_strict ha]
      dsimp only at h ⊢
      rcases hrest : takeAll .strict es ⟨pv.2, l.applied + 1, l.dropped⟩ with ⟨l'', _ | ps'⟩
      · rw [hrest] at h
        exact absurd h (by simp [Except.map])
      · obtain ⟨htake, hdrop⟩ := ih hrest
        rw [hrest] at h
        rw [htake]
        have hl := (Prod.mk.inj h).1
        dsimp only at hl
        subst hl
        exact ⟨h, hdrop⟩

namespace Session

/-! ## Sessions in step -/

/-- A strict and a lenient session, between two pushes, that have come equally far. -/
structure InStep (s t : Session) : Prop where
  /-- The first takes another chunk, and is strict. -/
  ready : s.Ready
  strict : s.options.mode = .strict
  /-- The second takes another chunk, and is lenient. -/
  ready' : t.Ready
  lenient : t.options.mode = .lenient
  /-- They have the same document and the same counts. -/
  ledger : t.ledger = s.ledger
  /-- They have read the same bytes. -/
  reader : t.reader = s.reader

theorem inStep_startFrom (d : Value) :
    InStep (startFrom d { mode := .strict }) (startFrom d { mode := .lenient }) :=
  ⟨ready_startFrom d _, rfl, ready_startFrom d _, rfl, rfl, rfl⟩

/-- **A push that the strict session takes keeps the sessions in step**, and both return the
same. -/
theorem push_inStep {s s' t : Session} (h : InStep s t) {chunk : List UInt8}
    {out : Spec × List Patch} (hok : s.push chunk = (s', .ok out)) :
    ∃ t', t.push chunk = (t', .ok out) ∧ InStep s' t' := by
  rcases push_cases h.ready.toOpen chunk with ⟨s₁, ps, hp, hready, hfed⟩ | ⟨s₁, e, hp, _⟩
  · obtain ⟨hs, hout⟩ := Prod.mk.inj (hok.symm.trans hp)
    subst hs
    -- the lenient session reads the same entries over the same ledger
    obtain ⟨hw, _⟩ := Ledger.takeAll_strict (h.strict ▸ hfed.ledger)
    rw [← h.ledger, ← h.reader, ← h.lenient] at hw
    rcases push_cases h.ready'.toOpen chunk with ⟨t', qs, hq, hready', hfed'⟩ | ⟨t', e, hq, hstop⟩
    · obtain ⟨hl, hps⟩ := Prod.mk.inj (hfed'.ledger.symm.trans hw)
      have hdoc : t'.document = s'.document := congrArg Ledger.document hl
      refine ⟨t', ?_, hready, ?_, hready', ?_, hl, ?_⟩
      · rw [hq, hdoc, Except.ok.inj hps, hout]
      · exact (congrArg Options.mode hfed.options).trans h.strict
      · exact (congrArg Options.mode hfed'.options).trans h.lenient
      · rw [hfed'.reader, hfed.reader, h.reader]
    · rw [Stopped, hw] at hstop
      exact absurd hstop (by simp)
  · rw [hp] at hok
    exact absurd hok (by simp)

/-- So they stay in step for as long as the strict session takes what it is given. -/
theorem pushAll_inStep {s s' t : Session} (h : InStep s t) {chunks : List (List UInt8)}
    {outs : List (Spec × List Patch)} (hok : s.pushAll chunks = (s', .ok outs)) :
    ∃ t', t.pushAll chunks = (t', .ok outs) ∧ InStep s' t' := by
  induction chunks generalizing s s' t outs with
  | nil =>
    obtain ⟨hs, houts⟩ := Prod.mk.inj hok
    exact ⟨t, by rw [pushAll, houts], hs ▸ h⟩
  | cons chunk chunks ih =>
    rw [pushAll] at hok
    rcases hp : s.push chunk with ⟨s₁, e | out⟩
    · rw [hp] at hok
      exact absurd hok (by simp)
    · obtain ⟨t₁, ht, hstep⟩ := push_inStep h hp
      rw [hp] at hok
      dsimp only at hok
      rcases hrest : s₁.pushAll chunks with ⟨s₂, e | outs'⟩
      · rw [hrest] at hok
        exact absurd hok (by simp [Except.map])
      · rw [hrest] at hok
        obtain ⟨hs, houts⟩ := Prod.mk.inj hok
        obtain ⟨t₂, ht', hstep'⟩ := ih hstep hrest
        refine ⟨t₂, ?_, hs ▸ hstep'⟩
        rw [pushAll, ht]
        dsimp only
        rw [ht']
        exact congrArg (t₂, ·) houts

/-- A run that finishes without an error has pushed without one. -/
theorem pushAll_of_generate {s : Session} {chunks : List (List UInt8)} {spec : Spec}
    (h : (s.generate chunks).2 = .ok spec) :
    ∃ s' outs, s.pushAll chunks = (s', .ok outs) := by
  unfold generate at h
  rcases hp : s.pushAll chunks with ⟨s', e | outs⟩
  · rw [hp] at h
    exact absurd h (by simp)
  · exact ⟨s', outs, rfl⟩

/-- A whole run that strict mode accepts, beside the same run in lenient mode. -/
theorem generate_inStep {s t : Session} (h : InStep s t) {chunks : List (List UInt8)}
    {spec : Spec} (hok : (s.generate chunks).2 = .ok spec) :
    (t.generate chunks).2 = .ok spec
      ∧ (t.generate chunks).1.ledger = (s.generate chunks).1.ledger
      ∧ (t.generate chunks).1.ledger.dropped = s.ledger.dropped := by
  obtain ⟨hl, hr⟩ := Prod.mk.inj (generate_outcome h.ready chunks)
  obtain ⟨hl', hr'⟩ := Prod.mk.inj (generate_outcome h.ready' chunks)
  rw [h.strict] at hl hr
  rw [h.lenient, h.ledger, h.reader] at hl' hr'
  rcases hw : s.ledger.takeAll .strict (s.reader.allEntries chunks.flatten) with ⟨l, e | ps⟩
  · rw [hr, hw] at hok
    exact absurd hok (by simp [Except.map])
  · obtain ⟨hw', hdrop⟩ := Ledger.takeAll_strict hw
    rw [hw] at hl hr
    rw [hw'] at hl' hr'
    exact ⟨hr'.trans (hr.symm.trans hok), hl'.trans hl.symm, by rw [hl']; exact hdrop⟩

end Session

/--
**Strict and lenient mode agree wherever strict mode succeeds.** For every patch, every document
and every stream, cut in any way:

* a patch that applies strictly applies leniently, and leaves the same document;
* a patch that fails leniently fails strictly, with the same error;
* a patch that fails strictly alone was stopped by an obstacle a lenient edit gets past;
* a stream that a strict session takes without any error, to the end, makes a lenient session over
  the same document return the same from every push, end with the same view and the same document,
  and drop nothing.
-/
theorem modes_agree (p : Patch) (v d : Value) (chunks : List (List UInt8)) :
    (∀ v', p.apply .strict v = (v', none) → p.apply .lenient v = (v', none))
      ∧ (∀ e, (p.apply .lenient v).2 = some e → (p.apply .strict v).2 = some e)
      ∧ (∀ e, (p.apply .strict v).2 = some e → (p.apply .lenient v).2 = none →
          ∃ o : Obstacle, e = .blocked p.op p.path o ∧ o.Recoverable)
      ∧ let s := Session.startFrom d { mode := .strict }
        let t := Session.startFrom d { mode := .lenient }
        ∀ spec, (s.generate chunks).2 = .ok spec →
          (t.pushAll chunks).2 = (s.pushAll chunks).2
            ∧ (t.generate chunks).2 = .ok spec
            ∧ (t.generate chunks).1.document = (s.generate chunks).1.document
            ∧ (t.generate chunks).1.stats.dropped = 0 := by
  refine ⟨?_, ?_, ?_, ?_⟩
  · intro v' h
    rcases Patch.apply_modes p v with heq | ⟨o, ho, _, _⟩
    · exact heq ▸ h
    · rw [h] at ho
      exact absurd ho (by simp)
  · intro e h
    rcases Patch.apply_modes p v with heq | ⟨o, _, _, hnone⟩
    · rw [heq, h]
    · rw [h] at hnone
      exact absurd hnone (by simp)
  · intro e hs hl
    rcases Patch.apply_modes p v with heq | ⟨o, ho, hrec, _⟩
    · rw [heq, hl] at hs
      exact absurd hs (by simp)
    · exact ⟨o, Option.some.inj (hs.symm.trans ho), hrec⟩
  · intro s t spec h
    have hstep : Session.InStep s t := Session.inStep_startFrom d
    obtain ⟨s', outs, hs⟩ := Session.pushAll_of_generate h
    obtain ⟨t', ht, _⟩ := Session.pushAll_inStep hstep hs
    obtain ⟨hspec, hledger, hdrop⟩ := Session.generate_inStep hstep h
    exact ⟨by rw [hs, ht], hspec, congrArg Ledger.document hledger, hdrop⟩

/-- A patch that both modes apply, one that neither applies, and one that lenient mode alone
applies, over a document with an empty array; and a stream that strict mode accepts. -/
theorem modes_agree_around_empty_array :
    let v := Value.obj [("l", .arr [])]
    let bytes := Text.Utf8.bytesOf
      "\x7b\"op\":\"set\",\"path\":\"/root\",\"value\":\"a\"\x7d"
    (⟨.set, "/l/0", some .null⟩ : Patch).apply .lenient v = (.obj [("l", .arr [.null])], none)
      ∧ ((⟨.set, "/l/x", some .null⟩ : Patch).apply .strict v).2
          = some (.blocked .set "/l/x" (.badIndex "x"))
      ∧ (∃ o : Obstacle, ApplyError.blocked .set "/l/3" (.indexOutOfRange 3 0)
          = .blocked .set "/l/3" o ∧ o.Recoverable)
      ∧ ((Session.startFrom v { mode := .lenient }).generate [bytes]).2 = .ok { root := "a" }
      ∧ ((Session.startFrom v { mode := .lenient }).generate [bytes]).1.stats.dropped = 0 := by
  intro v bytes
  have hstrict : ((Session.startFrom v { mode := .strict }).generate [bytes]).2
      = .ok { root := "a" } := by decide +kernel
  obtain ⟨happlied, _, _, hrun⟩ := modes_agree ⟨.set, "/l/0", some .null⟩ v v [bytes]
  obtain ⟨_, hfailed, _⟩ := modes_agree ⟨.set, "/l/x", some .null⟩ v v []
  obtain ⟨_, _, hpassed, _⟩ := modes_agree ⟨.set, "/l/3", some .null⟩ v v []
  obtain ⟨_, hspec, _, hdrop⟩ := hrun _ hstrict
  exact ⟨happlied _ (by decide), hfailed _ (by decide), hpassed _ (by decide) (by decide), hspec,
    hdrop⟩

end ViewStream
