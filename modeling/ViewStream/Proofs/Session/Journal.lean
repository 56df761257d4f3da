import ViewStream.Proofs.Patch.Numbering
import ViewStream.Proofs.Session.Run

/-!
# The reported patches are a complete journal

A push reports the patches it applied and is silent about what it dropped. Whoever keeps a copy of
the document can therefore follow the session only if **everything dropped left no trace**. It does
not: in a ledger an entry that cannot be used is one more in a count (`takeAll_ledger` carried this
over from failed patches being atomic), so each entry either goes down in the journal or is counted
as dropped, and `Recorded` holds across any number of them.

What is left is to count the entries: a reader has one for every line that is not blank.
-/

namespace ViewStream

open Json (Value)

/-! ## What a run of entries puts on record -/

/-- A usable entry is a patch that applies. -/
theorem Entry.apply_ok {mode : Mode} {v v' : Value} {e : Entry} {p : Patch}
    (h : Entry.apply mode v e = .ok (p, v')) : p.apply mode v = (v', none) := by
  cases e with
  | error err => exact absurd h (by simp [Entry.apply])
  | ok q =>
    rw [Entry.apply] at h
    rcases ha : q.apply mode v with ⟨v'', _ | stop⟩
    · rw [ha] at h
      obtain ⟨hq, hv⟩ := Prod.mk.inj (Except.ok.inj h)
      rw [← hq, ha, hv]
    · rw [ha] at h
      exact absurd h (by simp)

namespace Ledger

/-- `ps` are the patches that led from `l` to `l'`, on record for `n` entries. -/
structure Recorded (mode : Mode) (n : Nat) (ps : List Patch) (l l' : Ledger) : Prop where
  /-- Applied in order, every patch applies, and the last leaves the document. -/
  replay : Patch.applyAll mode ps l.document = (l'.document, none)
  /-- Each of them was counted. -/
  applied : l'.applied = l.applied + ps.length
  /-- Each entry was counted once, as a patch applied or as dropped. -/
  entries : l'.applied + l'.dropped = l.applied + l.dropped + n

theorem recorded_nil (mode : Mode) (l : Ledger) : Recorded mode 0 [] l l := ⟨rfl, rfl, rfl⟩

/-- An applied patch goes down before all later ones. -/
theorem recorded_apply {mode : Mode} {n : Nat} {p : Patch} {ps : List Patch} {l l' : Ledger}
    {v : Value} (ha : p.apply mode l.document = (v, none))
    (h : Recorded mode n ps ⟨v, l.applied + 1, l.dropped⟩ l') :
    Recorded mode (n + 1) (p :: ps) l l' := by
  have happ := h.applied
  have hent := h.entries
  dsimp only at happ hent
  refine ⟨?_, ?_, by omega⟩
  · rw [Patch.applyAll, ha]
    exact h.replay
  · rw [List.length_cons]
    omega

/-- **A dropped entry leaves the record as it is.** -/
theorem recorded_drop {mode : Mode} {n : Nat} {ps : List Patch} {l l' : Ledger}
    (h : Recorded mode n ps { l with dropped := l.dropped + 1 } l') :
    Recorded mode (n + 1) ps l l' := by
  have hent := h.entries
  dsimp only at hent
  exact ⟨h.replay, h.applied, by omega⟩

/-- What entries report, if none of them stops the ledger, is on record. -/
theorem takeAll_recorded {mode : Mode} {es : List Entry} {l l' : Ledger} {ps : List Patch}
    (h : takeAll mode es l = (l', .ok ps)) : Recorded mode es.length ps l l' := by
  induction es generalizing l ps with
  | nil =>
    obtain ⟨hl, hps⟩ := Prod.mk.inj h
    rw [← hl, ← Except.ok.inj hps]
    exact recorded_nil mode l
  | cons e es ih =>
    rw [takeAll] at h
    cases ha : Entry.apply mode l.document e with
    | ok pv =>
      rw [ha] at h
      dsimp only at h
      rcases hrest : takeAll mode es ⟨pv.2, l.applied + 1, l.dropped⟩ with ⟨l'', _ | qs⟩
      · rw [hrest] at h
        exact absurd h (by simp [Except.map])
      · rw [hrest] at h
        obtain ⟨hl, hps⟩ := Prod.mk.inj h
        dsimp only at hl
        subst hl
        rw [← Except.ok.inj hps]
        exact recorded_apply (Entry.apply_ok ha) (ih hrest)
    | error err =>
      rw [ha] at h
      cases mode with
      | strict => exact absurd h (by simp)
      -- nothing is reported, and the patches that follow find the document they were applied to
      | lenient => exact recorded_drop (ih h)

end Ledger

/-! ## One entry for every line that is not blank -/

/-- The lines that are complete when these bytes have arrived. -/
def completeLines (bytes : List UInt8) : List String :=
  (Text.cut LineBuffer.lineBreak bytes).1.map LineBuffer.decodeLine

namespace PatchReader

theorem entriesFrom_length (n : Nat) (lines : List String) :
    (entriesFrom n lines).length = lines.countP (fun line => !isBlankLine line) := by
  induction lines generalizing n with
  | nil => rfl
  | cons line lines ih =>
    have hnone := Entry.ofLine?_isNone n line
    rw [entriesFrom, List.countP_cons, ← ih (n + 1), ← hnone]
    cases Entry.ofLine? n line <;> rfl

/-- A new reader has one entry for every complete line that is not blank. -/
theorem entries_length (bytes : List UInt8) :
    (entries {} bytes).length
      = (completeLines bytes).countP (fun line => !isBlankLine line) := by
  rw [entries, List.length_map]
  exact entriesFrom_length 1 (completeLines bytes)

end PatchReader

/--
**The reported patches are a complete journal.** In either mode, over any initial document and for
any pushes of which none failed, the patches that the pushes returned, put together, all apply to
the initial document and lead to exactly the document of the session.

The session has counted them, and every complete line that is not blank is either one of them or
counted as dropped.
-/
theorem journal_complete (d : Value) (o : Options) {chunks : List (List UInt8)}
    {outs : List (Spec × List Patch)}
    (h : ((Session.startFrom d o).pushAll chunks).2 = .ok outs) :
    let s := ((Session.startFrom d o).pushAll chunks).1
    let reported := outs.flatMap Prod.snd
    Patch.applyAll o.mode reported d = (s.document, none)
      ∧ s.stats.applied = reported.length
      ∧ s.stats.applied + s.stats.dropped
          = (completeLines chunks.flatten).countP (fun line => !isBlankLine line) := by
  rcases Session.pushAll_cases (Session.ready_startFrom d o) chunks with
    ⟨s', outs', hp, _, hfed⟩ | ⟨s', e, hp, _⟩
  · rw [hp] at h ⊢
    obtain rfl : outs' = outs := Except.ok.inj h
    have hrec := Ledger.takeAll_recorded hfed.ledger
    have hcount := PatchReader.entries_length chunks.flatten
    exact ⟨hrec.replay, hrec.applied.trans (Nat.zero_add _),
      hrec.entries.trans ((Nat.zero_add _).trans hcount)⟩
  · rw [hp] at h
    exact absurd h (by simp)

/-- Of four complete lines one is applied, one is blank, one is no patch, and one is a patch that
meets a leaf; what the second push begins is not complete. -/
theorem journal_complete_around_drops :
    let d := Value.obj [("n", .null)]
    let p : Patch := ⟨.set, "/a", some (.bool true)⟩
    let chunks :=
      [Text.Utf8.bytesOf "\x7b\"op\":\"set\",\"path\":\"/a\",\"value\":true\x7d\n \nbad",
        Text.Utf8.bytesOf "\n\x7b\"op\":\"add\",\"path\":\"/a/b\",\"value\":0\x7d\n\x7b"]
    let s := ((Session.startFrom d {}).pushAll chunks).1
    ((Session.startFrom d {}).pushAll chunks).2 = .ok [({}, [p]), ({}, [])]
      ∧ Patch.applyAll .lenient [p] d = (s.document, none)
      ∧ s.stats.applied = 1
      ∧ s.stats.applied + s.stats.dropped = 3 := by
  intro d p chunks
  have hok : ((Session.startFrom d {}).pushAll chunks).2 = .ok [({}, [p]), ({}, [])] := by
    decide +kernel
  have hlines : (completeLines chunks.flatten).countP (fun line => !isBlankLine line) = 3 := by
    decide +kernel
  have hjournal := journal_complete d {} hok
  -- the run has been evaluated above, and is not to be evaluated again
  generalize (Session.startFrom d {}).pushAll chunks = run at hok hjournal ⊢
  obtain ⟨hreplay, happlied, hentries⟩ := hjournal
  exact ⟨hok, hreplay, happlied, hentries.trans hlines⟩

end ViewStream
