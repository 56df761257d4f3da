import ViewStream.Proofs.Patch.Numbering
import ViewStream.Proofs.Session.LifeCycle

/-!
# The line without a line break

A stream may stop in the middle of a line. What is waiting then is read when the result is asked
for, and that is the last thing a session does: it is finished before the line is read, and it
counts the line only if there is an entry on it. Two things come of this order.

* **The answer is not always repeated** (`result_again_iff`). Whoever asks a second time is given
  the view of the document by a session that is finished. The first answer was the same, unless a
  strict session could not use its last line: then it was the error, and the error is not told
  again.
* **The count may end up one short** (`lines_counted_iff`). A push counts what it has read, blank
  lines too, and so does the result, with one exception: a last line of blanks is read and not
  counted.

Before it is finished, a session that has been called in any way is `Open` (`callAll_open`). What
it answers is then read off its ledger (`result_cases`), and what it counts off the reader
(`push_lines`, `result_lines`).
-/

namespace ViewStream

open Json (Value)

namespace PatchReader

/-- There is at most one last line. -/
theorem lastEntry_cases (r : PatchReader) : r.lastEntry = [] ∨ ∃ e, r.lastEntry = [e] := by
  unfold lastEntry
  rcases r.flush.1 with _ | ⟨n, e⟩
  · exact Or.inl rfl
  · exact Or.inr ⟨e, rfl⟩

/-- What is waiting is a line of blanks. -/
def EndsBlank (r : PatchReader) : Prop :=
  r.buffer.pending ≠ [] ∧ isBlankLine (LineBuffer.decodeLine r.buffer.pending) = true

/-- **All that reading the last line can do**: if there is one, it is seen, and it has an entry
unless it is blank. -/
theorem flush_cases (r : PatchReader) :
    (r.flush = (none, r) ∧ ¬ r.EndsBlank)
      ∨ ∃ entry r', r.flush = (entry, r') ∧ r'.linesSeen = r.linesSeen + 1
          ∧ (entry = none ↔ r.EndsBlank) := by
  obtain ⟨⟨pending, emitted⟩⟩ := r
  cases pending with
  | nil => exact Or.inl ⟨rfl, fun h => h.1 rfl⟩
  | cons b bs =>
    refine Or.inr ⟨_, _, rfl, rfl, ?_⟩
    have hblank := Entry.ofLine?_isNone (emitted + 1) (LineBuffer.decodeLine (b :: bs))
    rw [Option.map_eq_none_iff, ← Option.isNone_iff_eq_none, hblank]
    simp [EndsBlank]

end PatchReader

namespace Session

/-! ## Up to the result -/

theorem fresh_open {s : Session} (h : s.Fresh) : s.Open := by
  rcases h with ⟨o, rfl⟩ | ⟨d, o, rfl⟩
  · exact (ready_startFrom (.obj []) o).toOpen
  · exact (ready_startFrom d o).toOpen

theorem call_open {s : Session} (h : s.Open) {c : Call} (hfin : (s.call c).1.finished = false) :
    (s.call c).1.Open := by
  have hstays : ¬ (s.call c).1.finished = true := by simp [hfin]
  rw [call_finished_iff h.coherent] at hstays
  cases c with
  | result => exact absurd (Or.inr (Or.inl rfl)) hstays
  | push chunk =>
    rcases push_cases h chunk with ⟨s', ps, hp, hready, _⟩ | ⟨s', e, hp, _⟩
    · rw [call, hp]
      exact hready.toOpen
    · -- an open session answers a push with no other error than a fault, and that finishes it
      have hout := outcome_push h.coherent chunk
      rw [hp] at hout
      cases hout with
      | failed isOpen strict fault options finished snapshot coherent =>
        exact absurd (Or.inr (Or.inr (by rw [call, hp]; exact fault))) hstays
      | refused chunk finished => exact absurd finished (by simp [h.unfinished])

/-- **As long as a session is not finished, it is open**, whatever it was called for. -/
theorem callAll_open {s : Session} (h : s.Open) (calls : List Call)
    (hfin : (s.callAll calls).1.finished = false) : (s.callAll calls).1.Open := by
  induction calls generalizing s with
  | nil => exact h
  | cons c cs ih =>
    cases hc : (s.call c).1.finished with
    | false => exact ih (call_open h hc) hfin
    | true =>
      have hsettled := (callAll_settled (call_keeps h.coherent c).1 hc cs).1
      exact absurd hsettled.finished (Bool.eq_false_iff.mp hfin)

/-! ## The answer -/

/-- The session is strict and open, and this is why it cannot use its last line. -/
def FailsAtEnd (s : Session) (err : CompileError) : Prop :=
  s.finished = false ∧ s.options.mode = .strict
    ∧ ∃ entry ∈ s.reader.lastEntry, Entry.apply .strict s.document entry = .error err

theorem FailsAtEnd.unique {s : Session} {err err' : CompileError} (h : s.FailsAtEnd err)
    (h' : s.FailsAtEnd err') : err = err' := by
  obtain ⟨_, _, entry, hmem, herr⟩ := h
  obtain ⟨_, _, entry', hmem', herr'⟩ := h'
  have hsame : entry = entry' := by
    rcases s.reader.lastEntry_cases with hnone | ⟨last, hlast⟩
    · exact absurd hmem (by simp [hnone])
    · rw [hlast, List.mem_singleton] at hmem hmem'
      exact hmem.trans hmem'.symm
  subst hsame
  exact Except.error.inj (herr.symm.trans herr')

/-- The entry of the last line either fails and leaves the ledger alone, or does not fail. -/
theorem takeAll_lastEntry {s : Session} (h : s.finished = false) :
    (∃ err, s.FailsAtEnd err
        ∧ s.ledger.takeAll s.options.mode s.reader.lastEntry = (s.ledger, .error err))
      ∨ ((∀ err, ¬ s.FailsAtEnd err)
          ∧ ∃ l ps, s.ledger.takeAll s.options.mode s.reader.lastEntry = (l, .ok ps)) := by
  rcases s.reader.lastEntry_cases with hnone | ⟨entry, hlast⟩
  · rw [hnone]
    exact Or.inr ⟨fun err hfail => absurd hfail.2.2 (by simp [hnone]), s.ledger, [], rfl⟩
  · have hfails : ∀ err, s.FailsAtEnd err
        ↔ s.options.mode = .strict ∧ Entry.apply .strict s.ledger.document entry = .error err := by
      intro err
      simp [FailsAtEnd, h, hlast, ledger]
    simp only [hfails]
    rw [hlast, Ledger.takeAll]
    cases s.options.mode with
    | strict =>
      rcases Entry.apply .strict s.ledger.document entry with err | ⟨p, v⟩
      · exact Or.inl ⟨err, ⟨rfl, rfl⟩, rfl⟩
      · exact Or.inr ⟨by simp, _, _, rfl⟩
    | lenient =>
      rcases Entry.apply .lenient s.ledger.document entry with err | ⟨p, v⟩
      · exact Or.inr ⟨by simp, _, _, rfl⟩
      · exact Or.inr ⟨by simp, _, _, rfl⟩

/-- **What a session answers**: why it cannot use its last line, or the view of the document that
the line leaves. -/
theorem result_cases {s : Session} (h : s.Coherent) (hopen : s.finished = false → s.Open) :
    (∃ err, s.FailsAtEnd err ∧ s.result.2 = .error err ∧ s.result.1.document = s.document)
      ∨ ((∀ err, ¬ s.FailsAtEnd err)
        ∧ s.result.2 = .ok (Spec.ofDocument s.result.1.document)) := by
  cases hfin : s.finished with
  | true =>
    have hdoc : s.result.1.document = s.document := (call_settled h hfin .result).1.document
    refine Or.inr ⟨fun err hfail => Bool.eq_false_iff.mp hfail.1 hfin, ?_⟩
    rw [hdoc]
    exact result_finished h hfin
  | false =>
    have hout := result_outcome (hopen hfin)
    rcases takeAll_lastEntry hfin with ⟨err, hfail, htake⟩ | ⟨hnone, l, ps, htake⟩
    · rw [htake] at hout
      obtain ⟨hledger, hanswer⟩ := Prod.mk.inj hout
      exact Or.inl ⟨err, hfail, hanswer, congrArg Ledger.document hledger⟩
    · rw [htake] at hout
      obtain ⟨hledger, hanswer⟩ := Prod.mk.inj hout
      have hdoc : s.result.1.document = l.document := congrArg Ledger.document hledger
      exact Or.inr ⟨hnone, by rw [hdoc]; exact hanswer⟩

end Session

/--
**When the answer is repeated.** Take a session as it is created, in either mode, and any calls in
any order, and then ask for the result twice.

* The second answer is the view of the document.
* The first one is an error if and only if the session is strict and open and has a last line that
  it cannot use; that is the error, and the document stays as it was.
* So both answers are the same if and only if nothing of the kind is waiting.
-/
theorem result_again_iff {s : Session} (h : s.Fresh) (calls : List Call) :
    let t := (s.callAll calls).1
    let first := t.result.2
    let again := t.result.1.result.2
    again = .ok (Spec.ofDocument t.result.1.document)
      ∧ (∀ err, first = .error err ↔ t.FailsAtEnd err)
      ∧ (∀ err, t.FailsAtEnd err → t.result.1.document = t.document)
      ∧ (again = first ↔ ∀ err, ¬ t.FailsAtEnd err) := by
  intro t first again
  have hs : s.Open := Session.fresh_open h
  have hcoh : t.Coherent := (Session.callAll_keeps hs.coherent calls).1
  have hafter : t.result.1.Coherent := (Session.call_keeps hcoh .result).1
  have hdone : t.result.1.finished = true :=
    (Session.call_finished_iff hcoh .result).mpr (Or.inr (Or.inl rfl))
  have hagain : again = .ok (Spec.ofDocument t.result.1.document) :=
    Session.result_finished hafter hdone
  refine ⟨hagain, ?_⟩
  rw [hagain]
  rcases Session.result_cases hcoh (Session.callAll_open hs calls) with
    ⟨err, hfail, hfirst, hdoc⟩ | ⟨hnone, hfirst⟩
  · have hfirst : first = .error err := hfirst
    refine ⟨?_, fun _ _ => hdoc, ?_⟩
    · intro err'
      rw [hfirst]
      exact ⟨fun heq => Except.error.inj heq ▸ hfail, fun h' => congrArg _ (hfail.unique h')⟩
    · rw [hfirst]
      exact ⟨fun heq => absurd heq (by simp), fun hno => absurd hfail (hno err)⟩
  · have hfirst : first = .ok (Spec.ofDocument t.result.1.document) := hfirst
    rw [hfirst]
    refine ⟨?_, fun err hfail => absurd hfail (hnone err), fun _ => hnone, fun _ => rfl⟩
    exact fun err => ⟨fun heq => absurd heq (by simp), fun hfail => absurd hfail (hnone err)⟩

/-- In strict mode a removal on the last line fails for want of its target, and that is told once.
In lenient mode it is dropped, and both answers are the same. -/
theorem result_again_iff_of_removal :
    let bytes := Text.Utf8.bytesOf "\x7b\"op\":\"remove\",\"path\":\"/a\"\x7d"
    let strict := Session.startFrom (.obj []) { mode := .strict }
    let lenient := Session.start {}
    let t := (strict.callAll [.push bytes]).1
    let u := (lenient.callAll [.push bytes]).1
    strict.Fresh ∧ lenient.Fresh
      ∧ (∃ err, t.FailsAtEnd err) ∧ t.result.1.result.2 ≠ t.result.2
      ∧ (∀ err, ¬ u.FailsAtEnd err) ∧ u.result.1.result.2 = u.result.2 := by
  intro bytes strict lenient t u
  have hstrict : strict.Fresh := Or.inr ⟨_, _, rfl⟩
  have hlenient : lenient.Fresh := Or.inl ⟨_, rfl⟩
  obtain ⟨_, hfails, _, hsame⟩ := result_again_iff hstrict [.push bytes]
  obtain ⟨_, _, _, hsame'⟩ := result_again_iff hlenient [.push bytes]
  have hanswers : (∃ err, t.result.2 = .error err) ∧ u.result.1.result.2 = u.result.2 := by
    refine ⟨⟨.apply (.blocked .remove "/a" .missingTarget), ?_⟩, ?_⟩ <;> decide +kernel
  obtain ⟨⟨err, herr⟩, hagain⟩ := hanswers
  have hfail : t.FailsAtEnd err := (hfails err).mp herr
  exact ⟨hstrict, hlenient, ⟨err, hfail⟩, fun heq => hsame.mp heq err hfail,
    hsame'.mp hagain, hagain⟩

/-- An answer is not always repeated: a strict session that was pushed half a line is first
answered by the error of that line and then by a view. -/
theorem result_told_once :
    ¬ ∀ (s : Session) (chunks : List (List UInt8)), s.Fresh →
        (s.callAll (chunks.map .push)).1.result.1.result.2
          = (s.callAll (chunks.map .push)).1.result.2 := by
  intro hall
  have hsame := hall (Session.startFrom (.obj []) { mode := .strict })
    [Text.Utf8.bytesOf "\x7b\"op\":\"set\""] (Or.inr ⟨_, _, rfl⟩)
  exact absurd hsame (by decide +kernel)

/-! ## The count -/

namespace Session

/-- Reading the view anew reads and counts no lines. -/
theorem refresh_counts (s : Session) :
    s.refresh.stats = s.stats ∧ s.refresh.reader = s.reader := by
  unfold refresh
  split <;> exact ⟨rfl, rfl⟩

/-- A push counts the lines that it reads, whatever it answers. -/
theorem push_lines {s : Session} (h : s.finished = false) (chunk : List UInt8) :
    (s.push chunk).1.stats.lines = (s.push chunk).1.reader.linesSeen := by
  have hwork := takeAll_worked (s.reader.entries chunk) (s.advance (s.reader.push chunk).2)
  have hcounted := hwork.lines.trans (congrArg PatchReader.linesSeen hwork.reader).symm
  rw [push, ingest_eq h]
  generalize (s.advance (s.reader.push chunk).2).takeAll (s.reader.entries chunk)
    = step at hcounted ⊢
  rcases step with ⟨s', err | ps⟩
  · exact hcounted
  · dsimp only
    rw [(refresh_counts s').1, (refresh_counts s').2]
    exact hcounted

/-- The last line is counted unless it is blank. -/
theorem result_lines {s : Session} (h : s.finished = false)
    (hcounted : s.stats.lines = s.reader.linesSeen) :
    (s.result.1.stats.lines = s.result.1.reader.linesSeen ∧ ¬ s.reader.EndsBlank)
      ∨ (s.result.1.stats.lines + 1 = s.result.1.reader.linesSeen ∧ s.reader.EndsBlank) := by
  have hwork := takeAll_worked s.reader.lastEntry s.close
  have hsame : s.result.1.stats.lines = s.close.stats.lines
      ∧ s.result.1.reader = s.close.reader := by
    rw [result_eq h]
    generalize s.close.takeAll s.reader.lastEntry = step at hwork ⊢
    rcases step with ⟨s', err | ps⟩
    · exact ⟨hwork.lines, hwork.reader⟩
    · dsimp only
      rw [(refresh_counts s').1, (refresh_counts s').2]
      exact ⟨hwork.lines, hwork.reader⟩
  rw [hsame.1, hsame.2, close]
  rcases s.reader.flush_cases with ⟨hflush, hnot⟩ | ⟨entry, r', hflush, hseen, hblank⟩
  · rw [hflush]
    exact Or.inl ⟨hcounted, hnot⟩
  · rw [hflush]
    cases entry with
    | none => exact Or.inr ⟨hseen ▸ congrArg (· + 1) hcounted, hblank.mp rfl⟩
    | some e => exact Or.inl ⟨rfl, fun hends => absurd (hblank.mpr hends) (by simp)⟩

/-- Among the calls is a request for the result that finds a blank line waiting. -/
def ReadsBlankEnd (s : Session) (calls : List Call) : Prop :=
  ∃ before after, calls = before ++ .result :: after
    ∧ (s.callAll before).1.finished = false ∧ (s.callAll before).1.reader.EndsBlank

theorem readsBlankEnd_cons (s : Session) (c : Call) (cs : List Call) :
    s.ReadsBlankEnd (c :: cs)
      ↔ (c = .result ∧ s.finished = false ∧ s.reader.EndsBlank)
        ∨ (s.call c).1.ReadsBlankEnd cs := by
  constructor
  · rintro ⟨before, after, heq, hopen, hblank⟩
    cases before with
    | nil => exact Or.inl ⟨(List.cons.inj heq).1, hopen, hblank⟩
    | cons c' before =>
      obtain ⟨rfl, hcs⟩ := List.cons.inj heq
      exact Or.inr ⟨before, after, hcs, hopen, hblank⟩
  · rintro (⟨rfl, hopen, hblank⟩ | ⟨before, after, rfl, hopen, hblank⟩)
    · exact ⟨[], cs, rfl, hopen, hblank⟩
    · exact ⟨c :: before, after, rfl, hopen, hblank⟩

/-- A finished session reads no more lines. -/
theorem not_readsBlankEnd {s : Session} (h : s.Coherent) (hfin : s.finished = true)
    (calls : List Call) : ¬ s.ReadsBlankEnd calls := by
  rintro ⟨before, _, _, hopen, _⟩
  exact Bool.eq_false_iff.mp hopen (callAll_settled h hfin before).1.finished

/--
**What is counted of the lines that are read**, over any calls: all of them, or all but the blank
one at the end.

By induction on the calls. A push leaves the count right, and the first call that finishes the
session is the last one that reads a line.
-/
theorem callAll_lines {s : Session} (h : s.Open) (calls : List Call) :
    ((s.callAll calls).1.stats.lines = (s.callAll calls).1.reader.linesSeen
        ∧ ¬ s.ReadsBlankEnd calls)
      ∨ ((s.callAll calls).1.stats.lines + 1 = (s.callAll calls).1.reader.linesSeen
        ∧ s.ReadsBlankEnd calls) := by
  induction calls generalizing s with
  | nil => exact Or.inl ⟨h.counted, fun ⟨before, _, heq, _⟩ => by simp at heq⟩
  | cons c cs ih =>
    rw [readsBlankEnd_cons, callAll]
    cases hc : (s.call c).1.finished with
    | false =>
      have hpush : c ≠ .result := by
        rintro rfl
        exact Bool.eq_false_iff.mp hc ((call_finished_iff h.coherent .result).mpr (by simp))
      simpa [hpush] using ih (call_open h hc)
    | true =>
      have hcoh := (call_keeps h.coherent c).1
      have hsettled := (callAll_settled hcoh hc cs).1
      dsimp only
      rw [hsettled.stats, hsettled.reader]
      cases c with
      | push chunk =>
        exact Or.inl ⟨push_lines h.unfinished chunk, by simp [not_readsBlankEnd hcoh hc cs]⟩
      | result =>
        have hrest : ¬ s.result.1.ReadsBlankEnd cs := not_readsBlankEnd hcoh hc cs
        simpa [call, h.unfinished, hrest] using result_lines h.unfinished h.counted

end Session

/--
**When every line that is read is counted.** Take a session as it is created, in either mode, and
any calls in any order, whatever they return. The count is the number of lines that the reader has
handed out, blank ones and the last one included, unless a request for the result found a blank
line waiting. Then it is one less.
-/
theorem lines_counted_iff {s : Session} (h : s.Fresh) (calls : List Call) :
    let t := (s.callAll calls).1
    (t.stats.lines = t.reader.linesSeen ↔ ¬ s.ReadsBlankEnd calls)
      ∧ (s.ReadsBlankEnd calls → t.stats.lines + 1 = t.reader.linesSeen) := by
  intro t
  rcases Session.callAll_lines (Session.fresh_open h) calls with ⟨hlines, hno⟩ | ⟨hlines, hblank⟩
  · exact ⟨⟨fun _ => hno, fun _ => hlines⟩, fun hblank => absurd hblank hno⟩
  · have hshort : t.stats.lines ≠ t.reader.linesSeen := by
      rw [← hlines]
      exact Nat.ne_of_lt (Nat.lt_succ_self _)
    exact ⟨⟨fun heq => absurd heq hshort, fun hno => absurd hblank hno⟩, fun _ => hlines⟩

/-- Three lines are pushed, one of them bad and one blank, and the third is waiting. It is counted
if it is bad too, and not if it is blank. -/
theorem lines_counted_iff_of_three :
    let s := Session.start {}
    let bad := [.push (Text.Utf8.bytesOf "bad\n\nbad"), .result]
    let blank := [.push (Text.Utf8.bytesOf "bad\n\n "), .result, .result]
    s.Fresh
      ∧ ¬ s.ReadsBlankEnd bad ∧ (s.callAll bad).1.stats.lines = 3
      ∧ s.ReadsBlankEnd blank ∧ (s.callAll blank).1.stats.lines + 1 = 3 := by
  intro s bad blank
  have hs : s.Fresh := Or.inl ⟨_, rfl⟩
  have hcounts : (s.callAll bad).1.reader.linesSeen = 3 ∧ (s.callAll bad).1.stats.lines = 3
      ∧ (s.callAll blank).1.reader.linesSeen = 3 ∧ (s.callAll blank).1.stats.lines = 2 := by
    decide +kernel
  obtain ⟨hseen, hbad, hseen', hblank⟩ := hcounts
  obtain ⟨hiff, _⟩ := lines_counted_iff hs bad
  obtain ⟨hiff', hshort⟩ := lines_counted_iff hs blank
  have hends : s.ReadsBlankEnd blank :=
    Classical.byContradiction fun hno => absurd (hiff'.mpr hno) (by rw [hseen', hblank]; decide)
  exact ⟨hs, hiff.mp (hbad.trans hseen.symm), hbad, hends, hseen' ▸ hshort hends⟩

/-- The count does not always keep up: the only line of this stream is blank and has no line
break. -/
theorem lines_counted_short :
    ¬ ∀ (s : Session) (calls : List Call), s.Fresh →
        (s.callAll calls).1.stats.lines = (s.callAll calls).1.reader.linesSeen := by
  intro hall
  have hlines := hall (Session.start {}) [.push (Text.Utf8.bytesOf " "), .result] (Or.inl ⟨_, rfl⟩)
  exact absurd hlines (by decide +kernel)

end ViewStream
