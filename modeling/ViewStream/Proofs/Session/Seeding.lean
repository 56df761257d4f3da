import ViewStream.Proofs.Session.LifeCycle

/-!
# A new session goes on where another one stopped

A session that has taken in complete lines can be replaced: a new session over its document takes
what comes next in its stead. The new session starts with no line read, nothing counted and a view
that it reads at once, so **nothing but the document may carry meaning across the seam**.

What the two sessions still differ in is where they are in their stream. `Abreast n s t` says that
`s` is `t` but for `n` lines that were read before, and no call leads out of it (`result_abreast`).
The only thing that ever shows the difference is the line number of an error.
-/

namespace ViewStream

open Json (Value)

/-! ## Errors and entries further down -/

/-- The same error, `n` lines further down. -/
def LineError.later (n : Nat) (e : LineError) : LineError := { e with line := e.line + n }

/-- The same error for a stream with `n` lines more in front. Only a line's error names a line. -/
def CompileError.later (n : Nat) : CompileError → CompileError
  | .line e => .line (e.later n)
  | .apply e => .apply e
  | .finished => .finished

/-- The same entry, `n` lines further down. -/
def Entry.later (n : Nat) (e : Entry) : Entry := e.mapError (LineError.later n)

/-- The same line further down holds the same entry. -/
theorem Entry.ofLine?_later (n k : Nat) (text : String) :
    ofLine? (k + n) text = (ofLine? k text).map (later n) := by
  unfold ofLine?
  rcases Patch.parseLine text with d | _ | p <;> rfl

theorem Entry.apply_later (n : Nat) (mode : Mode) (v : Value) (e : Entry) :
    apply mode v (later n e) = (apply mode v e).mapError (CompileError.later n) := by
  cases e with
  | error err => rfl
  | ok p =>
    show apply mode v (.ok p) = _
    rw [apply]
    rcases p.apply mode v with ⟨v', _ | stop⟩ <;> rfl

namespace Ledger

/--
**Where entries stand makes no difference to what they do**, and neither do the counts they are
added to. The error that stops them names another line.
-/
theorem takeAll_later (n : Nat) (mode : Mode) (es : List Entry) (l l' : Ledger)
    (h : l.document = l'.document) :
    (takeAll mode (es.map (Entry.later n)) l).1.document = (takeAll mode es l').1.document
      ∧ (takeAll mode (es.map (Entry.later n)) l).2
          = (takeAll mode es l').2.mapError (CompileError.later n) := by
  induction es generalizing l l' with
  | nil => exact ⟨h, rfl⟩
  | cons e es ih =>
    rw [List.map_cons, takeAll, takeAll, Entry.apply_later, h]
    cases Entry.apply mode l'.document e with
    | ok pv =>
      obtain ⟨hdoc, hout⟩ := ih ⟨pv.2, l.applied + 1, l.dropped⟩
        ⟨pv.2, l'.applied + 1, l'.dropped⟩ rfl
      have hok : (Except.ok pv).mapError (CompileError.later n) = .ok pv := rfl
      rw [hok]
      dsimp only
      rw [hout]
      refine ⟨hdoc, ?_⟩
      cases (takeAll mode es ⟨pv.2, l'.applied + 1, l'.dropped⟩).2 <;> rfl
    | error err =>
      cases mode with
      | strict => exact ⟨h, rfl⟩
      | lenient => exact ih _ _ rfl

end Ledger

namespace PatchReader

/-- The reader when `n` lines more were read before. -/
def ahead (n : Nat) (r : PatchReader) : PatchReader :=
  ⟨{ r.buffer with emitted := r.buffer.emitted + n }⟩

theorem entriesFrom_later (n k : Nat) (lines : List String) :
    (entriesFrom (k + n) lines).map Prod.snd
      = ((entriesFrom k lines).map Prod.snd).map (Entry.later n) := by
  induction lines generalizing k with
  | nil => rfl
  | cons line lines ih =>
    rw [entriesFrom, entriesFrom, Entry.ofLine?_later, Nat.add_right_comm]
    cases Entry.ofLine? k line with
    | none => exact ih (k + 1)
    | some e => exact congrArg (Entry.later n e :: ·) (ih (k + 1))

theorem push_ahead (n : Nat) (r : PatchReader) (chunk : List UInt8) :
    ((r.ahead n).push chunk).2 = (r.push chunk).2.ahead n := by
  simp only [push, ahead, LineBuffer.push]
  rw [Nat.add_right_comm]

theorem entries_ahead (n : Nat) (r : PatchReader) (chunk : List UInt8) :
    (r.ahead n).entries chunk = (r.entries chunk).map (Entry.later n) := by
  have hnumber : (r.ahead n).buffer.emitted + 1 = r.buffer.emitted + 1 + n :=
    Nat.add_right_comm r.buffer.emitted n 1
  rw [entries, push]
  dsimp only
  rw [hnumber, entriesFrom_later]
  rfl

theorem lastEntry_ahead (n : Nat) (r : PatchReader) :
    (r.ahead n).lastEntry = r.lastEntry.map (Entry.later n) := by
  obtain ⟨⟨pending, emitted⟩⟩ := r
  cases pending with
  | nil => rfl
  | cons b bs =>
    simp only [lastEntry, flush, ahead, LineBuffer.flush]
    rw [Nat.add_right_comm, Entry.ofLine?_later]
    cases Entry.ofLine? (emitted + 1) (LineBuffer.decodeLine (b :: bs)) <;> rfl

/-- **A reader of complete lines keeps nothing of them but their number.** -/
theorem push_complete {bytes : List UInt8}
    (h : bytes = [] ∨ bytes.getLast? = some LineBuffer.lineBreak) :
    (push {} bytes).2 = ahead (bytes.count LineBuffer.lineBreak) {} := by
  have hrest : (Text.cut LineBuffer.lineBreak bytes).2 = [] := by
    rcases h with h | h
    · rw [h]; rfl
    · exact Text.cut_rest_eq_nil h
  simp only [push, ahead, LineBuffer.push, List.nil_append, hrest, Text.length_cut]

end PatchReader

namespace Session

/-! ## Sessions abreast -/

/-- `s` is `t` when it has read `n` lines more before. -/
structure Abreast (n : Nat) (s t : Session) : Prop where
  /-- Stale views are marked. -/
  coherent : s.Coherent
  coherent' : t.Coherent
  /-- They go about it in the same way. -/
  options : s.options = t.options
  /-- They have the same document. -/
  document : s.document = t.document
  /-- Both take more chunks, or neither does. -/
  finished : s.finished = t.finished
  /-- While they do, the same bytes wait for a line break. -/
  reader : s.finished = false → s.reader = t.reader.ahead n

/-- Entries finish a session if and only if they end in an error. -/
theorem takeAll_finished_iff (s : Session) (es : List Entry) :
    (s.takeAll es).1.finished = true
      ↔ s.finished = true ∨ ∃ e, (s.takeAll es).2 = .error e := by
  rcases ht : s.takeAll es with ⟨s', e | ps⟩
  · simp [(takeAll_error ht).2.1]
  · simp [takeAll_finished ht]

/-- **Entries that differ in their line keep sessions abreast**, and come out the same. -/
theorem takeAll_abreast {n : Nat} {s t : Session} (h : Abreast n s t) (es : List Entry) :
    (s.takeAll (es.map (Entry.later n))).2 = (t.takeAll es).2.mapError (CompileError.later n)
      ∧ Abreast n (s.takeAll (es.map (Entry.later n))).1 (t.takeAll es).1 := by
  have hwork := takeAll_worked (es.map (Entry.later n)) s
  have hwork' := takeAll_worked es t
  have hfin := takeAll_finished_iff s (es.map (Entry.later n))
  have hfin' := takeAll_finished_iff t es
  obtain ⟨hdoc, hout⟩ := Ledger.takeAll_later n t.options.mode es s.ledger t.ledger h.document
  rw [← takeAll_ledger es t, ← h.options, ← takeAll_ledger _ s] at hdoc hout
  refine ⟨hout, {
    coherent := hwork.coherent h.coherent
    coherent' := hwork'.coherent h.coherent'
    options := hwork.options.trans (h.options.trans hwork'.options.symm)
    document := hdoc
    finished := ?_
    reader := ?_ }⟩
  · have herr : (∃ e, (s.takeAll (es.map (Entry.later n))).2 = .error e)
        ↔ ∃ e, (t.takeAll es).2 = .error e := by
      rw [hout]
      cases (t.takeAll es).2 with
      | error e => exact iff_of_true ⟨_, rfl⟩ ⟨e, rfl⟩
      | ok ps => exact Iff.rfl
    rw [Bool.eq_iff_iff, hfin, hfin', herr, h.finished]
  · intro hopen
    have hbefore : s.finished = false := by
      rw [Bool.eq_false_iff] at hopen ⊢
      exact fun hs => hopen (hfin.mpr (Or.inl hs))
    rw [hwork.reader, hwork'.reader, h.reader hbefore]

/-- How a call ends when its entries are taken: with the error, or with the view read anew. -/
def conclude {α : Type} (reply : Spec → List Patch → α) :
    Session × Except CompileError (List Patch) → Session × Except CompileError α
  | (s, .error e) => (s, .error e)
  | (s, .ok ps) => (s.refresh, .ok (reply s.refresh.snapshot ps))

theorem conclude_abreast {α : Type} {n : Nat} {s t : Session}
    {r r' : Except CompileError (List Patch)} (hout : r = r'.mapError (CompileError.later n))
    (h : Abreast n s t) (reply : Spec → List Patch → α) :
    (conclude reply (s, r)).2 = (conclude reply (t, r')).2.mapError (CompileError.later n)
      ∧ Abreast n (conclude reply (s, r)).1 (conclude reply (t, r')).1 := by
  subst hout
  cases r' with
  | error e => exact ⟨rfl, h⟩
  | ok ps =>
    -- both read the view of the one document
    have hok : (Except.ok ps).mapError (CompileError.later n) = .ok ps := rfl
    rw [hok]
    dsimp only [conclude]
    rw [refresh_eq h.coherent, refresh_eq h.coherent']
    exact ⟨by rw [h.document]; rfl,
      fun _ => rfl, fun _ => rfl, h.options, h.document, h.finished, h.reader⟩

theorem push_eq_conclude {s : Session} (h : s.finished = false) (chunk : List UInt8) :
    s.push chunk = conclude Prod.mk
      ((s.advance (s.reader.push chunk).2).takeAll (s.reader.entries chunk)) := by
  rw [push, ingest_eq h]
  rcases (s.advance (s.reader.push chunk).2).takeAll (s.reader.entries chunk) with
    ⟨s', _ | ps⟩ <;> rfl

theorem result_eq_conclude {s : Session} (h : s.finished = false) :
    s.result = conclude (fun spec _ => spec) (s.close.takeAll s.reader.lastEntry) := by
  rw [result_eq h]
  rcases s.close.takeAll s.reader.lastEntry with ⟨s', _ | ps⟩ <;> rfl

/-- **A push leaves sessions abreast**, and is answered with the same view and the same patches, or
with the same error further down. -/
theorem push_abreast {n : Nat} {s t : Session} (h : Abreast n s t) (chunk : List UInt8) :
    (s.push chunk).2 = (t.push chunk).2.mapError (CompileError.later n)
      ∧ Abreast n (s.push chunk).1 (t.push chunk).1 := by
  cases hfin : s.finished with
  | true =>
    rw [push_finished hfin, push_finished (h.finished ▸ hfin)]
    exact ⟨rfl, h⟩
  | false =>
    have hread :
        Abreast n (s.advance (s.reader.push chunk).2) (t.advance (t.reader.push chunk).2) :=
      { h with reader := fun _ => by rw [h.reader hfin]; exact t.reader.push_ahead n chunk }
    obtain ⟨hout, hafter⟩ := takeAll_abreast hread (t.reader.entries chunk)
    rw [← PatchReader.entries_ahead, ← h.reader hfin] at hout hafter
    rw [push_eq_conclude hfin, push_eq_conclude (h.finished ▸ hfin)]
    exact conclude_abreast hout hafter Prod.mk

/-- So does a request for the result. -/
theorem result_abreast {n : Nat} {s t : Session} (h : Abreast n s t) :
    s.result.2 = t.result.2.mapError (CompileError.later n) ∧ Abreast n s.result.1 t.result.1 := by
  cases hfin : s.finished with
  | true =>
    have hfin' : t.finished = true := h.finished ▸ hfin
    rw [result, result, if_pos hfin, if_pos hfin']
    -- nothing is left to be taken, and both read their view anew
    have hnothing : (Except.ok [] : Except CompileError (List Patch))
        = Except.mapError (CompileError.later n) (.ok []) := rfl
    exact conclude_abreast hnothing h fun spec _ => spec
  | false =>
    have hclose : Abreast n s.close t.close := {
      coherent := close_coherent h.coherent
      coherent' := close_coherent h.coherent'
      options := by rw [close_options, close_options, h.options]
      document := (congrArg Ledger.document s.close_ledger).trans
        (h.document.trans (congrArg Ledger.document t.close_ledger).symm)
      finished := s.close_finished.trans t.close_finished.symm
      reader := fun hopen => absurd s.close_finished (by simp [hopen]) }
    obtain ⟨hout, hafter⟩ := takeAll_abreast hclose t.reader.lastEntry
    rw [← PatchReader.lastEntry_ahead, ← h.reader hfin] at hout hafter
    rw [result_eq_conclude hfin, result_eq_conclude (h.finished ▸ hfin)]
    exact conclude_abreast hout hafter fun spec _ => spec

/-! ## The seam -/

/-- **A new session over the document of one that has taken in complete lines is abreast of
it.** -/
theorem reseed_abreast {d : Value} {o : Options} {head : List UInt8}
    (hend : head = [] ∨ head.getLast? = some LineBuffer.lineBreak)
    {out : Spec × List Patch} (hok : ((startFrom d o).push head).2 = .ok out) :
    Abreast (head.count LineBuffer.lineBreak) ((startFrom d o).push head).1
      (startFrom ((startFrom d o).push head).1.document o) := by
  rcases push_cases (ready_startFrom d o).toOpen head with
    ⟨s, ps, hp, hready, hfed⟩ | ⟨s, e, hp, _⟩
  · rw [hp]
    exact {
      coherent := hready.coherent
      coherent' := fun _ => rfl
      options := hfed.options
      document := rfl
      finished := hready.unfinished
      reader := fun _ => hfed.reader.trans (PatchReader.push_complete hend) }
  · rw [hp] at hok
    exact absurd hok (by simp)

end Session

/--
**A new session goes on where another one stopped.** Take a session over any document and in either
mode that has taken in complete lines, and beside it a new session over its document. Push the same
bytes to both and ask both for the result.

They return the same patches and the same views and end with the same document. If one of them
fails, so does the other, with the same error; only the line that it names is smaller in the new
session, by the number of lines the first one had read.
-/
theorem seeding_continues {d : Value} {o : Options} {head : List UInt8}
    (hend : head = [] ∨ head.getLast? = some LineBuffer.lineBreak)
    {out : Spec × List Patch} (hok : ((Session.startFrom d o).push head).2 = .ok out)
    (tail : List UInt8) :
    let first := ((Session.startFrom d o).push head).1
    let next := Session.startFrom first.document o
    let later := CompileError.later (head.count LineBuffer.lineBreak)
    (first.push tail).2 = (next.push tail).2.mapError later
      ∧ (first.push tail).1.document = (next.push tail).1.document
      ∧ (first.push tail).1.result.2 = (next.push tail).1.result.2.mapError later
      ∧ (first.push tail).1.result.1.document = (next.push tail).1.result.1.document := by
  intro first next later
  have hseam : Session.Abreast _ first next := Session.reseed_abreast hend hok
  obtain ⟨hpush, hafter⟩ := Session.push_abreast hseam tail
  obtain ⟨hresult, hfinished⟩ := Session.result_abreast hafter
  exact ⟨hpush, hafter.document, hresult, hfinished.document⟩

/-- In strict mode the last line of the tail is no patch. It is the second line that the new
session reads and the fourth that the first one does. -/
theorem seeding_continues_to_error :
    let head := Text.Utf8.bytesOf "\x7b\"op\":\"set\",\"path\":\"/a\",\"value\":1\x7d\r\n\n"
    let tail := Text.Utf8.bytesOf "\x7b\"op\":\"remove\",\"path\":\"/a\"\x7d\nbad"
    let o : Options := { mode := .strict }
    let first := ((Session.startFrom (.obj []) o).push head).1
    let next := Session.startFrom first.document o
    (first.push tail).2 = .ok ({}, [⟨.remove, "/a", none⟩])
      ∧ (next.push tail).1.result.2 = .error (.line ⟨2, .invalidJson "bad"⟩)
      ∧ (first.push tail).1.result.2 = .error (.line ⟨4, .invalidJson "bad"⟩) := by
  intro head tail o first next
  have hend : head = [] ∨ head.getLast? = some LineBuffer.lineBreak := by decide +kernel
  have hlines : head.count LineBuffer.lineBreak = 2 := by decide +kernel
  have hok : ((Session.startFrom (.obj []) o).push head).2
      = .ok ({}, [⟨.set, "/a", some (Value.ofNat 1)⟩]) := by decide +kernel
  have hpush : (next.push tail).2 = .ok ({}, [⟨.remove, "/a", none⟩]) := by decide +kernel
  have hresult : (next.push tail).1.result.2 = .error (.line ⟨2, .invalidJson "bad"⟩) := by
    decide +kernel
  obtain ⟨hout, _, hlast, _⟩ := seeding_continues hend hok tail
  rw [hlines] at hout hlast
  exact ⟨hout.trans (congrArg _ hpush), hresult, hlast.trans (congrArg _ hresult)⟩

end ViewStream
