import ViewStream.Proofs.Session.Ledger

/-!
# Runs of a session

A run pushes the chunks of a stream in order, up to the first error, and then finishes the session.
**What comes of a run is what the entries of the stream do to the ledger**: `pushAll_cases` and
`generate_outcome` say so with the chunks put together, so how the stream was cut does not enter.

Two things carry this. Reading a chunk in two parts yields the entries of both, under the same line
numbers (`PatchReader.push_append`), so that what two chunks do can be put together (`fed_trans`).
And between two pushes a session is `Ready`: nothing in it is left over from the way it was fed,
and its ledger, reader and options determine it (`Ready.ext`).
-/

namespace ViewStream

open Json (Value)

/-! ## Reading in parts -/

namespace PatchReader

/-- The entries of the lines that a chunk completes. -/
def entries (r : PatchReader) (chunk : List UInt8) : List Entry :=
  (r.push chunk).1.map Prod.snd

/-- The entry of the line that still waits for its line break, if it has one. -/
def lastEntry (r : PatchReader) : List Entry :=
  r.flush.1.toList.map Prod.snd

/-- All entries of a stream that ends here. -/
def allEntries (r : PatchReader) (bytes : List UInt8) : List Entry :=
  r.entries bytes ++ (r.push bytes).2.lastEntry

/-- **A chunk may be read in two parts**: the lines and their numbers are the same. -/
theorem push_append (r : PatchReader) (xs ys : List UInt8) :
    r.push (xs ++ ys)
      = ((r.push xs).1 ++ ((r.push xs).2.push ys).1, ((r.push xs).2.push ys).2) := by
  have hemit := LineBuffer.push_emitted r.buffer xs
  simp only [push]
  rw [LineBuffer.push_append, entriesFrom_append, hemit]
  rw [show r.buffer.emitted + 1 + (r.buffer.push xs).1.length
    = r.buffer.emitted + (r.buffer.push xs).1.length + 1 by omega]

theorem entries_append (r : PatchReader) (xs ys : List UInt8) :
    r.entries (xs ++ ys) = r.entries xs ++ (r.push xs).2.entries ys := by
  rw [entries, push_append, List.map_append]
  rfl

/-- A reader between two chunks: no complete line is waiting. -/
def Waits (r : PatchReader) : Prop := LineBuffer.lineBreak ∉ r.buffer.pending

theorem push_waits (r : PatchReader) (chunk : List UInt8) : (r.push chunk).2.Waits :=
  Text.not_mem_rest LineBuffer.lineBreak (r.buffer.pending ++ chunk)

/-- An empty chunk completes nothing. -/
theorem push_nil {r : PatchReader} (h : r.Waits) : r.push [] = ([], r) := by
  simp only [push, LineBuffer.push]
  rw [List.append_nil, Text.cut_of_not_mem h]
  rfl

end PatchReader

namespace Session

/-! ## One chunk -/

/-- The session when its reader has read on. -/
def advance (s : Session) (reader : PatchReader) : Session :=
  { s with reader, stats := { s.stats with lines := reader.linesSeen } }

/-- An open session reads the chunk and then takes the entries of the lines it completes. -/
theorem ingest_eq {s : Session} (h : s.finished = false) (chunk : List UInt8) :
    s.ingest chunk = (s.advance (s.reader.push chunk).2).takeAll (s.reader.entries chunk) := by
  rw [ingest, if_neg (by simp [h])]
  rfl

/-- A session that takes another chunk. -/
structure Open (s : Session) : Prop where
  /-- It is not finished. -/
  unfinished : s.finished = false
  /-- A stale view is marked. -/
  coherent : s.Coherent
  /-- It has counted the lines that were read. -/
  counted : s.stats.lines = s.reader.linesSeen
  /-- No complete line is waiting. -/
  waits : s.reader.Waits

/-- `s'` is `s` when it has taken in `bytes`, of which it applied `ps`. -/
structure Fed (s : Session) (bytes : List UInt8) (ps : List Patch) (s' : Session) : Prop where
  /-- It takes more. -/
  isOpen : s'.Open
  /-- The reader has read the bytes. -/
  reader : s'.reader = (s.reader.push bytes).2
  /-- The options are the same. -/
  options : s'.options = s.options
  /-- The entries of all lines that were completed have acted on the ledger. -/
  ledger : s.ledger.takeAll s.options.mode (s.reader.entries bytes) = (s'.ledger, .ok ps)

/-- The entries of the lines that `bytes` complete brought `s` to a stop as `s'`. -/
def Stopped (s : Session) (bytes : List UInt8) (e : CompileError) (s' : Session) : Prop :=
  s.ledger.takeAll s.options.mode (s.reader.entries bytes) = (s'.ledger, .error e)

theorem fed_refl {s : Session} (h : s.Open) : Fed s [] [] s where
  isOpen := h
  reader := by rw [PatchReader.push_nil h.waits]
  options := rfl
  ledger := by
    rw [PatchReader.entries, PatchReader.push_nil h.waits]
    rfl

/-- **What two chunks do is what they do put together.** -/
theorem fed_trans {s t u : Session} {xs ys : List UInt8} {ps qs : List Patch} (h₁ : Fed s xs ps t)
    (h₂ : Fed t ys qs u) : Fed s (xs ++ ys) (ps ++ qs) u where
  isOpen := h₂.isOpen
  reader := by rw [h₂.reader, h₁.reader, PatchReader.push_append]
  options := h₂.options.trans h₁.options
  ledger := by
    -- the second chunk starts from the ledger and the reader that the first one left
    have hledger := h₂.ledger
    rw [h₁.options, h₁.reader] at hledger
    rw [PatchReader.entries_append, Ledger.takeAll_append, h₁.ledger]
    dsimp only
    rw [hledger]
    rfl

theorem stopped_after {s t u : Session} {xs ys : List UInt8} {ps : List Patch} {e : CompileError}
    (h₁ : Fed s xs ps t) (h₂ : Stopped t ys e u) : Stopped s (xs ++ ys) e u := by
  unfold Stopped at h₂ ⊢
  rw [h₁.options, h₁.reader] at h₂
  rw [PatchReader.entries_append, Ledger.takeAll_append, h₁.ledger]
  dsimp only
  rw [h₂]
  rfl

/-- A stop leaves nothing for later chunks to do. -/
theorem stopped_before {s t : Session} {xs : List UInt8} {e : CompileError} (h : Stopped s xs e t)
    (ys : List UInt8) : Stopped s (xs ++ ys) e t := by
  unfold Stopped at h ⊢
  rw [PatchReader.entries_append, Ledger.takeAll_append, h]

/-- **All that taking in a chunk can do.** -/
theorem ingest_cases {s : Session} (h : s.Open) (chunk : List UInt8) :
    (∃ s' ps, s.ingest chunk = (s', .ok ps) ∧ Fed s chunk ps s')
      ∨ ∃ s' e, s.ingest chunk = (s', .error e) ∧ Stopped s chunk e s' := by
  have hledger := takeAll_ledger (s.reader.entries chunk) (s.advance (s.reader.push chunk).2)
  have hwork := takeAll_worked (s.reader.entries chunk) (s.advance (s.reader.push chunk).2)
  rw [ingest_eq h.unfinished]
  rcases ht : (s.advance (s.reader.push chunk).2).takeAll (s.reader.entries chunk) with
    ⟨s', e | ps⟩
  · rw [ht] at hledger
    exact Or.inr ⟨s', e, rfl, hledger.symm⟩
  · rw [ht] at hledger hwork
    have hopen : s'.Open := {
      unfinished := (takeAll_finished ht).trans h.unfinished
      coherent := hwork.coherent h.coherent
      counted := hwork.lines.trans (congrArg PatchReader.linesSeen hwork.reader).symm
      waits := hwork.reader.symm ▸ PatchReader.push_waits s.reader chunk }
    exact Or.inl ⟨s', ps, rfl, hopen, hwork.reader, hwork.options, hledger.symm⟩

/-- Reading the view anew leaves the view of the document, whether it was stale or not. -/
theorem refresh_eq {s : Session} (h : s.Coherent) :
    s.refresh = { s with snapshot := Spec.ofDocument s.document, dirty := false } := by
  unfold refresh
  cases hd : s.dirty with
  | true => rfl
  | false =>
    obtain ⟨document, snapshot, dirty, reader, options, stats, finished⟩ := s
    have hd : dirty = false := hd
    have hv : snapshot = Spec.ofDocument document := h hd
    subst hd; subst hv
    rfl

/-- A session between two pushes: its view is not marked as stale. -/
structure Ready (s : Session) : Prop extends Open s where
  clean : s.dirty = false

theorem ready_startFrom (document : Value) (options : Options) :
    (startFrom document options).Ready :=
  ⟨⟨rfl, fun _ => rfl, rfl, by simp [PatchReader.Waits, startFrom]⟩, rfl⟩

/-- **Between two pushes a session is determined by its ledger, its reader and its options.** -/
theorem Ready.ext {s t : Session} (hs : s.Ready) (ht : t.Ready) (hl : s.ledger = t.ledger)
    (hr : s.reader = t.reader) (ho : s.options = t.options) : s = t := by
  have hdoc : s.document = t.document := congrArg Ledger.document hl
  have hview : s.snapshot = t.snapshot := by rw [hs.coherent hs.clean, ht.coherent ht.clean, hdoc]
  have hdirty : s.dirty = t.dirty := by rw [hs.clean, ht.clean]
  have hfin : s.finished = t.finished := by rw [hs.unfinished, ht.unfinished]
  have hlines : s.stats.lines = t.stats.lines := by rw [hs.counted, ht.counted, hr]
  have happ : s.stats.applied = t.stats.applied := congrArg Ledger.applied hl
  have hdrop : s.stats.dropped = t.stats.dropped := congrArg Ledger.dropped hl
  obtain ⟨document, snapshot, dirty, reader, options, ⟨lines, applied, dropped⟩, finished⟩ := s
  obtain ⟨document', snapshot', dirty', reader', options', ⟨lines', applied', dropped'⟩,
    finished'⟩ := t
  dsimp only at *
  subst hdoc hview hdirty hr ho hlines happ hdrop hfin
  rfl

/-- **All that a push can do**: it takes in the chunk and returns the view of the document. -/
theorem push_cases {s : Session} (h : s.Open) (chunk : List UInt8) :
    (∃ s' ps, s.push chunk = (s', .ok (Spec.ofDocument s'.document, ps)) ∧ s'.Ready
        ∧ Fed s chunk ps s')
      ∨ ∃ s' e, s.push chunk = (s', .error e) ∧ Stopped s chunk e s' := by
  unfold push
  rcases ingest_cases h chunk with ⟨s', ps, hin, hfed⟩ | ⟨s', e, hin, hstop⟩
  · have hcoh := hfed.isOpen.coherent
    -- reading the view anew touches nothing that keeps a session open
    have hopen : s'.refresh.Open := by
      rw [refresh_eq hcoh]
      exact ⟨hfed.isOpen.unfinished, fun _ => rfl, hfed.isOpen.counted, hfed.isOpen.waits⟩
    rw [hin]
    dsimp only
    rw [refresh_eq hcoh] at hopen ⊢
    exact Or.inl ⟨_, ps, rfl, ⟨hopen, rfl⟩, hopen, hfed.reader, hfed.options, hfed.ledger⟩
  · rw [hin]
    exact Or.inr ⟨s', e, rfl, hstop⟩

/-! ## The last line -/

/-- The session when its last line has been read, and counted unless it is blank. -/
def close (s : Session) : Session :=
  match s.reader.flush with
  | (none, reader) => { s with finished := true, reader }
  | (some _, reader) => advance { s with finished := true } reader

/-- An open session reads its last line, takes its entry and reads the view anew. -/
theorem result_eq {s : Session} (h : s.finished = false) :
    s.result =
      match s.close.takeAll s.reader.lastEntry with
      | (s', .error e) => (s', .error e)
      | (s', .ok _) => (s'.refresh, .ok s'.refresh.snapshot) := by
  rw [result, if_neg (by simp [h]), close, PatchReader.lastEntry]
  rcases s.reader.flush with ⟨_ | ⟨n, e⟩, reader⟩
  · rfl
  · simp only [Option.toList, List.map, takeAll, advance]
    generalize Session.take _ e = step
    rcases step with ⟨s', _ | p⟩ <;> rfl

theorem close_ledger (s : Session) : s.close.ledger = s.ledger := by
  unfold close
  split <;> rfl

theorem close_options (s : Session) : s.close.options = s.options := by
  unfold close
  split <;> rfl

theorem close_coherent {s : Session} (h : s.Coherent) : s.close.Coherent := by
  unfold close
  split <;> exact h

/-- **Finishing**: the entry of the last line, if it has one, acts on the ledger, and the view is
the view of the document it leaves. -/
theorem result_outcome {s : Session} (h : s.Open) :
    (s.result.1.ledger, s.result.2)
      = let w := s.ledger.takeAll s.options.mode s.reader.lastEntry
        (w.1, w.2.map fun _ => Spec.ofDocument w.1.document) := by
  have hledger := takeAll_ledger s.reader.lastEntry s.close
  have hcoh := (takeAll_worked s.reader.lastEntry s.close).coherent (close_coherent h.coherent)
  rw [close_ledger, close_options] at hledger
  rw [result_eq h.unfinished, ← hledger]
  rcases ht : s.close.takeAll s.reader.lastEntry with ⟨s', e | ps⟩
  · rfl
  · rw [ht] at hcoh
    dsimp only
    rw [refresh_eq hcoh]
    rfl

/-! ## Whole runs -/

-- What a run over given bytes returns can be evaluated and compared.
deriving instance DecidableEq for Except

/-- Push chunks in order up to the first error: what each push returned. -/
def pushAll : List (List UInt8) → Session →
    Session × Except CompileError (List (Spec × List Patch))
  | [], s => (s, .ok [])
  | chunk :: chunks, s =>
    match s.push chunk with
    | (s', .error e) => (s', .error e)
    | (s', .ok out) =>
      let rest := pushAll chunks s'
      (rest.1, rest.2.map (out :: ·))

/-- Push chunks in order up to the first error and, if there is none, finish. -/
def generate (chunks : List (List UInt8)) (s : Session) : Session × Except CompileError Spec :=
  match s.pushAll chunks with
  | (s', .error e) => (s', .error e)
  | (s', .ok _) => s'.result

/--
**All that the pushes of a run can do.** They take in all chunks, and report between them the
patches applied, or they are stopped by an entry.

The chunks occur only put together.
-/
theorem pushAll_cases {s : Session} (h : s.Ready) (chunks : List (List UInt8)) :
    (∃ s' outs, s.pushAll chunks = (s', .ok outs) ∧ s'.Ready
        ∧ Fed s chunks.flatten (outs.flatMap Prod.snd) s')
      ∨ ∃ s' e, s.pushAll chunks = (s', .error e) ∧ Stopped s chunks.flatten e s' := by
  induction chunks generalizing s with
  | nil => exact Or.inl ⟨s, [], rfl, h, fed_refl h.toOpen⟩
  | cons chunk chunks ih =>
    rw [pushAll, List.flatten_cons]
    rcases push_cases h.toOpen chunk with ⟨t, ps, hp, hready, hfed⟩ | ⟨t, e, hp, hstop⟩
    · rw [hp]
      rcases ih hready with ⟨u, outs, hr, hready', hfed'⟩ | ⟨u, e, hr, hstop⟩
      · dsimp only
        rw [hr]
        exact Or.inl ⟨u, _, rfl, hready', fed_trans hfed hfed'⟩
      · dsimp only
        rw [hr]
        exact Or.inr ⟨u, e, rfl, stopped_after hfed hstop⟩
    · rw [hp]
      exact Or.inr ⟨t, e, rfl, stopped_before hstop _⟩

/-- A session that was fed to the end of its stream finishes with the outcome of all entries. -/
theorem Fed.result {s s' : Session} {bytes : List UInt8} {ps : List Patch}
    (h : Fed s bytes ps s') : (s'.result.1.ledger, s'.result.2)
      = let w := s.ledger.takeAll s.options.mode (s.reader.allEntries bytes)
        (w.1, w.2.map fun _ => Spec.ofDocument w.1.document) := by
  rw [result_outcome h.isOpen, h.options, h.reader, PatchReader.allEntries, Ledger.takeAll_append,
    h.ledger]
  dsimp only
  cases (Ledger.takeAll s.options.mode (s.reader.push bytes).2.lastEntry s'.ledger).2 <;> rfl

/-- A session that was stopped has met an error among the entries of its stream. -/
theorem Stopped.result {s s' : Session} {bytes : List UInt8} {e : CompileError}
    (h : Stopped s bytes e s') :
    s.ledger.takeAll s.options.mode (s.reader.allEntries bytes) = (s'.ledger, .error e) := by
  unfold Stopped at h
  rw [PatchReader.allEntries, Ledger.takeAll_append, h]

/-- **What a whole run does.** All entries of the stream act on the ledger, that of its last line
included, and the view is the view of the document they leave. -/
theorem generate_outcome {s : Session} (h : s.Ready) (chunks : List (List UInt8)) :
    ((s.generate chunks).1.ledger, (s.generate chunks).2)
      = let w := s.ledger.takeAll s.options.mode (s.reader.allEntries chunks.flatten)
        (w.1, w.2.map fun _ => Spec.ofDocument w.1.document) := by
  unfold generate
  rcases pushAll_cases h chunks with ⟨s', outs, hp, _, hfed⟩ | ⟨s', e, hp, hstop⟩
  · rw [hp]
    exact hfed.result
  · rw [hp, hstop.result]
    rfl

end Session

end ViewStream
