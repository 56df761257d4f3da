import ViewStream.Proofs.Session.Run

/-!
# Calls in any order

`Session/Run` follows one stream from its first chunk to its end. A client need not be so orderly:
it may push to a session that is finished, ask for the result twice, or go on after an error. This
file says what **any call in any order** can do.

`Outcome` has one constructor for each way in which a call can come out, and `call_outcome` says
that there are no others. All it asks of the session is that a stale view is marked (`Coherent`),
which every call preserves. What a call does to `finished` or to the view is then read off the
constructors, and nothing about lines, entries or documents is looked at again.
-/

namespace ViewStream

open Json (Value)

/-- What a client asks of a session. A text is pushed as its bytes. -/
inductive Call where
  | push (chunk : List UInt8)
  | result
deriving DecidableEq, Repr

/-- What a call returns: the view, and the patches that a push applied. -/
abbrev Reply := Except CompileError (Spec × List Patch)

/-- Whether a reply reports a line or a patch that could not be used. -/
def Reply.isFault : Reply → Bool
  | .error e => e.isFault
  | .ok _ => false

namespace Session

/-- Carry out a call. -/
def call (s : Session) : Call → Session × Reply
  | .push chunk => s.push chunk
  | .result => (s.result.1, s.result.2.map fun spec => (spec, []))

/-- Carry out calls in order, whatever they return. -/
def callAll : List Call → Session → Session × List Reply
  | [], s => (s, [])
  | c :: cs, s =>
    let rest := callAll cs (s.call c).1
    (rest.1, (s.call c).2 :: rest.2)

/-- A session as it is created. -/
def Fresh (s : Session) : Prop := (∃ o, s = start o) ∨ ∃ d o, s = startFrom d o

/-- The view is the view of the document. -/
def Shows (s : Session) : Prop := s.snapshot = Spec.ofDocument s.document

theorem fresh_shows {s : Session} (h : s.Fresh) : s.Shows := by
  rcases h with ⟨o, rfl⟩ | ⟨d, o, rfl⟩ <;> rfl

theorem fresh_unfinished {s : Session} (h : s.Fresh) : s.finished = false := by
  rcases h with ⟨o, rfl⟩ | ⟨d, o, rfl⟩ <;> rfl

/-! ## One call -/

/-- The ways in which a call can come out: with what session, and with what reply. -/
inductive Outcome (s : Session) : Call → Session × Reply → Prop where
  /-- An open session takes the call, and is open after it unless that was the request to
  finish. -/
  | taken {c : Call} {s' : Session} (ps : List Patch) (isOpen : s.finished = false)
      (options : s'.options = s.options) (finished : s'.finished = decide (c = .result))
      (shows : s'.Shows) : Outcome s c (s', .ok (Spec.ofDocument s'.document, ps))
  /-- A strict session is finished by what it cannot use, and keeps the view it had. -/
  | failed {c : Call} {s' : Session} {e : CompileError} (isOpen : s.finished = false)
      (strict : s.options.mode = .strict) (fault : e.isFault = true)
      (options : s'.options = s.options) (finished : s'.finished = true)
      (snapshot : s'.snapshot = s.snapshot) (coherent : s'.Coherent) : Outcome s c (s', .error e)
  /-- A finished session takes no chunk. -/
  | refused (chunk : List UInt8) (finished : s.finished = true) :
      Outcome s (.push chunk) (s, .error .finished)
  /-- A finished session returns its view, read anew if it was stale. -/
  | again (finished : s.finished = true) :
      Outcome s .result ({ s with snapshot := Spec.ofDocument s.document, dirty := false },
        .ok (Spec.ofDocument s.document, []))

/-- What the entries that a call has read do to the session. -/
theorem takeAll_cases {s : Session} (h : s.Coherent) (es : List Entry) :
    (∃ s' ps, s.takeAll es = (s', .ok ps) ∧ s'.options = s.options ∧ s'.finished = s.finished
        ∧ s'.Coherent)
      ∨ ∃ s' e, s.takeAll es = (s', .error e) ∧ s.options.mode = .strict ∧ e.isFault = true
          ∧ s'.options = s.options ∧ s'.finished = true ∧ s'.snapshot = s.snapshot
          ∧ s'.Coherent := by
  have hwork := takeAll_worked es s
  rcases ht : s.takeAll es with ⟨s', e | ps⟩
  · rw [ht] at hwork
    obtain ⟨hmode, hfin, hfault⟩ := takeAll_error ht
    exact Or.inr ⟨s', e, rfl, hmode, hfault, hwork.options, hfin, hwork.snapshot, hwork.coherent h⟩
  · rw [ht] at hwork
    exact Or.inl ⟨s', ps, rfl, hwork.options, takeAll_finished ht, hwork.coherent h⟩

theorem outcome_push {s : Session} (h : s.Coherent) (chunk : List UInt8) :
    Outcome s (.push chunk) (s.push chunk) := by
  unfold push
  by_cases hfin : s.finished = true
  · rw [ingest, if_pos hfin]
    exact .refused chunk hfin
  · have hopen : s.finished = false := by simpa using hfin
    rw [ingest_eq hopen]
    have hadv : (s.advance (s.reader.push chunk).2).Coherent := h
    rcases takeAll_cases hadv (s.reader.entries chunk) with
      ⟨s', ps, ht, hopt, hsame, hcoh⟩ | ⟨s', e, ht, hmode, hfault, hopt, hfin', hsnap, hcoh⟩
    · rw [ht]
      dsimp only
      rw [refresh_eq hcoh]
      exact .taken ps hopen hopt (hsame.trans hopen) rfl
    · rw [ht]
      exact .failed hopen hmode hfault hopt hfin' hsnap hcoh

theorem close_finished (s : Session) : s.close.finished = true := by
  unfold close
  split <;> rfl

theorem close_snapshot (s : Session) : s.close.snapshot = s.snapshot := by
  unfold close
  split <;> rfl

theorem outcome_result {s : Session} (h : s.Coherent) :
    Outcome s .result (s.result.1, s.result.2.map fun spec => (spec, [])) := by
  by_cases hfin : s.finished = true
  · rw [result, if_pos hfin]
    dsimp only
    rw [refresh_eq h]
    exact .again hfin
  · have hopen : s.finished = false := by simpa using hfin
    rw [result_eq hopen]
    rcases takeAll_cases (close_coherent h) s.reader.lastEntry with
      ⟨s', ps, ht, hopt, hsame, hcoh⟩ | ⟨s', e, ht, hmode, hfault, hopt, hfin', hsnap, hcoh⟩
    · rw [ht]
      dsimp only
      rw [refresh_eq hcoh]
      exact .taken [] hopen (hopt.trans s.close_options) (hsame.trans s.close_finished) rfl
    · rw [ht]
      rw [close_options] at hmode hopt
      exact .failed hopen hmode hfault hopt hfin' (hsnap.trans s.close_snapshot) hcoh

/-- **All that a call can do.** -/
theorem call_outcome {s : Session} (h : s.Coherent) (c : Call) : Outcome s c (s.call c) := by
  cases c with
  | push chunk => exact outcome_push h chunk
  | result => exact outcome_result h

/-! ## What every call keeps -/

theorem call_keeps {s : Session} (h : s.Coherent) (c : Call) :
    (s.call c).1.Coherent ∧ (s.call c).1.options = s.options := by
  have hout := call_outcome h c
  generalize s.call c = step at hout ⊢
  cases hout with
  | taken ps isOpen options finished shows => exact ⟨fun _ => shows, options⟩
  | failed isOpen strict fault options finished snapshot coherent => exact ⟨coherent, options⟩
  | refused chunk finished => exact ⟨h, rfl⟩
  | again finished => exact ⟨fun _ => rfl, rfl⟩

theorem callAll_keeps {s : Session} (h : s.Coherent) (calls : List Call) :
    (s.callAll calls).1.Coherent ∧ (s.callAll calls).1.options = s.options := by
  induction calls generalizing s with
  | nil => exact ⟨h, rfl⟩
  | cons c cs ih =>
    obtain ⟨hc, ho⟩ := call_keeps h c
    obtain ⟨hcs, hos⟩ := ih hc
    exact ⟨hcs, hos.trans ho⟩

end Session

end ViewStream
