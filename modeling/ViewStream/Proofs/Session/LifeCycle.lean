import ViewStream.Proofs.Session.Calls
import ViewStream.Proofs.Session.Streaming

/-!
# Finished is finished

Two things finish a session: the request for its result, and in strict mode the first line or
patch that it cannot use. The second may come in the middle of a chunk, with lines unread and the
beginning of another line waiting, and what is left of the chunk must never take effect.

It does not, because **a finished session changes in nothing but the view it keeps** (`Settled`),
and so whatever it is asked for afterwards it reports no further fault. That is why a run reports
at most one, and a lenient run none.
-/

namespace ViewStream

open Json (Value)

namespace Session

/-! ## A finished session -/

/-- `s'` is finished and is `s`, apart from the view that is kept. -/
structure Settled (s s' : Session) : Prop where
  finished : s'.finished = true
  document : s'.document = s.document
  stats : s'.stats = s.stats
  reader : s'.reader = s.reader

theorem settled_trans {s t u : Session} (h₁ : Settled s t) (h₂ : Settled t u) : Settled s u :=
  ⟨h₂.finished, h₂.document.trans h₁.document, h₂.stats.trans h₁.stats, h₂.reader.trans h₁.reader⟩

/-- A call settles a finished session, and reports no fault. -/
theorem call_settled {s : Session} (h : s.Coherent) (hfin : s.finished = true) (c : Call) :
    Settled s (s.call c).1 ∧ (s.call c).2.isFault = false := by
  have hout := call_outcome h c
  generalize s.call c = step at hout ⊢
  cases hout with
  | taken ps isOpen options finished shows => exact absurd hfin (by simp [isOpen])
  | failed isOpen strict fault options finished snapshot coherent =>
    exact absurd hfin (by simp [isOpen])
  | refused chunk finished => exact ⟨⟨hfin, rfl, rfl, rfl⟩, rfl⟩
  | again finished => exact ⟨⟨hfin, rfl, rfl, rfl⟩, rfl⟩

/-- **And so does any number of calls.** -/
theorem callAll_settled {s : Session} (h : s.Coherent) (hfin : s.finished = true)
    (calls : List Call) :
    Settled s (s.callAll calls).1 ∧ ∀ r ∈ (s.callAll calls).2, r.isFault = false := by
  induction calls generalizing s with
  | nil => exact ⟨⟨hfin, rfl, rfl, rfl⟩, fun r hr => absurd hr (by simp [callAll])⟩
  | cons c cs ih =>
    obtain ⟨hcall, hreply⟩ := call_settled h hfin c
    obtain ⟨hrest, hreplies⟩ := ih (call_keeps h c).1 hcall.finished
    refine ⟨settled_trans hcall hrest, ?_⟩
    intro r hr
    rcases List.mem_cons.mp hr with hr | hr
    · rw [hr]; exact hreply
    · exact hreplies r hr

/-- A finished session takes no chunk, and its result is the view of its document. -/
theorem push_finished {s : Session} (hfin : s.finished = true) (chunk : List UInt8) :
    s.push chunk = (s, .error .finished) := by
  rw [push, ingest, if_pos hfin]

theorem result_finished {s : Session} (h : s.Coherent) (hfin : s.finished = true) :
    s.result.2 = .ok (Spec.ofDocument s.document) := by
  rw [result, if_pos hfin]
  dsimp only
  rw [refresh_eq h]

/-! ## What finishes a session -/

theorem call_finished_iff {s : Session} (h : s.Coherent) (c : Call) :
    (s.call c).1.finished = true
      ↔ s.finished = true ∨ c = .result ∨ (s.call c).2.isFault = true := by
  have hout := call_outcome h c
  generalize s.call c = step at hout ⊢
  cases hout with
  | taken ps isOpen options finished shows => simp [finished, isOpen, Reply.isFault]
  | failed isOpen strict fault options finished snapshot coherent =>
    simp [finished, Reply.isFault, fault]
  | refused chunk finished => simp [finished]
  | again finished => simp [finished]

/-- **A session is finished by a request for its result or by a fault**, and by nothing else. -/
theorem callAll_finished_iff {s : Session} (h : s.Coherent) (calls : List Call) :
    (s.callAll calls).1.finished = true
      ↔ s.finished = true ∨ .result ∈ calls ∨ ∃ r ∈ (s.callAll calls).2, r.isFault = true := by
  induction calls generalizing s with
  | nil => simp [callAll]
  | cons c cs ih =>
    rw [callAll]
    dsimp only
    rw [ih (call_keeps h c).1, call_finished_iff h c]
    simp only [List.mem_cons, exists_eq_or_imp, eq_comm (a := Call.result)]
    -- both sides list the same four ways, the first call's before the others' or not
    grind

/-! ## Faults -/

/-- **At most one fault is reported**: the call that reports it finishes the session. -/
theorem callAll_faults {s : Session} (h : s.Coherent) (calls : List Call) :
    (s.callAll calls).2.countP Reply.isFault ≤ 1 := by
  induction calls generalizing s with
  | nil => simp [callAll]
  | cons c cs ih =>
    have hcoh := (call_keeps h c).1
    rw [callAll, List.countP_cons]
    by_cases hfault : (s.call c).2.isFault = true
    · have hfin := (call_finished_iff h c).mpr (Or.inr (Or.inr hfault))
      have hnone : ((s.call c).1.callAll cs).2.countP Reply.isFault = 0 := by
        rw [List.countP_eq_zero]
        intro r hr
        simp [(callAll_settled hcoh hfin cs).2 r hr]
      rw [if_pos hfault]
      omega
    · rw [if_neg hfault]
      exact ih hcoh

/-- A lenient session reports none. -/
theorem callAll_lenient {s : Session} (h : s.Coherent) (hm : s.options.mode = .lenient)
    (calls : List Call) : ∀ r ∈ (s.callAll calls).2, r.isFault = false := by
  induction calls generalizing s with
  | nil => simp [callAll]
  | cons c cs ih =>
    obtain ⟨hcoh, hopt⟩ := call_keeps h c
    have hout := call_outcome h c
    intro r hr
    rcases List.mem_cons.mp hr with hr | hr
    · subst hr
      generalize s.call c = step at hout ⊢
      cases hout with
      | failed isOpen strict fault options finished snapshot coherent =>
        exact absurd (hm.symm.trans strict) (by simp)
      | taken | refused | again => rfl
    · exact ih hcoh (by rw [hopt]; exact hm) r hr

/-- In lenient mode a push fails for one reason only. -/
theorem push_lenient_error_iff {s : Session} (h : s.Coherent) (hm : s.options.mode = .lenient)
    (chunk : List UInt8) : (∃ e, (s.push chunk).2 = .error e) ↔ s.finished = true := by
  have hout := outcome_push h chunk
  constructor
  · rintro ⟨e, he⟩
    generalize s.push chunk = step at hout he
    cases hout with
    | taken ps isOpen options finished shows => exact absurd he (by simp)
    | failed isOpen strict fault options finished snapshot coherent =>
      exact absurd (hm.symm.trans strict) (by simp)
    | refused _ finished => exact finished
  · intro hfin
    exact ⟨.finished, by rw [push_finished hfin]⟩

/-- In lenient mode the result can always be had. -/
theorem result_lenient {s : Session} (h : s.Coherent) (hm : s.options.mode = .lenient) :
    ∃ spec, s.result.2 = .ok spec := by
  have hout := outcome_result h
  rcases hr : s.result.2 with e | spec
  · rw [hr] at hout
    dsimp only [Except.map] at hout
    generalize s.result.1 = s' at hout
    cases hout with
    | failed isOpen strict fault options finished snapshot coherent =>
      exact absurd (hm.symm.trans strict) (by simp)
  · exact ⟨spec, rfl⟩

end Session

theorem Options.eq_of_lenient {o : Options} (h : o.mode = .lenient) : o = {} := by
  obtain ⟨mode⟩ := o
  dsimp only at h
  rw [h]

/-- Lenient compilation always succeeds. -/
theorem compile_lenient (text : String) : compile text {} = .ok (compileLenient text) := by
  have hok : ∃ spec, compile text {} = .ok spec := by
    rw [compile_outcome]
    dsimp only
    obtain ⟨ps, hps⟩ := Ledger.takeAll_lenient
      ((Session.startFrom (.obj []) {}).reader.allEntries (Text.Utf8.bytesOf text))
      (Session.startFrom (.obj []) {}).ledger
    have hmode : (Session.startFrom (.obj []) {}).options.mode = .lenient := rfl
    exact ⟨_, by rw [hmode, hps]; rfl⟩
  obtain ⟨spec, hspec⟩ := hok
  rw [compileLenient, hspec]

/--
**The life of a session.** Take a session as it is created, in either mode, and any calls in any
order.

* It is finished by a request for its result and by a fault, which is an error of a line or a
  patch.
* Once it is finished no calls change its document, its counts or its reader; every push is
  answered by `finished` and changes nothing at all, and every result is the view of the document.
* At most one fault is reported.
* In lenient mode none is: a push fails if and only if the result was asked for before it, the
  result never fails, and compiling a text yields what it builds and never the default.
-/
theorem life_cycle {s : Session} (h : s.Fresh) (calls : List Call) :
    let t := (s.callAll calls).1
    let replies := (s.callAll calls).2
    (t.finished = true ↔ .result ∈ calls ∨ ∃ r ∈ replies, r.isFault = true)
      ∧ (t.finished = true → ∀ more,
          let u := (t.callAll more).1
          u.finished = true ∧ u.document = t.document ∧ u.stats = t.stats ∧ u.reader = t.reader
            ∧ (∀ chunk, u.push chunk = (u, .error .finished))
            ∧ u.result.2 = .ok (Spec.ofDocument t.document))
      ∧ replies.countP Reply.isFault ≤ 1
      ∧ (s.options.mode = .lenient →
          (∀ r ∈ replies, r.isFault = false)
            ∧ (∀ chunk, (∃ e, (t.push chunk).2 = .error e) ↔ .result ∈ calls)
            ∧ (∃ spec, t.result.2 = .ok spec)
            ∧ ∀ text, compile text s.options = .ok (compileLenient text)) := by
  intro t replies
  have hcoh : s.Coherent := fun _ => Session.fresh_shows h
  obtain ⟨ht, hopt⟩ : t.Coherent ∧ t.options = s.options := Session.callAll_keeps hcoh calls
  have hfinished : t.finished = true ↔ .result ∈ calls ∨ ∃ r ∈ replies, r.isFault = true := by
    have := Session.callAll_finished_iff hcoh calls
    simpa [Session.fresh_unfinished h] using this
  refine ⟨hfinished, ?_, Session.callAll_faults hcoh calls, ?_⟩
  · intro hfin more u
    have hu : u.Coherent := (Session.callAll_keeps ht more).1
    obtain ⟨hsettled, _⟩ : Session.Settled t u ∧ _ := Session.callAll_settled ht hfin more
    refine ⟨hsettled.finished, hsettled.document, hsettled.stats, hsettled.reader, ?_, ?_⟩
    · exact Session.push_finished hsettled.finished
    · rw [← hsettled.document]
      exact Session.result_finished hu hsettled.finished
  · intro hm
    have hnone := Session.callAll_lenient hcoh hm calls
    have htm : t.options.mode = .lenient := by rw [hopt]; exact hm
    refine ⟨hnone, ?_, Session.result_lenient ht htm, ?_⟩
    · intro chunk
      rw [Session.push_lenient_error_iff ht htm chunk, hfinished]
      constructor
      · rintro (hmem | ⟨r, hr, hfault⟩)
        · exact hmem
        · exact absurd hfault (by simp [hnone r hr])
      · exact Or.inl
    · intro text
      rw [Options.eq_of_lenient hm]
      exact compile_lenient text

/-- A strict push fails at its second line, with a third unread and a fourth begun: nothing that
comes after it has an effect. A lenient session takes the same chunk, and no other after its
result. -/
theorem life_cycle_after_failure :
    let chunk := Text.Utf8.bytesOf ("\x7b\"op\":\"set\",\"path\":\"/a\",\"value\":0\x7d\nbad\n"
      ++ "\x7b\"op\":\"remove\",\"path\":\"\"\x7d\n\x7b")
    let s := Session.startFrom (.obj []) { mode := .strict }
    let t := (s.callAll [.push chunk]).1
    let lenient := Session.start {}
    s.Fresh ∧ lenient.Fresh
      ∧ t.finished = true
      ∧ (∀ more, (t.callAll more).1.document = .obj [("a", .num (.int 0))])
      ∧ (s.callAll [.push chunk, .result, .push chunk]).2.countP Reply.isFault ≤ 1
      ∧ (∀ r ∈ (lenient.callAll [.push chunk, .result]).2, r.isFault = false)
      ∧ ∃ e, ((lenient.callAll [.push chunk, .result]).1.push chunk).2 = .error e := by
  intro chunk s t lenient
  have hs : s.Fresh := Or.inr ⟨_, _, rfl⟩
  have hl : lenient.Fresh := Or.inl ⟨_, rfl⟩
  have hrun : t.finished = true ∧ t.document = .obj [("a", .num (.int 0))] := by decide +kernel
  obtain ⟨hfin, hdoc⟩ := hrun
  obtain ⟨_, hsettled, _, _⟩ := life_cycle hs [.push chunk]
  obtain ⟨_, _, hfaults, _⟩ := life_cycle hs [.push chunk, .result, .push chunk]
  obtain ⟨_, _, _, hlenient⟩ := life_cycle hl [.push chunk, .result]
  obtain ⟨hnone, hpush, _, _⟩ := hlenient rfl
  refine ⟨hs, hl, hfin, ?_, hfaults, hnone, (hpush chunk).mpr (by simp)⟩
  intro more
  obtain ⟨_, hsame, _⟩ := hsettled hfin more
  exact hsame.trans hdoc

end ViewStream
