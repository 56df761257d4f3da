import ViewStream.Proofs.Session.Run

/-!
# A stream may be cut anywhere

Chunks come as the network delivers them: a cut may fall inside a character, between a carriage
return and its line break, inside a line or after it. `cutting_irrelevant` says that none of this
can be seen afterwards.

The work was done in `Session/Run`, where the outcome of a run is read off the chunks put together.
What is left is to say it of two runs, and of `compile`, which takes a whole text at once and skips
reading the view in between.
-/

namespace ViewStream

open Json (Value)

/-- To start over an empty document is to start. -/
theorem Session.start_eq (options : Options) : start options = startFrom (.obj []) options := rfl

/-- **Compiling a text** does what a run over its bytes does: all entries act on the ledger of an
empty document. -/
theorem compile_outcome (text : String) (options : Options) :
    compile text options
      = let s := Session.startFrom (.obj []) options
        let w := s.ledger.takeAll s.options.mode (s.reader.allEntries (Text.Utf8.bytesOf text))
        w.2.map fun _ => Spec.ofDocument w.1.document := by
  rw [compile, Session.start_eq]
  have hs := Session.ready_startFrom (.obj []) options
  rcases Session.ingest_cases hs.toOpen (Text.Utf8.bytesOf text) with
    ⟨s', ps, hin, hfed⟩ | ⟨s', e, hin, hstop⟩
  · obtain ⟨_, hresult⟩ := Prod.mk.inj hfed.result
    rw [hin]
    exact hresult
  · dsimp only
    rw [hin, hstop.result]
    rfl

namespace Session

/-- In lenient mode nothing stops the pushes of a run. -/
theorem pushAll_lenient {s : Session} (h : s.Ready) (hm : s.options.mode = .lenient)
    (chunks : List (List UInt8)) :
    ∃ s' outs, s.pushAll chunks = (s', .ok outs) ∧ s'.Ready
      ∧ Fed s chunks.flatten (outs.flatMap Prod.snd) s' := by
  rcases pushAll_cases h chunks with hok | ⟨s', e, _, hstop⟩
  · exact hok
  · obtain ⟨ps, hps⟩ := Ledger.takeAll_lenient (s.reader.entries chunks.flatten) s.ledger
    rw [Stopped, hm] at hstop
    rw [hstop] at hps
    exact absurd hps (by simp)

/-- **Sessions fed the same bytes are the same session**, and have applied the same patches. -/
theorem Fed.unique {s t u : Session} {bytes : List UInt8} {ps qs : List Patch}
    (h₁ : Fed s bytes ps t) (h₂ : Fed s bytes qs u) (ht : t.Ready) (hu : u.Ready) :
    t = u ∧ ps = qs := by
  obtain ⟨hl, hps⟩ := Prod.mk.inj (h₁.ledger.symm.trans h₂.ledger)
  have hreader : t.reader = u.reader := h₁.reader.trans h₂.reader.symm
  have hoptions : t.options = u.options := h₁.options.trans h₂.options.symm
  exact ⟨Ready.ext ht hu hl hreader hoptions, Except.ok.inj hps⟩

/-- A lenient session that was fed finishes with a view. -/
theorem Fed.result_lenient {s s' : Session} {bytes : List UInt8} {ps : List Patch}
    (h : Fed s bytes ps s') (hm : s.options.mode = .lenient) :
    s'.result.2 = .ok (Spec.ofDocument
      (s.ledger.takeAll .lenient (s.reader.allEntries bytes)).1.document) := by
  obtain ⟨qs, hqs⟩ := Ledger.takeAll_lenient (s.reader.allEntries bytes) s.ledger
  have hresult := congrArg Prod.snd h.result
  rw [hm] at hresult
  dsimp only at hresult
  rw [hresult, hqs]
  rfl

end Session

/--
**How a stream is cut into chunks makes no difference.** Let `xs` and `ys` be two ways of cutting
the same bytes, be they UTF-8 or not, and let `d` be any initial document.

A lenient session takes all chunks of both. It has reported the same patches, and it ends up as the
same session, with the same document and the same counts, so that finishing it gives the same view;
over an empty document and for the bytes of a text that is the view the text compiles to.

A strict run, which stops at the first error and otherwise finishes, comes out the same: with the
same view or the same error and its line number, the same document and the same counts of patches
applied and dropped.
-/
theorem cutting_irrelevant (d : Value) {xs ys : List (List UInt8)} (h : xs.flatten = ys.flatten) :
    let s := Session.startFrom d { mode := .lenient }
    let t := Session.startFrom d { mode := .strict }
    (∃ outX outY spec,
      (s.pushAll xs).2 = .ok outX ∧ (s.pushAll ys).2 = .ok outY
        ∧ outX.flatMap Prod.snd = outY.flatMap Prod.snd
        ∧ (s.pushAll xs).1 = (s.pushAll ys).1
        ∧ (s.pushAll xs).1.result.2 = .ok spec ∧ (s.pushAll ys).1.result.2 = .ok spec
        ∧ ∀ text, d = .obj [] → xs.flatten = Text.Utf8.bytesOf text → compileLenient text = spec)
      ∧ (t.generate xs).2 = (t.generate ys).2
      ∧ (t.generate xs).1.document = (t.generate ys).1.document
      ∧ (t.generate xs).1.stats.applied = (t.generate ys).1.stats.applied
      ∧ (t.generate xs).1.stats.dropped = (t.generate ys).1.stats.dropped := by
  intro s t
  have hs : s.Ready := Session.ready_startFrom d { mode := .lenient }
  have ht : t.Ready := Session.ready_startFrom d { mode := .strict }
  refine ⟨?_, ?_⟩
  · obtain ⟨sx, outX, hx, hrx, hfx⟩ := Session.pushAll_lenient hs rfl xs
    obtain ⟨sy, outY, hy, hry, hfy⟩ := Session.pushAll_lenient hs rfl ys
    obtain ⟨hsame, hpatches⟩ := Session.Fed.unique hfx (h ▸ hfy) hrx hry
    have hspec := hfx.result_lenient rfl
    rw [hx, hy, ← hsame]
    refine ⟨outX, outY, _, rfl, rfl, hpatches, rfl, hspec, hspec, ?_⟩
    intro text hd hbytes
    subst hd
    rw [hbytes] at hfx
    rw [compileLenient, compile_outcome, ← (Prod.mk.inj hfx.result).2, hspec]
  · have hout := Session.generate_outcome ht xs
    rw [h, ← Session.generate_outcome ht ys] at hout
    obtain ⟨hledger, hresult⟩ := Prod.mk.inj hout
    exact ⟨hresult, congrArg Ledger.document hledger, congrArg Ledger.applied hledger,
      congrArg Ledger.dropped hledger⟩

/-- One cut falls inside a character, one between a carriage return and its line break. The second
line is no patch, and is reported as the second line. -/
theorem cutting_irrelevant_inside_character :
    let bytes := Text.Utf8.bytesOf
      "\x7b\"op\":\"set\",\"path\":\"/é\",\"value\":1\x7d\r\nbad\r\n"
    let chunks := [bytes.take 22, (bytes.drop 22).take 14, bytes.drop 36]
    chunks.flatten = [bytes].flatten
      ∧ ((Session.startFrom (.obj []) { mode := .lenient }).pushAll chunks).1
          = ((Session.startFrom (.obj []) { mode := .lenient }).pushAll [bytes]).1
      ∧ ((Session.startFrom (.obj []) { mode := .strict }).generate chunks).2
          = .error (.line ⟨2, .invalidJson "bad"⟩) := by
  intro bytes chunks
  have hbytes : chunks.flatten = [bytes].flatten := by decide +kernel
  have hwhole : ((Session.startFrom (.obj []) { mode := .strict }).generate [bytes]).2
      = .error (.line ⟨2, .invalidJson "bad"⟩) := by decide +kernel
  obtain ⟨⟨_, _, _, _, _, _, hsame, _⟩, hout, _⟩ := cutting_irrelevant (.obj []) hbytes
  exact ⟨hbytes, hsame, hout.trans hwhole⟩

end ViewStream
