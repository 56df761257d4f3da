import ViewStream.Proofs.Session.Calls

/-!
# The view that is handed out

Reading a document as a view is the costly part of a push, so a session reads it anew only when its
flag says that the document may have changed. The flag is set and cleared in different places, and
a call can end between them: a strict session that fails has applied some patches of the chunk and
has not read the view since.

`snapshot_coherent` says what a client may rely on. **Whatever a call returns is the view of the
document as it is then**, and the view that is kept is the one that went with the last call that
succeeded, also when failed calls have moved the document on.
-/

namespace ViewStream

open Json (Value)

namespace Session

/-- The document as the last of the calls that succeeded left it, or `seen` if none did. -/
def lastSeen : List Call → Session → Value → Value
  | [], _, seen => seen
  | c :: cs, s, seen =>
    match s.call c with
    | (s', .ok _) => lastSeen cs s' s'.document
    | (s', .error _) => lastSeen cs s' seen

/-- A call that succeeds returns the view of the document and keeps it; one that fails keeps the
view there was. -/
theorem call_snapshot {s : Session} (h : s.Coherent) (c : Call) :
    (∃ s' ps, s.call c = (s', .ok (Spec.ofDocument s'.document, ps)) ∧ s'.Shows)
      ∨ ∃ s' e, s.call c = (s', .error e) ∧ s'.snapshot = s.snapshot := by
  have hout := call_outcome h c
  generalize s.call c = step at hout ⊢
  cases hout with
  | taken ps isOpen options finished shows => exact Or.inl ⟨_, ps, rfl, shows⟩
  | failed isOpen strict fault options finished snapshot coherent =>
    exact Or.inr ⟨_, _, rfl, snapshot⟩
  | refused chunk finished => exact Or.inr ⟨s, _, rfl, rfl⟩
  | again finished => exact Or.inl ⟨_, [], rfl, rfl⟩

/-- The view that is kept, after any calls. -/
theorem callAll_snapshot {s : Session} {seen : Value} (h : s.Coherent)
    (hseen : s.snapshot = Spec.ofDocument seen) (calls : List Call) :
    (s.callAll calls).1.snapshot = Spec.ofDocument (s.lastSeen calls seen) := by
  induction calls generalizing s seen with
  | nil => exact hseen
  | cons c cs ih =>
    have hcoh := (call_keeps h c).1
    rw [callAll, lastSeen]
    rcases call_snapshot h c with ⟨s', ps, hcall, hshows⟩ | ⟨s', e, hcall, hsame⟩
    · rw [hcall] at hcoh ⊢
      exact ih hcoh hshows
    · rw [hcall] at hcoh ⊢
      exact ih hcoh (hsame.trans hseen)

end Session

/--
**The view is the view of the document.** Take a session as it is created, in either mode, and any
calls in any order. The view it keeps is that of the document as the last call that succeeded left
it, or as it was created; and if the next call succeeds, what it returns is the view of the
document at that moment.
-/
theorem snapshot_coherent {s : Session} (h : s.Fresh) (calls : List Call) :
    let t := (s.callAll calls).1
    t.snapshot = Spec.ofDocument (s.lastSeen calls s.document)
      ∧ ∀ c spec ps, (t.call c).2 = .ok (spec, ps) →
          spec = Spec.ofDocument (t.call c).1.document := by
  intro t
  have hshows := Session.fresh_shows h
  have hcoh : s.Coherent := fun _ => hshows
  refine ⟨Session.callAll_snapshot hcoh hshows calls, ?_⟩
  intro c spec ps hok
  have ht : t.Coherent := (Session.callAll_keeps hcoh calls).1
  rcases Session.call_snapshot ht c with ⟨t', qs, hcall, _⟩ | ⟨t', e, hcall, _⟩
  · rw [hcall] at hok ⊢
    exact (congrArg Prod.fst (Except.ok.inj hok)).symm
  · rw [hcall] at hok
    exact absurd hok (by simp)

/-- A strict push fails at its second line, when its first has changed the document. The view stays
behind until the result is asked for. -/
theorem snapshot_coherent_after_failure :
    let s := Session.startFrom (.obj [("root", .str "a")]) { mode := .strict }
    let push := Call.push (Text.Utf8.bytesOf
      "\x7b\"op\":\"set\",\"path\":\"/root\",\"value\":\"b\"\x7d\nbad\n")
    let t := (s.callAll [push]).1
    s.Fresh
      ∧ t.document = .obj [("root", .str "b")]
      ∧ t.snapshot = { root := "a" }
      ∧ (t.call .result).2 = .ok ({ root := "b" }, [])
      ∧ { root := "b" } = Spec.ofDocument (t.call .result).1.document := by
  intro s push t
  have hfresh : s.Fresh := Or.inr ⟨_, _, rfl⟩
  have hrun : t.document = .obj [("root", .str "b")]
      ∧ s.lastSeen [push] s.document = .obj [("root", .str "a")]
      ∧ (t.call .result).2 = .ok ({ root := "b" }, []) := by decide +kernel
  obtain ⟨hdoc, hseen, hreply⟩ := hrun
  obtain ⟨hview, hlast⟩ := snapshot_coherent hfresh [push]
  rw [hseen] at hview
  exact ⟨hfresh, hdoc, hview, hreply, hlast .result _ _ hreply⟩

end ViewStream
