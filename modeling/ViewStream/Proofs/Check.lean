import ViewStream.Check
import ViewStream.Proofs.Patch.Numbering
import ViewStream.Proofs.Session.Streaming

/-!
# A check and a strict compilation agree

A check drives the reader by itself, takes the whole text at once with its last line, and goes on
after each failure; a strict compilation is a session that stops at the first. Still the two say
the same of every text, because **both let the same entries act on the same document**: an entry
that cannot be used leaves the document as it was, so what the check does after it is what it would
have done without it.

`Check.apply_cases` is the one place where the loop of the check is opened. The rest is two
inductions over the entries: up to the first failure beside `Ledger.takeAll`, and to the end beside
the patches of which nothing was reported. The second needs that line numbers tell entries apart,
and for that the entries are read off the lines once more (`Check.entries_eq`).
-/

namespace ViewStream

open Json (Value)

namespace Problem

/-- The error that a compilation would have stopped with. -/
def error? : Problem → Option CompileError
  | .line e => some (.line e)
  | .apply _ e => some (.apply e)
  | .issue _ => none

/-- The line that a problem is about. -/
def line? : Problem → Option Nat
  | .line e => some e.line
  | .apply n _ => some n
  | .issue _ => none

/-- The issue of the view that a problem reports. -/
def issue? : Problem → Option Issue
  | .issue i => some i
  | _ => none

end Problem

/-! ## Entries and their lines -/

namespace Check

/-- The lines of a text, with the one that lacks its line break. -/
def lines (text : String) : List String :=
  let (complete, buffer) := LineBuffer.push {} (Text.Utf8.bytesOf text)
  complete ++ buffer.flush.1.toList

/-- The entries of a text are those of its lines, counted from 1. -/
theorem entries_eq (text : String) : entries text = PatchReader.entriesFrom 1 (lines text) := by
  have hrun := PatchReader.run_feed {} [.chunk (Text.Utf8.bytesOf text), .flush]
  simpa [Feed.run, PatchReader.feed, LineBuffer.feed, entries, lines] using congrArg Prod.fst hrun

/-- A check reads the same entries as a session. -/
theorem entries_map_snd (text : String) :
    (entries text).map Prod.snd = PatchReader.allEntries {} (Text.Utf8.bytesOf text) := by
  rw [entries, PatchReader.allEntries, List.map_append]
  rfl

/-! ## One entry -/

/-- **All that a check does with one entry**: it goes on with the document that the patch makes, or
it reports the error and goes on with the document as it is. -/
theorem apply_cases {n : Nat} {e : Entry} (hline : ∀ d, e = .error d → d.line = n)
    (rest : List (Nat × Entry)) (v : Value) :
    (∃ p v', e = .ok p ∧ p.apply .strict v = (v', none)
        ∧ Entry.apply .strict v e = .ok (p, v') ∧ apply ((n, e) :: rest) v = apply rest v')
      ∨ ∃ err problem, Entry.apply .strict v e = .error err ∧ problem.error? = some err
          ∧ problem.line? = some n
          ∧ apply ((n, e) :: rest) v = (problem :: (apply rest v).1, (apply rest v).2) := by
  cases e with
  | error d =>
    have hn : d.line = n := hline d rfl
    exact Or.inr ⟨.line d, .line d, rfl, rfl, by rw [Problem.line?, hn], rfl⟩
  | ok p =>
    have hstopped : ∀ stop, p.apply .strict v = (v, some stop) →
        Entry.apply .strict v (.ok p) = .error (.apply stop)
          ∧ apply ((n, .ok p) :: rest) v
            = (.apply n stop :: (apply rest v).1, (apply rest v).2) := by
      intro stop ha
      rw [Entry.apply, apply, ha]
      exact ⟨rfl, rfl⟩
    rcases Patch.apply_cases .strict p v with ⟨v', _, ha⟩ | ⟨o, _, ha⟩ | ⟨_, ha⟩
    · refine Or.inl ⟨p, v', rfl, ha, ?_, ?_⟩
      · rw [Entry.apply, ha]
      · rw [apply, ha]
    · obtain ⟨herr, happly⟩ := hstopped _ ha
      exact Or.inr ⟨_, .apply n _, herr, rfl, rfl, happly⟩
    · obtain ⟨herr, happly⟩ := hstopped _ ha
      exact Or.inr ⟨_, .apply n _, herr, rfl, rfl, happly⟩

/-! ## Up to the first failure -/

/-- What a check finds among entries, beside a strict ledger that takes them. -/
theorem apply_takeAll {first : Nat} {es : List (Nat × Entry)}
    (hnum : PatchReader.Numbered first es) (l : Ledger) :
    (∃ l' ps, l.takeAll .strict (es.map Prod.snd) = (l', .ok ps)
        ∧ apply es l.document = ([], l'.document))
      ∨ ∃ l' err problem problems, l.takeAll .strict (es.map Prod.snd) = (l', .error err)
          ∧ (apply es l.document).1 = problem :: problems ∧ problem.error? = some err := by
  induction es generalizing l with
  | nil => exact Or.inl ⟨l, [], rfl, rfl⟩
  | cons e es ih =>
    obtain ⟨n, e⟩ := e
    rw [List.map_cons, Ledger.takeAll]
    rcases apply_cases hnum.head_line es l.document with
      ⟨p, v, _, _, happ, hcheck⟩ | ⟨err, problem, happ, herr, _, hcheck⟩
    · rw [happ, hcheck]
      dsimp only
      rcases ih hnum.tail ⟨v, l.applied + 1, l.dropped⟩ with
        ⟨l', ps, htake, hrest⟩ | ⟨l', err, problem, problems, htake, hrest, herr⟩
      · rw [htake]
        exact Or.inl ⟨l', p :: ps, rfl, hrest⟩
      · rw [htake]
        exact Or.inr ⟨l', err, problem, problems, rfl, hrest, herr⟩
    · rw [happ, hcheck]
      exact Or.inr ⟨l, err, problem, _, rfl, rfl, herr⟩

/-! ## To the end -/

/-- Whether a problem is about line `n`. -/
def reported (problems : List Problem) (n : Nat) : Bool :=
  problems.any fun p => p.line? == some n

/-- The patches of the entries on whose lines there is no problem. -/
def unreported (problems : List Problem) (es : List (Nat × Entry)) : List Patch :=
  es.filterMap fun e => if reported problems e.1 then none else e.2.toOption

/-- The patches of a text on whose lines the check reports nothing. -/
def passed (text : String) : List Patch := unreported (check text) (entries text)

/-- Every problem of entries is about the line of one of them. -/
theorem line?_of_mem {first : Nat} {es : List (Nat × Entry)} (hnum : PatchReader.Numbered first es)
    {v : Value} {p : Problem} (hp : p ∈ (apply es v).1) : ∃ e ∈ es, p.line? = some e.1 := by
  induction es generalizing v with
  | nil => exact absurd hp (by simp [apply])
  | cons e es ih =>
    obtain ⟨n, e⟩ := e
    have hlater : ∀ {v}, p ∈ (apply es v).1 → ∃ e' ∈ (n, e) :: es, p.line? = some e'.1 := by
      intro v hp
      obtain ⟨e', he', hline⟩ := ih hnum.tail hp
      exact ⟨e', List.mem_cons_of_mem _ he', hline⟩
    rcases apply_cases hnum.head_line es v with
      ⟨q, v', _, _, _, hcheck⟩ | ⟨err, problem, _, _, hline, hcheck⟩
    · rw [hcheck] at hp
      exact hlater hp
    · rw [hcheck] at hp
      rcases List.mem_cons.mp hp with rfl | hp
      · exact ⟨(n, e), List.mem_cons_self, hline⟩
      · exact hlater hp

theorem not_reported {first : Nat} {es : List (Nat × Entry)} (hnum : PatchReader.Numbered first es)
    {n : Nat} (hn : ∀ e ∈ es, e.1 ≠ n) (v : Value) : reported (apply es v).1 n = false := by
  rw [reported, List.any_eq_false]
  intro p hp
  obtain ⟨e, he, hline⟩ := line?_of_mem hnum hp
  rw [hline]
  simpa using hn e he

/--
**The document of a check is made by the patches it does not report**, all of which apply.

`problems` stands for the whole list of which the problems of these entries are a part; what it
says of their lines is what they say themselves.
-/
theorem applyAll_unreported {first : Nat} {es : List (Nat × Entry)} {problems : List Problem}
    (hnum : PatchReader.Numbered first es) (v : Value)
    (hsame : ∀ e ∈ es, reported problems e.1 = reported (apply es v).1 e.1) :
    Patch.applyAll .strict (unreported problems es) v = ((apply es v).2, none) := by
  induction es generalizing v with
  | nil => rfl
  | cons e es ih =>
    obtain ⟨n, e⟩ := e
    have hlater : ∀ e' ∈ es, e'.1 ≠ n := by
      intro e' he'
      have := (List.pairwise_cons.mp hnum.ascending).1 e' he'
      exact Nat.ne_of_gt this
    have hhead := hsame (n, e) List.mem_cons_self
    have htail := fun e' he' => hsame e' (List.mem_cons_of_mem _ he')
    dsimp only at hhead
    rw [unreported, List.filterMap_cons]
    rcases apply_cases hnum.head_line es v with
      ⟨p, v', he, ha, _, hcheck⟩ | ⟨err, problem, _, _, hline, hcheck⟩
    · -- the problems are those of later lines, so this patch is among the unreported
      rw [hcheck] at hhead htail ⊢
      rw [not_reported hnum.tail hlater v'] at hhead
      rw [hhead, he]
      dsimp only [Except.toOption]
      rw [if_neg (by simp), Patch.applyAll, ha]
      exact ih hnum.tail v' htail
    · -- this line is reported, and by a problem that is about no later line
      rw [hcheck] at hhead htail ⊢
      have hthis : reported problems n = true := by
        rw [hhead, reported, List.any_cons, hline]
        simp
      rw [if_pos hthis]
      refine ih hnum.tail v ?_
      intro e' he'
      rw [htail e' he', reported, List.any_cons, hline, reported]
      have := (hlater e' he').symm
      simp [this]

end Check

/-! ## Whole texts -/

theorem check_eq (text : String) :
    check text = (Check.apply (Check.entries text) (.obj [])).1
      ++ (Spec.ofDocument (Check.apply (Check.entries text) (.obj [])).2).issues.map .issue := rfl

theorem Check.entries_numbered (text : String) : PatchReader.Numbered 1 (entries text) := by
  rw [entries_eq]
  exact PatchReader.entriesFrom_numbered 1 (lines text)

/-- The issues of the view are all the issues a check reports, and they are about no line. -/
theorem check_issues (text : String) :
    (check text).filterMap Problem.issue?
      = (Spec.ofDocument (Check.apply (Check.entries text) (.obj [])).2).issues := by
  have hfront : (Check.apply (Check.entries text) (.obj [])).1.filterMap Problem.issue? = [] := by
    rw [List.filterMap_eq_nil_iff]
    intro p hp
    obtain ⟨e, _, hline⟩ := Check.line?_of_mem (Check.entries_numbered text) hp
    cases p with
    | issue i => exact absurd hline (by simp [Problem.line?])
    | line _ | apply _ _ => rfl
  rw [check_eq, List.filterMap_append, hfront, List.nil_append, List.filterMap_map]
  exact List.filterMap_some

theorem reported_check (text : String) (n : Nat) :
    Check.reported (check text) n
      = Check.reported (Check.apply (Check.entries text) (.obj [])).1 n := by
  rw [check_eq, Check.reported, List.any_append, List.any_map]
  have hissues : ∀ issues : List Issue,
      issues.any ((fun p : Problem => p.line? == some n) ∘ .issue) = false := by
    intro issues
    rw [List.any_eq_false]
    intro i _
    simp [Problem.line?]
  rw [hissues, Bool.or_false, Check.reported]

/-- A check of a text that compiles strictly, and of one that does not. -/
theorem check_cases (text : String) :
    (∃ spec, compile text { mode := .strict } = .ok spec
        ∧ check text = spec.issues.map .issue)
      ∨ ∃ e p, compile text { mode := .strict } = .error e
          ∧ (check text).head? = some p ∧ p.error? = some e := by
  have hcompile := compile_outcome text { mode := .strict }
  dsimp only [Session.startFrom] at hcompile
  rw [← Check.entries_map_snd] at hcompile
  rw [check_eq]
  rcases Check.apply_takeAll (Check.entries_numbered text) ⟨.obj [], 0, 0⟩ with
    ⟨l', ps, htake, hcheck⟩ | ⟨l', e, p, ps, htake, hcheck, herr⟩
  · refine Or.inl ⟨Spec.ofDocument l'.document, ?_, ?_⟩
    · rw [hcompile, Session.ledger, htake]
      rfl
    · rw [hcheck]
      rfl
  · refine Or.inr ⟨e, p, ?_, ?_, herr⟩
    · rw [hcompile, Session.ledger, htake]
      rfl
    · rw [hcheck]
      rfl

/--
**A check agrees with strict compilation**, on every text.

* It reports no error of a line or a patch if and only if the text compiles strictly.
* If it does compile, the check reports the issues of the view, in order, and nothing else.
* If it does not, the first problem is the error that stopped the compilation.
* In either case the issues are those of the document that the unreported patches make, applied
  strictly and in order, all of which apply.
-/
theorem check_agrees_with_compile (text : String) :
    let strict := compile text { mode := .strict }
    ((∀ p ∈ check text, p.error? = none) ↔ ∃ spec, strict = .ok spec)
      ∧ (∀ spec, strict = .ok spec → check text = spec.issues.map .issue)
      ∧ (∀ e, strict = .error e → (check text).head?.bind Problem.error? = some e)
      ∧ ∃ v, Patch.applyAll .strict (Check.passed text) (.obj []) = (v, none)
          ∧ (check text).filterMap Problem.issue? = (Spec.ofDocument v).issues := by
  intro strict
  have hmade := Check.applyAll_unreported (Check.entries_numbered text) (.obj [])
    (fun e _ => reported_check text e.1)
  refine ⟨?_, ?_, ?_, ⟨_, hmade, check_issues text⟩⟩
  all_goals rcases check_cases text with ⟨spec, hok, hcheck⟩ | ⟨e, p, herr, hhead, hp⟩
  · -- the issues of a view are no errors
    refine ⟨fun _ => ⟨spec, hok⟩, ?_⟩
    intro _ p hp
    rw [hcheck] at hp
    obtain ⟨i, _, rfl⟩ := List.mem_map.mp hp
    rfl
  · constructor
    · intro hnone
      have := hnone p (List.mem_of_head? hhead)
      rw [hp] at this
      exact absurd this (by simp)
    · rintro ⟨spec, hok⟩
      exact absurd (herr.symm.trans hok) (by simp)
  · intro spec' hok'
    rw [Except.ok.inj (hok'.symm.trans hok)]
    exact hcheck
  · intro spec hok
    exact absurd (herr.symm.trans hok) (by simp)
  · intro e herr
    exact absurd (hok.symm.trans herr) (by simp)
  · intro e' herr'
    rw [hhead, Except.error.inj (herr'.symm.trans herr)]
    exact hp

/-- A patch fails on the third line, the fourth is no patch, and the last lacks its line break; the
patches of the first and the last line make the document. -/
theorem check_agrees_past_failures :
    let text := "\x7b\"op\":\"set\",\"path\":\"/root\",\"value\":\"a\"\x7d\r\n \n"
      ++ "\x7b\"op\":\"remove\",\"path\":\"/b\"\x7d\nbad\n"
      ++ "\x7b\"op\":\"add\",\"path\":\"/c\",\"value\":null\x7d"
    let e := CompileError.apply (.blocked .remove "/b" .missingTarget)
    compile text { mode := .strict } = .error e
      ∧ (check text).head?.bind Problem.error? = some e
      ∧ Patch.applyAll .strict (Check.passed text) (.obj [])
          = (.obj [("c", .null), ("root", .str "a")], none)
      ∧ (check text).filterMap Problem.issue? = [.danglingRoot "a"] := by
  intro text e
  have hrun : compile text { mode := .strict } = .error e
      ∧ Patch.applyAll .strict (Check.passed text) (.obj [])
          = (.obj [("c", .null), ("root", .str "a")], none) := by decide +kernel
  obtain ⟨hstrict, hpassed⟩ := hrun
  obtain ⟨_, _, hfirst, v, hv, hissues⟩ := check_agrees_with_compile text
  rw [hpassed] at hv
  rw [← (Prod.mk.inj hv).1] at hissues
  exact ⟨hstrict, hfirst e hstrict, hpassed, hissues⟩

end ViewStream
