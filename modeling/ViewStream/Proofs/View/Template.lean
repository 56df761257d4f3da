import ViewStream.View.Resolve

/-!
# Templates are expanded in one pass

A template is text that may hold what looks like a placeholder where none is meant, and what is put
in for a placeholder may look like one as well. That neither leads astray is a matter of how the
template is split, which comes before any state is looked at.

What a splitting has to be can be said without the splitter (`Template.IsSplit`): no text before a
placeholder holds an opening, no pointer a closing brace, and what is left over no opening that is
closed later. **There is exactly one such splitting of any text** (`isSplit_iff`), and the splitter
finds it: each part can only end where it does.
-/

namespace ViewStream

open Json (Value)

namespace Template

/-- What opens a placeholder. -/
def opening : List Char := ['$', '\x7b']

/-- What closes a placeholder. -/
def closing : Char := '\x7d'

/-- Parts put together again. -/
def joined (parts : Parts) : List Char :=
  (parts.1.flatMap fun p => p.1 ++ opening ++ p.2 ++ [closing]) ++ parts.2

/-- A splitting of a text into placeholders, the text before each, and the rest. -/
structure IsSplit (cs : List Char) (parts : Parts) : Prop where
  /-- Nothing is lost and nothing is added. -/
  whole : joined parts = cs
  /-- The first opening begins the placeholder. -/
  text : ∀ p ∈ parts.1, ¬ opening <:+: p.1
  /-- The first closing brace ends it. -/
  pointer : ∀ p ∈ parts.1, closing ∉ p.2
  /-- No placeholder is left in the rest. -/
  rest : ∀ before after, parts.2 = before ++ opening ++ after → closing ∉ after

variable {cs : List Char}

/-- The text of a value in a template: nothing where there is none or it is null, a string as it
is, and JSON for anything else. -/
def shownText : Option Value → List Char
  | none => []
  | some .null => []
  | some (.str s) => s.toList
  | some v => v.compact.toList

theorem fill_eq (state : Value) (pointer : List Char) :
    fill state pointer
      = shownText (Pointer.read? (String.ofList (Text.trim pointer)) state) := by
  rw [fill]
  cases Pointer.read? (String.ofList (Text.trim pointer)) state with
  | none => rfl
  | some v =>
    cases v with
    | null | str _ => rfl
    | bool _ | num _ | arr _ | obj _ => exact String.toList_ofList.symm

/-! ## Steps of the splitter -/

/-- A character that begins no opening is text. -/
theorem splitFrom_other {c : Char} (h : ¬ opening <+: c :: cs) :
    splitFrom none (c :: cs) = consText c (splitFrom none cs) := by
  have hnot : ∀ rest, c = '$' → cs = '\x7b' :: rest → False := by
    intro rest hc hcs
    exact h ⟨rest, by rw [hc, hcs]; rfl⟩
  rw [splitFrom]
  exact hnot

theorem splitFrom_opening : splitFrom none (opening ++ cs) = splitFrom (some []) cs := by
  rw [opening, List.cons_append, List.cons_append, splitFrom]
  rfl

/-- **A pointer goes up to the first closing brace.** -/
theorem splitFrom_pointer {pointer : List Char} (h : closing ∉ pointer) (seen : List Char) :
    splitFrom (some seen) (pointer ++ closing :: cs)
      = (([], seen.reverse ++ pointer) :: (splitFrom none cs).1, (splitFrom none cs).2) := by
  induction pointer generalizing seen with
  | nil =>
    rw [List.nil_append, List.append_nil, closing, splitFrom]
  | cons c pointer ih =>
    obtain ⟨hc, hrest⟩ := not_or.mp (mt List.mem_cons.mpr h)
    rw [List.cons_append, splitFrom, ih hrest, List.reverse_cons, List.append_assoc]
    · rfl
    · exact fun heq => hc heq.symm

theorem splitFrom_unclosed (h : closing ∉ cs) (seen : List Char) :
    splitFrom (some seen) cs = ([], opening ++ seen.reverse ++ cs) := by
  induction cs generalizing seen with
  | nil =>
    rw [splitFrom, List.append_nil]
    rfl
  | cons c cs ih =>
    obtain ⟨hc, hrest⟩ := not_or.mp (mt List.mem_cons.mpr h)
    rw [splitFrom, ih hrest, List.reverse_cons, List.append_assoc, List.append_assoc,
      List.append_assoc]
    · rfl
    · exact fun heq => hc heq.symm

/-- **Text before an opening goes up to it**, if it holds none itself. -/
theorem splitFrom_text {before : List Char} (h : ¬ opening <:+: before) :
    splitFrom none (before ++ opening ++ cs) = before.foldr consText (splitFrom (some []) cs) := by
  induction before with
  | nil => exact splitFrom_opening
  | cons c before ih =>
    obtain ⟨hfront, hrest⟩ := not_or.mp (mt List.infix_cons_iff.mpr h)
    -- the opening that follows cannot be begun by the text before it
    have hother : ¬ opening <+: c :: (before ++ opening ++ cs) := by
      rintro ⟨more, hmore⟩
      obtain ⟨hc, hnext⟩ := List.cons.inj hmore
      cases before with
      | nil => exact absurd (List.cons.inj hnext).1 (by decide)
      | cons d before =>
        have hd : '\x7b' = d := (List.cons.inj hnext).1
        exact hfront ⟨before, by rw [← hc, ← hd]; rfl⟩
    rw [List.cons_append, List.cons_append, splitFrom_other hother, ih hrest, List.foldr_cons]

theorem foldr_consText (before pointer : List Char) (parts : List (List Char × List Char))
    (rest : List Char) :
    before.foldr consText (([], pointer) :: parts, rest) = ((before, pointer) :: parts, rest) := by
  induction before with
  | nil => rfl
  | cons c before ih => rw [List.foldr_cons, ih, consText]

/-- **A text with no placeholder is left over whole.** -/
theorem splitFrom_rest (h : ∀ before after, cs = before ++ opening ++ after → closing ∉ after) :
    splitFrom none cs = ([], cs) := by
  induction cs with
  | nil => rfl
  | cons c cs ih =>
    by_cases hopen : opening <+: c :: cs
    · obtain ⟨after, hafter⟩ := hopen
      have hunclosed : closing ∉ after := h [] after hafter.symm
      rw [← hafter, splitFrom_opening, splitFrom_unclosed hunclosed]
      rfl
    · rw [splitFrom_other hopen, ih fun before after heq =>
        h (c :: before) after (by rw [heq]; rfl)]
      rfl

/-! ## One splitting -/

/-- **Whatever splits the text is what the splitter finds.** By induction on the placeholders. -/
theorem IsSplit.split_eq {parts : Parts} (h : IsSplit cs parts) : split cs = parts := by
  obtain ⟨placeholders, rest⟩ := parts
  induction placeholders generalizing cs with
  | nil =>
    rw [← h.whole]
    exact splitFrom_rest h.rest
  | cons p placeholders ih =>
    obtain ⟨htext, htexts⟩ := List.forall_mem_cons.mp h.text
    obtain ⟨hpointer, hpointers⟩ := List.forall_mem_cons.mp h.pointer
    have htail : split (joined (placeholders, rest)) = (placeholders, rest) :=
      ih ⟨rfl, htexts, hpointers, h.rest⟩
    have hwhole : cs = p.1 ++ opening ++ (p.2 ++ closing :: joined (placeholders, rest)) := by
      rw [← h.whole, joined, joined]
      simp
    rw [split] at htail ⊢
    rw [hwhole, splitFrom_text htext, splitFrom_pointer hpointer, htail]
    exact foldr_consText p.1 p.2 placeholders rest

theorem not_infix_nil : ¬ opening <:+: [] := by decide

theorem IsSplit.unclosed (h : closing ∉ cs) : IsSplit (opening ++ cs) ([], opening ++ cs) where
  whole := rfl
  text := by simp
  pointer := by simp
  rest := by
    intro before after heq hafter
    have hwhole : opening ++ cs = before ++ opening ++ after := heq
    have hmem : closing ∈ opening ++ cs := by
      rw [hwhole]
      exact List.mem_append_right _ hafter
    rcases List.mem_append.mp hmem with hopening | hcs
    · exact absurd hopening (by decide)
    · exact h hcs

theorem IsSplit.placeholder {parts : Parts} (h : IsSplit cs parts) {pointer : List Char}
    (hpointer : closing ∉ pointer) :
    IsSplit (opening ++ pointer ++ closing :: cs) (([], pointer) :: parts.1, parts.2) where
  whole := by
    rw [← h.whole, joined, joined]
    simp
  text := List.forall_mem_cons.mpr ⟨not_infix_nil, h.text⟩
  pointer := List.forall_mem_cons.mpr ⟨hpointer, h.pointer⟩
  rest := h.rest

/-- A character in front that begins no opening is in front of what is split. -/
theorem IsSplit.consText {c : Char} {parts : Parts} (h : IsSplit cs parts)
    (hc : ¬ opening <+: c :: cs) : IsSplit (c :: cs) (consText c parts) := by
  obtain ⟨_ | ⟨⟨before, pointer⟩, placeholders⟩, rest⟩ := parts
  · have hrest : rest = cs := h.whole
    exact {
      whole := congrArg (c :: ·) hrest
      text := by simp [Template.consText]
      pointer := by simp [Template.consText]
      rest := by
        intro before after heq
        cases before with
        | nil => exact absurd ⟨after, (hrest ▸ heq).symm⟩ hc
        | cons b before => exact h.rest before after (List.cons.inj heq).2 }
  · obtain ⟨htext, htexts⟩ := List.forall_mem_cons.mp h.text
    obtain ⟨hpointer, hpointers⟩ := List.forall_mem_cons.mp h.pointer
    have hfirst : ¬ opening <:+: c :: before := by
      intro hinfix
      rcases List.infix_cons_iff.mp hinfix with hfront | hinfix
      · -- the text before the first placeholder begins what is split
        have hbegins : c :: before <+: c :: cs := by
          rw [← h.whole, joined, List.flatMap_cons]
          simp
        exact hc (hfront.trans hbegins)
      · exact htext hinfix
    exact {
      whole := congrArg (c :: ·) h.whole
      text := List.forall_mem_cons.mpr ⟨hfirst, htexts⟩
      pointer := List.forall_mem_cons.mpr ⟨hpointer, hpointers⟩
      rest := h.rest }

/-- What has been read of a placeholder that is not closed yet. -/
def held : Option (List Char) → List Char
  | none => []
  | some seen => opening ++ seen.reverse

/-- **The splitter splits the text**, and what it holds before it. -/
theorem isSplit_splitFrom (inside : Option (List Char)) (cs : List Char)
    (h : closing ∉ inside.getD []) : IsSplit (held inside ++ cs) (splitFrom inside cs) := by
  fun_induction splitFrom inside cs with
  | case1 => exact ⟨rfl, by simp, by simp, by simp [opening]⟩
  | case2 seen =>
    rw [held, List.append_nil]
    exact IsSplit.unclosed fun hmem => h (List.mem_reverse.mp hmem)
  | case3 cs ih => exact ih List.not_mem_nil
  | case4 c cs hother ih =>
    refine IsSplit.consText (ih List.not_mem_nil) ?_
    rintro ⟨after, hafter⟩
    obtain ⟨hc, hcs⟩ := List.cons.inj hafter
    exact hother after hc.symm hcs.symm
  | case5 seen cs parts rest hsplit ih =>
    have hpointer : closing ∉ seen.reverse := fun hmem => h (List.mem_reverse.mp hmem)
    have htail := ih List.not_mem_nil
    rw [hsplit] at htail
    exact htail.placeholder hpointer
  | case6 seen c cs hclosing ih =>
    have hseen : closing ∉ c :: seen := by
      intro hmem
      rcases List.mem_cons.mp hmem with hc | hmem
      · exact hclosing hc.symm
      · exact h hmem
    have htail := ih hseen
    rw [held, List.reverse_cons, List.append_assoc, List.append_assoc] at htail
    rw [held, List.append_assoc]
    exact htail

/-- **There is exactly one way to split a text.** -/
theorem isSplit_iff {parts : Parts} : IsSplit cs parts ↔ parts = split cs := by
  constructor
  · intro h
    exact h.split_eq.symm
  · rintro rfl
    exact isSplit_splitFrom none cs List.not_mem_nil

end Template

open Template

/--
**A template is expanded in one pass.** Every template has exactly one splitting: no text before a
placeholder holds an opening, no pointer holds a closing brace, and the rest holds no opening with
a closing brace anywhere after it.

This splitting serves for every state. In any context, inside a repeat or outside, the template
resolves to its texts as they are, each followed by the text of what its pointer leads to when the
blanks around it are dropped, and the rest as it is. So nothing that is put in is looked at again.
-/
theorem template_in_one_pass (template : String) :
    ∃ parts : Parts, (∀ other, IsSplit template.toList other ↔ other = parts)
      ∧ ∀ c : Context, (Reference.template template).read c
        = some (.str (String.ofList
          ((parts.1.flatMap fun p =>
              p.1 ++ shownText (Pointer.read? (String.ofList (Text.trim p.2)) c.state))
            ++ parts.2))) := by
  refine ⟨split template.toList, fun other => isSplit_iff, ?_⟩
  intro c
  simp only [Reference.read, expand, fill_eq]

-- A dollar sign before an opening is text, and so is an opening that is never closed. What looks
-- like a placeholder within a pointer is part of the pointer, and within the state part of the
-- state.
example :
    let state : Value := .obj [("a", .str "$\x7b/b\x7d"), ("b", .ofNat 1)]
    Template.expand "$$\x7b /a \x7d$\x7b/b\x7d$\x7b$\x7b/b\x7d$\x7b/b" state
      = "$$\x7b/b\x7d1$\x7b/b" := by
  decide +kernel

end ViewStream
