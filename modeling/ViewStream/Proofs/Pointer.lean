import ViewStream.Pointer
import ViewStream.Text.Decimal

/-!
# Pointers that are written and read again

A pointer passes through text wherever it is handed on: the path of a repeat item is written when
the repeat is expanded and read when a field below it is looked up, and what comes of that is
written again for the host. **Nothing is lost on the way**, whatever the segments are
(`parse_text`), and a position written in decimal digits is the position it names
(`index?_decimal`).

The other way round a text may change, since reading forgives what writing never does: a missing
slash and a tilde that begins no escape. **These two are all it forgives** (`text_parse_iff`). So
the texts of pointers can be told by looking at them, and there are no two for one pointer
(`text_faithful`).
-/

namespace ViewStream

open Json (Value)

/-! ## Replacing within a text -/

namespace Text

/-- The text with `new` in place of each `old`, looked for from left to right. -/
def replaceAll (old new : List Char) : List Char → List Char
  | [] => []
  | c :: cs =>
    if old <+: c :: cs then new ++ replaceAll old new (cs.drop (old.length - 1))
    else c :: replaceAll old new cs
termination_by cs => cs.length
decreasing_by
  · rw [List.length_drop, List.length_cons]; omega
  · exact Nat.lt_succ_self cs.length

variable {old new : List Char}

theorem replaceAll_found (h : old ≠ []) (cs : List Char) :
    replaceAll old new (old ++ cs) = new ++ replaceAll old new cs := by
  obtain ⟨c, rest, rfl⟩ := List.exists_cons_of_ne_nil h
  have hfound : c :: rest <+: c :: (rest ++ cs) := List.prefix_append (c :: rest) cs
  rw [List.cons_append, replaceAll, if_pos hfound, List.length_cons, Nat.add_sub_cancel,
    List.drop_left]

theorem replaceAll_other {c : Char} {cs : List Char} (h : ¬ old <+: c :: cs) :
    replaceAll old new (c :: cs) = c :: replaceAll old new cs := by
  rw [replaceAll, if_neg h]

/-- A single character is replaced wherever it stands. -/
theorem replaceAll_char (a : Char) (new cs : List Char) :
    replaceAll [a] new cs = cs.flatMap fun c => if c = a then new else [c] := by
  induction cs with
  | nil => rw [replaceAll, List.flatMap_nil]
  | cons c cs ih =>
    rw [List.flatMap_cons, ← ih]
    by_cases hc : c = a
    · rw [if_pos hc, hc]
      exact replaceAll_found (List.cons_ne_nil a []) cs
    · rw [if_neg hc]
      exact replaceAll_other (by simpa using Ne.symm hc)

end Text

namespace Pointer

open Text (replaceAll replaceAll_found replaceAll_other replaceAll_char)

/-! ## Text -/

/-- The segments in the text of a pointer, after its first slash. -/
theorem pieces_chars (s : String) (rest : List String) :
    Text.pieces '/' (escape s.toList ++ chars ⟨rest⟩)
      = (s :: rest).map fun t => escape t.toList := by
  induction rest generalizing s with
  | nil =>
    rw [chars, List.flatMap_nil, List.append_nil, Text.pieces,
      Text.cut_of_not_mem (slash_not_mem_escape s.toList)]
    rfl
  | cons t rest ih =>
    have hcons : chars ⟨t :: rest⟩ = '/' :: (escape t.toList ++ chars ⟨rest⟩) := rfl
    rw [hcons, Text.pieces_append_sep (slash_not_mem_escape s.toList), ih t]
    rfl

/-- **A pointer is read off its text.** -/
theorem parse_text (p : Pointer) : parse p.text = p := by
  obtain ⟨segments⟩ := p
  cases segments with
  | nil => rfl
  | cons s rest =>
    have hchars : chars ⟨s :: rest⟩ = '/' :: (escape s.toList ++ chars ⟨rest⟩) := rfl
    rw [parse, text, String.toList_ofList, hchars, segmentsOf, pieces_chars, List.map_map,
      List.map_map]
    congr 1
    have hid : ∀ t ∈ s :: rest,
        ((String.ofList ∘ unescape) ∘ fun t : String => escape t.toList) t = t := by
      intro t _
      simp only [Function.comp, unescape_escape, String.ofList_toList]
    exact (List.map_congr_left hid).trans (List.map_id _)

/-- Reading at the text of a pointer is following it. -/
theorem read?_text (p : Pointer) (v : Value) : read? p.text v = p.get? v := by
  rw [read?, parse_text]

/-! ## Positions -/

/-- **A position is read off its digits**, if it is one that a segment can name. -/
theorem index?_decimal {n : Nat} (h : n < Nat.pow 2 64) : index? (Text.decimal n) = some n := by
  have hdigits : (Nat.toDigits 10 n).all Char.isDigit = true :=
    List.all_eq_true.mpr (Text.isDigit_toDigits n)
  have hvalue : Nat.ofDigitChars 10 (Nat.toDigits 10 n) 0 = n :=
    Nat.ofDigitChars_toDigits (by decide) (by decide)
  have hne : Nat.toDigits 10 n ≠ [] := Nat.toDigits_ne_nil
  rw [index?, Text.decimal, String.toList_ofList]
  dsimp only
  rw [if_pos ⟨hne, hdigits⟩, hvalue, if_pos h]

/-! ## Escapes as replacements -/

/-- **To escape is to replace each `~`, then each `/`.** -/
theorem escape_eq_replaceAll (cs : List Char) :
    escape cs = replaceAll ['/'] ['~', '1'] (replaceAll ['~'] ['~', '0'] cs) := by
  rw [replaceAll_char, replaceAll_char, List.flatMap_assoc, escape]
  congr 1
  funext c
  by_cases ht : c = '~'
  · rw [escapeChar, if_pos ht, if_pos ht]
    rfl
  · rw [escapeChar, if_neg ht, if_neg ht, List.flatMap_singleton]

/-- Replacing `~1` makes no `0` stand where none stood. -/
theorem head?_replaceAll_zero {cs : List Char}
    (h : (replaceAll ['~', '1'] ['/'] cs).head? = some '0') : cs.head? = some '0' := by
  cases cs with
  | nil => rw [replaceAll] at h; exact h
  | cons c cs =>
    by_cases hp : ['~', '1'] <+: c :: cs
    · rw [replaceAll, if_pos hp] at h
      exact absurd h (by simp)
    · rw [replaceAll_other hp] at h
      exact h

/-- **To undo the escapes is to replace each `~1`, then each `~0`**: what the first puts in is no
part of what the second looks for. -/
theorem unescape_eq_replaceAll (cs : List Char) :
    unescape cs = replaceAll ['~', '0'] ['~'] (replaceAll ['~', '1'] ['/'] cs) := by
  fun_induction unescape cs with
  | case1 => simp only [replaceAll]
  | case2 cs ih =>
    have hkeep : replaceAll ['~', '1'] ['/'] ('~' :: '0' :: cs)
        = ['~', '0'] ++ replaceAll ['~', '1'] ['/'] cs := by
      rw [replaceAll_other (by simp), replaceAll_other (by simp)]
      rfl
    rw [hkeep, replaceAll_found (by simp), ← ih]
    rfl
  | case3 cs ih =>
    have hslash : replaceAll ['~', '1'] ['/'] ('~' :: '1' :: cs)
        = '/' :: replaceAll ['~', '1'] ['/'] cs := replaceAll_found (by simp) cs
    rw [hslash, replaceAll_other (by simp), ← ih]
  | case4 c cs hzero hone ih =>
    have hkeep : ¬ ['~', '1'] <+: c :: cs := by
      intro h
      obtain ⟨rest, hrest⟩ := h
      obtain ⟨hc, hcs⟩ := List.cons.inj hrest
      exact hone rest hc.symm hcs.symm
    -- a `0` after the first replacement was there before it, and then `~0` would have been read
    have hkeep' : ¬ ['~', '0'] <+: c :: replaceAll ['~', '1'] ['/'] cs := by
      intro h
      obtain ⟨rest, hrest⟩ := h
      obtain ⟨hc, hcs⟩ := List.cons.inj hrest
      have hhead : cs.head? = some '0' := head?_replaceAll_zero (by rw [← hcs]; rfl)
      obtain ⟨more, hmore⟩ := List.head?_eq_some_iff.mp hhead
      exact hzero more hc.symm hmore
    rw [replaceAll_other hkeep, replaceAll_other hkeep', ← ih]

/-! ## Which texts are the text of a pointer -/

/-- Every `~` begins one of the two escapes. -/
def EscapesTildes (cs : List Char) : Prop :=
  ∀ i, cs[i]? = some '~' → cs[i + 1]? = some '0' ∨ cs[i + 1]? = some '1'

theorem escapesTildes_cons {c : Char} {cs : List Char} :
    EscapesTildes (c :: cs)
      ↔ (c = '~' → cs[0]? = some '0' ∨ cs[0]? = some '1') ∧ EscapesTildes cs := by
  constructor
  · intro h
    refine ⟨?_, fun i hi => h (i + 1) hi⟩
    intro hc
    exact h 0 (congrArg some hc)
  · rintro ⟨hfirst, hrest⟩ i hi
    cases i with
    | zero => exact hfirst (Option.some.inj hi)
    | succ i => exact hrest i hi

theorem escapesTildes_escape {rest : List Char} (h : EscapesTildes rest) (cs : List Char) :
    EscapesTildes (escape cs ++ rest) := by
  induction cs with
  | nil => exact h
  | cons c cs ih =>
    have hcons : escape (c :: cs) ++ rest = escapeChar c ++ (escape cs ++ rest) := by
      rw [escape, List.flatMap_cons, List.append_assoc, escape]
    rw [hcons, escapeChar]
    split
    · have hzero : EscapesTildes ('0' :: (escape cs ++ rest)) :=
        escapesTildes_cons.mpr ⟨fun hc => absurd hc (by decide), ih⟩
      exact escapesTildes_cons.mpr ⟨fun _ => Or.inl rfl, hzero⟩
    · split
      · have hone : EscapesTildes ('1' :: (escape cs ++ rest)) :=
          escapesTildes_cons.mpr ⟨fun hc => absurd hc (by decide), ih⟩
        exact escapesTildes_cons.mpr ⟨fun _ => Or.inr rfl, hone⟩
      · rename_i hc _
        exact escapesTildes_cons.mpr ⟨fun ht => absurd ht hc, ih⟩

theorem escapesTildes_chars (p : Pointer) : EscapesTildes p.chars := by
  obtain ⟨segments⟩ := p
  induction segments with
  | nil =>
    intro i hi
    exact absurd hi (by simp [chars])
  | cons s rest ih =>
    have hcons : chars ⟨s :: rest⟩ = '/' :: (escape s.toList ++ chars ⟨rest⟩) := rfl
    rw [hcons]
    exact escapesTildes_cons.mpr
      ⟨fun hc => absurd hc (by decide), escapesTildes_escape ih s.toList⟩

/-- A character in front of the text of a segment is one in front of the segment. -/
theorem chars_cons_segment (c : Char) (s : List Char) (rest : List String) :
    chars ⟨String.ofList (c :: s) :: rest⟩
      = '/' :: (escapeChar c ++ (chars ⟨String.ofList s :: rest⟩).tail) := by
  simp only [chars, escape, List.flatMap_cons, String.toList_ofList, List.cons_append,
    List.tail_cons, List.append_assoc]

/-- **A text with a slash in front whose tildes begin escapes is the text of a pointer.** By the
ways in which such a text goes on: an escape, a slash, or any other character. -/
theorem exists_chars {cs : List Char} (h : EscapesTildes cs) :
    ∃ (s : List Char) (rest : List String), chars ⟨String.ofList s :: rest⟩ = '/' :: cs := by
  fun_induction unescape cs with
  | case1 => exact ⟨[], [], rfl⟩
  | case2 cs ih =>
    obtain ⟨s, rest, hs⟩ := ih (escapesTildes_cons.mp (escapesTildes_cons.mp h).2).2
    refine ⟨'~' :: s, rest, ?_⟩
    rw [chars_cons_segment, hs]
    rfl
  | case3 cs ih =>
    obtain ⟨s, rest, hs⟩ := ih (escapesTildes_cons.mp (escapesTildes_cons.mp h).2).2
    refine ⟨'/' :: s, rest, ?_⟩
    rw [chars_cons_segment, hs]
    rfl
  | case4 c cs hzero hone ih =>
    obtain ⟨hfirst, hrest⟩ := escapesTildes_cons.mp h
    obtain ⟨s, rest, hs⟩ := ih hrest
    -- a tilde would begin an escape, and that was one of the cases before
    have ht : c ≠ '~' := by
      intro hc
      rcases hfirst hc with h0 | h1
      · obtain ⟨more, hmore⟩ := List.head?_eq_some_iff.mp (List.head?_eq_getElem?.trans h0)
        exact hzero more hc hmore
      · obtain ⟨more, hmore⟩ := List.head?_eq_some_iff.mp (List.head?_eq_getElem?.trans h1)
        exact hone more hc hmore
    by_cases hslash : c = '/'
    · refine ⟨[], String.ofList s :: rest, ?_⟩
      rw [hslash, ← hs]
      rfl
    · refine ⟨c :: s, rest, ?_⟩
      rw [chars_cons_segment, hs, escapeChar, if_neg ht, if_neg hslash]
      rfl

/-- **A text is that of the pointer read from it if and only if it is empty, or begins with a slash
and all its tildes begin escapes.** -/
theorem text_parse_iff (text : String) :
    (parse text).text = text
      ↔ text = "" ∨ text.toList.head? = some '/' ∧ EscapesTildes text.toList := by
  constructor
  · intro h
    have hchars : text.toList = (parse text).chars := by
      rw [← String.toList_ofList (l := (parse text).chars)]
      exact congrArg String.toList h.symm
    cases hsegments : (parse text).segments with
    | nil =>
      left
      rw [← h, Pointer.text, chars, hsegments]
      rfl
    | cons s rest =>
      right
      refine ⟨?_, ?_⟩
      · rw [hchars, chars, hsegments]
        rfl
      · rw [hchars]
        exact escapesTildes_chars (parse text)
  · rintro (rfl | ⟨hslash, htildes⟩)
    · rfl
    · obtain ⟨cs, hcs⟩ := List.head?_eq_some_iff.mp hslash
      rw [hcs] at htildes
      obtain ⟨s, rest, hs⟩ := exists_chars (escapesTildes_cons.mp htildes).2
      have htext : text = Pointer.text ⟨String.ofList s :: rest⟩ := by
        rw [Pointer.text, hs, ← hcs, String.ofList_toList]
      rw [htext, parse_text]

theorem text_join (p : Pointer) (segment : String) :
    (p.join segment).text = p.text ++ "/" ++ String.ofList (escape segment.toList) := by
  have hchars : (p.join segment).chars = p.chars ++ '/' :: escape segment.toList := by
    rw [chars, join, List.flatMap_append, List.flatMap_singleton, chars]
  have hslash : "/" = String.ofList ['/'] := rfl
  rw [text, text, hchars, hslash, ← String.ofList_append, ← String.ofList_append,
    List.append_assoc]
  rfl

/--
**The text of a pointer is a faithful code for its segments**, whatever characters they hold.

* Reading what was written gives the segments back.
* Writing what was read gives the text back if and only if the text is empty, or begins with a
  slash and has an escape at every `~`.
* Pointers with the same text are the same.
* One segment more is a slash more and the escaped segment. To escape it each `~` is replaced by
  `~0` and then each `/` by `~1`; a segment is read by replacing each `~1` by `/` and then each
  `~0` by `~`.
-/
theorem text_faithful :
    (∀ segments : List String, (parse (Pointer.text ⟨segments⟩)).segments = segments)
      ∧ (∀ text : String, (parse text).text = text
          ↔ text = "" ∨ text.toList.head? = some '/' ∧ EscapesTildes text.toList)
      ∧ (∀ segments segments' : List String,
          Pointer.text ⟨segments⟩ = Pointer.text ⟨segments'⟩ ↔ segments = segments')
      ∧ (∀ (p : Pointer) (segment : String),
          (p.join segment).text = p.text ++ "/" ++ String.ofList
            (replaceAll ['/'] ['~', '1'] (replaceAll ['~'] ['~', '0'] segment.toList)))
      ∧ ∀ cs : List Char,
          unescape cs = replaceAll ['~', '0'] ['~'] (replaceAll ['~', '1'] ['/'] cs) := by
  have hread : ∀ segments : List String, (parse (Pointer.text ⟨segments⟩)).segments = segments :=
    fun segments => congrArg Pointer.segments (parse_text ⟨segments⟩)
  refine ⟨hread, text_parse_iff, ?_, ?_, unescape_eq_replaceAll⟩
  · intro segments segments'
    constructor
    · intro h
      rw [← hread segments, h, hread]
    · intro h
      rw [h]
  · intro p segment
    rw [text_join, escape_eq_replaceAll]

end Pointer

end ViewStream
