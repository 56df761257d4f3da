import Mathlib.Data.List.TakeWhile
import ViewStream.Proofs.Patch.Lines

/-!
# Entries stand under the numbers of their lines

A reader keeps no count of its own. It takes the buffer's, before a chunk to number the lines that
follow and after a flush to number the line that was handed out, and passes over blank lines
without a number being lost. Whatever the order of chunks and flushes, **the entries are those of
the lines that are not blank, each under the position of its line** (`entries_are_numbered_lines`).
`PatchReader.run_feed` is the one place where the two ways of counting meet; the rest is about a
list of lines.

A whole text is read with another rule for its last line: without a line break, it keeps a carriage
return at its end. But a line is trimmed before it is read, and **a carriage return is blank**.
-/

namespace ViewStream

/-! ## Blank lines -/

/-- A line of blanks only. -/
def isBlankLine (line : String) : Bool := line.toList.all Text.isBlank

namespace Text

/-- Trimming leaves nothing of blanks, and something of all else. -/
theorem trim_eq_nil {cs : List Char} : trim cs = [] ↔ ∀ c ∈ cs, isBlank c := by
  rw [trim, List.reverse_eq_nil_iff, List.dropWhile_eq_nil_iff]
  constructor
  · intro h c hc
    -- a character in front was dropped for being blank, and one behind is blank by hypothesis
    rw [← List.takeWhile_append_dropWhile (p := isBlank) (l := cs)] at hc
    rcases List.mem_append.mp hc with hfront | hrest
    · exact List.all_eq_true.mp List.all_takeWhile c hfront
    · exact h c (List.mem_reverse.mpr hrest)
  · intro h c hc
    exact h c ((List.dropWhile_sublist isBlank).mem (List.mem_reverse.mp hc))

theorem trim_concat {c : Char} (hc : isBlank c) (cs : List Char) : trim (cs ++ [c]) = trim cs := by
  rw [trim, trim, List.dropWhile_append]
  by_cases hnil : cs.dropWhile isBlank = []
  · rw [hnil]
    simp [hc]
  · rw [if_neg (by simpa using hnil), List.reverse_concat, List.dropWhile_cons_of_pos hc]

theorem trim_dropFinal {c : Char} (hc : isBlank c) (cs : List Char) :
    trim (dropFinal c cs) = trim cs := by
  by_cases hlast : cs.getLast? = some c
  · obtain ⟨front, rfl⟩ := List.getLast?_eq_some_iff.mp hlast
    rw [dropFinal, if_pos hlast, List.dropLast_concat, trim_concat hc]
  · rw [dropFinal, if_neg hlast]

end Text

namespace Entry

/-- **Blank lines, and no others, have no entry.** -/
theorem ofLine?_isNone (n : Nat) (line : String) :
    (ofLine? n line).isNone = isBlankLine line := by
  have hblank : Text.trim line.toList = [] ↔ isBlankLine line = true :=
    Text.trim_eq_nil.trans List.all_eq_true.symm
  unfold ofLine? Patch.parseLine
  cases ht : Text.trim line.toList with
  | nil => exact (hblank.mp ht).symm
  | cons c cs =>
    have hnot : isBlankLine line = false :=
      Bool.eq_false_iff.mpr fun h => absurd (hblank.mpr h) (by simp [ht])
    rw [hnot]
    dsimp only
    cases Json.read? (String.ofList (c :: cs)) with
    | none => rfl
    | some v =>
      dsimp only
      cases Patch.ofJson v <;> rfl

/-- The error of a line carries the number of the line. -/
theorem ofLine?_line {n : Nat} {text : String} {d : LineError}
    (h : ofLine? n text = some (.error d)) : d.line = n := by
  unfold ofLine? at h
  split at h
  · exact absurd h (by simp)
  · exact absurd h (by simp)
  · rw [← Except.error.inj (Option.some.inj h)]

theorem ofLine?_toOption (n : Nat) (text : String) :
    ((ofLine? n text).bind fun e => e.toOption) = Patch.onLine? text := by
  unfold ofLine? Patch.onLine?
  rcases Patch.parseLine text with _ | _ | p <;> rfl

end Entry

namespace PatchReader

/-! ## Numbered lines -/

/-- Numbered entries as a reader hands them out: the numbers ascend, and an error carries that of
its entry. -/
structure Numbered (first : Nat) (es : List (Nat × Entry)) : Prop where
  ge : ∀ e ∈ es, first ≤ e.1
  ascending : es.Pairwise fun a b => a.1 < b.1
  line : ∀ n d, (n, .error d) ∈ es → d.line = n

theorem Numbered.head_line {first n : Nat} {e : Entry} {es : List (Nat × Entry)}
    (h : Numbered first ((n, e) :: es)) : ∀ d, e = .error d → d.line = n := by
  rintro d rfl
  exact h.line n d List.mem_cons_self

theorem Numbered.tail {first : Nat} {e : Nat × Entry} {es : List (Nat × Entry)}
    (h : Numbered first (e :: es)) : Numbered first es where
  ge := fun e he => h.ge e (List.mem_cons_of_mem _ he)
  ascending := (List.pairwise_cons.mp h.ascending).2
  line := fun n d hd => h.line n d (List.mem_cons_of_mem _ hd)

theorem entriesFrom_numbered (n : Nat) (lines : List String) :
    Numbered n (entriesFrom n lines) := by
  induction lines generalizing n with
  | nil => exact ⟨by simp [entriesFrom], by simp [entriesFrom], by simp [entriesFrom]⟩
  | cons text lines ih =>
    obtain ⟨hge, hasc, hline⟩ := ih (n + 1)
    have hge' : ∀ e ∈ entriesFrom (n + 1) lines, n ≤ e.1 := by
      intro e he
      have := hge e he
      omega
    rw [entriesFrom]
    cases hentry : Entry.ofLine? n text with
    | none => exact ⟨hge', hasc, hline⟩
    | some entry =>
      refine ⟨?_, List.pairwise_cons.mpr ⟨fun e he => hge e he, hasc⟩, ?_⟩
      · intro e he
        rcases List.mem_cons.mp he with rfl | he
        · exact Nat.le_refl n
        · exact hge' e he
      · intro k d hd
        rcases List.mem_cons.mp hd with heq | hd
        · obtain ⟨rfl, rfl⟩ := Prod.mk.inj heq
          exact Entry.ofLine?_line hentry
        · exact hline k d hd

/-- **What entries there are, and under which numbers**: the lines that are not blank, each at its
position. -/
theorem entriesFrom_eq (n : Nat) (lines : List String) :
    (entriesFrom n lines).map (fun e => (e.1, some e.2))
      = ((lines.zipIdx n).filter fun l => !isBlankLine l.1).map fun l =>
        (l.2, Entry.ofLine? l.2 l.1) := by
  induction lines generalizing n with
  | nil => rfl
  | cons line lines ih =>
    have hnone := Entry.ofLine?_isNone n line
    rw [entriesFrom, List.zipIdx_cons, List.filter_cons, ← hnone]
    cases hentry : Entry.ofLine? n line with
    | none => exact ih (n + 1)
    | some e =>
      rw [List.map_cons, ih (n + 1)]
      simp [hentry]

/-- The patches among the entries are those on the lines, whatever the numbers. -/
theorem entriesFrom_patches (n : Nat) (lines : List String) :
    (entriesFrom n lines).filterMap (fun e => e.2.toOption) = lines.filterMap Patch.onLine? := by
  induction lines generalizing n with
  | nil => rfl
  | cons line lines ih =>
    rw [entriesFrom, List.filterMap_cons, ← Entry.ofLine?_toOption n line, ← ih (n + 1)]
    cases hentry : Entry.ofLine? n line with
    | none => rfl
    | some e => exact List.filterMap_cons

/-! ## Readers -/

/-- What a feed makes a reader hand out. -/
def feed (r : PatchReader) : Feed → List (Nat × Entry) × PatchReader
  | .chunk bytes => r.push bytes
  | .flush => (r.flush.1.toList, r.flush.2)

/-- A reader numbers the lines of its buffer on from those it has seen, also the one that a flush
hands out. -/
theorem feed_eq (r : PatchReader) (f : Feed) :
    r.feed f
      = (entriesFrom (r.buffer.emitted + 1) (r.buffer.feed f).1, ⟨(r.buffer.feed f).2⟩) := by
  cases f with
  | chunk bytes => rfl
  | flush =>
    rw [feed, flush, LineBuffer.feed, LineBuffer.flush]
    cases r.buffer.pending with
    | nil => rfl
    | cons b bs =>
      dsimp only [Option.toList, entriesFrom]
      cases Entry.ofLine? (r.buffer.emitted + 1) (LineBuffer.decodeLine (b :: bs)) <;> rfl

/-- **Numbers go through**: however it is fed, a reader numbers the lines that its buffer hands out
as if they had come at once. -/
theorem run_feed (r : PatchReader) (fs : List Feed) :
    Feed.run feed fs r
      = (entriesFrom (r.buffer.emitted + 1) (Feed.run LineBuffer.feed fs r.buffer).1,
        ⟨(Feed.run LineBuffer.feed fs r.buffer).2⟩) := by
  induction fs generalizing r with
  | nil => rfl
  | cons f fs ih =>
    have hnext : r.buffer.emitted + 1 + (r.buffer.feed f).1.length
        = (r.buffer.feed f).2.emitted + 1 := by
      rw [LineBuffer.feed_emitted]
      omega
    rw [Feed.run_cons, Feed.run_cons, feed_eq, ih, entriesFrom_append, hnext]

end PatchReader

namespace Patch

open Text (cut dropFinal)

/-- A carriage return at the end of a line makes no difference to what is on it. -/
theorem onLine?_dropFinal (cs : List Char) :
    onLine? (String.ofList (dropFinal '\r' cs)) = onLine? (String.ofList cs) := by
  have htrim : Text.trim (dropFinal '\r' cs) = Text.trim cs := Text.trim_dropFinal (by decide) cs
  rw [onLine?, onLine?, parseLine, parseLine, String.toList_ofList, String.toList_ofList, htrim]

/-- **A text holds the patches that are read off its bytes**, however they are cut. -/
theorem parseAll_eq {text : String} {chunks : List (List UInt8)}
    (h : chunks.flatten = Text.Utf8.bytesOf text) :
    parseAll text
      = (Feed.run LineBuffer.feed (chunks.map .chunk ++ [.flush]) {}).1.filterMap onLine? := by
  have htext : Text.Utf8.decode chunks.flatten = text.toList := by
    rw [h, Text.Utf8.bytesOf, Text.Utf8.decode_encode]
  rw [parseAll, lines, LineBuffer.run_chunks_flush, htext]
  dsimp only
  rw [List.filterMap_append, List.filterMap_append]
  congr 1
  split
  · rfl
  · rw [List.filterMap_cons, List.filterMap_cons, onLine?_dropFinal]

end Patch

/-- **Entries stand under the numbers of their lines.** For any chunks and flushes that a new
reader is fed in any order, with the lines that the same feeds make a line buffer hand out, counted
from 1:

* the entries are those of the lines that are not blank, in order, each under the number of its
  line;
* so the numbers ascend, and each error tells that of its entry;
* the lines seen are the lines handed out.

A text that is fed in any chunks, with one flush at the end, yields the patches of the whole
text. -/
theorem entries_are_numbered_lines (feeds : List Feed) :
    let lines := (Feed.run LineBuffer.feed feeds {}).1
    let read := Feed.run PatchReader.feed feeds {}
    read.1.map (fun e => (e.1, some e.2))
        = ((lines.zipIdx 1).filter fun l => !isBlankLine l.1).map
            (fun l => (l.2, Entry.ofLine? l.2 l.1))
      ∧ read.1.Pairwise (fun d e => d.1 < e.1)
      ∧ (∀ n e, (n, .error e) ∈ read.1 → e.line = n)
      ∧ read.2.linesSeen = lines.length
      ∧ ∀ (text : String) (chunks : List (List UInt8)), chunks.flatten = Text.Utf8.bytesOf text →
          Patch.parseAll text
            = (Feed.run PatchReader.feed (chunks.map .chunk ++ [.flush]) {}).1.filterMap
                fun e => e.2.toOption := by
  intro lines read
  have hread : read = (PatchReader.entriesFrom 1 lines, ⟨(Feed.run LineBuffer.feed feeds {}).2⟩) :=
    PatchReader.run_feed {} feeds
  have hnumbered : PatchReader.Numbered 1 read.1 := by
    rw [hread]
    exact PatchReader.entriesFrom_numbered 1 lines
  refine ⟨?_, hnumbered.ascending, hnumbered.line, ?_, ?_⟩
  · rw [hread]
    exact PatchReader.entriesFrom_eq 1 lines
  · rw [hread]
    exact (LineBuffer.run_emitted {} feeds).trans (Nat.zero_add _)
  · intro text chunks h
    rw [PatchReader.run_feed, PatchReader.entriesFrom_patches]
    exact Patch.parseAll_eq h

/-- A character is cut by two chunks. Its line is followed by a blank one and by one that is no
patch and is flushed, so the line break that comes next ends an empty line. In one text the last
line ends with a carriage return. -/
theorem entries_are_numbered_lines_across_flushes :
    let p : Patch := ⟨.remove, "/\u00e9", none⟩
    let line := "\x7b\"op\":\"remove\",\"path\":\"/\u00e9\"\x7d"
    let sent := Text.Utf8.bytesOf line
    let feeds : List Feed :=
      [.chunk (sent.take 25), .chunk (sent.drop 25 ++ Text.Utf8.bytesOf "\r\n \nbad"), .flush,
        .flush, .chunk (Text.Utf8.bytesOf "\n" ++ sent), .flush]
    let read := Feed.run PatchReader.feed feeds {}
    let text := line ++ "\r\n \nbad\n" ++ line ++ "\r"
    let bytes := Text.Utf8.bytesOf text
    read.1 = [(1, .ok p), (3, .error ⟨3, .invalidJson "bad"⟩), (5, .ok p)]
      ∧ read.1.Pairwise (fun d e => d.1 < e.1)
      ∧ (⟨3, .invalidJson "bad"⟩ : LineError).line = 3
      ∧ read.2.linesSeen = 5
      ∧ [bytes.take 25, bytes.drop 25].flatten = bytes
      ∧ Patch.parseAll text = [p, p] := by
  intro p line sent feeds read text bytes
  have hread : read.1 = [(1, .ok p), (3, .error ⟨3, .invalidJson "bad"⟩), (5, .ok p)] := by
    decide +kernel
  have hlines : (Feed.run LineBuffer.feed feeds {}).1 = [line, " ", "bad", "", line] := by
    decide +kernel
  have hcut : [bytes.take 25, bytes.drop 25].flatten = bytes := by
    simp [List.take_append_drop]
  obtain ⟨_, hascending, herror, hseen, htext⟩ := entries_are_numbered_lines feeds
  have hmem : (3, .error ⟨3, .invalidJson "bad"⟩) ∈ read.1 := by simp [hread]
  refine ⟨hread, hascending, herror 3 _ hmem, hseen.trans (congrArg _ hlines), hcut, ?_⟩
  rw [htext text _ hcut]
  decide +kernel

end ViewStream
