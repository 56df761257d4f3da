import Mathlib.Data.List.DropRight
import ViewStream.Patch.Reader
import ViewStream.Proofs.Text.Lossy

/-!
# Lines out of chunks are lines of the text

The line buffer cuts first and decodes afterwards, a line at a time, and drops a carriage return
from the bytes. One would rather say it the other way round: decode the whole stream and take the
lines of the text. For a stream of text this makes no difference, and neither does it for any other
(`lines_are_lines_of_text`): **neither a line break nor a carriage return is ever part of a broken
sequence**, so what is broken is broken in the same places in a line as in the whole.

What is done to a buffer comes as a list of feeds, chunks and flushes in any order. `Feed.run` goes
through them for whatever reads off one.
-/

namespace ViewStream

/-! ## Feeding -/

/-- What is done to a line buffer, or to what reads off one. -/
inductive Feed where
  /-- A chunk of bytes arrives. -/
  | chunk (bytes : List UInt8)
  /-- What is waiting is asked for as a last line. -/
  | flush
deriving DecidableEq, Repr

namespace Feed

variable {σ α : Type} (step : σ → Feed → List α × σ)

/-- Take in feeds in turn: all that is handed out, and the state afterwards. -/
def run : List Feed → σ → List α × σ
  | [], s => ([], s)
  | f :: fs, s =>
    let (out, s) := step s f
    let (later, s) := run fs s
    (out ++ later, s)

theorem run_cons (f : Feed) (fs : List Feed) (s : σ) :
    run step (f :: fs) s
      = ((step s f).1 ++ (run step fs (step s f).2).1, (run step fs (step s f).2).2) :=
  rfl

theorem run_append (fs gs : List Feed) (s : σ) :
    run step (fs ++ gs) s
      = ((run step fs s).1 ++ (run step gs (run step fs s).2).1,
        (run step gs (run step fs s).2).2) := by
  induction fs generalizing s with
  | nil => rfl
  | cons f fs ih => simp [run_cons, ih]

end Feed

/-! ## Cutting -/

namespace Text

variable {α : Type} [DecidableEq α]

theorem pieces_eq_splitOn (sep : α) (xs : List α) : pieces sep xs = xs.splitOn sep := by
  induction xs with
  | nil => rfl
  | cons x xs ih =>
    rw [List.splitOn_cons_eq_if_modifyHead, ← ih, pieces, pieces, cut]
    by_cases hx : x = sep
    · simp [hx]
    · cases hdone : (cut sep xs).1 <;> simp [hx, hdone]

theorem cut_rest_eq_rtakeWhile (sep : α) (xs : List α) :
    (cut sep xs).2 = xs.rtakeWhile (· ≠ sep) := by
  induction xs using List.reverseRecOn with
  | nil => rfl
  | append_singleton xs x ih =>
    rw [cut_append, List.rtakeWhile_concat]
    by_cases hx : x = sep
    · rw [hx, cut_append_sep (not_mem_rest sep xs), if_neg (by simp)]
      rfl
    · have hnot : sep ∉ (cut sep xs).2 ++ [x] := by
        simp [not_mem_rest, Ne.symm hx]
      rw [cut_of_not_mem hnot, if_pos (by simpa using hx), ih]

namespace Utf8

/-- **Bytes are cut into the bytes of the pieces of their text.** -/
theorem cut_decode {b : UInt8} (hb : b < 0x80) (bytes : List UInt8) :
    cut (Char.ofNat b.toNat) (decode bytes)
      = ((cut b bytes).1.map decode, decode (cut b bytes).2) := by
  have hfree : ∀ {xs}, b ∉ xs → Char.ofNat b.toNat ∉ decode xs := fun hxs hmem =>
    hxs ((lossy_decode _).mem_of_ascii hb hmem)
  by_cases h : b ∈ bytes
  · obtain ⟨xs, ys, hsplit, hxs⟩ := List.eq_append_cons_of_mem h
    have hshorter : ys.length < bytes.length := by
      rw [hsplit, List.length_append, List.length_cons]
      omega
    have hrest := cut_decode hb ys
    rw [hsplit, decode_append_ascii hb, cut_append_sep (hfree hxs), cut_append_sep hxs, hrest]
    rfl
  · rw [cut_of_not_mem h, cut_of_not_mem (hfree h)]
    rfl
termination_by bytes.length

/-- A byte below 0x80 may be dropped from the end before decoding or after. -/
theorem decode_dropFinal {b : UInt8} (hb : b < 0x80) (bytes : List UInt8) :
    decode (dropFinal b bytes) = dropFinal (Char.ofNat b.toNat) (decode bytes) := by
  by_cases h : bytes.getLast? = some b
  · obtain ⟨front, rfl⟩ := List.getLast?_eq_some_iff.mp h
    have hdecode : decode (front ++ [b]) = decode front ++ [Char.ofNat b.toNat] :=
      decode_append_ascii hb front []
    rw [hdecode, dropFinal, if_pos h, dropFinal, if_pos List.getLast?_concat, List.dropLast_concat,
      List.dropLast_concat]
  · have hchar : (decode bytes).getLast? ≠ some (Char.ofNat b.toNat) := fun hlast =>
      h (getLast?_of_ascii hb hlast)
    rw [dropFinal, if_neg h, dropFinal, if_neg hchar]

end Utf8

end Text

/-! ## Line buffers -/

namespace LineBuffer

open Text (cut dropFinal)
open Text.Utf8 (decode)

/-- What a feed makes a buffer hand out. -/
def feed (b : LineBuffer) : Feed → List String × LineBuffer
  | .chunk bytes => b.push bytes
  | .flush => (b.flush.1.toList, b.flush.2)

theorem feed_emitted (b : LineBuffer) (f : Feed) :
    (b.feed f).2.emitted = b.emitted + (b.feed f).1.length := by
  cases f with
  | chunk bytes => exact push_emitted b bytes
  | flush =>
    rw [feed, flush]
    cases b.pending <;> rfl

theorem run_emitted (b : LineBuffer) (fs : List Feed) :
    (Feed.run feed fs b).2.emitted = b.emitted + (Feed.run feed fs b).1.length := by
  induction fs generalizing b with
  | nil => rfl
  | cons f fs ih =>
    rw [Feed.run_cons, List.length_append, ih, feed_emitted, Nat.add_assoc]

/-- **Cutting does not matter**: the chunks are taken in as the bytes they make. -/
theorem run_chunks {b : LineBuffer} (h : lineBreak ∉ b.pending) (chunks : List (List UInt8)) :
    Feed.run feed (chunks.map .chunk) b = b.push chunks.flatten := by
  induction chunks generalizing b with
  | nil =>
    rw [List.flatten_nil, push, List.append_nil, Text.cut_of_not_mem h]
    rfl
  | cons chunk chunks ih =>
    have hpending : lineBreak ∉ (b.push chunk).2.pending := Text.not_mem_rest lineBreak _
    rw [List.flatten_cons, push_append, ← ih hpending]
    rfl

theorem flush_lines (b : LineBuffer) :
    b.flush.1.toList = if b.pending = [] then [] else [decodeLine b.pending] := by
  unfold flush
  cases b.pending <;> rfl

/-- A line is the text of its bytes, without a carriage return at the end. -/
theorem decodeLine_eq (bytes : List UInt8) :
    decodeLine bytes = String.ofList (dropFinal '\r' (decode bytes)) := by
  rw [decodeLine, Text.Utf8.decode_dropFinal (by decide)]
  rfl

theorem cut_lineBreak (bytes : List UInt8) :
    cut '\n' (decode bytes)
      = ((cut lineBreak bytes).1.map decode, decode (cut lineBreak bytes).2) :=
  Text.Utf8.cut_decode (b := lineBreak) (by decide) bytes

/-- **A stream that ends here is cut as its text is**: each piece is a line, and what is left is
one too if there is anything. -/
theorem run_chunks_flush (chunks : List (List UInt8)) :
    (Feed.run feed (chunks.map .chunk ++ [.flush]) {}).1
      = (cut '\n' (decode chunks.flatten)).1.map (fun l => String.ofList (dropFinal '\r' l))
        ++ if (cut '\n' (decode chunks.flatten)).2 = [] then []
          else [String.ofList (dropFinal '\r' (cut '\n' (decode chunks.flatten)).2)] := by
  have hrun : (Feed.run feed (chunks.map .chunk ++ [.flush]) {}).1
      = (push {} chunks.flatten).1 ++ (push {} chunks.flatten).2.flush.1.toList := by
    rw [Feed.run_append, run_chunks List.not_mem_nil]
    exact congrArg _ (List.append_nil _)
  rw [hrun, flush_lines, cut_lineBreak, List.map_map, decodeLine_eq]
  congr 1
  · exact List.map_congr_left fun piece _ => decodeLine_eq piece
  · exact if_congr Text.Utf8.decode_eq_nil_iff.symm rfl rfl

end LineBuffer

/-- **Lines out of chunks are lines of the text.** For any chunks, of text or not, that are fed to
a new buffer, with a flush at the end: the lines handed out are those of the decoded stream, cut at
line breaks, each without one carriage return at its end. The last one is left out if no byte
follows the last line break.

To decode is to read off characters, and `U+FFFD` for each broken sequence that is as long as can
be. Before the flush the buffer holds the bytes after the last line break, and has counted the line
breaks. -/
theorem lines_are_lines_of_text (chunks : List (List UInt8)) :
    (∀ text, Text.Utf8.Lossy chunks.flatten text ↔ text = Text.Utf8.decode chunks.flatten)
      ∧ let bytes := chunks.flatten
        let before := (Feed.run LineBuffer.feed (chunks.map .chunk) {}).2
        let waiting := bytes.rtakeWhile (· ≠ LineBuffer.lineBreak)
        let pieces := ((Text.Utf8.decode bytes).splitOn '\n').map fun l =>
          String.ofList (Text.dropFinal '\r' l)
        (Feed.run LineBuffer.feed (chunks.map .chunk ++ [.flush]) {}).1
            = (if waiting = [] then pieces.dropLast else pieces)
          ∧ before.pending = waiting
          ∧ before.emitted = bytes.count LineBuffer.lineBreak := by
  refine ⟨Text.Utf8.lossy_iff chunks.flatten, ?_⟩
  intro bytes before waiting pieces
  have hrun : Feed.run LineBuffer.feed (chunks.map .chunk) {} = LineBuffer.push {} bytes :=
    LineBuffer.run_chunks List.not_mem_nil chunks
  have hbefore : before = (LineBuffer.push {} bytes).2 := congrArg Prod.snd hrun
  have hwaiting : (Text.cut LineBuffer.lineBreak bytes).2 = waiting :=
    Text.cut_rest_eq_rtakeWhile LineBuffer.lineBreak bytes
  have hpending : before.pending = waiting := by
    rw [hbefore]
    exact hwaiting
  have hemitted : before.emitted = bytes.count LineBuffer.lineBreak := by
    rw [hbefore, LineBuffer.push_emitted, ← Text.length_cut]
    exact (Nat.zero_add _).trans (List.length_map LineBuffer.decodeLine)
  refine ⟨?_, hpending, hemitted⟩
  have hnone : (Text.cut '\n' (Text.Utf8.decode bytes)).2 = [] ↔ waiting = [] := by
    rw [LineBuffer.cut_lineBreak, hwaiting]
    exact Text.Utf8.decode_eq_nil_iff
  have hpieces : pieces = (Text.pieces '\n' (Text.Utf8.decode bytes)).map fun l =>
      String.ofList (Text.dropFinal '\r' l) := by
    rw [Text.pieces_eq_splitOn]
  rw [LineBuffer.run_chunks_flush, hpieces, Text.pieces, List.map_append, List.map_singleton]
  by_cases h : waiting = []
  · rw [if_pos h, if_pos (hnone.mpr h), List.append_nil, List.dropLast_concat]
  · rw [if_neg h, if_neg (mt hnone.mp h)]

end ViewStream
