import ViewStream.Proofs.Json.RoundTrip
import ViewStream.Proofs.Session.Run
import ViewStream.Proofs.Text.Utf8

/-!
# What is written on a stream is read off it

Patches are written on lines, and the lines sent as bytes. The reader at the other end gets the
bytes in chunks that were cut without regard to lines or characters, and yields the same patches
under the numbers of their lines (`lines_survive_stream`).

Three things could go wrong on the way, and each is settled by what a line is made of. A line break
inside a line would end it early, and a carriage return at its end would be dropped: **a line has
no control characters**. White space around it would be trimmed: **a line begins and ends with a
brace**. And the text must say what the patch is: that is the round trip of its JSON.
-/

namespace ViewStream

open Json (Value)

namespace Patch

/-- A patch whose line says all there is to it. -/
structure Sendable (p : Patch) : Prop where
  /-- It has a value if its operation needs one. -/
  complete : p.op.takesValue = true → p.value.isSome
  /-- Numbers within the value are integers that fit in 64 bits. -/
  integral : ∀ v ∈ p.value, v.Integral
  /-- Objects within the value are maps: each key once, in key order. -/
  inOrder : ∀ v ∈ p.value, v.InOrder
  /-- No more than this many containers nest in each other, the patch itself being one. -/
  shallow : p.toJson.nesting ≤ 127

/-! ## One line -/

/-- Members that have what the operation needs describe a patch. -/
theorem ofMembers_eq {ms : List (String × Value)} {op : Op} {path : String}
    (hop : Value.stringAt? "op" ms = some op.name) (hpath : Value.stringAt? "path" ms = some path)
    (hvalue : op.takesValue = true → (ms.lookup "value").isSome) :
    ofMembers ms = .ok ⟨op, path, ms.lookup "value"⟩ := by
  have hcomplete : ¬ (op.takesValue = true ∧ ms.lookup "value" = none) := by
    rintro ⟨htakes, hnone⟩
    have hsome := hvalue htakes
    rw [hnone] at hsome
    exact absurd hsome (by decide)
  rw [ofMembers, hop]
  dsimp only
  rw [Op.ofName?_name, hpath]
  exact if_neg hcomplete

/-- **A patch is what its JSON describes.** A value that is null is there all the same. -/
theorem ofJson_toJson {p : Patch} (h : p.op.takesValue = true → p.value.isSome) :
    ofJson p.toJson = .ok p := by
  obtain ⟨op, path, value⟩ := p
  cases value with
  | none =>
    let ms : List (String × Value) := [("op", .str op.name), ("path", .str path)]
    have hmembers : ofMembers ms = .ok ⟨op, path, ms.lookup "value"⟩ := ofMembers_eq rfl rfl h
    exact hmembers
  | some v =>
    let ms : List (String × Value) := [("op", .str op.name), ("path", .str path), ("value", v)]
    have hmembers : ofMembers ms = .ok ⟨op, path, ms.lookup "value"⟩ := ofMembers_eq rfl rfl h
    exact hmembers

theorem Sendable.toJson_integral {p : Patch} (h : p.Sendable) : p.toJson.Integral := by
  obtain ⟨op, path, value⟩ := p
  cases value with
  | none => exact ⟨trivial, trivial, trivial⟩
  | some v => exact ⟨trivial, trivial, h.integral v rfl, trivial⟩

/-- The members of a patch are written in key order. -/
theorem Sendable.toJson_inOrder {p : Patch} (h : p.Sendable) : p.toJson.InOrder := by
  obtain ⟨op, path, value⟩ := p
  have hop : "op" < "path" := by decide
  have hpath : "path" < "value" := by decide
  cases value with
  | none => exact ⟨List.pairwise_pair.mpr hop, trivial, trivial, trivial⟩
  | some v =>
    have hfirst : ∀ m ∈ [("path", Value.str path), ("value", v)], "op" < m.1 := by
      intro m hm
      simp only [List.mem_cons, List.not_mem_nil, or_false] at hm
      rcases hm with rfl | rfl
      · exact hop
      · exact String.lt_trans hop hpath
    have hkeys : Value.Ascending [("op", .str op.name), ("path", .str path), ("value", v)] :=
      List.pairwise_cons.mpr ⟨hfirst, List.pairwise_pair.mpr hpath⟩
    exact ⟨hkeys, trivial, trivial, h.inOrder v rfl, trivial⟩

/-- **A line is an object between its braces.** -/
theorem toLine_braces (p : Patch) : ∃ inside, p.toLine.toList = '\x7b' :: (inside ++ ['\x7d']) :=
  ⟨Value.membersChars _, String.toList_ofList⟩

theorem Sendable.toLine_plain {p : Patch} (h : p.Sendable) : Json.Plain p.toLine.toList := by
  rw [toLine, Value.compact, String.toList_ofList]
  exact Json.plain_chars h.toJson_integral

/-- Text that begins and ends with a character of its own is not trimmed. -/
theorem trim_between {c d : Char} (hc : Text.isBlank c = false) (hd : Text.isBlank d = false)
    (cs : List Char) : Text.trim (c :: (cs ++ [d])) = c :: (cs ++ [d]) := by
  have hfront : (c :: (cs ++ [d])).dropWhile Text.isBlank = c :: (cs ++ [d]) :=
    List.dropWhile_cons_of_neg (by simp [hc])
  have hback : (c :: (cs ++ [d])).reverse = d :: (c :: cs).reverse := by simp
  rw [Text.trim, hfront, hback, List.dropWhile_cons_of_neg (by simp [hd]), ← hback,
    List.reverse_reverse]

/-- **A line is read as the patch that was written on it.** -/
theorem Sendable.parseLine_toLine {p : Patch} (h : p.Sendable) :
    parseLine p.toLine = .ok (some p) := by
  obtain ⟨inside, hline⟩ := toLine_braces p
  have htrim : Text.trim p.toLine.toList = p.toLine.toList := by
    rw [hline]
    exact trim_between (by decide) (by decide) inside
  have hread : Json.read? p.toLine = some p.toJson :=
    Json.read?_compact h.toJson_integral h.toJson_inOrder h.shallow
  have htext : String.ofList ('\x7b' :: (inside ++ ['\x7d'])) = p.toLine := by
    rw [← hline, String.ofList_toList]
  rw [parseLine, htrim, hline]
  dsimp only
  rw [htext, hread]
  dsimp only
  rw [ofJson_toJson h.complete]
  rfl

/-! ## Its bytes -/

/-- The bytes of a line, without the line break. -/
def lineBytes (p : Patch) : List UInt8 := Text.Utf8.bytesOf p.toLine

/-- A byte below 0x20 is a control character, and a line has none. -/
theorem Sendable.not_mem_lineBytes {p : Patch} (h : p.Sendable) {b : UInt8} (hb : b < 0x20) :
    b ∉ p.lineBytes := by
  intro hmem
  have hascii : b < 0x80 := UInt8.lt_trans hb (by decide)
  obtain ⟨c, hc, hsame⟩ := Text.Utf8.mem_of_mem_encode hmem hascii
  have hplain : 0x20 ≤ c.toNat := h.toLine_plain c hc
  have hlow : b.toNat < 0x20 := hb
  omega

theorem Sendable.decodeLine_lineBytes {p : Patch} (h : p.Sendable) :
    LineBuffer.decodeLine p.lineBytes = p.toLine := by
  have hreturn : p.lineBytes.getLast? ≠ some LineBuffer.carriageReturn := by
    intro hlast
    exact h.not_mem_lineBytes (by decide) (List.mem_of_getLast? hlast)
  rw [LineBuffer.decodeLine, Text.dropFinal, if_neg hreturn, lineBytes, Text.Utf8.bytesOf,
    Text.Utf8.decode_encode, String.ofList_toList]

/-! ## The stream -/

/-- The bytes of patches, each on a line of its own. -/
def streamOf (ps : List Patch) : List UInt8 :=
  ps.flatMap fun p => Text.Utf8.bytesOf (p.toLine ++ "\n")

/-- **A stream is cut into the lines it was made of**, with nothing after the last. -/
theorem cut_streamOf {ps : List Patch} (h : ∀ p ∈ ps, p.Sendable) :
    Text.cut LineBuffer.lineBreak (streamOf ps) = (ps.map lineBytes, []) := by
  induction ps with
  | nil => rfl
  | cons p ps ih =>
    have hline : Text.Utf8.bytesOf (p.toLine ++ "\n") = p.lineBytes ++ [LineBuffer.lineBreak] := by
      rw [Text.Utf8.bytesOf, String.toList_append, Text.Utf8.encode_append]
      rfl
    have hstream : streamOf (p :: ps) = p.lineBytes ++ LineBuffer.lineBreak :: streamOf ps := by
      rw [streamOf, List.flatMap_cons, hline, List.append_assoc]
      rfl
    have hbreak : LineBuffer.lineBreak ∉ p.lineBytes :=
      (h p List.mem_cons_self).not_mem_lineBytes (by decide)
    rw [hstream, Text.cut_append_sep hbreak, ih fun q hq => h q (List.mem_cons_of_mem p hq)]
    rfl

end Patch

namespace PatchReader

/-- Lines that hold patches yield them under their numbers. -/
theorem entriesFrom_toLine {ps : List Patch} (h : ∀ p ∈ ps, p.Sendable) (first : Nat) :
    entriesFrom first (ps.map Patch.toLine)
      = (ps.zipIdx first).map fun (p, n) => (n, .ok p) := by
  induction ps generalizing first with
  | nil => rfl
  | cons p ps ih =>
    have hentry : Entry.ofLine? first p.toLine = some (.ok p) := by
      rw [Entry.ofLine?, (h p List.mem_cons_self).parseLine_toLine]
    rw [List.map_cons, entriesFrom, hentry, List.zipIdx_cons, List.map_cons,
      ih fun q hq => h q (List.mem_cons_of_mem p hq)]

/-- Take in chunks in turn: the entries of all lines they complete. -/
def pushAll (r : PatchReader) : List (List UInt8) → List (Nat × Entry) × PatchReader
  | [] => ([], r)
  | chunk :: chunks =>
    let (done, r) := r.push chunk
    let (later, r) := r.pushAll chunks
    (done ++ later, r)

/-- **Cutting does not matter**: the chunks are read as the stream they make. -/
theorem pushAll_eq_push {r : PatchReader} (h : r.Waits) (chunks : List (List UInt8)) :
    r.pushAll chunks = r.push chunks.flatten := by
  induction chunks generalizing r with
  | nil => exact (push_nil h).symm
  | cons chunk chunks ih =>
    rw [List.flatten_cons, push_append, ← ih (push_waits r chunk)]
    rfl

end PatchReader

/-- **Patches survive the stream.** However the bytes of their lines are cut into chunks, a new
reader yields these patches and nothing else, numbered from 1, and has nothing left over. -/
theorem lines_survive_stream {ps : List Patch} (h : ∀ p ∈ ps, p.Sendable)
    {chunks : List (List UInt8)} (hcut : chunks.flatten = Patch.streamOf ps) :
    (∀ p ∈ ps, '\n' ∉ p.toLine.toList)
      ∧ (PatchReader.pushAll {} chunks).1 = (ps.zipIdx 1).map (fun (p, n) => (n, .ok p))
      ∧ (PatchReader.pushAll {} chunks).2.hasPending = false := by
  have hlines : ∀ p ∈ ps, '\n' ∉ p.toLine.toList := by
    intro p hp hbreak
    exact absurd ((h p hp).toLine_plain '\n' hbreak) (by decide)
  have hwaits : ({} : PatchReader).Waits := List.not_mem_nil
  have hdecode : (ps.map Patch.lineBytes).map LineBuffer.decodeLine = ps.map Patch.toLine := by
    rw [List.map_map]
    exact List.map_congr_left fun p hp => (h p hp).decodeLine_lineBytes
  have hpush : PatchReader.push {} (Patch.streamOf ps)
      = ((ps.zipIdx 1).map (fun (p, n) => (n, .ok p)), ⟨⟨[], ps.length⟩⟩) := by
    rw [PatchReader.push, LineBuffer.push, List.nil_append, Patch.cut_streamOf h]
    dsimp only
    rw [hdecode, PatchReader.entriesFrom_toLine h]
    simp
  rw [PatchReader.pushAll_eq_push hwaits, hcut, hpush]
  exact ⟨hlines, rfl, rfl⟩

/-- Bytes one at a time, so that characters are cut too. What is sent is a line break within a
string, a backslash, the outermost integers, a null that is a value, and removals with a value and
without. -/
theorem lines_survive_stream_byte_by_byte :
    let notes : Value := .obj [("a\\b", .str "first\r\nsecond\t"),
      ("ключ", .arr [.num (.int (-9223372036854775808)), .num (.int 18446744073709551615), .null])]
    let ps : List Patch := [⟨.add, "/état/🦀 ", some notes⟩, ⟨.set, "", some .null⟩,
      ⟨.remove, "/x", none⟩, ⟨.remove, "/y", some (.bool false)⟩]
    let chunks := (Patch.streamOf ps).map fun b => [b]
    (∀ p ∈ ps, p.Sendable)
      ∧ (∀ p ∈ ps, '\n' ∉ p.toLine.toList)
      ∧ (PatchReader.pushAll {} chunks).1
          = [(1, .ok ⟨.add, "/état/🦀 ", some notes⟩), (2, .ok ⟨.set, "", some .null⟩),
            (3, .ok ⟨.remove, "/x", none⟩), (4, .ok ⟨.remove, "/y", some (.bool false)⟩)]
      ∧ (PatchReader.pushAll {} chunks).2.hasPending = false := by
  intro notes ps chunks
  have hintegral : notes.Integral := by
    have hmin : (Json.Number.int (-9223372036854775808)).Fits := by unfold Json.Number.Fits; decide
    have hmax : (Json.Number.int 18446744073709551615).Fits := by unfold Json.Number.Fits; decide
    exact ⟨trivial, ⟨hmin, hmax, trivial, trivial⟩, trivial⟩
  have hinOrder : notes.InOrder := by
    have hkeys : "a\\b" < "ключ" := by decide
    exact ⟨List.pairwise_pair.mpr hkeys, trivial, ⟨trivial, trivial, trivial, trivial⟩, trivial⟩
  have hps : ∀ p ∈ ps, p.Sendable := by
    intro p hp
    simp only [ps, List.mem_cons, List.not_mem_nil, or_false] at hp
    rcases hp with rfl | rfl | rfl | rfl
    · exact ⟨by decide, by rintro _ ⟨⟩; exact hintegral, by rintro _ ⟨⟩; exact hinOrder, by decide⟩
    · exact ⟨by decide, by rintro _ ⟨⟩; trivial, by rintro _ ⟨⟩; trivial, by decide⟩
    · exact ⟨by decide, by rintro _ ⟨⟩, by rintro _ ⟨⟩, by decide⟩
    · exact ⟨by decide, by rintro _ ⟨⟩; trivial, by rintro _ ⟨⟩; trivial, by decide⟩
  have hcut : chunks.flatten = Patch.streamOf ps := by
    rw [← List.flatMap_def, List.flatMap_singleton']
  exact ⟨hps, lines_survive_stream hps hcut⟩

end ViewStream
