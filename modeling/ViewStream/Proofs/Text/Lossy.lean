import ViewStream.Proofs.Text.Utf8

/-!
# What becomes of bytes that are not UTF-8

`Lossy` says what text a sequence of bytes stands for without saying how to find it: cut off the
front, again and again, the bytes of a character, or, where no character begins, **the longest
beginning of one**, and one byte where there is not even that; each of the latter leaves one
U+FFFD. There is exactly one way to do so, and the decoder finds it (`lossy_iff`).

The decoder knows nothing of characters while it is inside a sequence, only a range for the next
byte. What makes it right is that the range is exact (`inside_cases`): a byte within it goes on
with some character, and a byte outside goes on with none.

A byte below 0x80 is in no character but its own, so it is never part of a broken sequence either.
It cuts the bytes into two that can be decoded apart (`decode_append_ascii`), and a character below
U+0080 in the text, or at its end, comes from such a byte.
-/

namespace ViewStream.Text.Utf8

/-! ## The text that bytes stand for -/

/-- The bytes are how some character begins, or all of it. -/
def Opens (m : List UInt8) : Prop := ∃ c : Char, m <+: String.utf8EncodeChar c

/-- No character begins the bytes `m ++ bs`, and `m` is what one U+FFFD stands for. -/
structure Broken (m bs : List UInt8) : Prop where
  nonempty : m ≠ []
  noChar : ∀ c, ¬ String.utf8EncodeChar c <+: m ++ bs
  /-- It is how some character begins, or else a single byte. -/
  opens : Opens m ∨ m.length = 1
  /-- No more of the bytes is how some character begins. -/
  longest : ∀ m', m' <+: m ++ bs → Opens m' → m'.length ≤ m.length

/-- The text that bytes stand for, with one U+FFFD for each maximal part that is not UTF-8. -/
inductive Lossy : List UInt8 → List Char → Prop
  | nil : Lossy [] []
  | char {c : Char} {bs : List UInt8} {cs : List Char} :
      Lossy bs cs → Lossy (String.utf8EncodeChar c ++ bs) (c :: cs)
  | broken {m bs : List UInt8} {cs : List Char} :
      Broken m bs → Lossy bs cs → Lossy (m ++ bs) (replacement :: cs)

theorem Opens.mono {m m' : List UInt8} (h : Opens m) (hm : m' <+: m) : Opens m' := by
  obtain ⟨c, hc⟩ := h
  exact ⟨c, hm.trans hc⟩

theorem opens_char (c : Char) : Opens (String.utf8EncodeChar c) := ⟨c, List.prefix_refl _⟩

/-- Bytes are never passed over. -/
theorem decodeFrom_ne_nil (s : State) (b : UInt8) (bs : List UInt8) :
    decodeFrom s (b :: bs) ≠ [] := by
  induction bs generalizing s b with
  | nil =>
    rw [decodeFrom_cons]
    cases s with
    | start => grind [step, first, decodeFrom]
    | inside owed low high bits => grind [step, decodeFrom]
  | cons b' bs ih =>
    rw [decodeFrom_cons]
    exact List.append_ne_nil_of_right_ne_nil _ (ih _ b')

theorem decode_eq_nil_iff {bs : List UInt8} : decode bs = [] ↔ bs = [] := by
  cases bs with
  | nil => exact iff_of_true rfl rfl
  | cons b bs => exact iff_of_false (decodeFrom_ne_nil .start b bs) (by simp)

theorem encodeChar_ne_nil (c : Char) : String.utf8EncodeChar c ≠ [] := by
  rw [String.utf8EncodeChar]
  split
  · simp
  · split
    · simp
    · split <;> simp

theorem decodeFrom_char (c : Char) : decodeFrom .start (String.utf8EncodeChar c) = [c] := by
  have h := decodeFrom_encodeChar c []
  rwa [List.append_nil] at h

/-- **No character begins another one.** -/
theorem eq_of_prefix {c d : Char} (h : String.utf8EncodeChar c <+: String.utf8EncodeChar d) :
    c = d := by
  obtain ⟨r, hr⟩ := h
  have hdecode := decodeFrom_char d
  rw [← hr, decodeFrom_encodeChar] at hdecode
  exact (List.cons.inj hdecode).1

/-! ## The bytes of a character that was read -/

theorem toNat_ofNat {n : Nat} (h : n < 0xD800 ∨ 0xDFFF < n ∧ n < 0x110000) :
    (Char.ofNat n).val.toNat = n := by
  have hvalid : n.isValidChar := h
  rw [Char.ofNat, dif_pos hvalid]
  rfl

theorem ofNat_eq {n : Nat} (b : UInt8) (h : n = b.toNat) : UInt8.ofNat n = b := by
  rw [h, UInt8.ofNat_toNat]

theorem encodeChar_one {a : UInt8} (ha : a < 0x80) :
    String.utf8EncodeChar (Char.ofNat a.toNat) = [a] := by
  have ha : a.toNat < 0x80 := ha
  rw [String.utf8EncodeChar, toNat_ofNat (by omega), if_pos (by omega), UInt8.ofNat_toNat]

theorem encodeChar_two {a b : UInt8} (ha : 0xC2 ≤ a) (ha' : a < 0xE0) (hb : 0x80 ≤ b)
    (hb' : b ≤ 0xBF) :
    String.utf8EncodeChar (Char.ofNat ((a.toNat - 0xC0) * 64 + (b.toNat - 0x80))) = [a, b] := by
  have ha : 0xC2 ≤ a.toNat := ha
  have ha' : a.toNat < 0xE0 := ha'
  have hb : 0x80 ≤ b.toNat := hb
  have hb' : b.toNat ≤ 0xBF := hb'
  rw [String.utf8EncodeChar, toNat_ofNat (by omega), if_neg (by omega), if_pos (by omega),
    ofNat_eq a (by omega), ofNat_eq b (by omega)]

/-- A second byte that is not below its range, which starts at `low` after the byte `lead`. -/
theorem second_low {a b lead low : UInt8} (hlow : 0x80 ≤ low)
    (h : (if a = lead then low else 0x80) ≤ b) :
    0x80 ≤ b.toNat ∧ (a.toNat = lead.toNat → low.toNat ≤ b.toNat) := by
  split at h
  · exact ⟨UInt8.le_trans hlow h, fun _ => h⟩
  · rename_i hne
    exact ⟨h, fun heq => absurd (UInt8.toNat_inj.mp heq) hne⟩

/-- And not above it, where it ends at `high` after the byte `lead`. -/
theorem second_high {a b lead high : UInt8} (hhigh : high ≤ 0xBF)
    (h : b ≤ if a = lead then high else 0xBF) :
    b.toNat ≤ 0xBF ∧ (a.toNat = lead.toNat → b.toNat ≤ high.toNat) := by
  split at h
  · exact ⟨UInt8.le_trans h hhigh, fun _ => h⟩
  · rename_i hne
    exact ⟨h, fun heq => absurd (UInt8.toNat_inj.mp heq) hne⟩

theorem encodeChar_three {a b d : UInt8} (ha : 0xE0 ≤ a) (ha' : a < 0xF0)
    (hb : (if a = 0xE0 then 0xA0 else 0x80) ≤ b) (hb' : b ≤ if a = 0xED then 0x9F else 0xBF)
    (hd : 0x80 ≤ d) (hd' : d ≤ 0xBF) :
    String.utf8EncodeChar (Char.ofNat
      (((a.toNat - 0xE0) * 64 + (b.toNat - 0x80)) * 64 + (d.toNat - 0x80))) = [a, b, d] := by
  have ha : 0xE0 ≤ a.toNat := ha
  have ha' : a.toNat < 0xF0 := ha'
  have hd : 0x80 ≤ d.toNat := hd
  have hd' : d.toNat ≤ 0xBF := hd'
  obtain ⟨hb, hlow⟩ : 0x80 ≤ b.toNat ∧ (a.toNat = 0xE0 → 0xA0 ≤ b.toNat) :=
    second_low (by decide) hb
  obtain ⟨hb', hhigh⟩ : b.toNat ≤ 0xBF ∧ (a.toNat = 0xED → b.toNat ≤ 0x9F) :=
    second_high (by decide) hb'
  rw [String.utf8EncodeChar, toNat_ofNat (by omega), if_neg (by omega), if_neg (by omega),
    if_pos (by omega), ofNat_eq a (by omega), ofNat_eq b (by omega),
    ofNat_eq d (by omega)]

theorem encodeChar_four {a b d e : UInt8} (ha : 0xF0 ≤ a) (ha' : a < 0xF5)
    (hb : (if a = 0xF0 then 0x90 else 0x80) ≤ b) (hb' : b ≤ if a = 0xF4 then 0x8F else 0xBF)
    (hd : 0x80 ≤ d) (hd' : d ≤ 0xBF) (he : 0x80 ≤ e) (he' : e ≤ 0xBF) :
    String.utf8EncodeChar (Char.ofNat
      ((((a.toNat - 0xF0) * 64 + (b.toNat - 0x80)) * 64 + (d.toNat - 0x80)) * 64
        + (e.toNat - 0x80)))
      = [a, b, d, e] := by
  have ha : 0xF0 ≤ a.toNat := ha
  have ha' : a.toNat < 0xF5 := ha'
  have hd : 0x80 ≤ d.toNat := hd
  have hd' : d.toNat ≤ 0xBF := hd'
  have he : 0x80 ≤ e.toNat := he
  have he' : e.toNat ≤ 0xBF := he'
  obtain ⟨hb, hlow⟩ : 0x80 ≤ b.toNat ∧ (a.toNat = 0xF0 → 0x90 ≤ b.toNat) :=
    second_low (by decide) hb
  obtain ⟨hb', hhigh⟩ : b.toNat ≤ 0xBF ∧ (a.toNat = 0xF4 → b.toNat ≤ 0x8F) :=
    second_high (by decide) hb'
  rw [String.utf8EncodeChar, toNat_ofNat (by omega), if_neg (by omega), if_neg (by omega),
    if_neg (by omega), ofNat_eq a (by omega), ofNat_eq b (by omega),
    ofNat_eq d (by omega), ofNat_eq e (by omega)]

/-! ## Inside a sequence -/

/-- What was read of a sequence when the decoder is inside it. -/
inductive Within : List UInt8 → State → Prop
  | two {a : UInt8} (ha : 0xC2 ≤ a) (ha' : a < 0xE0) :
      Within [a] (.inside 0 0x80 0xBF (a.toNat - 0xC0))
  | three {a : UInt8} (ha : 0xE0 ≤ a) (ha' : a < 0xF0) :
      Within [a] (.inside 1 (if a = 0xE0 then 0xA0 else 0x80) (if a = 0xED then 0x9F else 0xBF)
        (a.toNat - 0xE0))
  | threeTail {a b : UInt8} (ha : 0xE0 ≤ a) (ha' : a < 0xF0)
      (hb : (if a = 0xE0 then 0xA0 else 0x80) ≤ b) (hb' : b ≤ if a = 0xED then 0x9F else 0xBF) :
      Within [a, b] (.inside 0 0x80 0xBF ((a.toNat - 0xE0) * 64 + (b.toNat - 0x80)))
  | four {a : UInt8} (ha : 0xF0 ≤ a) (ha' : a < 0xF5) :
      Within [a] (.inside 2 (if a = 0xF0 then 0x90 else 0x80) (if a = 0xF4 then 0x8F else 0xBF)
        (a.toNat - 0xF0))
  | fourTail {a b : UInt8} (ha : 0xF0 ≤ a) (ha' : a < 0xF5)
      (hb : (if a = 0xF0 then 0x90 else 0x80) ≤ b) (hb' : b ≤ if a = 0xF4 then 0x8F else 0xBF) :
      Within [a, b] (.inside 1 0x80 0xBF ((a.toNat - 0xF0) * 64 + (b.toNat - 0x80)))
  | fourTails {a b d : UInt8} (ha : 0xF0 ≤ a) (ha' : a < 0xF5)
      (hb : (if a = 0xF0 then 0x90 else 0x80) ≤ b) (hb' : b ≤ if a = 0xF4 then 0x8F else 0xBF)
      (hd : 0x80 ≤ d) (hd' : d ≤ 0xBF) :
      Within [a, b, d]
        (.inside 0 0x80 0xBF (((a.toNat - 0xF0) * 64 + (b.toNat - 0x80)) * 64 + (d.toNat - 0x80)))

/-- **A byte within the range goes on with the sequence**, and where it is the last one owed the
sequence is the bytes of the character. -/
theorem Within.more {m : List UInt8} {owed bits : Nat} {low high b : UInt8}
    (h : Within m (.inside owed low high bits)) (hlow : low ≤ b) (hhigh : b ≤ high) :
    (owed = 0 → String.utf8EncodeChar (Char.ofNat (bits * 64 + (b.toNat - 0x80))) = m ++ [b])
      ∧ ∀ n, owed = n + 1 →
        Within (m ++ [b]) (.inside n 0x80 0xBF (bits * 64 + (b.toNat - 0x80))) := by
  cases h with
  | two ha ha' => exact ⟨fun _ => encodeChar_two ha ha' hlow hhigh, by simp⟩
  | three ha ha' => exact ⟨by simp, by rintro _ ⟨⟩; exact .threeTail ha ha' hlow hhigh⟩
  | threeTail ha ha' hb hb' => exact ⟨fun _ => encodeChar_three ha ha' hb hb' hlow hhigh, by simp⟩
  | four ha ha' => exact ⟨by simp, by rintro _ ⟨⟩; exact .fourTail ha ha' hlow hhigh⟩
  | fourTail ha ha' hb hb' =>
    exact ⟨by simp, by rintro _ ⟨⟩; exact .fourTails ha ha' hb hb' hlow hhigh⟩
  | fourTails ha ha' hb hb' hd hd' =>
    exact ⟨fun _ => encodeChar_four ha ha' hb hb' hd hd' hlow hhigh, by simp⟩

/-- The decoder has read what it is within. -/
theorem Within.decodeFrom_append {m : List UInt8} {s : State} (h : Within m s) (bs : List UInt8) :
    decodeFrom .start (m ++ bs) = decodeFrom s bs := by
  cases h with
  | two ha ha' =>
    rw [List.singleton_append, decodeFrom_cons, step, first_two ha ha']
    rfl
  | three ha ha' =>
    rw [List.singleton_append, decodeFrom_cons, step, first_three ha ha']
    rfl
  | threeTail ha ha' hb hb' =>
    rw [List.cons_append, List.singleton_append, decodeFrom_cons, step, first_three ha ha',
      decodeFrom_more hb hb']
    rfl
  | four ha ha' =>
    rw [List.singleton_append, decodeFrom_cons, step, first_four ha ha']
    rfl
  | fourTail ha ha' hb hb' =>
    rw [List.cons_append, List.singleton_append, decodeFrom_cons, step, first_four ha ha',
      decodeFrom_more hb hb']
    rfl
  | fourTails ha ha' hb hb' hd hd' =>
    rw [List.cons_append, List.cons_append, List.singleton_append, decodeFrom_cons, step,
      first_four ha ha', decodeFrom_more hb hb', decodeFrom_more hd hd']
    rfl

/-- Some byte always goes on. -/
theorem Within.range {m : List UInt8} {owed bits : Nat} {low high : UInt8}
    (h : Within m (.inside owed low high bits)) : low ≤ high := by
  cases h with
  | two | threeTail | fourTail | fourTails => decide
  | three | four => grind

/-- **What was read of a sequence is how some character begins**, and not all of it. -/
theorem Within.opens {m : List UInt8} {owed bits : Nat} {low high : UInt8}
    (h : Within m (.inside owed low high bits)) : ∃ b, Opens (m ++ [b]) := by
  refine ⟨low, ?_⟩
  induction owed generalizing m low high bits with
  | zero => exact ((h.more (UInt8.le_refl low) h.range).1 rfl) ▸ opens_char _
  | succ owed ih =>
    have hmore := (h.more (UInt8.le_refl low) h.range).2 owed rfl
    exact (ih hmore).mono (List.prefix_append _ _)

/-- A byte outside the range goes on with no character. -/
theorem Within.not_opens {m : List UInt8} {owed bits : Nat} {low high b : UInt8}
    (h : Within m (.inside owed low high bits)) (hout : ¬ (low ≤ b ∧ b ≤ high)) :
    ¬ Opens (m ++ [b]) := by
  rintro ⟨c, r, hr⟩
  -- the decoder would read the character, but it gives up before the byte and reads that as a
  -- first one
  have hchar : decodeFrom .start (m ++ b :: r) = [c] := by
    rw [List.append_cons, hr]
    exact decodeFrom_char c
  have hgives : decodeFrom (.inside owed low high bits) (b :: r)
      = replacement :: decodeFrom .start (b :: r) := by
    rw [decodeFrom_cons, step, if_neg hout]
    rfl
  rw [h.decodeFrom_append, hgives] at hchar
  exact decodeFrom_ne_nil .start b r (List.cons.inj hchar).2

/-- **All that a byte does between two characters**: it is one, it goes into a sequence, or it
begins no character. -/
theorem first_cases (b : UInt8) :
    (∃ c, first b = ([c], .start) ∧ String.utf8EncodeChar c = [b])
      ∨ (∃ owed low high bits, first b = ([], .inside owed low high bits)
          ∧ Within [b] (.inside owed low high bits))
      ∨ (first b = ([replacement], .start) ∧ ¬ Opens [b]) := by
  by_cases h₁ : b < 0x80
  · exact Or.inl ⟨_, first_one h₁, encodeChar_one h₁⟩
  by_cases h₂ : 0xC2 ≤ b ∧ b < 0xE0
  · exact Or.inr (Or.inl ⟨_, _, _, _, first_two h₂.1 h₂.2, .two h₂.1 h₂.2⟩)
  by_cases h₃ : 0xE0 ≤ b ∧ b < 0xF0
  · exact Or.inr (Or.inl ⟨_, _, _, _, first_three h₃.1 h₃.2, .three h₃.1 h₃.2⟩)
  by_cases h₄ : 0xF0 ≤ b ∧ b < 0xF5
  · exact Or.inr (Or.inl ⟨_, _, _, _, first_four h₄.1 h₄.2, .four h₄.1 h₄.2⟩)
  have hrefused : first b = ([replacement], .start) := by grind [first]
  refine Or.inr (Or.inr ⟨hrefused, ?_⟩)
  rintro ⟨c, r, hr⟩
  have hchar : decodeFrom .start (b :: r) = [c] := by
    rw [← List.singleton_append, hr]
    exact decodeFrom_char c
  rw [decodeFrom_cons, step, hrefused] at hchar
  obtain ⟨hc, hrest⟩ := List.cons.inj hchar
  -- then the character is U+FFFD, which has more bytes than one
  cases r with
  | nil =>
    have hlength : (String.utf8EncodeChar replacement).length = 1 := by rw [hc, ← hr]; rfl
    exact absurd hlength (by decide)
  | cons b' r => exact decodeFrom_ne_nil .start b' r hrest

/-- **All that a byte does inside a sequence**: it ends the character, it goes on with it, or it
goes on with no character and is read as a first byte. -/
theorem inside_cases {m : List UInt8} {owed bits : Nat} {low high : UInt8}
    (h : Within m (.inside owed low high bits)) (b : UInt8) :
    (∃ c, step (.inside owed low high bits) b = ([c], .start) ∧ String.utf8EncodeChar c = m ++ [b])
      ∨ (∃ owed' low' high' bits',
          step (.inside owed low high bits) b = ([], .inside owed' low' high' bits')
            ∧ Within (m ++ [b]) (.inside owed' low' high' bits'))
      ∨ (step (.inside owed low high bits) b = (replacement :: (first b).1, (first b).2)
          ∧ ¬ Opens (m ++ [b])) := by
  by_cases hin : low ≤ b ∧ b ≤ high
  · have hmore := h.more hin.1 hin.2
    cases owed with
    | zero =>
      refine Or.inl ⟨_, ?_, hmore.1 rfl⟩
      rw [step, if_pos hin]
    | succ owed =>
      refine Or.inr (Or.inl ⟨_, _, _, _, ?_, hmore.2 owed rfl⟩)
      rw [step, if_pos hin]
  · refine Or.inr (Or.inr ⟨?_, h.not_opens hin⟩)
    rw [step, if_neg hin]

/-! ## The decoder finds the text -/

/-- Where the next byte goes on with no character, nothing longer does. -/
theorem length_le_of_opens {m m' bs : List UInt8} (hm' : m' <+: m ++ bs) (hopens : Opens m')
    (hstop : ∀ b r, bs = b :: r → ¬ Opens (m ++ [b])) : m'.length ≤ m.length := by
  rcases List.prefix_or_prefix_of_prefix hm' (List.prefix_append m bs) with hle | ⟨t, rfl⟩
  · exact hle.length_le
  · cases t with
    | nil => exact Nat.le_of_eq (congrArg List.length (List.append_nil m))
    | cons b t =>
      obtain ⟨r, hr⟩ := (List.prefix_append_right_inj m).mp hm'
      refine absurd (hopens.mono ?_) (hstop b (t ++ r) hr.symm)
      exact List.append_cons m b t ▸ List.prefix_append (m ++ [b]) t

/-- A byte that begins no character is broken off alone. -/
theorem broken_byte {b : UInt8} (h : ¬ Opens [b]) (bs : List UInt8) : Broken [b] bs := by
  have hnone : ∀ m', m' <+: [b] ++ bs → Opens m' → m'.length ≤ 0 := by
    intro m' hm' hopens
    refine length_le_of_opens (m := []) hm' hopens ?_
    rintro _ _ ⟨⟩
    exact h
  refine ⟨by simp, fun c hc => ?_, Or.inr rfl, fun m' hm' hopens => ?_⟩
  · exact encodeChar_ne_nil c
      (List.length_eq_zero_iff.mp (Nat.le_zero.mp (hnone _ hc (opens_char c))))
  · exact Nat.le_trans (hnone m' hm' hopens) (Nat.zero_le 1)

/-- What was read of a sequence is broken off when the next byte does not go on with it. -/
theorem Within.broken {m : List UInt8} {owed bits : Nat} {low high : UInt8}
    (h : Within m (.inside owed low high bits)) {bs : List UInt8}
    (hstop : ∀ b r, bs = b :: r → ¬ Opens (m ++ [b])) : Broken m bs := by
  obtain ⟨b, hmore⟩ := h.opens
  have hne : m ≠ [] := by cases h <;> simp
  refine ⟨hne, fun c hc => ?_, Or.inl (hmore.mono (List.prefix_append m [b])),
    fun m' hm' hopens => length_le_of_opens hm' hopens hstop⟩
  -- a character within what was read would begin the longer one that was begun
  have hlength := length_le_of_opens hc (opens_char c) hstop
  have hm : String.utf8EncodeChar c <+: m :=
    List.prefix_of_prefix_length_le hc (List.prefix_append m bs) hlength
  obtain ⟨d, hd⟩ := hmore
  obtain rfl : c = d := eq_of_prefix ((hm.trans (List.prefix_append m [b])).trans hd)
  have hlonger := hd.length_le
  rw [List.length_append, List.length_singleton] at hlonger
  omega

/-- **The text that the decoder makes is what the bytes stand for**, from wherever it stands. -/
theorem lossy_decodeFrom (bs : List UInt8) :
    Lossy bs (decodeFrom .start bs)
      ∧ ∀ m owed low high bits, Within m (.inside owed low high bits) →
          Lossy (m ++ bs) (decodeFrom (.inside owed low high bits) bs) := by
  induction bs with
  | nil =>
    refine ⟨.nil, fun m owed low high bits h => ?_⟩
    exact .broken (h.broken (by simp)) .nil
  | cons b bs ih =>
    obtain ⟨hstart, hinside⟩ := ih
    have hfirst : Lossy (b :: bs) (decodeFrom .start (b :: bs)) := by
      rw [decodeFrom_cons, step]
      rcases first_cases b with ⟨c, hb, hc⟩ | ⟨owed, low, high, bits, hb, h⟩ | ⟨hb, hnot⟩
      · rw [hb, ← List.singleton_append, ← hc]
        exact .char hstart
      · rw [hb]
        exact hinside [b] owed low high bits h
      · rw [hb]
        exact .broken (broken_byte hnot bs) hstart
    refine ⟨hfirst, fun m owed low high bits h => ?_⟩
    rw [decodeFrom_cons]
    rcases inside_cases h b with ⟨c, hb, hc⟩ | ⟨owed', low', high', bits', hb, h'⟩ | ⟨hb, hnot⟩
    · rw [hb, List.append_cons, ← hc]
      exact .char hstart
    · rw [hb, List.append_cons]
      exact hinside (m ++ [b]) owed' low' high' bits' h'
    · rw [hb]
      refine .broken (h.broken ?_) hfirst
      rintro _ _ ⟨⟩
      exact hnot

/-- Where a character begins, nothing is broken off, and what is broken off is determined. -/
theorem Broken.unique {m m' bs bs' : List UInt8} (h : Broken m bs) (h' : Broken m' bs')
    (heq : m ++ bs = m' ++ bs') : m = m' := by
  have hle : m.length ≤ m'.length := by
    rcases h.opens with hopens | hone
    · exact h'.longest m (heq ▸ List.prefix_append m bs) hopens
    · rw [hone]
      exact List.length_pos_iff.mpr h'.nonempty
  have hge : m'.length ≤ m.length := by
    rcases h'.opens with hopens | hone
    · exact h.longest m' (heq ▸ List.prefix_append m' bs') hopens
    · rw [hone]
      exact List.length_pos_iff.mpr h.nonempty
  exact List.append_inj_left heq (Nat.le_antisymm hle hge)

/-- **Bytes stand for one text only.** -/
theorem Lossy.unique {bs bs' : List UInt8} {cs ds : List Char} (h : Lossy bs cs)
    (h' : Lossy bs' ds) (heq : bs = bs') : cs = ds := by
  induction h generalizing bs' ds with
  | nil =>
    cases h' with
    | nil => rfl
    | char h' => exact absurd (List.append_eq_nil_iff.mp heq.symm).1 (encodeChar_ne_nil _)
    | broken hm h' => exact absurd (List.append_eq_nil_iff.mp heq.symm).1 hm.nonempty
  | @char c bs cs h ih =>
    cases h' with
    | nil => exact absurd (List.append_eq_nil_iff.mp heq).1 (encodeChar_ne_nil _)
    | @char d bs' ds h' =>
      have hdecode := congrArg (decodeFrom .start) heq
      rw [decodeFrom_encodeChar, decodeFrom_encodeChar] at hdecode
      obtain rfl : c = d := (List.cons.inj hdecode).1
      rw [ih h' (List.append_cancel_left heq)]
    | broken hm h' => exact absurd ⟨bs, heq⟩ (hm.noChar c)
  | @broken m bs cs hm h ih =>
    cases h' with
    | nil => exact absurd (List.append_eq_nil_iff.mp heq).1 hm.nonempty
    | @char d bs' ds h' => exact absurd ⟨bs', heq.symm⟩ (hm.noChar d)
    | @broken m' bs' ds hm' h' =>
      obtain rfl : m = m' := hm.unique hm' heq
      rw [ih h' (List.append_cancel_left heq)]

theorem lossy_decode (bs : List UInt8) : Lossy bs (decode bs) := (lossy_decodeFrom bs).1

/-- **The decoder finds the text that bytes stand for**, and no other text will do. -/
theorem lossy_iff (bs : List UInt8) (cs : List Char) : Lossy bs cs ↔ cs = decode bs := by
  constructor
  · exact fun h => h.unique (lossy_decode bs) rfl
  · rintro rfl
    exact lossy_decode bs

/-! ## Bytes below 0x80 -/

/-- A byte below 0x80 in a character is the character. -/
theorem encodeChar_of_mem {c : Char} {b : UInt8} (h : b ∈ String.utf8EncodeChar c)
    (hb : b < 0x80) : String.utf8EncodeChar c = [b] := by
  rw [← encodeChar_one hb, ← eq_of_mem_encodeChar h hb, Char.ofNat_toNat]

/-- How a character begins ends before such a byte, unless that is where it begins. -/
theorem prefix_of_opens {m u bs : List UInt8} {b : UInt8} (hb : b < 0x80) (hu : u ≠ [])
    (hm : m <+: u ++ b :: bs) (hopens : Opens m) : m <+: u := by
  obtain ⟨c, hc⟩ := hopens
  rcases List.prefix_or_prefix_of_prefix hm (List.prefix_append u (b :: bs)) with hle | ⟨t, rfl⟩
  · exact hle
  · cases t with
    | nil => simp
    | cons b' t =>
      obtain ⟨r, hr⟩ := (List.prefix_append_right_inj u).mp hm
      obtain rfl : b' = b := (List.cons.inj hr).1
      have hmem : b' ∈ u ++ b' :: t := List.mem_append_right u List.mem_cons_self
      have hlength := hc.length_le
      rw [encodeChar_of_mem (hc.subset hmem) hb, List.length_append, List.length_cons] at hlength
      have hpos := List.length_pos_iff.mpr hu
      exact absurd hlength (by simp; omega)

/-- What is broken off before such a byte is broken off without it. -/
theorem Broken.append_ascii {m bs : List UInt8} (h : Broken m bs) {b : UInt8} (hb : b < 0x80)
    (more : List UInt8) : Broken m (bs ++ b :: more) where
  nonempty := h.nonempty
  noChar := by
    intro c hc
    rw [← List.append_assoc] at hc
    exact h.noChar c (prefix_of_opens hb (by simp [h.nonempty]) hc (opens_char c))
  opens := h.opens
  longest := by
    intro m' hm' hopens
    rw [← List.append_assoc] at hm'
    exact h.longest m' (prefix_of_opens hb (by simp [h.nonempty]) hm' hopens) hopens

theorem Lossy.append_ascii {bs more : List UInt8} {cs ds : List Char} (h : Lossy bs cs)
    (hmore : Lossy more ds) {b : UInt8} (hb : b < 0x80) :
    Lossy (bs ++ b :: more) (cs ++ Char.ofNat b.toNat :: ds) := by
  induction h with
  | nil =>
    rw [List.nil_append, List.nil_append, ← List.singleton_append, ← encodeChar_one hb]
    exact .char hmore
  | char h ih =>
    rw [List.append_assoc, List.cons_append]
    exact .char ih
  | broken hm h ih =>
    rw [List.append_assoc, List.cons_append]
    exact .broken (hm.append_ascii hb more) ih

/-- **Bytes are decoded apart on both sides of a byte below 0x80.** -/
theorem decode_append_ascii {b : UInt8} (hb : b < 0x80) (bs more : List UInt8) :
    decode (bs ++ b :: more) = decode bs ++ Char.ofNat b.toNat :: decode more := by
  have happend := (lossy_decode bs).append_ascii (lossy_decode more) hb
  exact ((lossy_iff _ _).mp happend).symm

theorem ofNat_ne_replacement {b : UInt8} (hb : b < 0x80) : Char.ofNat b.toNat ≠ replacement := by
  intro h
  have hlength : (String.utf8EncodeChar replacement).length = 1 := by
    rw [← h, encodeChar_one hb]
    rfl
  exact absurd hlength (by decide)

/-- **A character below U+0080 comes from the byte that it is.** -/
theorem Lossy.mem_of_ascii {bs : List UInt8} {cs : List Char} (h : Lossy bs cs) {b : UInt8}
    (hb : b < 0x80) (hmem : Char.ofNat b.toNat ∈ cs) : b ∈ bs := by
  induction h with
  | nil => exact absurd hmem List.not_mem_nil
  | char h ih =>
    rcases List.mem_cons.mp hmem with rfl | hmem
    · rw [encodeChar_one hb]
      exact List.mem_append_left _ (List.mem_singleton_self b)
    · exact List.mem_append_right _ (ih hmem)
  | broken hm h ih =>
    rcases List.mem_cons.mp hmem with heq | hmem
    · exact absurd heq (ofNat_ne_replacement hb)
    · exact List.mem_append_right _ (ih hmem)

/-- **And at the end of the text from the last byte.** -/
theorem getLast?_of_ascii {bs : List UInt8} {b : UInt8} (hb : b < 0x80)
    (hlast : (decode bs).getLast? = some (Char.ofNat b.toNat)) : bs.getLast? = some b := by
  have hmem : b ∈ bs := (lossy_decode bs).mem_of_ascii hb (List.mem_of_getLast? hlast)
  -- the last such byte is the last byte: what followed it would have text of its own, without the
  -- character
  obtain ⟨back, front, hsplit, hback⟩ := List.eq_append_cons_of_mem (List.mem_reverse.mpr hmem)
  obtain rfl : bs = front.reverse ++ b :: back.reverse := by
    rw [← List.reverse_reverse bs, hsplit]
    simp
  rw [decode_append_ascii hb, List.getLast?_append, List.getLast?_cons] at hlast
  cases hrest : (decode back.reverse).getLast? with
  | none =>
    rw [decode_eq_nil_iff.mp (List.getLast?_eq_none_iff.mp hrest), List.getLast?_concat]
  | some c =>
    rw [hrest] at hlast
    obtain rfl : c = Char.ofNat b.toNat := Option.some.inj hlast
    have hmem' := (lossy_decode _).mem_of_ascii hb (List.mem_of_getLast? hrest)
    exact absurd (List.mem_reverse.mp hmem') hback

end ViewStream.Text.Utf8
