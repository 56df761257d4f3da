import ViewStream.Text.Utf8

/-!
# What is encoded can be decoded

The decoder was written for bytes of any kind. On the bytes of a text it gives back the text
(`decode_encode`): **no first byte of a character is refused, and none of its other bytes falls
outside the range that the first one set**. The ranges are where the care is needed. The second
byte after `E0` or `F0` starts higher, which an overlong form would undercut; after `ED` or `F4` it
ends lower, which a surrogate or a code point above U+10FFFF would exceed.

A byte below 0x80 only ever stands for itself, so there is a line break in the bytes only where
there is one in the text (`mem_of_mem_encode`).
-/

namespace ViewStream.Text.Utf8

/-! ## One byte -/

theorem first_one {b : UInt8} (h : b < 0x80) : first b = ([Char.ofNat b.toNat], .start) := by
  grind [first]

theorem first_two {b : UInt8} (hlow : 0xC2 ≤ b) (hhigh : b < 0xE0) :
    first b = ([], .inside 0 0x80 0xBF (b.toNat - 0xC0)) := by
  grind [first]

theorem first_three {b : UInt8} (hlow : 0xE0 ≤ b) (hhigh : b < 0xF0) :
    first b = ([], .inside 1 (if b = 0xE0 then 0xA0 else 0x80) (if b = 0xED then 0x9F else 0xBF)
      (b.toNat - 0xE0)) := by
  grind [first]

theorem first_four {b : UInt8} (hlow : 0xF0 ≤ b) (hhigh : b < 0xF5) :
    first b = ([], .inside 2 (if b = 0xF0 then 0x90 else 0x80) (if b = 0xF4 then 0x8F else 0xBF)
      (b.toNat - 0xF0)) := by
  grind [first]

theorem decodeFrom_cons (s : State) (b : UInt8) (bs : List UInt8) :
    decodeFrom s (b :: bs) = (step s b).1 ++ decodeFrom (step s b).2 bs := by
  cases s <;> rfl

/-- A byte in its range goes on with the sequence. -/
theorem decodeFrom_more {low high b : UInt8} (hlow : low ≤ b) (hhigh : b ≤ high) (owed bits : Nat)
    (bs : List UInt8) :
    decodeFrom (.inside (owed + 1) low high bits) (b :: bs)
      = decodeFrom (.inside owed 0x80 0xBF (bits * 64 + (b.toNat - 0x80))) bs := by
  rw [decodeFrom_cons, step, if_pos ⟨hlow, hhigh⟩]
  rfl

/-- The last byte of a sequence, in its range, ends the character. -/
theorem decodeFrom_last {low high b : UInt8} (hlow : low ≤ b) (hhigh : b ≤ high) (bits : Nat)
    (bs : List UInt8) :
    decodeFrom (.inside 0 low high bits) (b :: bs)
      = Char.ofNat (bits * 64 + (b.toNat - 0x80)) :: decodeFrom .start bs := by
  rw [decodeFrom_cons, step, if_pos ⟨hlow, hhigh⟩]
  rfl

/-! ## One character -/

/-- A byte that holds six bits of a character and is not its first. -/
theorem toNat_tail (m : Nat) : (UInt8.ofNat (m % 64 + 128)).toNat = m % 64 + 128 := by
  rw [UInt8.toNat_ofNat']
  omega

theorem le_tail (m : Nat) : 0x80 ≤ UInt8.ofNat (m % 64 + 128) := by
  rw [UInt8.le_iff_toNat_le, toNat_tail]
  exact Nat.le_add_left ..

theorem tail_le (m : Nat) : UInt8.ofNat (m % 64 + 128) ≤ 0xBF := by
  rw [UInt8.le_iff_toNat_le, toNat_tail]
  show m % 64 + 128 ≤ 0xBF
  omega

theorem decode_one {v : Nat} (h : v ≤ 0x7F) (bs : List UInt8) :
    decodeFrom .start (.ofNat v :: bs) = Char.ofNat v :: decodeFrom .start bs := by
  have hv : (UInt8.ofNat v).toNat = v := by rw [UInt8.toNat_ofNat']; omega
  have hlt : UInt8.ofNat v < 0x80 := by
    rw [UInt8.lt_iff_toNat_lt, hv]
    show v < 0x80
    omega
  rw [decodeFrom_cons, step, first_one hlt, hv]
  rfl

theorem decode_two {v : Nat} (hlow : 0x7F < v) (hhigh : v ≤ 0x7FF) (bs : List UInt8) :
    decodeFrom .start (.ofNat (v / 64 % 32 + 192) :: .ofNat (v % 64 + 128) :: bs)
      = Char.ofNat v :: decodeFrom .start bs := by
  have hb : (UInt8.ofNat (v / 64 % 32 + 192)).toNat = v / 64 + 192 := by
    rw [UInt8.toNat_ofNat']; omega
  have hfirst : first (.ofNat (v / 64 % 32 + 192)) = ([], .inside 0 0x80 0xBF (v / 64)) := by
    rw [first_two, hb, Nat.add_sub_cancel]
    · rw [UInt8.le_iff_toNat_le, hb]
      show 0xC2 ≤ v / 64 + 192
      omega
    · rw [UInt8.lt_iff_toNat_lt, hb]
      show v / 64 + 192 < 0xE0
      omega
  have hbits : v / 64 * 64 + (v % 64 + 128 - 0x80) = v := by omega
  rw [decodeFrom_cons, step, hfirst]
  dsimp only
  rw [List.nil_append, decodeFrom_last (le_tail v) (tail_le v), toNat_tail, hbits]

theorem decode_three {v : Nat} (hlow : 0x7FF < v) (hhigh : v ≤ 0xFFFF)
    (hvalid : v < 0xD800 ∨ 0xDFFF < v) (bs : List UInt8) :
    decodeFrom .start (.ofNat (v / 4096 % 16 + 224) :: .ofNat (v / 64 % 64 + 128)
        :: .ofNat (v % 64 + 128) :: bs)
      = Char.ofNat v :: decodeFrom .start bs := by
  let b := UInt8.ofNat (v / 4096 % 16 + 224)
  have hb : b.toNat = v / 4096 + 224 := by
    rw [UInt8.toNat_ofNat']; omega
  have hfirst : first b = ([], .inside 1 (if b = 0xE0 then 0xA0 else 0x80)
      (if b = 0xED then 0x9F else 0xBF) (v / 4096)) := by
    rw [first_three, hb, Nat.add_sub_cancel]
    · rw [UInt8.le_iff_toNat_le, hb]
      show 0xE0 ≤ v / 4096 + 224
      omega
    · rw [UInt8.lt_iff_toNat_lt, hb]
      show v / 4096 + 224 < 0xF0
      omega
  -- after E0 the second byte starts higher, and after ED it ends lower
  have hsecond : (if b = 0xE0 then 0xA0 else 0x80) ≤ UInt8.ofNat (v / 64 % 64 + 128) := by
    split
    · rename_i heq
      have h : v / 4096 + 224 = 0xE0 := hb.symm.trans (congrArg UInt8.toNat heq)
      rw [UInt8.le_iff_toNat_le, toNat_tail]
      show 0xA0 ≤ v / 64 % 64 + 128
      omega
    · exact le_tail (v / 64)
  have hsecond' : UInt8.ofNat (v / 64 % 64 + 128) ≤ (if b = 0xED then 0x9F else 0xBF) := by
    split
    · rename_i heq
      have h : v / 4096 + 224 = 0xED := hb.symm.trans (congrArg UInt8.toNat heq)
      rw [UInt8.le_iff_toNat_le, toNat_tail]
      show v / 64 % 64 + 128 ≤ 0x9F
      omega
    · exact tail_le (v / 64)
  have hbits : (v / 4096 * 64 + (v / 64 % 64 + 128 - 0x80)) * 64 + (v % 64 + 128 - 0x80) = v := by
    omega
  rw [decodeFrom_cons, step, hfirst]
  dsimp only
  rw [List.nil_append, decodeFrom_more hsecond hsecond', decodeFrom_last (le_tail v) (tail_le v),
    toNat_tail, toNat_tail, hbits]

theorem decode_four {v : Nat} (hlow : 0xFFFF < v) (hhigh : v < 0x110000) (bs : List UInt8) :
    decodeFrom .start (.ofNat (v / 262144 % 8 + 240) :: .ofNat (v / 4096 % 64 + 128)
        :: .ofNat (v / 64 % 64 + 128) :: .ofNat (v % 64 + 128) :: bs)
      = Char.ofNat v :: decodeFrom .start bs := by
  let b := UInt8.ofNat (v / 262144 % 8 + 240)
  have hb : b.toNat = v / 262144 + 240 := by
    rw [UInt8.toNat_ofNat']; omega
  have hfirst : first b = ([], .inside 2 (if b = 0xF0 then 0x90 else 0x80)
      (if b = 0xF4 then 0x8F else 0xBF) (v / 262144)) := by
    rw [first_four, hb, Nat.add_sub_cancel]
    · rw [UInt8.le_iff_toNat_le, hb]
      show 0xF0 ≤ v / 262144 + 240
      omega
    · rw [UInt8.lt_iff_toNat_lt, hb]
      show v / 262144 + 240 < 0xF5
      omega
  have hsecond : (if b = 0xF0 then 0x90 else 0x80) ≤ UInt8.ofNat (v / 4096 % 64 + 128) := by
    split
    · rename_i heq
      have h : v / 262144 + 240 = 0xF0 := hb.symm.trans (congrArg UInt8.toNat heq)
      rw [UInt8.le_iff_toNat_le, toNat_tail]
      show 0x90 ≤ v / 4096 % 64 + 128
      omega
    · exact le_tail (v / 4096)
  have hsecond' : UInt8.ofNat (v / 4096 % 64 + 128) ≤ (if b = 0xF4 then 0x8F else 0xBF) := by
    split
    · rename_i heq
      have h : v / 262144 + 240 = 0xF4 := hb.symm.trans (congrArg UInt8.toNat heq)
      rw [UInt8.le_iff_toNat_le, toNat_tail]
      show v / 4096 % 64 + 128 ≤ 0x8F
      omega
    · exact tail_le (v / 4096)
  have hbits : ((v / 262144 * 64 + (v / 4096 % 64 + 128 - 0x80)) * 64
      + (v / 64 % 64 + 128 - 0x80)) * 64 + (v % 64 + 128 - 0x80) = v := by
    omega
  rw [decodeFrom_cons, step, hfirst]
  dsimp only
  rw [List.nil_append, decodeFrom_more hsecond hsecond',
    decodeFrom_more (le_tail (v / 64)) (tail_le (v / 64)), decodeFrom_last (le_tail v) (tail_le v),
    toNat_tail, toNat_tail, toNat_tail, hbits]

/-- **The bytes of a character are read as that character.** -/
theorem decodeFrom_encodeChar (c : Char) (bs : List UInt8) :
    decodeFrom .start (String.utf8EncodeChar c ++ bs) = c :: decodeFrom .start bs := by
  have hvalid : c.val.toNat < 0xD800 ∨ 0xDFFF < c.val.toNat ∧ c.val.toNat < 0x110000 := c.valid
  have hc : Char.ofNat c.val.toNat = c := Char.ofNat_toNat c
  rw [String.utf8EncodeChar]
  split
  · rw [List.cons_append, List.nil_append, decode_one (by assumption), hc]
  · split
    · rw [List.cons_append, List.cons_append, List.nil_append,
        decode_two (by omega) (by assumption), hc]
    · split
      · rw [List.cons_append, List.cons_append, List.cons_append, List.nil_append,
          decode_three (by omega) (by assumption) (by omega), hc]
      · rw [List.cons_append, List.cons_append, List.cons_append, List.cons_append,
          List.nil_append, decode_four (by omega) (by omega), hc]

/-! ## Whole texts -/

/-- **A text is read off its bytes.** -/
theorem decode_encode (cs : List Char) : decode (encode cs) = cs := by
  rw [decode]
  induction cs with
  | nil => rfl
  | cons c cs ih =>
    have hcons : encode (c :: cs) = String.utf8EncodeChar c ++ encode cs := List.flatMap_cons
    rw [hcons, decodeFrom_encodeChar, ih]

theorem encode_append (cs ds : List Char) : encode (cs ++ ds) = encode cs ++ encode ds :=
  List.flatMap_append

/-- A byte below 0x80 is all there is of a character. -/
theorem eq_of_mem_encodeChar {c : Char} {b : UInt8} (h : b ∈ String.utf8EncodeChar c)
    (hb : b < 0x80) : c.toNat = b.toNat := by
  have hlt : b.toNat < 128 := UInt8.lt_iff_toNat_lt.mp hb
  have htail : ∀ m, b ≠ UInt8.ofNat (m % 64 + 128) := by
    rintro m rfl
    rw [toNat_tail] at hlt
    omega
  have hfirst : ∀ m, 128 ≤ m → m < 256 → b ≠ UInt8.ofNat m := by
    rintro m hlow hhigh rfl
    rw [UInt8.toNat_ofNat', Nat.mod_eq_of_lt hhigh] at hlt
    omega
  rw [String.utf8EncodeChar] at h
  split at h
  · rename_i hone
    have hone : c.toNat ≤ 127 := hone
    rw [List.mem_singleton.mp h, UInt8.toNat_ofNat']
    exact (Nat.mod_eq_of_lt (by omega)).symm
  · split at h
    · simp only [List.mem_cons, List.not_mem_nil, or_false] at h
      rcases h with h | h
      · exact absurd h (hfirst _ (by omega) (by omega))
      · exact absurd h (htail _)
    · split at h
      · simp only [List.mem_cons, List.not_mem_nil, or_false] at h
        rcases h with h | h | h
        · exact absurd h (hfirst _ (by omega) (by omega))
        · exact absurd h (htail _)
        · exact absurd h (htail _)
      · simp only [List.mem_cons, List.not_mem_nil, or_false] at h
        rcases h with h | h | h | h
        · exact absurd h (hfirst _ (by omega) (by omega))
        · exact absurd h (htail _)
        · exact absurd h (htail _)
        · exact absurd h (htail _)

/-- The bytes of a text have a byte below 0x80 only where the text has the character. -/
theorem mem_of_mem_encode {cs : List Char} {b : UInt8} (h : b ∈ encode cs) (hb : b < 0x80) :
    ∃ c ∈ cs, c.toNat = b.toNat := by
  obtain ⟨c, hc, hmem⟩ := List.mem_flatMap.mp h
  exact ⟨c, hc, eq_of_mem_encodeChar hmem hb⟩

end ViewStream.Text.Utf8
