import ViewStream.Json.Printer
import ViewStream.Json.Reader

/-!
# JSON that is printed can be read

A value is printed without blanks and read back as it was (`read?_compact`), as long as its numbers
are integers of 64 bits, its objects are in key order and it does not nest too deep. The first is
what the printer and the reader agree on to the digit, the second what the reader makes of any
object, and the third its own bound.

Each scanner is followed from the front of what was printed to **what remains**, which may be
anything that cannot be taken for more of the same. For a value that is `Stops`: what comes after
it ends it.

What is printed has no control characters either, in strings as little as anywhere else, so it
stays on one line (`plain_chars`).
-/

namespace ViewStream.Json

/-! ## What is printed faithfully -/

/-- An integer that fits in 64 bits, with a sign or without. -/
def Number.Fits : Number → Prop
  | .int n => -Int.ofNat (Nat.pow 2 63) ≤ n ∧ n < Int.ofNat (Nat.pow 2 64)
  | .double _ => False

namespace Value

mutual

/-- Every number within the value is an integer that fits in 64 bits. -/
def Integral : Value → Prop
  | .num n => n.Fits
  | .arr xs => ItemsIntegral xs
  | .obj ms => MembersIntegral ms
  | _ => True

/-- Every number within the items is an integer that fits. -/
def ItemsIntegral : List Value → Prop
  | [] => True
  | x :: xs => x.Integral ∧ ItemsIntegral xs

/-- Every number within the members is an integer that fits. -/
def MembersIntegral : List (String × Value) → Prop
  | [] => True
  | (_, v) :: ms => v.Integral ∧ MembersIntegral ms

end

mutual

/-- How many containers are nested in each other, the value itself included. -/
def nesting : Value → Nat
  | .arr xs => itemsNesting xs + 1
  | .obj ms => membersNesting ms + 1
  | _ => 0

/-- The nesting of the item that nests deepest. -/
def itemsNesting : List Value → Nat
  | [] => 0
  | x :: xs => max x.nesting (itemsNesting xs)

/-- The nesting of the member that nests deepest. -/
def membersNesting : List (String × Value) → Nat
  | [] => 0
  | (_, v) :: ms => max v.nesting (membersNesting ms)

end

end Value

end ViewStream.Json

namespace ViewStream.Json.Reader

/-- What may come after a value: nothing, or a character that ends it. -/
def Stops (rest : List Char) : Prop :=
  ∀ c cs, rest = c :: cs → c = ',' ∨ c = ']' ∨ c = '\x7d'

theorem stops_nil : Stops [] := by
  intro c cs h
  exact absurd h (by simp)

/-! ## Strings -/

/-- **How a character is escaped**: by a letter after a backslash, as a control character by its
number, or not at all. -/
theorem escapeChar_cases (c : Char) :
    (∃ d, escapeChar c = ['\\', d] ∧ unescape? d = some c ∧ 0x20 ≤ d.toNat)
      ∨ (escapeChar c = ['\\', 'u', '0', '0', Text.hexDigit (c.toNat / 16),
          Text.hexDigit (c.toNat % 16)] ∧ c.toNat < 0x20)
      ∨ (escapeChar c = [c] ∧ c ≠ '"' ∧ c ≠ '\\' ∧ 0x20 ≤ c.toNat) := by
  unfold escapeChar
  split
  · subst c; exact Or.inl ⟨'"', rfl, rfl, by decide⟩
  split
  · subst c; exact Or.inl ⟨'\\', rfl, rfl, by decide⟩
  split
  · subst c; exact Or.inl ⟨'n', rfl, rfl, by decide⟩
  split
  · subst c; exact Or.inl ⟨'r', rfl, rfl, by decide⟩
  split
  · subst c; exact Or.inl ⟨'t', rfl, rfl, by decide⟩
  split
  · subst c; exact Or.inl ⟨'b', rfl, rfl, by decide⟩
  split
  · subst c; exact Or.inl ⟨'f', rfl, rfl, by decide⟩
  split
  · rename_i hctl
    exact Or.inr (Or.inl ⟨rfl, hctl⟩)
  · rename_i hquote hslash _ _ _ _ _ hctl
    exact Or.inr (Or.inr ⟨rfl, hquote, hslash, Nat.not_lt.mp hctl⟩)

/-- Two digits are enough for a control character. -/
theorem hex4?_control {n : Nat} (h : n < 0x20) :
    hex4? '0' '0' (Text.hexDigit (n / 16)) (Text.hexDigit (n % 16)) = some n := by
  have all : ∀ m : Fin 0x20,
      hex4? '0' '0' (Text.hexDigit (m / 16)) (Text.hexDigit (m % 16)) = some m.val := by decide
  exact all ⟨n, h⟩

/-- One escaped character is read as that character. -/
theorem stringBody_escapeChar (c : Char) (rest : List Char) :
    stringBody (escapeChar c ++ rest) = consText c (stringBody rest) := by
  rcases escapeChar_cases c with ⟨d, hc, hd, _⟩ | ⟨hc, hctl⟩ | ⟨hc, hquote, hslash, hctl⟩
  · rw [hc, List.cons_append, List.cons_append, List.nil_append, stringBody, hd]
    -- a `u` would have begun four digits
    rintro _ _ _ _ _ rfl
    exact absurd hd (by simp [unescape?])
  · have hlead : isLead c.toNat = false := by simp [isLead]; omega
    have htrail : isTrail c.toNat = false := by simp [isTrail]; omega
    simp only [hc, List.cons_append, List.nil_append]
    rw [stringBody, hex4?_control hctl]
    simp [hlead, htrail]
  · have hbare : ¬ (c = '\\' ∨ c.toNat < 0x20) := by
      rintro (hc | hc)
      · exact hslash hc
      · exact absurd hctl (Nat.not_le_of_lt hc)
    rw [hc, List.cons_append, List.nil_append, stringBody, if_neg hbare]
    all_goals simp_all

/-- **A string is read off its literal**, after the opening quote. -/
theorem stringBody_quoted (cs rest : List Char) :
    stringBody (cs.flatMap escapeChar ++ '"' :: rest) = some (cs, rest) := by
  induction cs with
  | nil => rfl
  | cons c cs ih =>
    rw [List.flatMap_cons, List.append_assoc, stringBody_escapeChar, ih]
    rfl

/-! ## Numbers -/

/-- Only zero is written with a zero in front. -/
theorem eq_zero_of_toDigits {n : Nat} {ds : List Char} (h : Nat.toDigits 10 n = '0' :: ds) :
    n = 0 := by
  induction n using Nat.strongRecOn generalizing ds with
  | ind n ih =>
    by_cases hn : n < 10
    · rw [Nat.toDigits_of_lt_base hn] at h
      exact Nat.digitChar_eq_zero.mp (List.cons.inj h).1
    · rw [Nat.toDigits_of_base_le (by decide) (Nat.not_lt.mp hn)] at h
      cases hd : Nat.toDigits 10 (n / 10) with
      | nil => exact absurd hd Nat.toDigits_ne_nil
      | cons d front =>
        rw [hd, List.cons_append] at h
        rw [(List.cons.inj h).1] at hd
        have hzero := ih (n / 10) (by omega) hd
        omega

theorem digits_toDigits (n : Nat) {rest : List Char} (h : Stops rest) :
    Text.digits (Nat.toDigits 10 n ++ rest) = (Nat.toDigits 10 n, rest) := by
  refine Text.digits_before (Text.isDigit_toDigits n) ?_
  intro c cs hrest
  rcases h c cs hrest with rfl | rfl | rfl <;> decide

theorem whole_toDigits (n : Nat) {rest : List Char} (h : Stops rest) :
    whole (Nat.toDigits 10 n ++ rest) = some (Nat.toDigits 10 n, rest) := by
  have hdigits1 : digits1 (Nat.toDigits 10 n ++ rest) = some (Nat.toDigits 10 n, rest) := by
    rw [digits1, digits_toDigits n h]
    cases hd : Nat.toDigits 10 n with
    | nil => exact absurd hd Nat.toDigits_ne_nil
    | cons d ds => rfl
  unfold whole
  split
  · rename_i cs heq
    -- a zero in front is all of the number
    cases hd : Nat.toDigits 10 n with
    | nil => exact absurd hd Nat.toDigits_ne_nil
    | cons d ds =>
      rw [hd, List.cons_append] at heq
      obtain ⟨rfl, hcs⟩ := List.cons.inj heq
      obtain rfl := eq_zero_of_toDigits hd
      rw [Nat.toDigits_zero] at hd
      obtain rfl : [] = ds := (List.cons.inj hd).2
      rw [← hcs]
      rfl
  · exact hdigits1

theorem fraction_stops {rest : List Char} (h : Stops rest) :
    fraction rest = some (none, rest) := by
  unfold fraction
  split
  · rename_i cs
    exact absurd (h '.' cs rfl) (by decide)
  · rfl

theorem exponent_stops {rest : List Char} (h : Stops rest) :
    exponent rest = some (none, rest) := by
  unfold exponent
  split
  · rename_i e cs
    rw [if_neg]
    rcases h e cs rfl with rfl | rfl | rfl <;> decide
  · rfl

theorem le_ofDigitChars (cs : List Char) (init : Nat) : init ≤ Nat.ofDigitChars 10 cs init := by
  induction cs generalizing init with
  | nil => exact Nat.le_refl _
  | cons c cs ih =>
    rw [Nat.ofDigitChars_cons]
    have hstep := ih (10 * init + (c.toNat - '0'.toNat))
    omega

/-- As long as the number can be kept, the next digit is. -/
theorem wholePart_from (cs : List Char) (sig : Nat)
    (h : Nat.ofDigitChars 10 cs sig ≤ maxSignificand) :
    cs.foldl (fun (sig, dropped) c =>
        if dropped = 0 ∧ sig * 10 + digitValue c ≤ maxSignificand then
          (sig * 10 + digitValue c, 0)
        else (sig, dropped + 1)) (sig, 0) = (Nat.ofDigitChars 10 cs sig, 0) := by
  induction cs generalizing sig with
  | nil => rfl
  | cons c cs ih =>
    rw [Nat.ofDigitChars_cons, Nat.mul_comm] at h ⊢
    have hstep : sig * 10 + digitValue c ≤ maxSignificand :=
      Nat.le_trans (le_ofDigitChars cs _) h
    rw [List.foldl_cons]
    dsimp only
    rw [if_pos ⟨rfl, hstep⟩]
    exact ih _ h

/-- No digit of a number that can be kept is dropped. -/
theorem wholePart_eq {cs : List Char} (h : Nat.ofDigitChars 10 cs 0 ≤ maxSignificand) :
    wholePart cs = (Nat.ofDigitChars 10 cs 0, 0) :=
  wholePart_from cs 0 h

theorem toDigits_head (n : Nat) : ∃ d ds, Nat.toDigits 10 n = d :: ds ∧ d.isDigit = true := by
  cases hd : Nat.toDigits 10 n with
  | nil => exact absurd hd Nat.toDigits_ne_nil
  | cons d ds =>
    have hmem : d ∈ Nat.toDigits 10 n := by rw [hd]; exact List.mem_cons_self
    exact ⟨d, ds, rfl, Text.isDigit_toDigits n d hmem⟩

theorem number_positive {n : Nat} (hn : n < Nat.pow 2 64) {rest : List Char} (h : Stops rest) :
    number (Nat.toDigits 10 n ++ rest) = some (.int (Int.ofNat n), rest) := by
  have hvalue : Nat.ofDigitChars 10 (Nat.toDigits 10 n) 0 = n :=
    Nat.ofDigitChars_toDigits (by decide) (by decide)
  have hwhole : wholePart (Nat.toDigits 10 n) = (n, 0) := by
    rw [wholePart_eq (by rw [hvalue]; exact Nat.le_sub_one_of_lt hn), hvalue]
  have hunsigned : ∀ cs, Nat.toDigits 10 n ++ rest ≠ '-' :: cs := by
    intro cs heq
    obtain ⟨d, ds, hd, hdigit⟩ := toDigits_head n
    rw [hd, List.cons_append] at heq
    rw [(List.cons.inj heq).1] at hdigit
    exact absurd hdigit (by decide)
  rw [number]
  · simp only [whole_toDigits n h, fraction_stops h, exponent_stops h, hwhole, Option.bind_eq_bind,
      Option.bind_some]
    rfl
  · exact hunsigned

theorem number_negative {n : Nat} (hn : n < Nat.pow 2 63) {rest : List Char} (h : Stops rest) :
    number ('-' :: (Nat.toDigits 10 (n + 1) ++ rest)) = some (.int (Int.negSucc n), rest) := by
  have hvalue : Nat.ofDigitChars 10 (Nat.toDigits 10 (n + 1)) 0 = n + 1 :=
    Nat.ofDigitChars_toDigits (by decide) (by decide)
  have hwhole : wholePart (Nat.toDigits 10 (n + 1)) = (n + 1, 0) := by
    rw [wholePart_eq, hvalue]
    rw [hvalue]
    exact Nat.le_trans hn (by decide)
  have hinteger : integer? true (n + 1) 0 = some (.int (Int.negSucc n)) := by
    rw [integer?, if_neg (by simp), if_pos ⟨rfl, Nat.succ_pos n, hn⟩]
    rfl
  rw [number]
  simp only [whole_toDigits (n + 1) h, fraction_stops h, exponent_stops h, hwhole, hinteger,
    Option.bind_eq_bind, Option.bind_some]
  rfl

/-- **A number is read off its text**, if it fits. -/
theorem number_chars {n : Number} (hn : n.Fits) {rest : List Char} (h : Stops rest) :
    number (n.chars ++ rest) = some (n, rest) := by
  cases n with
  | int n =>
    cases n with
    | ofNat n => exact number_positive (Int.ofNat_lt.mp hn.2) h
    | negSucc n =>
      have hlow : n + 1 ≤ Nat.pow 2 63 := by
        have hle : -((Nat.pow 2 63 : Nat) : Int) ≤ Int.negSucc n := hn.1
        omega
      exact number_negative hlow h
  | double x => exact hn.elim

/-! ## Scalars -/

/-- The first character of a number is a digit or a minus sign. -/
theorem number_head {n : Number} (hn : n.Fits) :
    ∃ c cs, n.chars = c :: cs ∧ (c.isDigit = true ∨ c = '-') := by
  cases n with
  | int n =>
    cases n with
    | ofNat n =>
      obtain ⟨d, ds, hd, hdigit⟩ := toDigits_head n
      exact ⟨d, ds, hd, Or.inl hdigit⟩
    | negSucc n => exact ⟨'-', _, rfl, Or.inr rfl⟩
  | double x => exact hn.elim

theorem ne_of_number_head {c d : Char} (hc : c.isDigit = true ∨ c = '-')
    (hd : ¬ (d.isDigit = true ∨ d = '-')) : c ≠ d := by
  rintro rfl
  exact hd hc

theorem scalar_number {c : Char} (hc : c.isDigit = true ∨ c = '-') (cs : List Char) :
    scalar (c :: cs) = (number (c :: cs)).map fun (n, rest) => (.num n, rest) := by
  unfold scalar
  split
  · rename_i heq
    exact absurd (List.cons.inj heq).1 (ne_of_number_head hc (by decide))
  · rename_i heq
    exact absurd (List.cons.inj heq).1 (ne_of_number_head hc (by decide))
  · rename_i heq
    exact absurd (List.cons.inj heq).1 (ne_of_number_head hc (by decide))
  · rename_i heq
    exact absurd (List.cons.inj heq).1 (ne_of_number_head hc (by decide))
  · rfl

/-- What does not open a container is read as a scalar. -/
theorem value_scalar {c : Char} (harr : c ≠ '[') (hobj : c ≠ '\x7b') (room : Nat)
    (cs : List Char) : value room (c :: cs) = scalar (c :: cs) := by
  cases room with
  | zero => rfl
  | succ room =>
    unfold value
    split
    · rename_i heq
      exact absurd (List.cons.inj heq).1 harr
    · rename_i heq
      exact absurd (List.cons.inj heq).1 hobj
    · rfl

theorem value_number {n : Number} (hn : n.Fits) {rest : List Char} (h : Stops rest) (room : Nat) :
    value room (n.chars ++ rest) = some (.num n, rest) := by
  obtain ⟨c, cs, hcs, hc⟩ := number_head hn
  have hread := number_chars hn h
  rw [hcs, List.cons_append] at hread ⊢
  rw [value_scalar (ne_of_number_head hc (by decide)) (ne_of_number_head hc (by decide)),
    scalar_number hc, hread]
  rfl

theorem value_string (s : String) (rest : List Char) (room : Nat) :
    value room (quoted s ++ rest) = some (.str s, rest) := by
  have hquoted : quoted s ++ rest = '"' :: (s.toList.flatMap escapeChar ++ '"' :: rest) := by
    simp [quoted]
  rw [hquoted, value_scalar (by decide) (by decide), scalar, stringBody_quoted]
  simp

/-! ## Containers -/

theorem skip_of_not_blank {c : Char} (h : isBlank c = false) (cs : List Char) :
    skip (c :: cs) = c :: cs := by
  rw [skip, List.dropWhile_cons_of_neg (by simp [h])]

section Lists

variable {α : Type} {item : Scanner α} {print : α → List Char} {close : Char}

/-- An item is read off what was printed for it, and what was printed begins with a character that
is neither a blank nor the end of the list. -/
structure Reads (item : Scanner α) (print : α → List Char) (close : Char) (x : α) : Prop where
  /-- It is read back. -/
  read : ∀ rest, Stops rest → item (print x ++ rest) = some (x, rest)
  /-- How it begins. -/
  head : ∃ c cs, print x = c :: cs ∧ isBlank c = false ∧ c ≠ close

theorem Reads.skip_eq {x : α} (h : Reads item print close x) (rest : List Char) :
    skip (print x ++ rest) = print x ++ rest := by
  obtain ⟨c, cs, hcs, hblank, _⟩ := h.head
  rw [hcs, List.cons_append, skip_of_not_blank hblank]

/-- Items that are parted by commas are read to the closing character, given a round for each. -/
theorem separated_printed (hclose : close = ']' ∨ close = '\x7d') {x : α} {xs : List α}
    (hx : Reads item print close x) (hxs : ∀ y ∈ xs, Reads item print close y) {rounds : Nat}
    (hrounds : xs.length < rounds) (rest : List Char) :
    separated item close rounds
        (print x ++ ((xs.flatMap fun y => ',' :: print y) ++ close :: rest))
      = some (x :: xs, rest) := by
  induction xs generalizing x rounds with
  | nil =>
    have hstops : Stops (close :: rest) := by
      intro c cs h
      rw [← (List.cons.inj h).1]
      exact Or.inr hclose
    cases rounds with
    | zero => exact absurd hrounds (Nat.not_lt_zero _)
    | succ rounds =>
      rw [List.flatMap_nil, List.nil_append, separated, hx.skip_eq, hx.read _ hstops]
      rcases hclose with rfl | rfl <;> rfl
  | cons y ys ih =>
    cases rounds with
    | zero => exact absurd hrounds (Nat.not_lt_zero _)
    | succ rounds =>
      have hstops : ∀ cs, Stops (',' :: cs) := by
        intro cs c cs' h
        exact Or.inl (List.cons.inj h).1.symm
      have hrest := ih (hxs y List.mem_cons_self) (fun z hz => hxs z (List.mem_cons_of_mem y hz))
        (Nat.lt_of_succ_lt_succ hrounds)
      rw [List.flatMap_cons, List.cons_append, List.cons_append, List.append_assoc, separated,
        hx.skip_eq, hx.read _ (hstops _)]
      dsimp only
      rw [skip_of_not_blank (by decide)]
      simp [hrest]

/-- What was printed for a list, between its brackets. -/
def printed (print : α → List Char) : List α → List Char
  | [] => []
  | x :: xs => print x ++ xs.flatMap fun y => ',' :: print y

/-- There are as many characters as items, for the commas alone. -/
theorem length_le_commas (print : α → List Char) (xs : List α) :
    xs.length ≤ (xs.flatMap fun x => ',' :: print x).length := by
  induction xs with
  | nil => exact Nat.le_refl 0
  | cons x xs ih =>
    rw [List.flatMap_cons, List.length_append, List.length_cons, List.length_cons]
    omega

/-- **A list is read off what was printed for it**, after the opening bracket. -/
theorem enclosed_printed (hclose : close = ']' ∨ close = '\x7d') {xs : List α}
    (hxs : ∀ x ∈ xs, Reads item print close x) (rest : List Char) :
    enclosed item close (printed print xs ++ close :: rest) = some (xs, rest) := by
  cases xs with
  | nil =>
    rw [printed, List.nil_append, enclosed]
    rcases hclose with rfl | rfl <;> rfl
  | cons x xs =>
    have hx := hxs x List.mem_cons_self
    obtain ⟨c, cs, hcs, _, hne⟩ := hx.head
    let text := print x ++ ((xs.flatMap fun y => ',' :: print y) ++ close :: rest)
    have hrounds : xs.length < text.length := by
      have hle := length_le_commas print xs
      simp only [text, List.length_append, List.length_cons]
      omega
    have hread : separated item close text.length text = some (x :: xs, rest) :=
      separated_printed hclose hx (fun y hy => hxs y (List.mem_cons_of_mem x hy)) hrounds rest
    have htext : text = c :: (cs ++ ((xs.flatMap fun y => ',' :: print y) ++ close :: rest)) := by
      simp only [text, hcs, List.cons_append]
    have hskip : skip text = text := hx.skip_eq _
    have hprinted : printed print (x :: xs) ++ close :: rest = text := by
      rw [printed, List.append_assoc]
    rw [hprinted, enclosed, hskip, hread, htext]
    exact if_neg hne

end Lists

/-! ## Whole values -/

/-- A key that is greater than all others is written at the end. -/
theorem insert_last {k : String} {ms : List (String × Value)} (h : ∀ m ∈ ms, m.1 < k) (v : Value) :
    KeyMap.insert k v ms = ms ++ [(k, v)] := by
  have hnone : ms.lookup k = none :=
    KeyMap.lookup_eq_none fun m hm heq => String.lt_irrefl k (heq ▸ h m hm)
  have hplace : KeyMap.place k v ms = ms ++ [(k, v)] := by
    clear hnone
    induction ms with
    | nil => rfl
    | cons m ms ih =>
      have hlt : ¬ k < m.1 := String.lt_asymm (h m List.mem_cons_self)
      rw [KeyMap.place, if_neg hlt, ih fun e he => h e (List.mem_cons_of_mem m he)]
      rfl
  rw [KeyMap.insert, hnone]
  exact hplace

/-- Entries that come in key order make the map that lists them. -/
theorem ofList_of_ascending {ms : List (String × Value)} (h : Value.Ascending ms) :
    KeyMap.ofList ms = ms := by
  suffices hfold : ∀ front : List (String × Value), Value.Ascending (front ++ ms) →
      ms.foldl (fun m e => KeyMap.insert e.1 e.2 m) front = front ++ ms from hfold [] h
  clear h
  induction ms with
  | nil => intro front _; exact (List.append_nil front).symm
  | cons m ms ih =>
    intro front hasc
    have hbefore : ∀ e ∈ front, e.1 < m.1 := by
      intro e he
      exact (List.pairwise_append.mp hasc).2.2 e he m List.mem_cons_self
    rw [List.foldl_cons, insert_last hbefore, ih (front ++ [m]) (by simpa using hasc)]
    simp

theorem tailChars_eq (xs : List Value) :
    Value.tailChars xs = xs.flatMap fun x => ',' :: x.chars := by
  induction xs with
  | nil => rfl
  | cons x xs ih => rw [Value.tailChars, ih, List.flatMap_cons]; rfl

theorem itemsChars_eq (xs : List Value) : Value.itemsChars xs = printed Value.chars xs := by
  cases xs with
  | nil => rfl
  | cons x xs => rw [Value.itemsChars, tailChars_eq]; rfl

/-- What is printed for a member. -/
def memberChars (m : String × Value) : List Char := quoted m.1 ++ ':' :: m.2.chars

theorem memberTailChars_eq (ms : List (String × Value)) :
    Value.memberTailChars ms = ms.flatMap fun m => ',' :: memberChars m := by
  induction ms with
  | nil => rfl
  | cons m ms ih =>
    obtain ⟨k, v⟩ := m
    rw [Value.memberTailChars, ih, List.flatMap_cons]
    simp [memberChars]

theorem membersChars_eq (ms : List (String × Value)) :
    Value.membersChars ms = printed memberChars ms := by
  cases ms with
  | nil => rfl
  | cons m ms =>
    obtain ⟨k, v⟩ := m
    rw [Value.membersChars, memberTailChars_eq]
    simp [printed, memberChars]

/-- How the text of a value begins. -/
theorem chars_head {v : Value} (h : v.Integral) :
    ∃ c cs, v.chars = c :: cs ∧ isBlank c = false ∧ c ≠ ']' := by
  cases v with
  | null => exact ⟨'n', _, rfl, by decide, by decide⟩
  | bool b => cases b <;> exact ⟨_, _, rfl, by decide, by decide⟩
  | num n =>
    obtain ⟨c, cs, hcs, hc⟩ := number_head h
    refine ⟨c, cs, hcs, ?_, ne_of_number_head hc (by decide)⟩
    have hne : ∀ d, ¬ (d.isDigit = true ∨ d = '-') → (c == d) = false := by
      intro d hd
      simpa using ne_of_number_head hc hd
    simp only [isBlank, hne ' ' (by decide), hne '\n' (by decide), hne '\t' (by decide),
      hne '\r' (by decide), Bool.or_false]
  | str s => exact ⟨'"', _, rfl, by decide, by decide⟩
  | arr xs => exact ⟨'[', _, rfl, by decide, by decide⟩
  | obj ms => exact ⟨'\x7b', _, rfl, by decide, by decide⟩

/-- A member is read off its text if its value is. -/
theorem reads_member {room : Nat} {k : String} {v : Value}
    (h : Reads (value room) Value.chars ']' v) :
    Reads (member (value room)) memberChars '\x7d' (k, v) where
  read := by
    intro rest hrest
    have hmember : memberChars (k, v) ++ rest
        = '"' :: (k.toList.flatMap escapeChar ++ '"' :: ':' :: (v.chars ++ rest)) := by
      simp [memberChars, quoted]
    rw [hmember, member, stringBody_quoted]
    dsimp only
    rw [skip_of_not_blank (by decide)]
    simp [h.skip_eq, h.read rest hrest]
  head := ⟨'"', _, rfl, by decide, by decide⟩

mutual

/-- **A value is read off its text**, with room for as many containers as it nests. -/
theorem value_chars : ∀ (v : Value) {room : Nat} {rest : List Char}, v.Integral → v.InOrder →
    v.nesting ≤ room → Stops rest → value room (v.chars ++ rest) = some (v, rest)
  | .null, room, rest, _, _, _, _ => value_scalar (by decide) (by decide) room _
  | .bool true, room, rest, _, _, _, _ => value_scalar (by decide) (by decide) room _
  | .bool false, room, rest, _, _, _, _ => value_scalar (by decide) (by decide) room _
  | .num _, room, _, hint, _, _, hrest => value_number hint hrest room
  | .str s, room, rest, _, _, _, _ => value_string s rest room
  | .arr xs, 0, _, _, _, hroom, _ => absurd hroom (by simp [Value.nesting])
  | .arr xs, room + 1, rest, hint, hord, hroom, _ => by
      have hitems := items_read xs hint hord (Nat.le_of_succ_le_succ hroom)
      have htext : (Value.arr xs).chars ++ rest
          = '[' :: (printed Value.chars xs ++ ']' :: rest) := by
        rw [Value.chars, itemsChars_eq]
        simp
      rw [htext, value, enclosed_printed (Or.inl rfl) hitems]
      rfl
  | .obj ms, 0, _, _, _, hroom, _ => absurd hroom (by simp [Value.nesting])
  | .obj ms, room + 1, rest, hint, hord, hroom, _ => by
      have hmembers := members_read ms hint hord.2 (Nat.le_of_succ_le_succ hroom)
      have htext : (Value.obj ms).chars ++ rest
          = '\x7b' :: (printed memberChars ms ++ '\x7d' :: rest) := by
        rw [Value.chars, membersChars_eq]
        simp
      rw [htext, value, enclosed_printed (Or.inr rfl) hmembers, Option.map_some]
      dsimp only
      rw [ofList_of_ascending hord.1]

theorem items_read : ∀ (xs : List Value) {room : Nat}, Value.ItemsIntegral xs →
    Value.ItemsInOrder xs → Value.itemsNesting xs ≤ room →
      ∀ x ∈ xs, Reads (value room) Value.chars ']' x
  | [], _, _, _, _ => fun _ h => absurd h List.not_mem_nil
  | x :: xs, room, hint, hord, hroom => by
      intro y hy
      rcases List.mem_cons.mp hy with heq | hy
      · rw [heq]
        exact ⟨fun rest hrest => value_chars x hint.1 hord.1
          (Nat.le_trans (Nat.le_max_left _ _) hroom) hrest, chars_head hint.1⟩
      · exact items_read xs hint.2 hord.2 (Nat.le_trans (Nat.le_max_right _ _) hroom) y hy

theorem members_read : ∀ (ms : List (String × Value)) {room : Nat}, Value.MembersIntegral ms →
    Value.MembersInOrder ms → Value.membersNesting ms ≤ room →
      ∀ m ∈ ms, Reads (member (value room)) memberChars '\x7d' m
  | [], _, _, _, _ => fun _ h => absurd h List.not_mem_nil
  | (k, v) :: ms, room, hint, hord, hroom => by
      intro m hm
      rcases List.mem_cons.mp hm with heq | hm
      · rw [heq]
        exact reads_member ⟨fun rest hrest => value_chars v hint.1 hord.1
          (Nat.le_trans (Nat.le_max_left _ _) hroom) hrest, chars_head hint.1⟩
      · exact members_read ms hint.2 hord.2 (Nat.le_trans (Nat.le_max_right _ _) hroom) m hm

end

end ViewStream.Json.Reader

namespace ViewStream.Json

/-! ## No control characters -/

/-- Text without control characters: no line break, no carriage return, no tab. -/
def Plain (cs : List Char) : Prop := ∀ c ∈ cs, 0x20 ≤ c.toNat

theorem plain_of_all {cs : List Char} (h : cs.all (fun c => 0x20 ≤ c.toNat) = true) :
    Plain cs := by
  intro c hc
  exact of_decide_eq_true (List.all_eq_true.mp h c hc)

theorem plain_nil : Plain [] := fun _ h => absurd h List.not_mem_nil

theorem plain_cons {c : Char} {cs : List Char} (hc : 0x20 ≤ c.toNat) (hcs : Plain cs) :
    Plain (c :: cs) := by
  intro d hd
  rcases List.mem_cons.mp hd with rfl | hd
  · exact hc
  · exact hcs d hd

theorem plain_append {cs ds : List Char} (hcs : Plain cs) (hds : Plain ds) : Plain (cs ++ ds) := by
  intro c hc
  rcases List.mem_append.mp hc with hc | hc
  · exact hcs c hc
  · exact hds c hc

theorem plain_digits (n : Nat) : Plain (Nat.toDigits 10 n) := by
  intro c hc
  have hdigit := Text.isDigit_toDigits n c hc
  simp only [Char.isDigit, Bool.and_eq_true, decide_eq_true_eq] at hdigit
  have hlow : '0'.toNat ≤ c.toNat := hdigit.1
  exact Nat.le_trans (by decide) hlow

theorem plain_hexDigit {n : Nat} (h : n < 16) : 0x20 ≤ (Text.hexDigit n).toNat := by
  have all : ∀ m : Fin 16, 0x20 ≤ (Text.hexDigit m).toNat := by decide
  exact all ⟨n, h⟩

/-- A control character is not printed but escaped. -/
theorem plain_escapeChar (c : Char) : Plain (escapeChar c) := by
  have hslash : 0x20 ≤ '\\'.toNat := by decide
  rcases Reader.escapeChar_cases c with ⟨d, hc, _, hd⟩ | ⟨hc, hctl⟩ | ⟨hc, _, _, hctl⟩
  · rw [hc]
    exact plain_cons hslash (plain_cons hd plain_nil)
  · have hhigh := plain_hexDigit (n := c.toNat / 16) (by omega)
    have hlow := plain_hexDigit (n := c.toNat % 16) (by omega)
    have hzeros : Plain ['\\', 'u', '0', '0'] := plain_of_all rfl
    rw [hc]
    exact plain_append hzeros (plain_cons hhigh (plain_cons hlow plain_nil))
  · rw [hc]
    exact plain_cons hctl plain_nil

theorem plain_quoted (s : String) : Plain (quoted s) := by
  have hbody : Plain (s.toList.flatMap escapeChar) := by
    intro c hc
    obtain ⟨d, _, hd⟩ := List.mem_flatMap.mp hc
    exact plain_escapeChar d c hd
  exact plain_append (plain_cons (by decide) hbody) (plain_cons (by decide) plain_nil)

theorem plain_number {n : Number} (hn : n.Fits) : Plain n.chars := by
  cases n with
  | int n =>
    cases n with
    | ofNat n => exact plain_digits n
    | negSucc n => exact plain_cons (by decide) (plain_digits (n + 1))
  | double x => exact hn.elim

theorem plain_comma {cs : List Char} (h : Plain cs) : Plain (',' :: cs) := plain_cons (by decide) h

theorem plain_member (k : String) {cs : List Char} (h : Plain cs) :
    Plain (quoted k ++ ':' :: cs) :=
  plain_append (plain_quoted k) (plain_cons (by decide) h)

mutual

/-- **A value is printed on one line.** -/
theorem plain_chars : ∀ {v : Value}, v.Integral → Plain v.chars
  | .null, _ => plain_of_all rfl
  | .bool true, _ => plain_of_all rfl
  | .bool false, _ => plain_of_all rfl
  | .num _, h => plain_number h
  | .str s, _ => plain_quoted s
  | .arr [], _ => plain_of_all rfl
  | .arr (x :: xs), h =>
    have hitems : Plain (x.chars ++ Value.tailChars xs) :=
      plain_append (plain_chars h.1) (plain_tail h.2)
    plain_append (plain_cons (by decide) hitems) (plain_cons (by decide) plain_nil)
  | .obj [], _ => plain_of_all rfl
  | .obj ((k, v) :: ms), h =>
    have hmembers : Plain (quoted k ++ ':' :: (v.chars ++ Value.memberTailChars ms)) :=
      plain_member k (plain_append (plain_chars h.1) (plain_memberTail h.2))
    plain_append (plain_cons (by decide) hmembers) (plain_cons (by decide) plain_nil)

theorem plain_tail : ∀ {xs : List Value}, Value.ItemsIntegral xs → Plain (Value.tailChars xs)
  | [], _ => plain_nil
  | _ :: _, h => plain_comma (plain_append (plain_chars h.1) (plain_tail h.2))

theorem plain_memberTail : ∀ {ms : List (String × Value)}, Value.MembersIntegral ms →
    Plain (Value.memberTailChars ms)
  | [], _ => plain_nil
  | (k, _) :: _, h =>
    plain_comma (plain_member k (plain_append (plain_chars h.1) (plain_memberTail h.2)))

end

/-! ## The round trip -/

/-- **What is printed can be read**: a value is what its compact text says. -/
theorem read?_compact {v : Value} (hint : v.Integral) (hord : v.InOrder)
    (hnest : v.nesting ≤ maxNesting) : read? v.compact = some v := by
  obtain ⟨c, cs, hcs, hblank, _⟩ := Reader.chars_head hint
  have hskip : Reader.skip v.chars = v.chars := by
    rw [hcs, Reader.skip_of_not_blank hblank]
  have hread := Reader.value_chars v hint hord hnest Reader.stops_nil
  rw [List.append_nil] at hread
  rw [read?, Value.compact, String.toList_ofList, hskip, hread]
  rfl

end ViewStream.Json
