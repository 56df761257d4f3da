import ViewStream.Proofs.Double.Text
import ViewStream.Proofs.Json.RoundTrip

/-!
# Different values have different texts

What is printed can be read back only within the bounds of the reader: its integers have 64 bits,
it rounds a double twice, it puts members in order and nests so deep and no deeper. That **no text
is the text of two values** (`compact_inj`) needs none of that.

A text shows with its first character what kind of value it is of, and whatever may come after a
value cannot be taken for more of it. So of two values in front of such a rest, if the texts are
the same, so are the values **and the rests** (`Unambiguous`), and lists of them can be compared
item by item.
-/

namespace ViewStream.Json

/-! ## Numbers -/

namespace Number

theorem of_mem_int {n : Int} {c : Char} (h : c ∈ (Number.int n).chars) :
    c.isDigit = true ∨ c = '-' := by
  cases n with
  | ofNat n => exact Or.inl (Text.isDigit_toDigits n c h)
  | negSucc n =>
    rcases List.mem_cons.mp h with hsign | hc
    · exact Or.inr hsign
    · exact Or.inl (Text.isDigit_toDigits (n + 1) c hc)

theorem toDigits_inj {m n : Nat} (h : Nat.toDigits 10 m = Nat.toDigits 10 n) : m = n := by
  have hm : Nat.ofDigitChars 10 (Nat.toDigits 10 m) 0 = m := Nat.ofDigitChars_ten_toDigits
  rw [← hm, h, Nat.ofDigitChars_ten_toDigits]

theorem toDigits_ne_minus (m n : Nat) : Nat.toDigits 10 m ≠ '-' :: Nat.toDigits 10 n := by
  intro h
  have hminus : '-' ∈ Nat.toDigits 10 m := h ▸ List.mem_cons_self
  exact absurd (Text.isDigit_toDigits m '-' hminus) (by decide)

theorem int_chars_inj {m n : Int} (h : (Number.int m).chars = (Number.int n).chars) : m = n := by
  cases m with
  | ofNat m =>
    rw [chars] at h
    cases n with
    | ofNat n =>
      rw [chars] at h
      rw [toDigits_inj h]
    | negSucc n =>
      rw [chars] at h
      exact absurd h (toDigits_ne_minus m (n + 1))
  | negSucc m =>
    rw [chars] at h
    cases n with
    | ofNat n =>
      rw [chars] at h
      exact absurd h.symm (toDigits_ne_minus n (m + 1))
    | negSucc n =>
      rw [chars] at h
      rw [Nat.succ.inj (toDigits_inj (List.cons.inj h).2)]

theorem int_chars_ne_double (n : Int) (x : Double) :
    (Number.int n).chars ≠ (Number.double x).chars := by
  intro h
  have hmem : '.' ∈ (Number.int n).chars ∨ 'e' ∈ (Number.int n).chars := by
    rw [h, chars]
    exact x.mem_chars
  rcases hmem with hpoint | hexp
  · exact absurd (of_mem_int hpoint) (by decide)
  · exact absurd (of_mem_int hexp) (by decide)

/-- **No two numbers have the same text**, be they of one kind or of two. -/
theorem chars_inj {m n : Number} (h : m.chars = n.chars) : m = n := by
  cases m with
  | int m =>
    cases n with
    | int n => rw [int_chars_inj h]
    | double y => exact absurd h (int_chars_ne_double m y)
  | double x =>
    cases n with
    | int n => exact absurd h.symm (int_chars_ne_double n x)
    | double y =>
      rw [chars, chars] at h
      rw [Double.chars_inj h]

theorem chars_head (n : Number) : ∃ c cs, n.chars = c :: cs ∧ (c.isDigit = true ∨ c = '-') := by
  cases n with
  | int n =>
    cases n with
    | ofNat n =>
      obtain ⟨d, ds, hd, hdigit⟩ := Reader.toDigits_head n
      exact ⟨d, ds, hd, Or.inl hdigit⟩
    | negSucc n => exact ⟨'-', _, rfl, Or.inr rfl⟩
  | double x =>
    rw [chars]
    exact x.chars_head

/-- Nothing in the text of a number ends a value. -/
theorem not_mem_chars {n : Number} {c : Char} (hc : c = ',' ∨ c = ']' ∨ c = '\x7d') :
    c ∉ n.chars := by
  intro hmem
  have hnumeral : c.isDigit = true ∨ c ∈ ['.', 'e', '+', '-'] := by
    cases n with
    | int n =>
      rcases of_mem_int hmem with hdigit | rfl
      · exact Or.inl hdigit
      · exact Or.inr (by decide)
    | double x =>
      rw [chars] at hmem
      exact Double.of_mem_chars hmem
  rcases hc with rfl | rfl | rfl <;> exact absurd hnumeral (by decide)

end Number

/-! ## Values in front of a rest -/

open Reader (Stops printed memberChars)

section Lists

variable {α : Type} {print : α → List Char} {close : Char}

/-- What was printed for `x` was printed for nothing else, and it shows where it ends. -/
def Unambiguous (print : α → List Char) (x : α) : Prop :=
  ∀ (y : α) (rest rest' : List Char), Stops rest → Stops rest' →
    print x ++ rest = print y ++ rest' → x = y ∧ rest = rest'

theorem stops_comma (cs : List Char) : Stops (',' :: cs) := by
  intro c _ h
  exact Or.inl (List.cons.inj h).1.symm

theorem stops_close (hclose : close = ']' ∨ close = '\x7d') (cs : List Char) :
    Stops (close :: cs) := by
  intro c _ h
  rw [← (List.cons.inj h).1]
  exact Or.inr hclose

/-- After an item comes a comma or the end of the list. -/
theorem stops_commas (hclose : close = ']' ∨ close = '\x7d') (xs : List α) (cs : List Char) :
    Stops ((xs.flatMap fun x => ',' :: print x) ++ close :: cs) := by
  cases xs with
  | nil => exact stops_close hclose cs
  | cons x xs => exact stops_comma _

theorem commas_unambiguous (hclose : close = ']' ∨ close = '\x7d') {xs : List α}
    (hxs : ∀ x ∈ xs, Unambiguous print x) {ys : List α} {rest rest' : List Char}
    (h : (xs.flatMap fun x => ',' :: print x) ++ close :: rest
      = (ys.flatMap fun y => ',' :: print y) ++ close :: rest') : xs = ys ∧ rest = rest' := by
  have hcomma : ',' ≠ close := by
    rcases hclose with rfl | rfl <;> decide
  induction xs generalizing ys with
  | nil =>
    cases ys with
    | nil => exact ⟨rfl, (List.cons.inj h).2⟩
    | cons y ys => exact absurd (List.cons.inj h).1.symm hcomma
  | cons x xs ih =>
    cases ys with
    | nil => exact absurd (List.cons.inj h).1 hcomma
    | cons y ys =>
      simp only [List.flatMap_cons, List.cons_append, List.append_assoc] at h
      obtain ⟨rfl, hrest⟩ := hxs x List.mem_cons_self y _ _ (stops_commas hclose xs rest)
        (stops_commas hclose ys rest') (List.cons.inj h).2
      obtain ⟨rfl, heq⟩ := ih (fun z hz => hxs z (List.mem_cons_of_mem x hz)) hrest
      exact ⟨rfl, heq⟩

/-- **Lists in brackets are compared item by item**, if no item begins as the list ends. -/
theorem printed_unambiguous (hclose : close = ']' ∨ close = '\x7d')
    (hhead : ∀ x, ∃ c cs, print x = c :: cs ∧ c ≠ close) {xs : List α}
    (hxs : ∀ x ∈ xs, Unambiguous print x) {ys : List α} {rest rest' : List Char}
    (h : printed print xs ++ close :: rest = printed print ys ++ close :: rest') :
    xs = ys ∧ rest = rest' := by
  have hempty : ∀ (x : α) (xs : List α) (cs cs' : List Char),
      close :: cs ≠ printed print (x :: xs) ++ close :: cs' := by
    intro x xs cs cs' heq
    obtain ⟨c, text, htext, hc⟩ := hhead x
    rw [printed, htext] at heq
    exact hc (List.cons.inj heq).1.symm
  cases xs with
  | nil =>
    cases ys with
    | nil => exact ⟨rfl, (List.cons.inj h).2⟩
    | cons y ys => exact absurd h (hempty y ys rest rest')
  | cons x xs =>
    cases ys with
    | nil => exact absurd h.symm (hempty x xs rest' rest)
    | cons y ys =>
      simp only [printed, List.append_assoc] at h
      obtain ⟨rfl, hrest⟩ := hxs x List.mem_cons_self y _ _ (stops_commas hclose xs rest)
        (stops_commas hclose ys rest') h
      obtain ⟨rfl, heq⟩ :=
        commas_unambiguous hclose (fun z hz => hxs z (List.mem_cons_of_mem x hz)) hrest
      exact ⟨rfl, heq⟩

end Lists

/-! ## Numbers and strings -/

/-- What may come after a value is no part of a number. -/
theorem eq_nil_of_stops {n : Number} {front more back : List Char} (hstops : Stops (more ++ back))
    (hchars : n.chars = front ++ more) : more = [] := by
  cases more with
  | nil => rfl
  | cons c cs =>
    have hmem : c ∈ n.chars := by
      rw [hchars]
      exact List.mem_append_right _ List.mem_cons_self
    exact absurd hmem (Number.not_mem_chars (hstops c (cs ++ back) rfl))

theorem number_unambiguous (n : Number) : Unambiguous Number.chars n := by
  intro m rest rest' hrest hrest' h
  rcases List.append_eq_append_iff.mp h with ⟨more, hm, hmore⟩ | ⟨more, hn, hmore⟩
  · obtain rfl := eq_nil_of_stops (hmore ▸ hrest) hm
    rw [List.append_nil] at hm
    exact ⟨(Number.chars_inj hm).symm, hmore⟩
  · obtain rfl := eq_nil_of_stops (hmore ▸ hrest') hn
    rw [List.append_nil] at hn
    exact ⟨Number.chars_inj hn, hmore.symm⟩

/-- A quoted string shows where it ends, whatever comes after it. -/
theorem quoted_append_inj {s t : String} {rest rest' : List Char}
    (h : quoted s ++ rest = quoted t ++ rest') : s = t ∧ rest = rest' := by
  have hread : ∀ (u : String) (cs : List Char),
      Reader.stringBody (quoted u ++ cs).tail = some (u.toList, cs) := by
    intro u cs
    rw [quoted, List.cons_append, List.cons_append, List.tail_cons, List.append_assoc]
    exact Reader.stringBody_quoted u.toList cs
  have hs := hread s rest
  rw [h, hread t rest'] at hs
  obtain ⟨htext, hrest⟩ := Prod.mk.inj (Option.some.inj hs)
  exact ⟨(String.toList_inj.mp htext).symm, hrest.symm⟩

/-! ## The kind of a value -/

/-- The kind of value that a text is of, from its first character. -/
def Value.Kind.ofHead (c : Char) : Value.Kind :=
  if c = 'n' then .null
  else if c = 't' ∨ c = 'f' then .boolean
  else if c = '"' then .string
  else if c = '[' then .array
  else if c = '\x7b' then .object
  else .number

theorem Value.chars_kind (v : Value) :
    ∃ c cs, v.chars = c :: cs ∧ Kind.ofHead c = v.kind ∧ c ≠ ']' := by
  cases v with
  | null => exact ⟨'n', _, rfl, rfl, by decide⟩
  | bool b => cases b <;> exact ⟨_, _, rfl, rfl, by decide⟩
  | num n =>
    obtain ⟨c, cs, hcs, hc⟩ := n.chars_head
    have hne : ∀ d, ¬ (d.isDigit = true ∨ d = '-') → c ≠ d :=
      fun d hd => Reader.ne_of_number_head hc hd
    refine ⟨c, cs, hcs, ?_, hne ']' (by decide)⟩
    simp [Kind.ofHead, kind, hne 'n' (by decide), hne 't' (by decide), hne 'f' (by decide),
      hne '"' (by decide), hne '[' (by decide), hne '\x7b' (by decide)]
  | str s => exact ⟨'"', _, rfl, rfl, by decide⟩
  | arr xs => exact ⟨'[', _, rfl, rfl, by decide⟩
  | obj ms => exact ⟨'\x7b', _, rfl, rfl, by decide⟩

/-- **The first character of a text tells the kind of the value.** -/
theorem Value.kind_eq_of_chars {v w : Value} {rest rest' : List Char}
    (h : v.chars ++ rest = w.chars ++ rest') : v.kind = w.kind := by
  obtain ⟨c, cs, hcs, hc, _⟩ := v.chars_kind
  obtain ⟨d, ds, hds, hd, _⟩ := w.chars_kind
  rw [hcs, hds] at h
  rw [← hc, ← hd, (List.cons.inj h).1]

/-! ## Containers -/

theorem member_unambiguous {m : String × Value} (h : Unambiguous Value.chars m.2) :
    Unambiguous memberChars m := by
  intro n rest rest' hrest hrest' heq
  simp only [memberChars, List.append_assoc, List.cons_append] at heq
  obtain ⟨hkey, hvalue⟩ := quoted_append_inj heq
  obtain ⟨hv, hrests⟩ := h n.2 rest rest' hrest hrest' (List.cons.inj hvalue).2
  exact ⟨Prod.ext hkey hv, hrests⟩

theorem items_unambiguous {xs ys : List Value} {rest rest' : List Char}
    (hxs : ∀ x ∈ xs, Unambiguous Value.chars x)
    (h : (Value.arr xs).chars ++ rest = (Value.arr ys).chars ++ rest') :
    xs = ys ∧ rest = rest' := by
  have htext : ∀ (zs : List Value) (cs : List Char),
      (Value.arr zs).chars ++ cs = '[' :: (printed Value.chars zs ++ ']' :: cs) := by
    intro zs cs
    rw [Value.chars, Reader.itemsChars_eq]
    simp
  rw [htext, htext] at h
  refine printed_unambiguous (Or.inl rfl) (fun x => ?_) hxs (List.cons.inj h).2
  obtain ⟨c, cs, hcs, _, hc⟩ := x.chars_kind
  exact ⟨c, cs, hcs, hc⟩

theorem members_unambiguous {ms ns : List (String × Value)} {rest rest' : List Char}
    (hms : ∀ m ∈ ms, Unambiguous Value.chars m.2)
    (h : (Value.obj ms).chars ++ rest = (Value.obj ns).chars ++ rest') :
    ms = ns ∧ rest = rest' := by
  have htext : ∀ (ks : List (String × Value)) (cs : List Char),
      (Value.obj ks).chars ++ cs = '\x7b' :: (printed memberChars ks ++ '\x7d' :: cs) := by
    intro ks cs
    rw [Value.chars, Reader.membersChars_eq]
    simp
  rw [htext, htext] at h
  exact printed_unambiguous (Or.inr rfl) (fun m => ⟨'"', _, rfl, by decide⟩)
    (fun m hm => member_unambiguous (hms m hm)) (List.cons.inj h).2

/-- **The text of a value is the text of no other one, and shows where it ends.** -/
theorem chars_unambiguous (v : Value) : Unambiguous Value.chars v := by
  induction v using Value.induction_parts with
  | null =>
    intro w rest rest' _ _ h
    have hkind := Value.kind_eq_of_chars h
    cases w with
    | null => exact ⟨rfl, List.append_cancel_left h⟩
    | bool _ | num _ | str _ | arr _ | obj _ => exact absurd hkind (by simp [Value.kind])
  | bool b =>
    intro w rest rest' _ _ h
    have hkind := Value.kind_eq_of_chars h
    cases w with
    | bool c =>
      cases b <;> cases c <;> simp_all [Value.chars]
    | null | num _ | str _ | arr _ | obj _ => exact absurd hkind (by simp [Value.kind])
  | num n =>
    intro w rest rest' hrest hrest' h
    have hkind := Value.kind_eq_of_chars h
    cases w with
    | num m =>
      obtain ⟨rfl, heq⟩ := number_unambiguous n m rest rest' hrest hrest' h
      exact ⟨rfl, heq⟩
    | null | bool _ | str _ | arr _ | obj _ => exact absurd hkind (by simp [Value.kind])
  | str s =>
    intro w rest rest' _ _ h
    have hkind := Value.kind_eq_of_chars h
    cases w with
    | str t =>
      obtain ⟨rfl, heq⟩ := quoted_append_inj h
      exact ⟨rfl, heq⟩
    | null | bool _ | num _ | arr _ | obj _ => exact absurd hkind (by simp [Value.kind])
  | arr xs ih =>
    intro w rest rest' _ _ h
    have hkind := Value.kind_eq_of_chars h
    cases w with
    | arr ys =>
      obtain ⟨rfl, heq⟩ := items_unambiguous ih h
      exact ⟨rfl, heq⟩
    | null | bool _ | num _ | str _ | obj _ => exact absurd hkind (by simp [Value.kind])
  | obj ms ih =>
    intro w rest rest' _ _ h
    have hkind := Value.kind_eq_of_chars h
    cases w with
    | obj ns =>
      obtain ⟨rfl, heq⟩ := members_unambiguous ih h
      exact ⟨rfl, heq⟩
    | null | bool _ | num _ | str _ | arr _ => exact absurd hkind (by simp [Value.kind])

/-- **No two values have the same text.** -/
theorem compact_inj {v w : Value} (h : v.compact = w.compact) : v = w := by
  have hchars : v.chars = w.chars := by
    rw [Value.compact, Value.compact] at h
    exact String.ofList_inj.mp h
  exact (chars_unambiguous v w [] [] Reader.stops_nil Reader.stops_nil (by rw [hchars])).1

end ViewStream.Json
