/-!
# Maps from names to values, kept in key order

A map is the list of its entries. Reading is the core function `List.lookup`, which finds the
first entry with a key; the operations here write. **Writing a key that is present changes its
entry where it stands, and a new key goes before the first greater one**, so a list in key order
stays in key order, and the laws at the end hold of every list.

Keys are ordered by code point, which is also the byte order of their UTF-8 encoding.
-/

namespace ViewStream

/-- A map from names to values: its entries, in key order. -/
abbrev KeyMap (α : Type) := List (String × α)

namespace KeyMap

variable {α : Type}

/-- Change the first entry with key `k`; a list without one is left alone. -/
def set (k : String) (v : α) : KeyMap α → KeyMap α
  | [] => []
  | (k', v') :: rest => if k' = k then (k', v) :: rest else (k', v') :: set k v rest

/-- Put a new entry before the first one with a greater key. -/
def place (k : String) (v : α) : KeyMap α → KeyMap α
  | [] => [(k, v)]
  | (k', v') :: rest => if k < k' then (k, v) :: (k', v') :: rest else (k', v') :: place k v rest

/-- Write `v` under `k`. -/
def insert (k : String) (v : α) (m : KeyMap α) : KeyMap α :=
  if (m.lookup k).isSome then set k v m else place k v m

/-- The map without the key `k`. -/
def erase (k : String) (m : KeyMap α) : KeyMap α :=
  m.filter fun e => e.1 != k

/-- Whether `k` has an entry. -/
def contains (k : String) (m : KeyMap α) : Bool :=
  (m.lookup k).isSome

/-- The map of a list of entries written in turn, so the last of two equal keys wins. -/
def ofList (entries : List (String × α)) : KeyMap α :=
  entries.foldl (fun m e => insert e.1 e.2 m) []

theorem mem_of_lookup {k : String} {v : α} {m : KeyMap α} (h : m.lookup k = some v) :
    (k, v) ∈ m := by
  obtain ⟨front, back, hm, _⟩ := List.lookup_eq_some_iff.mp h
  rw [hm]
  exact List.mem_append_right front List.mem_cons_self

/-- A key that no entry has is not found. -/
theorem lookup_eq_none {k : String} {m : KeyMap α} (h : ∀ e ∈ m, k ≠ e.1) : m.lookup k = none :=
  List.lookup_eq_none_iff.mpr fun e he => bne_iff_ne.mpr (h e he)

/-- In a map that has each key once, every entry is the one that is found under its key. -/
theorem lookup_of_mem {k : String} {v : α} {m : KeyMap α} (h : (m.map Prod.fst).Nodup)
    (hmem : (k, v) ∈ m) : m.lookup k = some v := by
  obtain ⟨front, back, rfl⟩ := List.append_of_mem hmem
  refine List.lookup_eq_some_iff.mpr ⟨front, back, rfl, ?_⟩
  intro e he
  rw [List.map_append, List.map_cons] at h
  have hne : e.1 ≠ k :=
    (List.nodup_append.mp h).2.2 e.1 (List.mem_map_of_mem he) k List.mem_cons_self
  exact bne_iff_ne.mpr (Ne.symm hne)

/-- Changing all values by one function changes what is found. -/
theorem lookup_map {β : Type} (f : α → β) (k : String) (m : KeyMap α) :
    List.lookup k (m.map fun e => (e.1, f e.2)) = (m.lookup k).map f := by
  induction m with
  | nil => rfl
  | cons e rest ih =>
    obtain ⟨k', v⟩ := e
    rw [List.map_cons, List.lookup_cons, List.lookup_cons, ih]
    cases k == k' <;> rfl

/-! ## What a write leaves to be read -/

theorem lookup_set_self {k : String} {v : α} {m : KeyMap α} (h : (m.lookup k).isSome) :
    (set k v m).lookup k = some v := by
  induction m with
  | nil => simp at h
  | cons e rest ih =>
    obtain ⟨k', v'⟩ := e
    by_cases hk : k' = k
    · simp [set, hk]
    · have hb : (k == k') = false := by simpa using fun e => hk e.symm
      rw [List.lookup_cons, hb] at h
      simp [set, hk, List.lookup_cons, hb, ih h]

theorem lookup_set_of_ne {k j : String} (hj : j ≠ k) (v : α) (m : KeyMap α) :
    (set k v m).lookup j = m.lookup j := by
  induction m with
  | nil => rfl
  | cons e rest ih =>
    obtain ⟨k', v'⟩ := e
    by_cases hk : k' = k
    · have hb : (j == k') = false := by simpa using fun e => hj (e.trans hk)
      simp [set, hk, List.lookup_cons, hk ▸ hb]
    · simp [set, hk, List.lookup_cons, ih]

theorem lookup_place_self {k : String} {v : α} {m : KeyMap α} (h : m.lookup k = none) :
    (place k v m).lookup k = some v := by
  induction m with
  | nil => simp [place]
  | cons e rest ih =>
    obtain ⟨k', v'⟩ := e
    by_cases hlt : k < k'
    · simp [place, hlt]
    · cases hb : k == k' with
      | true => simp [List.lookup_cons, hb] at h
      | false =>
        rw [List.lookup_cons, hb] at h
        simp [place, hlt, List.lookup_cons, hb, ih h]

theorem lookup_place_of_ne {k j : String} (hj : j ≠ k) (v : α) (m : KeyMap α) :
    (place k v m).lookup j = m.lookup j := by
  have hb : (j == k) = false := by simpa using hj
  induction m with
  | nil => simp [place, List.lookup_cons, hb]
  | cons e rest ih =>
    obtain ⟨k', v'⟩ := e
    by_cases hlt : k < k'
    · simp [place, hlt, List.lookup_cons, hb]
    · simp [place, hlt, List.lookup_cons, ih]

/-- **The value written is there afterwards.** -/
theorem lookup_insert_self (k : String) (v : α) (m : KeyMap α) :
    (insert k v m).lookup k = some v := by
  unfold insert
  split
  · exact lookup_set_self (by assumption)
  · rename_i h
    exact lookup_place_self (Option.not_isSome_iff_eq_none.mp h)

/-- **Other keys keep their values.** -/
theorem lookup_insert_of_ne {k j : String} (hj : j ≠ k) (v : α) (m : KeyMap α) :
    (insert k v m).lookup j = m.lookup j := by
  unfold insert
  split
  · exact lookup_set_of_ne hj v m
  · exact lookup_place_of_ne hj v m

theorem lookup_foldl_insert {entries : List (String × α)} (h : (entries.map Prod.fst).Nodup)
    (k : String) (m : KeyMap α) :
    (entries.foldl (fun m e => insert e.1 e.2 m) m).lookup k
      = (entries.lookup k).or (m.lookup k) := by
  induction entries generalizing m with
  | nil => rfl
  | cons e rest ih =>
    obtain ⟨j, v⟩ := e
    obtain ⟨hj, hrest⟩ := List.nodup_cons.mp h
    rw [List.foldl_cons, ih hrest, List.lookup_cons]
    by_cases hk : k = j
    · subst hk
      have hnone : rest.lookup k = none :=
        lookup_eq_none fun e he heq => hj (List.mem_map.mpr ⟨e, he, heq.symm⟩)
      rw [hnone, lookup_insert_self, beq_self_eq_true]
      rfl
    · have hb : (k == j) = false := by simpa using hk
      rw [lookup_insert_of_ne hk, hb]

/-- **A map of entries with different keys has them all.** -/
theorem lookup_ofList {entries : List (String × α)} (h : (entries.map Prod.fst).Nodup)
    (k : String) : (ofList entries).lookup k = entries.lookup k := by
  rw [ofList, lookup_foldl_insert h, List.lookup_nil, Option.or_none]

/-- **Writing back what is there changes nothing.** -/
theorem insert_lookup {k : String} {v : α} {m : KeyMap α} (h : m.lookup k = some v) :
    insert k v m = m := by
  have hset : set k v m = m := by
    induction m with
    | nil => rfl
    | cons e rest ih =>
      obtain ⟨k', v'⟩ := e
      by_cases hk : k' = k
      · rw [List.lookup_cons, show (k == k') = true by simp [hk]] at h
        simp [set, hk, (Option.some.inj h).symm]
      · have hb : (k == k') = false := by simpa using fun e => hk e.symm
        rw [List.lookup_cons, hb] at h
        simp [set, hk, ih h]
  simp [insert, h, hset]

/-- **A key that was erased has no value.** -/
theorem lookup_erase_self (k : String) (m : KeyMap α) : (erase k m).lookup k = none := by
  refine lookup_eq_none fun e he => ?_
  obtain ⟨_, hne⟩ := List.mem_filter.mp he
  have hne : e.1 ≠ k := by simpa using hne
  exact hne.symm

theorem lookup_erase_of_ne {k j : String} (hj : j ≠ k) (m : KeyMap α) :
    (erase k m).lookup j = m.lookup j := by
  rw [erase]
  induction m with
  | nil => rfl
  | cons e rest ih =>
    obtain ⟨k', v'⟩ := e
    by_cases hk : k' = k
    · have hb : (j == k') = false := by simpa using fun e => hj (e.trans hk)
      rw [List.filter_cons_of_neg (by simp [hk]), ih, List.lookup_cons, hb]
    · rw [List.filter_cons_of_pos (by simpa using hk), List.lookup_cons, List.lookup_cons, ih]

/-! ## Writes one after the other -/

theorem set_set (k : String) (v w : α) (m : KeyMap α) : set k v (set k w m) = set k v m := by
  induction m with
  | nil => rfl
  | cons e rest ih =>
    obtain ⟨k', v'⟩ := e
    by_cases hk : k' = k <;> simp [set, hk, ih]

theorem set_place {k : String} {m : KeyMap α} (h : m.lookup k = none) (v w : α) :
    set k v (place k w m) = place k v m := by
  induction m with
  | nil => simp [place, set]
  | cons e rest ih =>
    obtain ⟨k', v'⟩ := e
    cases hb : k == k' with
    | true => simp [List.lookup_cons, hb] at h
    | false =>
      rw [List.lookup_cons, hb] at h
      have hk : k' ≠ k := by simpa using Ne.symm (by simpa using hb)
      by_cases hlt : k < k'
      · simp [place, hlt, set]
      · simp [place, hlt, set, hk, ih h]

/-- **The second of two writes under one key is the one that counts.** -/
theorem insert_insert (k : String) (v w : α) (m : KeyMap α) :
    insert k v (insert k w m) = insert k v m := by
  have hthere : ((insert k w m).lookup k).isSome := by rw [lookup_insert_self]; rfl
  rw [insert, if_pos hthere]
  by_cases h : (m.lookup k).isSome
  · rw [insert, if_pos h, insert, if_pos h, set_set]
  · rw [insert, if_neg h, insert, if_neg h, set_place (Option.not_isSome_iff_eq_none.mp h)]

theorem set_set_comm {j k : String} (h : j ≠ k) (v w : α) (m : KeyMap α) :
    set k v (set j w m) = set j w (set k v m) := by
  induction m with
  | nil => rfl
  | cons e rest ih =>
    obtain ⟨k', v'⟩ := e
    by_cases hj : k' = j
    · have hk : j ≠ k := h
      simp [set, hj, hk]
    · by_cases hk : k' = k
      · have hj : k ≠ j := Ne.symm h
        simp [set, hk, hj]
      · simp [set, hj, hk, ih]

theorem set_place_comm {j k : String} (h : j ≠ k) (v w : α) (m : KeyMap α) :
    set k v (place j w m) = place j w (set k v m) := by
  induction m with
  | nil => simp [place, set, h]
  | cons e rest ih =>
    obtain ⟨k', v'⟩ := e
    by_cases hlt : j < k'
    · by_cases hk : k' = k
      · have hlt : j < k := hk ▸ hlt
        simp [place, set, hk, h, hlt]
      · simp [place, set, hlt, hk, h]
    · by_cases hk : k' = k
      · have hlt : ¬ j < k := hk ▸ hlt
        simp [place, set, hk, hlt]
      · simp [place, set, hlt, hk, ih]

/-- Of two new keys the lesser one comes first, whichever is placed first. -/
theorem place_place_comm {j k : String} (h : j ≠ k) (v w : α) (m : KeyMap α) :
    place k v (place j w m) = place j w (place k v m) := by
  have horder : j < k ∨ k < j := by
    by_cases hjk : j < k
    · exact Or.inl hjk
    · by_cases hkj : k < j
      · exact Or.inr hkj
      · exact absurd (String.le_antisymm (String.not_lt.mp hkj) (String.not_lt.mp hjk)) h
  induction m with
  | nil =>
    rcases horder with hlt | hlt <;> simp [place, hlt, String.lt_asymm hlt]
  | cons e rest ih =>
    obtain ⟨k', v'⟩ := e
    by_cases hj : j < k'
    · by_cases hk : k < k'
      · rcases horder with hlt | hlt <;> simp [place, hj, hk, hlt, String.lt_asymm hlt]
      · have hkj : ¬ k < j := fun hkj => hk (String.lt_trans hkj hj)
        simp [place, hj, hk, hkj]
    · by_cases hk : k < k'
      · have hjk : ¬ j < k := fun hjk => hj (String.lt_trans hjk hk)
        simp [place, hj, hk, hjk]
      · simp [place, hj, hk, ih]

/-- **Writes under different keys commute**, in a list in any order. -/
theorem insert_comm {j k : String} (h : j ≠ k) (v w : α) (m : KeyMap α) :
    insert k v (insert j w m) = insert j w (insert k v m) := by
  have hk : (insert j w m).lookup k = m.lookup k := lookup_insert_of_ne (Ne.symm h) w m
  have hj : (insert k v m).lookup j = m.lookup j := lookup_insert_of_ne h v m
  rw [insert, hk, insert, insert, hj, insert]
  cases hmk : (m.lookup k).isSome <;> cases hmj : (m.lookup j).isSome
  · exact place_place_comm h v w m
  · exact (set_place_comm (Ne.symm h) w v m).symm
  · exact set_place_comm h v w m
  · exact set_set_comm h v w m

end KeyMap

end ViewStream
