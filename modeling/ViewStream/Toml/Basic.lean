import ViewStream.KeyMap

/-!
# TOML tables

A table remembers how it was made, for that decides who may add to it:

* a table **with a header** of its own, and the root, take the pairs below the header;
* a table that was **implied** by a longer header may still get a header of its own;
* a table made by a **dotted** key may be added to by dotted keys only, but longer headers may go
  through it;
* an **inline** table is closed.

No key is ever written twice.
-/

namespace ViewStream.Toml

/-- How a table was made. -/
inductive Origin where
  | header | implied | dotted | inline
deriving DecidableEq, Repr

/-- A TOML value. Numbers, truth values and times are kept apart by kind only. **A number may be
spelled well and have no value**, because it is out of range: that is no fault of the document, but
of whoever reads the number. -/
inductive Item where
  /-- Text. -/
  | string (s : String)
  /-- An integer or a float. -/
  | number (hasValue : Bool)
  /-- A truth value. -/
  | boolean
  /-- A date, a time or both. -/
  | dateTime
  /-- An array written as a value. -/
  | array (items : List Item)
  /-- A table. -/
  | table (origin : Origin) (entries : List (String × Item))
  /-- An array of tables, each with a header; the last one first. -/
  | tables (latest : List (String × Item)) (earlier : List (List (String × Item)))

/-- The entries of a table. -/
abbrev Entries := List (String × Item)

/-! ## What can be read -/

mutual

/-- Whether an item can be read whole: each of its numbers has a value. -/
def Item.isReadable : Item → Bool
  | .number hasValue => hasValue
  | .array items => readableItems items
  | .table _ es => readableEntries es
  | .tables latest earlier => readableEntries latest && readableTables earlier
  | _ => true

/-- Whether all items can be read. -/
def readableItems : List Item → Bool
  | [] => true
  | item :: rest => item.isReadable && readableItems rest

/-- Whether the item of an entry can be read. -/
def readableEntry : String × Item → Bool
  | (_, item) => item.isReadable

/-- Whether all entries of a table can be read. -/
def readableEntries : List (String × Item) → Bool
  | [] => true
  | entry :: rest => readableEntry entry && readableEntries rest

/-- Whether all tables can be read. -/
def readableTables : List (List (String × Item)) → Bool
  | [] => true
  | es :: rest => readableEntries es && readableTables rest

end

/-! ## Writing into tables -/

namespace Entries

/-- Go down to the table at a header's path, making implied tables on the way, and change its
entries. A path goes through the latest table of an array. -/
def alterAt (change : Entries → Option Entries) : List String → Entries → Option Entries
  | [], es => change es
  | k :: path, es =>
    match es.lookup k with
    | none => (alterAt change path []).map fun sub => KeyMap.insert k (.table .implied sub) es
    | some (.table .inline _) => none
    | some (.table origin sub) =>
      (alterAt change path sub).map fun sub => KeyMap.insert k (.table origin sub) es
    | some (.tables latest earlier) =>
      (alterAt change path latest).map fun sub => KeyMap.insert k (.tables sub earlier) es
    | some _ => none

/-- Write a new key. -/
def addNew (k : String) (item : Item) (es : Entries) : Option Entries :=
  if KeyMap.contains k es then none else some (KeyMap.insert k item es)

/-- Write under a dotted key, given as the path to the table and the last part of the key. The
table that takes the entry must be made by a dotted key too. -/
def addPair (last : String) (item : Item) : List String → Entries → Option Entries
  | [], es => addNew last item es
  | k :: path, es =>
    match es.lookup k with
    | none =>
      (addPair last item path []).map fun sub => KeyMap.insert k (.table .dotted sub) es
    | some (.table .dotted sub) =>
      (addPair last item path sub).map fun sub => KeyMap.insert k (.table .dotted sub) es
    | some (.table .implied sub) =>
      if path = [] then none
      else (addPair last item path sub).map fun sub => KeyMap.insert k (.table .implied sub) es
    | some (.tables latest earlier) =>
      if path = [] then none
      else
        (addPair last item path latest).map fun sub => KeyMap.insert k (.tables sub earlier) es
    | some _ => none

/-- Open the table `k` by its header. -/
def openTable (k : String) (es : Entries) : Option Entries :=
  match es.lookup k with
  | none => some (KeyMap.insert k (.table .header []) es)
  | some (.table .implied sub) => some (KeyMap.insert k (.table .header sub) es)
  | some _ => none

/-- Open one more table of the array `k` by its header. -/
def openArrayTable (k : String) (es : Entries) : Option Entries :=
  match es.lookup k with
  | none => some (KeyMap.insert k (.tables [] []) es)
  | some (.tables latest earlier) =>
    some (KeyMap.insert k (.tables [] (latest :: earlier)) es)
  | some _ => none

end Entries

/-! ## Documents -/

/-- A key with dots: the parts before the last one, and the last one. -/
structure Key where
  /-- The parts before the last one. -/
  path : List String
  /-- The last part. -/
  last : String
deriving DecidableEq, Repr

/-- One statement of a document. -/
inductive Statement where
  /-- A key and its value. -/
  | pair (key : Key) (item : Item)
  /-- The header of a table. -/
  | header (key : Key)
  /-- The header of one more table of an array. -/
  | arrayHeader (key : Key)

namespace Entries

/-- The table that pairs make. -/
def ofPairs (pairs : List (Key × Item)) : Option Entries :=
  pairs.foldlM (fun es p => addPair p.1.last p.2 p.1.path es) []

/-- Carry out statements, where `current` is the path of the header in force. -/
def run (current : List String) : List Statement → Entries → Option Entries
  | [], es => some es
  | .pair k item :: rest, es =>
    (alterAt (addPair k.last item k.path) current es).bind (run current rest)
  | .header k :: rest, es =>
    (alterAt (openTable k.last) k.path es).bind (run (k.path ++ [k.last]) rest)
  | .arrayHeader k :: rest, es =>
    (alterAt (openArrayTable k.last) k.path es).bind (run (k.path ++ [k.last]) rest)

end Entries

end ViewStream.Toml
