import LineShell.Text

/-!
What a TOML document holds, and the rules on how its parts may add to one
table: a key is given once, a table has one header, and what is written in
braces or brackets is complete.
-/

namespace LineShell.Toml

/-- How a table came into being, which decides what may still be added to it. -/
inductive TableKind where
  | header
  | implied
  | dotted
  | braces
deriving DecidableEq, Repr

/-- A part of a document. Numbers, dates and times are kept as they were
written. -/
inductive Item where
  | string (text : Text)
  | boolean (value : Bool)
  | integer (value : Int)
  | float (text : Text)
  | moment (text : Text)
  | array (items : List Item)
  | table (kind : TableKind) (entries : List (Text × Item))
  | rows (tables : List (List (Text × Item)))

/-- The keys of a table with what they stand for, in the order of writing. -/
abbrev Entries := List (Text × Item)

namespace Entries

def find? (entries : Entries) (key : Text) : Option Item :=
  (List.find? (fun entry => entry.1 = key) entries).map Prod.snd

/-- The entries with a key standing for something, in its old place if it had
one. -/
def put : Entries → Text → Item → Entries
  | [], key, item => [(key, item)]
  | (name, old) :: rest, key, item =>
    if name = key then (key, item) :: rest else (name, old) :: put rest key item

def add? (entries : Entries) (key : Text) (item : Item) : Option Entries :=
  match entries.find? key with
  | some _ => none
  | none => some (entries.put key item)

/-- Adds a dotted key: the names before the last lead through tables, which are
made where they are missing. The last of these tables has to have been made by
a dotted key too, and none of them by a header of its own or by braces. -/
def addDotted? (key : Text) (item : Item) : List Text → Entries → Option Entries
  | [], entries => entries.add? key item
  | name :: path, entries =>
    match entries.find? name with
    | none => (addDotted? key item path []).map fun inner => entries.put name (.table .dotted inner)
    | some (.table .dotted inner) =>
      (addDotted? key item path inner).map fun inner => entries.put name (.table .dotted inner)
    | some (.table .implied inner) =>
      if path = [] then none
      else
        (addDotted? key item path inner).map fun inner =>
          entries.put name (.table .implied inner)
    | some (.rows tables) =>
      if path = [] then none
      else
        match tables.getLast? with
        | some last =>
          (addDotted? key item path last).map fun last =>
            entries.put name (.rows (tables.dropLast ++ [last]))
        | none => none
    | some _ => none

/-- Changes the table that some names lead to. Tables on the way are made where
they are missing; a list of tables leads to its last one. -/
def alter? (change : Entries → Option Entries) : List Text → Entries → Option Entries
  | [], entries => change entries
  | name :: path, entries =>
    match entries.find? name with
    | none => (alter? change path []).map fun inner => entries.put name (.table .implied inner)
    | some (.table kind inner) =>
      if kind = .braces then none
      else (alter? change path inner).map fun inner => entries.put name (.table kind inner)
    | some (.rows tables) =>
      match tables.getLast? with
      | some last =>
        (alter? change path last).map fun last =>
          entries.put name (.rows (tables.dropLast ++ [last]))
      | none => none
    | some _ => none

/-- Opens a table by its header. Only a table that other headers have implied may
be there already. -/
def open? (key : Text) (entries : Entries) : Option Entries :=
  match entries.find? key with
  | none => some (entries.put key (.table .header []))
  | some (.table .implied inner) => some (entries.put key (.table .header inner))
  | some _ => none

def openRow? (key : Text) (entries : Entries) : Option Entries :=
  match entries.find? key with
  | none => some (entries.put key (.rows [[]]))
  | some (.rows tables) => some (entries.put key (.rows (tables ++ [[]])))
  | some _ => none

end Entries

end LineShell.Toml
