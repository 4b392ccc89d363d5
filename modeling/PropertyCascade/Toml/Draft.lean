import PropertyCascade.Toml.Node

/-!
# TOML drafts

A document under construction. Its tables remember how they came about, because that decides what
may still be added to them: a table with a header of its own is complete for dotted keys, and one
made by dotted keys gets no header. A table that was only implied by the header of a table within
it may still get a header.
-/

namespace PropertyCascade

namespace Toml

/-- How a table came about. -/
inductive Origin where
  /-- By a header of its own, or between braces. -/
  | explicit
  /-- By the header of a table within it. -/
  | implied
  /-- By a dotted key. -/
  | dotted
  deriving DecidableEq, Repr

/-- A part of a document under construction. -/
inductive Draft where
  /-- A finished value. -/
  | value (node : Node)
  | table (origin : Origin) (entries : List (Text × Draft))
  /-- An array of tables: the last one may still grow. -/
  | tables (earlier : List (List (Text × Draft))) (last : List (Text × Draft))

namespace Draft

/-- The entries of a table under construction. -/
abbrev Entries := List (Text × Draft)

/-- The draft under a key. -/
def find? (key : Text) (entries : Entries) : Option Draft :=
  entries.lookup key

/-- Sets the draft under a key, in the place of an earlier one or else at the end. -/
def set (key : Text) (draft : Draft) : Entries → Entries
  | [] => [(key, draft)]
  | entry :: rest =>
      if entry.1 = key then (key, draft) :: rest else entry :: set key draft rest

mutual

/-- The value that a draft stands for. -/
def node : Draft → Node
  | value node => node
  | table _ entries => .table (nodes entries)
  | tables earlier last => .array (tableNodes earlier ++ [.table (nodes last)])

/-- The values that the entries of a table stand for. -/
def nodes : Entries → List (Text × Node)
  | [] => []
  | (key, draft) :: rest => (key, draft.node) :: nodes rest

/-- The tables of an array. -/
def tableNodes : List Entries → List Node
  | [] => []
  | entries :: rest => .table (nodes entries) :: tableNodes rest

end

/-- Changes the entries of the table that a path leads to. Tables that are missing on the way are
made with a given origin. Of an array of tables the last one is meant. Dotted keys lead through no
table that has a header of its own. The change is told the origin of the table, which is absent
for the table where the path starts and for the tables of arrays. -/
def change (made : Origin) (path : List Text) (origin : Option Origin) (entries : Entries)
    (edit : Option Origin → Entries → Option Entries) : Option Entries :=
  match path with
  | [] => edit origin entries
  | key :: rest =>
      match find? key entries with
      | none =>
          (change made rest (some made) [] edit).map fun inner =>
            set key (table made inner) entries
      | some (value _) => none
      | some (table found inner) =>
          if made = .dotted ∧ found = .explicit then none
          else (change made rest (some found) inner edit).map fun inner =>
            set key (table found inner) entries
      | some (tables earlier last) =>
          (change made rest none last edit).map fun last =>
            set key (tables earlier last) entries

/-- Adds a value under a path of keys. A path of several keys may only add to a table that was
made by dotted keys, and no key is given twice. -/
def addPair (entries : Entries) (path : List Text) (node : Node) : Option Entries :=
  match path.getLast? with
  | none => none
  | some key =>
      change .dotted path.dropLast none entries fun origin entries =>
        if path.dropLast ≠ [] ∧ origin ≠ some .dotted then none
        else if (find? key entries).isSome then none
        else some (set key (value node) entries)

/-- Adds several values, each under its path. -/
def addPairs (entries : Entries) (pairs : List (List Text × Node)) : Option Entries :=
  pairs.foldlM (fun entries pair => addPair entries pair.1 pair.2) entries

/-- Adds a table with a header. It may only have been implied so far. -/
def addTable (entries : Entries) (path : List Text) (pairs : List (List Text × Node)) :
    Option Entries :=
  match path.getLast? with
  | none => none
  | some key =>
      change .implied path.dropLast none entries fun _ entries =>
        match find? key entries with
        | none => (addPairs [] pairs).map fun inner => set key (table .explicit inner) entries
        | some (table .implied inner) =>
            (addPairs inner pairs).map fun inner => set key (table .explicit inner) entries
        | some _ => none

/-- Adds a table to an array of tables. -/
def addElement (entries : Entries) (path : List Text) (pairs : List (List Text × Node)) :
    Option Entries :=
  match path.getLast? with
  | none => none
  | some key =>
      change .implied path.dropLast none entries fun _ entries =>
        (addPairs [] pairs).bind fun inner =>
          match find? key entries with
          | none => some (set key (tables [] inner) entries)
          | some (tables earlier last) =>
              some (set key (tables (earlier ++ [last]) inner) entries)
          | some _ => none

end Draft

end Toml

end PropertyCascade
