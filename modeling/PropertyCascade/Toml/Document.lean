import PropertyCascade.Toml.Draft
import PropertyCascade.Toml.Key
import PropertyCascade.Toml.Scalar

/-!
# TOML documents

The reader of TOML 1.0 documents. The text is first read into statements: headers, and pairs of a
path of keys and a value. The pairs are then gathered under their headers, and the tables of the
document are built up from them one after the other.

Reading goes forward through the text, and every step takes at least one character or is followed
by one that does, so a bound on the number of steps can be computed from the length of the text.
Arrays and inline tables nest to a bounded depth.
-/

namespace PropertyCascade

namespace Toml

/-- What a line of a document says. -/
inductive Statement where
  /-- Starts a table. -/
  | header (path : List Text)
  /-- Starts a table of an array of tables. -/
  | element (path : List Text)
  | pair (path : List Text) (node : Node)

namespace Statement

/-- The greatest number of arrays and inline tables within each other. -/
def maxNesting : Nat := 79

/-- Reads a path, an equals sign and the spaces after it. -/
def readPathAndSign (text : Text) : Option (List Text × Text) := do
  let (path, rest) ← Key.readPath? text
  match rest with
  | '=' :: more => pure (path, Layout.skipSpaces more)
  | _ => none

mutual

/-- Reads a value, with at most a number of steps and with arrays and inline tables nested to at
most a number of levels. -/
def readValue : (steps levels : Nat) → Text → Option (Node × Text)
  | 0, _, _ => none
  | steps + 1, levels, text =>
      match text, levels with
      | '\x22' :: _, _ => (Quoted.read? text).map fun (content, rest) => (.string content, rest)
      | '\x27' :: _, _ => (Quoted.read? text).map fun (content, rest) => (.string content, rest)
      | '[' :: rest, inner + 1 =>
          (readElements steps inner rest).map fun (nodes, rest) => (.array nodes, rest)
      | '{' :: rest, inner + 1 =>
          match Layout.skipSpaces rest with
          | '}' :: rest => some (.table [], rest)
          | start => do
              let (pairs, rest) ← readPairs steps inner start
              let entries ← Draft.addPairs [] pairs
              pure (.table (Draft.nodes entries), rest)
      | _, _ => Scalar.read? text

/-- Reads the elements of an array and the bracket that closes it. -/
def readElements : (steps levels : Nat) → Text → Option (List Node × Text)
  | 0, _, _ => none
  | steps + 1, levels, text =>
      match Layout.skipBetween false text with
      | ']' :: rest => some ([], rest)
      | start => do
          let (node, rest) ← readValue steps levels start
          match Layout.skipBetween false rest with
          | ',' :: rest => do
              let (nodes, rest) ← readElements steps levels rest
              pure (node :: nodes, rest)
          | ']' :: rest => pure ([node], rest)
          | _ => none

/-- Reads the pairs of an inline table, at least one, and the brace that closes it. -/
def readPairs : (steps levels : Nat) → Text → Option (List (List Text × Node) × Text)
  | 0, _, _ => none
  | steps + 1, levels, text => do
      let (path, start) ← readPathAndSign text
      let (node, rest) ← readValue steps levels start
      match Layout.skipSpaces rest with
      | ',' :: rest =>
          let (pairs, rest) ← readPairs steps levels rest
          pure ((path, node) :: pairs, rest)
      | '}' :: rest => pure ([(path, node)], rest)
      | _ => none

end

/-- A bound on the number of steps that reading a text takes. -/
def stepBound (text : Text) : Nat :=
  2 * text.length + 2

/-- Reads a statement, given the text of a line that is not blank. -/
def read? : Text → Option (Statement × Text)
  | '[' :: '[' :: rest => do
      let (path, rest) ← Key.readPath? rest
      match rest with
      | ']' :: ']' :: rest => pure (element path, ← Layout.afterLine? rest)
      | _ => none
  | '[' :: rest => do
      let (path, rest) ← Key.readPath? rest
      match rest with
      | ']' :: rest => pure (header path, ← Layout.afterLine? rest)
      | _ => none
  | text => do
      let (path, start) ← readPathAndSign text
      let (node, rest) ← readValue (stepBound start) maxNesting start
      pure (pair path node, ← Layout.afterLine? rest)

/-- Reads at most a number of lines: blank ones, comments and statements. -/
def readLines : Nat → Text → Option (List Statement)
  | 0, _ => none
  | count + 1, text =>
      match Layout.skipSpaces text with
      | [] => some []
      | c :: rest =>
          if c = '#' ∨ c = '\n' ∨ c = '\r' then
            (Layout.afterLine? (c :: rest)).bind (readLines count)
          else do
            let (statement, rest) ← read? (c :: rest)
            let statements ← readLines count rest
            pure (statement :: statements)

/-- Reads the statements of a document, which may start with a byte order mark. -/
def readAll? (text : Text) : Option (List Statement) :=
  let content := Text.withoutMark text
  readLines (content.length + 1) content

/-- The pairs before the next header. -/
def leadingPairs : List Statement → List (List Text × Node)
  | pair path node :: rest => (path, node) :: leadingPairs rest
  | _ => []

end Statement

namespace Document

/-- Adds the tables that statements start, each with the pairs up to the next header. -/
def addTables (entries : Draft.Entries) : List Statement → Option Draft.Entries
  | [] => some entries
  | .header path :: rest =>
      (Draft.addTable entries path (Statement.leadingPairs rest)).bind fun entries =>
        addTables entries rest
  | .element path :: rest =>
      (Draft.addElement entries path (Statement.leadingPairs rest)).bind fun entries =>
        addTables entries rest
  | .pair _ _ :: rest => addTables entries rest

/-- The entries of the document that statements make. -/
def ofStatements? (statements : List Statement) : Option (List (Text × Node)) := do
  let top ← Draft.addPairs [] (Statement.leadingPairs statements)
  let entries ← addTables top statements
  pure (Draft.nodes entries)

/-- Reads a document. -/
def read? (text : Text) : Option (List (Text × Node)) :=
  (Statement.readAll? text).bind ofStatements?

/-- A table implied by the header of a table within it may get a header of its own, once; a table
made by a dotted key may not. -/
example :
    (read? "[a.b]\n[a]\n".toList).isSome = true ∧ (read? "[a]\n[a]\n".toList).isSome = false ∧
      (read? "a.b=1\n[a]\n".toList).isSome = false := by
  decide +kernel

end Document

end Toml

end PropertyCascade
