import PropertyCascade.Glob.Marking
import PropertyCascade.PathName

/-!
# Wildcards of ignore rules

The patterns in ignore files have a dialect of their own: `*` and `?` stay within a segment, `**`
spans segments where it is a whole one, braces may nest, and a bracket without its counterpart is
a plain character. Names are matched byte by byte, so `?` and a class take a single byte.
-/

namespace PropertyCascade

namespace Ignore

open Glob (Marking)

/-- A part of a wildcard pattern. -/
inductive Wildcard where
  /-- Given bytes. -/
  | literal (bytes : List UInt8)
  /-- `?`: one byte other than the separator. -/
  | anyByte
  /-- `*`: any bytes other than the separator. -/
  | star
  /-- `**/` at the start: nothing, or anything that ends with a separator. -/
  | leading
  /-- `/**` at the end: a separator and anything. -/
  | trailing
  /-- `/**/` between: a separator, or anything between two. -/
  | between
  /-- A class of bytes. -/
  | oneOf (negated : Bool) (spans : List (UInt8 × UInt8))
  /-- Braces. -/
  | choice (options : List (List Wildcard))

namespace Wildcard

/-- Whether a byte separates segments. -/
def separates (byte : UInt8) : Bool :=
  byte == Segment.separator

/-- Whether a class accepts a byte. -/
def accepts (negated : Bool) (spans : List (UInt8 × UInt8)) (byte : UInt8) : Bool :=
  negated != spans.any fun span => span.1 ≤ byte && byte ≤ span.2

mutual

/-- Whether nothing is left to match in any case: braces around nothing. -/
def isVacant : Wildcard → Bool
  | choice options => areVacant options
  | _ => false

/-- Whether all parts of all options are vacant. -/
def areVacant : List (List Wildcard) → Bool
  | [] => true
  | option :: options => allVacant option && areVacant options

/-- Whether all parts of a sequence are vacant. -/
def allVacant : List Wildcard → Bool
  | [] => true
  | wildcard :: rest => wildcard.isVacant && allVacant rest

end

mutual

/-- Past what a part matches. -/
def advance : Wildcard → List UInt8 → Marking → Marking
  | literal bytes, name, marking =>
      bytes.foldl (fun marking byte => Marking.past (· == byte) name marking) marking
  | anyByte, name, marking => Marking.past (fun byte => !separates byte) name marking
  | star, name, marking => Marking.pastMany (fun byte => !separates byte) false name marking
  | leading, name, marking => Marking.pastDirectories separates false false name marking
  | trailing, name, marking =>
      Marking.pastMany (fun _ => true) false name (Marking.past separates name marking)
  | between, name, marking =>
      Marking.pastDirectories separates false false name (Marking.past separates name marking)
  | oneOf negated spans, name, marking => Marking.past (accepts negated spans) name marking
  | choice options, name, marking =>
      if areVacant options then marking else advanceSome options name marking

/-- Past what a sequence of parts matches. -/
def advanceAll : List Wildcard → List UInt8 → Marking → Marking
  | [], _, marking => marking
  | wildcard :: rest, name, marking => advanceAll rest name (wildcard.advance name marking)

/-- Past what some option matches. Options around nothing do not count. -/
def advanceSome : List (List Wildcard) → List UInt8 → Marking → Marking
  | [], name, _ => Marking.nowhere name
  | option :: options, name, marking =>
      let others := advanceSome options name marking
      if allVacant option then others
      else Marking.union (advanceAll option name marking) others

end

/-- Whether a pattern matches a path. The pattern `**` by itself matches everything. -/
def isMatch (pattern : List Wildcard) (path : List UInt8) : Bool :=
  match pattern with
  | [leading] => true
  | _ => (advanceAll pattern path (Marking.start path)).atEnd

/-! ## Reading -/

/-- What stands after an opening bracket. -/
inductive Bracket where
  /-- A class, with the number of characters up to and including its closing bracket. -/
  | closed (spans : List (Char × Char)) (length : Nat)
  | unclosed
  /-- A span whose first character comes after its last. -/
  | reversed

/-- Reads the members of a class. The flags say whether no member has been read yet and whether
the last character was a `-` that may continue a span; `spans` holds the members in reverse order
and `length` counts the characters read. A bracket or `-` at the start is a member. -/
def readMembers (isFirst inSpan : Bool) (spans : List (Char × Char)) (length : Nat) :
    Text → Bracket
  | [] => .unclosed
  | c :: rest =>
      if c = ']' ∧ isFirst = false then
        .closed ((if inSpan then ('-', '-') :: spans else spans).reverse) (length + 1)
      else if c = '-' ∧ isFirst = false ∧ inSpan = false then
        readMembers false true spans (length + 1) rest
      else match inSpan, spans with
        | true, (first, _) :: others =>
            if c < first then .reversed
            else readMembers false false ((first, c) :: others) (length + 1) rest
        | _, _ => readMembers false false ((c, c) :: spans) (length + 1) rest

/-- Whether a class is negated, and what its bracket holds. -/
def readBracket : Text → Bool × Bracket
  | '!' :: rest => (true, readMembers true false [] 1 rest)
  | '^' :: rest => (true, readMembers true false [] 1 rest)
  | rest => (false, readMembers true false [] 0 rest)

/-- The bytes that a span of characters covers: each byte of the two encodings by itself, but the
last of the one up to the first of the other. -/
def byteSpans (span : Char × Char) : List (UInt8 × UInt8) :=
  let first := String.utf8EncodeChar span.1
  let last := String.utf8EncodeChar span.2
  if span.1 = span.2 then first.map fun byte => (byte, byte)
  else
    (first.dropLast.map fun byte => (byte, byte)) ++
      [(first.getLast?.getD 0, last.head?.getD 0)] ++ (last.drop 1).map fun byte => (byte, byte)

/-- Braces that are not closed yet: the options before the last comma, and the parts after it, all
in reverse order. -/
structure Frame where
  finished : List (List Wildcard)
  current : List Wildcard

/-- A pattern that has been read in part: the parts outside of all braces in reverse order, the open
braces, the innermost first, and whether a bracket without its counterpart has been met. -/
structure Reading where
  outer : List Wildcard
  frames : List Frame
  unclosed : Bool

namespace Reading

/-- The parts that have been read within the innermost braces, in reverse order. -/
def current (reading : Reading) : List Wildcard :=
  match reading.frames with
  | [] => reading.outer
  | frame :: _ => frame.current

/-- Replaces these parts. -/
def withCurrent (reading : Reading) (parts : List Wildcard) : Reading :=
  match reading.frames with
  | [] => { reading with outer := parts }
  | frame :: others => { reading with frames := { frame with current := parts } :: others }

/-- Adds a part. -/
def add (reading : Reading) (wildcard : Wildcard) : Reading :=
  reading.withCurrent (wildcard :: reading.current)

/-- Adds a character that stands for itself. -/
def addLiteral (reading : Reading) (c : Char) : Reading :=
  reading.add (.literal (String.utf8EncodeChar c))

/-- A comma starts the next option, or is a character outside of braces. -/
def comma (reading : Reading) : Reading :=
  match reading.frames with
  | [] => reading.addLiteral ','
  | frame :: others =>
      { reading with frames := ⟨frame.current.reverse :: frame.finished, []⟩ :: others }

/-- Closes the innermost braces, if some are open. -/
def close? (reading : Reading) : Option Reading :=
  match reading.frames with
  | [] => none
  | frame :: others =>
      let options := (frame.current.reverse :: frame.finished).reverse
      some ({ reading with frames := others }.add (.choice options))

/-- Two stars of which `**` cannot be made. -/
def addStars (reading : Reading) : Reading :=
  (reading.add .star).add .star

/-- Puts the part for a whole segment `**` in the place of the separator before it. -/
def spanSegments (reading : Reading) (wildcard : Wildcard) : Reading :=
  match reading.current with
  | .leading :: _ => reading
  | .trailing :: _ => reading
  | _ :: before => reading.withCurrent (wildcard :: before)
  | [] => reading.add wildcard

/-- Two stars, given the character before them and the text after them. Gives also the number of
characters that are taken after them. -/
def doubleStar (reading : Reading) (before : Option Char) (after : Text) : Reading × Nat :=
  let separated := after.head? == some '/'
  if reading.current.isEmpty then
    if after.isEmpty || separated then (reading.add .leading, if separated then 1 else 0)
    else (reading.addStars, 0)
  else if before != some '/' &&
      (reading.frames.isEmpty || (before != some ',' && before != some '{')) then
    (reading.addStars, 0)
  else if after.isEmpty ||
      (!reading.frames.isEmpty && (after.head? == some ',' || after.head? == some '}')) then
    (reading.spanSegments .trailing, 0)
  else if separated then (reading.spanSegments .between, 1)
  else (reading.addStars, 0)

end Reading

/-- Reads a pattern. `before` is the character before the text, of which the first `taken`
characters belong to a part that has been read. -/
def scan (reading : Reading) (before : Option Char) (taken : Nat) : Text → Option Reading
  | [] => some reading
  | c :: rest =>
      match taken with
      | more + 1 => scan reading (some c) more rest
      | 0 =>
          if c = '?' then scan (reading.add .anyByte) (some c) 0 rest
          else if c = '*' then
            if rest.head? = some '*' then
              let (after, more) := reading.doubleStar before (rest.drop 1)
              scan after (some c) (more + 1) rest
            else scan (reading.add .star) (some c) 0 rest
          else if c = '[' ∧ reading.unclosed = false then
            match readBracket rest with
            | (negated, .closed spans length) =>
                scan (reading.add (.oneOf negated (spans.flatMap byteSpans))) (some c) length rest
            | (_, .unclosed) =>
                scan ({ reading with unclosed := true }.addLiteral c) (some c) 0 rest
            | (_, .reversed) => none
          else if c = '{' then
            scan { reading with frames := ⟨[], []⟩ :: reading.frames } (some c) 0 rest
          else if c = '}' then
            match reading.close? with
            | some closed => scan closed (some c) 0 rest
            | none => none
          else if c = ',' then scan reading.comma (some c) 0 rest
          else if c = '\\' then
            match rest with
            | [] => none
            | escaped :: _ => scan (reading.addLiteral escaped) (some c) 1 rest
          else scan (reading.addLiteral c) (some c) 0 rest

/-- Reads a pattern. Reversed spans, braces without their counterparts and a backslash at the end
make it unreadable. -/
def ofText? (text : Text) : Option (List Wildcard) :=
  match scan ⟨[], [], false⟩ none 0 text with
  | some ⟨outer, [], _⟩ => some outer.reverse
  | _ => none

end Wildcard

end Ignore

end PropertyCascade
