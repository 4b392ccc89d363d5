import PropertyCascade.OrderedMap
import PropertyCascade.Value

/-!
# Property tables

A table maps property keys, kept exactly as written, to their values. Its keys are in the order
of their code points, which is the order of the bytes of their UTF-8 encodings.
-/

namespace PropertyCascade

/-- A table of properties. -/
abbrev Properties := OrderedMap Text Value

namespace Properties

/-- Tables agree if they have the same keys and their values agree. -/
def agrees (left right : Properties) : Bool :=
  left.keys == right.keys &&
    (List.zipWith (fun first second => first.2.agrees second.2) left.entries right.entries).all id

end Properties

end PropertyCascade
