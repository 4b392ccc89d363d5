/-!
# Markings

A marking of a text says for each of its positions, from before the first letter to after the
last, whether a match may have arrived there. A part of a pattern advances a marking: from the
positions where the part may start to those where it may end. Since a marking has one entry per
position, matching takes time proportional to the length of the text for each part of the
pattern, however the parts are nested. The letters may be characters or bytes.
-/

namespace PropertyCascade

namespace Glob

/-- For each position of a text, whether a match may have arrived there. -/
abbrev Marking := List Bool

namespace Marking

variable {Letter : Type}

/-- Only the position before the first letter. -/
def start (text : List Letter) : Marking :=
  true :: text.map fun _ => false

/-- No position. -/
def nowhere (text : List Letter) : Marking :=
  false :: text.map fun _ => false

/-- Whether the position after the last letter is marked. -/
def atEnd (marking : Marking) : Bool :=
  marking.getLast? == some true

/-- The positions marked in either of two markings. -/
def union (left right : Marking) : Marking :=
  List.zipWith (· || ·) left right

/-- Past one letter that satisfies a condition. -/
def past (accepts : Letter → Bool) (text : List Letter) (marking : Marking) : Marking :=
  false :: List.zipWith (fun here letter => here && accepts letter) marking text

/-- Past any number of letters that all satisfy a condition. `carried` says whether such a run
reaches the first position. -/
def pastMany (accepts : Letter → Bool) (carried : Bool) : List Letter → Marking → Marking
  | letter :: text, here :: marking =>
      (carried || here) :: pastMany accepts ((carried || here) && accepts letter) text marking
  | [], here :: _ => [carried || here]
  | _, [] => []

/-- Past nothing, or past any text that ends with a separator. `seen` says whether an earlier
position is marked and `separated` whether a separator stands before the first position. -/
def pastDirectories (separates : Letter → Bool) (seen separated : Bool) :
    List Letter → Marking → Marking
  | letter :: text, here :: marking =>
      (here || (seen && separated)) ::
        pastDirectories separates (seen || here) (separates letter) text marking
  | [], here :: _ => [here || (seen && separated)]
  | _, [] => []

end Marking

end Glob

end PropertyCascade
