/-!
# Ordered maps

A map from keys to values as the list of its entries in strictly increasing order of their keys.
The order is part of the type, so a map has one representation and iteration needs no sorting.

Besides insertion and removal there are two ways to combine maps: `fillFrom` copies the entries
of another map whose keys are missing, and `overlay` copies all of them.
-/

namespace PropertyCascade

universe u v

/-- Entries with strictly increasing keys. -/
structure OrderedMap (Key : Type u) [Ord Key] (Value : Type v) where
  entries : List (Key × Value)
  increasing : entries.Pairwise fun earlier later => compare earlier.1 later.1 = .lt

namespace OrderedMap

variable {Key : Type u} [Ord Key] {Value : Type v}

/-- The map without entries. -/
def empty : OrderedMap Key Value :=
  ⟨[], .nil⟩

instance : Inhabited (OrderedMap Key Value) :=
  ⟨empty⟩

/-- The value in a list of entries under a key. -/
def lookup (key : Key) : List (Key × Value) → Option Value
  | [] => none
  | entry :: rest => if compare key entry.1 = .eq then some entry.2 else lookup key rest

/-- The value under a key. -/
def get? (map : OrderedMap Key Value) (key : Key) : Option Value :=
  lookup key map.entries

/-- Whether a key has a value. -/
def contains (map : OrderedMap Key Value) (key : Key) : Bool :=
  (map.get? key).isSome

/-- The number of entries. -/
def size (map : OrderedMap Key Value) : Nat :=
  map.entries.length

/-- Whether there are no entries. -/
def isEmpty (map : OrderedMap Key Value) : Bool :=
  map.entries.isEmpty

/-- The keys in increasing order. -/
def keys (map : OrderedMap Key Value) : List Key :=
  map.entries.map (·.1)

/-- Puts an entry into its place, where it replaces one with the same key. -/
def place (key : Key) (value : Value) : List (Key × Value) → List (Key × Value)
  | [] => [(key, value)]
  | entry :: rest =>
      match compare key entry.1 with
      | .lt => (key, value) :: entry :: rest
      | .eq => (key, value) :: rest
      | .gt => entry :: place key value rest

theorem mem_of_mem_place {key : Key} {value : Value} {entry : Key × Value}
    {entries : List (Key × Value)} (placed : entry ∈ place key value entries) :
    entry = (key, value) ∨ entry ∈ entries := by
  induction entries with
  | nil => simpa [place] using placed
  | cons head rest ih =>
      rw [place] at placed
      split at placed <;> simp only [List.mem_cons] at placed ⊢
      · exact placed
      · exact placed.imp_right Or.inr
      · rcases placed with rfl | later
        · exact Or.inr (Or.inl rfl)
        · exact (ih later).imp_right Or.inr

section Order

variable [Std.TransOrd Key] [Std.LawfulEqOrd Key]

theorem increasing_place (key : Key) (value : Value) {entries : List (Key × Value)}
    (increasing : entries.Pairwise fun earlier later => compare earlier.1 later.1 = .lt) :
    (place key value entries).Pairwise fun earlier later =>
      compare earlier.1 later.1 = .lt := by
  induction entries with
  | nil => simp [place]
  | cons head rest ih =>
      rcases List.pairwise_cons.mp increasing with ⟨headFirst, restIncreasing⟩
      rw [place]
      split
      case h_1 before =>
        refine List.pairwise_cons.mpr ⟨fun entry later => ?_, increasing⟩
        rcases List.mem_cons.mp later with rfl | later
        · exact before
        · exact Std.TransCmp.lt_trans before (headFirst entry later)
      case h_2 same =>
        have : key = head.1 := Std.LawfulEqCmp.compare_eq_iff_eq.mp same
        subst this
        exact List.pairwise_cons.mpr ⟨headFirst, restIncreasing⟩
      case h_3 after =>
        refine List.pairwise_cons.mpr ⟨fun entry later => ?_, ih restIncreasing⟩
        rcases mem_of_mem_place later with rfl | later
        · exact Std.OrientedCmp.lt_of_gt after
        · exact headFirst entry later

/-- Sets the value under a key, replacing any earlier one. -/
def insert (map : OrderedMap Key Value) (key : Key) (value : Value) : OrderedMap Key Value :=
  ⟨place key value map.entries, increasing_place key value map.increasing⟩

/-- Sets the value under a key that has none. -/
def insertIfAbsent (map : OrderedMap Key Value) (key : Key) (value : Value) :
    OrderedMap Key Value :=
  if map.contains key then map else map.insert key value

/-- Removes the entry of a key. -/
def erase (map : OrderedMap Key Value) (key : Key) : OrderedMap Key Value :=
  ⟨map.entries.filter fun entry => compare key entry.1 != .eq, map.increasing.filter _⟩

/-- Copies every entry of another map whose key has no value yet. -/
def fillFrom (map other : OrderedMap Key Value) : OrderedMap Key Value :=
  other.entries.foldl (fun filled entry => filled.insertIfAbsent entry.1 entry.2) map

/-- Copies every entry of another map, replacing existing values. -/
def overlay (map other : OrderedMap Key Value) : OrderedMap Key Value :=
  other.entries.foldl (fun covered entry => covered.insert entry.1 entry.2) map

/-- The map of a list of entries, in which a later entry replaces an earlier one. -/
def ofList (entries : List (Key × Value)) : OrderedMap Key Value :=
  entries.foldl (fun map entry => map.insert entry.1 entry.2) empty

end Order

/-- The entries whose keys satisfy a condition. -/
def filterKeys (map : OrderedMap Key Value) (keep : Key → Bool) : OrderedMap Key Value :=
  ⟨map.entries.filter fun entry => keep entry.1, map.increasing.filter _⟩

instance [DecidableEq Key] [DecidableEq Value] : DecidableEq (OrderedMap Key Value) :=
  fun left right =>
    if same : left.entries = right.entries then
      .isTrue (by cases left; cases right; cases same; rfl)
    else .isFalse fun equal => same (congrArg entries equal)

end OrderedMap

end PropertyCascade
