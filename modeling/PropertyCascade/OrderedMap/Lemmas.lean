import PropertyCascade.OrderedMap

/-!
# Looking up in ordered maps

What every operation on ordered maps does to `get?`, the view by which maps are compared: two maps
with the same values under all keys are equal (`eq_of_get?_eq`). Of the two ways to combine maps,
`fillFrom` prefers the values that are there and `overlay` those that come.
-/

namespace PropertyCascade

namespace OrderedMap

universe u v w

variable {Key : Type u} [Ord Key] {Value : Type v}

@[simp]
theorem get?_empty (key : Key) : (empty : OrderedMap Key Value).get? key = none :=
  rfl

theorem lookup_eq_none_of_forall_lt {key : Key} {entries : List (Key × Value)}
    (before : ∀ entry ∈ entries, compare key entry.1 = .lt) : lookup key entries = none := by
  induction entries with
  | nil => rfl
  | cons entry rest ih =>
      have first : compare key entry.1 = .lt := before entry List.mem_cons_self
      simp [lookup, first, ih fun later member => before later (List.mem_cons_of_mem _ member)]

section Order

variable [Std.TransOrd Key] [Std.LawfulEqOrd Key]

omit [Std.TransOrd Key] in
theorem lookup_place (key : Key) (value : Value) (entries : List (Key × Value)) (wanted : Key) :
    lookup wanted (place key value entries) =
      if compare wanted key = .eq then some value else lookup wanted entries := by
  induction entries with
  | nil => rfl
  | cons entry rest ih =>
      rw [place]
      split
      case h_1 => rfl
      case h_2 same =>
        have : key = entry.1 := Std.LawfulEqCmp.compare_eq_iff_eq.mp same
        subst this
        by_cases found : compare wanted entry.1 = .eq <;> simp [lookup, found]
      case h_3 after =>
        by_cases found : compare wanted entry.1 = .eq
        · have : wanted = entry.1 := Std.LawfulEqCmp.compare_eq_iff_eq.mp found
          subst this
          have different : compare entry.1 key ≠ .eq := by
            intro same
            rw [Std.LawfulEqCmp.compare_eq_iff_eq.mp same] at after
            simp [Std.LawfulEqCmp.compare_eq_iff_eq.mpr rfl] at after
          simp [lookup, different]
        · simp [lookup, found, ih]

theorem get?_insert (map : OrderedMap Key Value) (key : Key) (value : Value) (wanted : Key) :
    (map.insert key value).get? wanted =
      if compare wanted key = .eq then some value else map.get? wanted :=
  lookup_place key value map.entries wanted

omit [Std.TransOrd Key] [Std.LawfulEqOrd Key] in
theorem length_place {key : Key} {entries : List (Key × Value)} (value : Value)
    (absent : lookup key entries = none) :
    (place key value entries).length = entries.length + 1 := by
  induction entries with
  | nil => rfl
  | cons entry rest ih =>
      rw [place]
      split
      case h_1 => rfl
      case h_2 same => simp [lookup, same] at absent
      case h_3 after => simp [ih (by simpa [lookup, after] using absent)]

/-- A new key makes one entry more. -/
theorem size_insert {map : OrderedMap Key Value} {key : Key} (value : Value)
    (absent : map.get? key = none) : (map.insert key value).size = map.size + 1 :=
  length_place value absent

theorem get?_insertIfAbsent (map : OrderedMap Key Value) (key : Key) (value : Value)
    (wanted : Key) :
    (map.insertIfAbsent key value).get? wanted =
      (map.get? wanted).or (if compare wanted key = .eq then some value else none) := by
  rw [insertIfAbsent]
  by_cases same : compare wanted key = .eq
  · have : wanted = key := Std.LawfulEqCmp.compare_eq_iff_eq.mp same
    subst this
    cases found : map.get? wanted <;> simp [contains, found, get?_insert]
  · split <;> simp [get?_insert, same]

omit [Std.TransOrd Key] in
theorem lookup_filter (keep : Key → Bool) (entries : List (Key × Value)) (wanted : Key) :
    lookup wanted (entries.filter fun entry => keep entry.1) =
      if keep wanted then lookup wanted entries else none := by
  induction entries with
  | nil => simp [lookup]
  | cons entry rest ih =>
      by_cases found : compare wanted entry.1 = .eq
      · have : wanted = entry.1 := Std.LawfulEqCmp.compare_eq_iff_eq.mp found
        subst this
        by_cases kept : keep entry.1 = true <;> simp [lookup, List.filter, kept, ih]
      · by_cases kept : keep entry.1 = true <;> simp [lookup, List.filter, kept, found, ih]

omit [Std.TransOrd Key] in
theorem get?_filterKeys (map : OrderedMap Key Value) (keep : Key → Bool) (wanted : Key) :
    (map.filterKeys keep).get? wanted = if keep wanted then map.get? wanted else none :=
  lookup_filter keep map.entries wanted

theorem get?_erase (map : OrderedMap Key Value) (key wanted : Key) :
    (map.erase key).get? wanted =
      if compare wanted key = .eq then none else map.get? wanted := by
  have turned : compare key wanted = .eq ↔ compare wanted key = .eq :=
    Std.OrientedCmp.eq_comm
  rw [erase, get?, lookup_filter fun found => compare key found != .eq]
  by_cases same : compare wanted key = .eq
  · simp [turned.mpr same, same]
  · have : compare key wanted ≠ .eq := fun equal => same (turned.mp equal)
    simp [this, same, get?]

/-- The values that are there are kept. -/
theorem get?_fillFrom (map other : OrderedMap Key Value) (wanted : Key) :
    (map.fillFrom other).get? wanted = (map.get? wanted).or (other.get? wanted) := by
  have general (entries : List (Key × Value)) (map : OrderedMap Key Value) :
      (entries.foldl (fun filled entry => filled.insertIfAbsent entry.1 entry.2) map).get? wanted =
        (map.get? wanted).or (lookup wanted entries) := by
    induction entries generalizing map with
    | nil => simp [lookup]
    | cons entry rest ih =>
        rw [List.foldl_cons, ih, get?_insertIfAbsent, Option.or_assoc, lookup]
        split <;> simp
  exact general other.entries map

/-- The values that come replace those that are there. -/
theorem get?_overlay (map other : OrderedMap Key Value) (wanted : Key) :
    (map.overlay other).get? wanted = (other.get? wanted).or (map.get? wanted) := by
  have general (entries : List (Key × Value)) (map : OrderedMap Key Value)
      (increasing : entries.Pairwise fun earlier later => compare earlier.1 later.1 = .lt) :
      (entries.foldl (fun covered entry => covered.insert entry.1 entry.2) map).get? wanted =
        (lookup wanted entries).or (map.get? wanted) := by
    induction entries generalizing map with
    | nil => simp [lookup]
    | cons entry rest ih =>
        rcases List.pairwise_cons.mp increasing with ⟨first, restIncreasing⟩
        rw [List.foldl_cons, ih _ restIncreasing, get?_insert, lookup]
        by_cases same : compare wanted entry.1 = .eq
        · have : wanted = entry.1 := Std.LawfulEqCmp.compare_eq_iff_eq.mp same
          subst this
          simp [lookup_eq_none_of_forall_lt first]
        · simp [same]
  exact general other.entries map other.increasing

/-- The value of the last of several entries with a key. -/
def lastUnder [DecidableEq Key] (key : Key) (entries : List (Key × Value)) : Option Value :=
  (entries.filter fun entry => entry.1 = key).getLast?.map (·.2)

omit [Ord Key] [Std.TransOrd Key] [Std.LawfulEqOrd Key] in
theorem lastUnder_append [DecidableEq Key] (key : Key) (left right : List (Key × Value)) :
    lastUnder key (left ++ right) = (lastUnder key right).or (lastUnder key left) := by
  rw [lastUnder, lastUnder, lastUnder, List.filter_append, List.getLast?_append]
  cases (right.filter fun entry => entry.1 = key).getLast? <;> simp

omit [Ord Key] [Std.TransOrd Key] [Std.LawfulEqOrd Key] in
theorem lastUnder_cons [DecidableEq Key] (key : Key) (entry : Key × Value)
    (rest : List (Key × Value)) :
    lastUnder key (entry :: rest) =
      (lastUnder key rest).or (if entry.1 = key then some entry.2 else none) := by
  rw [← List.singleton_append, lastUnder_append]
  by_cases same : entry.1 = key <;> simp [lastUnder, same]

omit [Ord Key] [Std.TransOrd Key] [Std.LawfulEqOrd Key] in
theorem lastUnder_eq_none_iff [DecidableEq Key] {key : Key} {entries : List (Key × Value)} :
    lastUnder key entries = none ↔ key ∉ entries.map (·.1) := by
  induction entries with
  | nil => simp [lastUnder]
  | cons entry rest ih =>
      rw [lastUnder_cons, Option.or_eq_none_iff, ih, List.map_cons, List.mem_cons, not_or,
        and_comm]
      by_cases same : entry.1 = key
      · simp [same]
      · simp [same, Ne.symm same]

omit [Ord Key] [Std.TransOrd Key] [Std.LawfulEqOrd Key] in
/-- Where no key has two entries, the last entry under a key is its only one. -/
theorem lastUnder_eq_some_iff [DecidableEq Key] {key : Key} {value : Value}
    {entries : List (Key × Value)} (nodup : (entries.map (·.1)).Nodup) :
    lastUnder key entries = some value ↔ (key, value) ∈ entries := by
  induction entries with
  | nil => simp [lastUnder]
  | cons entry rest ih =>
      rcases List.nodup_cons.mp nodup with ⟨first, restNodup⟩
      rw [lastUnder_cons, List.mem_cons, ← ih restNodup, Prod.ext_iff]
      by_cases same : entry.1 = key
      · subst same
        simp [lastUnder_eq_none_iff.mpr first, eq_comm]
      · simp [same, Ne.symm same]

/-- Of several entries with one key the last counts. -/
theorem get?_ofList [DecidableEq Key] (entries : List (Key × Value)) (wanted : Key) :
    (ofList entries).get? wanted = lastUnder wanted entries := by
  have general (map : OrderedMap Key Value) :
      (entries.foldl (fun map entry => map.insert entry.1 entry.2) map).get? wanted =
        (lastUnder wanted entries).or (map.get? wanted) := by
    induction entries generalizing map with
    | nil => simp [lastUnder]
    | cons entry rest ih =>
        have turned : compare wanted entry.1 = .eq ↔ entry.1 = wanted :=
          Std.LawfulEqCmp.compare_eq_iff_eq.trans eq_comm
        rw [List.foldl_cons, ih, get?_insert, lastUnder_cons, Option.or_assoc]
        by_cases same : entry.1 = wanted <;> simp [turned, same]
  rw [ofList, general, get?_empty, Option.or_none]

/-- Filling a map from several others in turn: the first of them that has a value counts. -/
theorem get?_foldl_fillFrom {Source : Type w} (sources : List Source)
    (read : Source → OrderedMap Key Value) (map : OrderedMap Key Value) (wanted : Key) :
    (sources.foldl (fun filled source => filled.fillFrom (read source)) map).get? wanted =
      (map.get? wanted).or (sources.findSome? fun source => (read source).get? wanted) := by
  induction sources generalizing map with
  | nil => simp
  | cons source rest ih =>
      rw [List.foldl_cons, ih, get?_fillFrom, List.findSome?_cons, Option.or_assoc]
      cases (read source).get? wanted <;> simp

omit [Std.TransOrd Key] in
theorem mem_iff_lookup_eq {entries : List (Key × Value)} {key : Key} {value : Value}
    (increasing : entries.Pairwise fun earlier later => compare earlier.1 later.1 = .lt) :
    (key, value) ∈ entries ↔ lookup key entries = some value := by
  induction entries with
  | nil => simp [lookup]
  | cons entry rest ih =>
      rcases List.pairwise_cons.mp increasing with ⟨first, restIncreasing⟩
      rw [List.mem_cons, lookup, ih restIncreasing]
      by_cases same : key = entry.1
      · subst same
        have absent : lookup entry.1 rest = none := lookup_eq_none_of_forall_lt first
        simp [absent, Prod.ext_iff, eq_comm]
      · have different : compare key entry.1 ≠ .eq :=
          fun equal => same (Std.LawfulEqCmp.compare_eq_iff_eq.mp equal)
        simp [different, Prod.ext_iff, same]

omit [Std.TransOrd Key] in
/-- The entries of a map are the keys with their values. -/
theorem mem_entries_iff {map : OrderedMap Key Value} {key : Key} {value : Value} :
    (key, value) ∈ map.entries ↔ map.get? key = some value :=
  mem_iff_lookup_eq map.increasing

omit [Std.TransOrd Key] in
/-- No key has two entries. -/
theorem nodup_keys (map : OrderedMap Key Value) : (map.entries.map Prod.fst).Nodup := by
  refine List.pairwise_map.mpr (map.increasing.imp fun {earlier later} before same => ?_)
  have equal : compare earlier.1 later.1 = .eq := Std.LawfulEqCmp.compare_eq_iff_eq.mpr same
  rw [equal] at before
  cases before

/-- The map of a list of entries has the keys of the list. -/
theorem mem_keys_ofList [DecidableEq Key] {key : Key} {entries : List (Key × Value)} :
    key ∈ (ofList entries).entries.map (·.1) ↔ key ∈ entries.map (·.1) := by
  have found : key ∈ (ofList entries).entries.map (·.1) ↔
      (ofList entries).get? key ≠ none := by
    simp [Option.ne_none_iff_exists', ← mem_entries_iff]
  rw [found, get?_ofList, ne_eq, lastUnder_eq_none_iff, Decidable.not_not]

/-- The values under the keys of a map, as a list of pairs has them. -/
theorem lookup_map_entries [BEq Key] [LawfulBEq Key] {Result : Type v} (f : Value → Result)
    (map : OrderedMap Key Value) (wanted : Key) :
    (map.entries.map fun entry => (entry.1, f entry.2)).lookup wanted =
      (map.get? wanted).map f := by
  rw [get?]
  induction map.entries with
  | nil => rfl
  | cons entry rest ih =>
      by_cases same : wanted = entry.1
      · simp [lookup, same, Std.LawfulEqCmp.compare_eq_iff_eq.mpr]
      · have different : compare wanted entry.1 ≠ .eq :=
          fun equal => same (Std.LawfulEqCmp.compare_eq_iff_eq.mp equal)
        have unequal : (wanted == entry.1) = false := by simpa using same
        simp [lookup, List.lookup_cons, different, unequal, ih]

theorem entries_eq_of_lookup_eq {left right : List (Key × Value)}
    (leftIncreasing : left.Pairwise fun earlier later => compare earlier.1 later.1 = .lt)
    (rightIncreasing : right.Pairwise fun earlier later => compare earlier.1 later.1 = .lt)
    (same : ∀ key, lookup key left = lookup key right) : left = right := by
  induction left generalizing right with
  | nil =>
      cases right with
      | nil => rfl
      | cons entry rest => simpa [lookup] using same entry.1
  | cons first leftRest ih =>
      cases right with
      | nil => simpa [lookup] using same first.1
      | cons second rightRest =>
          rcases List.pairwise_cons.mp leftIncreasing with ⟨firstBefore, leftRestIncreasing⟩
          rcases List.pairwise_cons.mp rightIncreasing with ⟨secondBefore, rightRestIncreasing⟩
          have sameKey : first.1 = second.1 := by
            cases order : compare first.1 second.1 with
            | eq => exact Std.LawfulEqCmp.compare_eq_iff_eq.mp order
            | lt =>
                have absent : lookup first.1 (second :: rightRest) = none :=
                  lookup_eq_none_of_forall_lt fun entry member => by
                    rcases List.mem_cons.mp member with rfl | later
                    · exact order
                    · exact Std.TransCmp.lt_trans order (secondBefore entry later)
                rw [← same first.1] at absent
                simp [lookup] at absent
            | gt =>
                have turned : compare second.1 first.1 = .lt := Std.OrientedCmp.lt_of_gt order
                have absent : lookup second.1 (first :: leftRest) = none :=
                  lookup_eq_none_of_forall_lt fun entry member => by
                    rcases List.mem_cons.mp member with rfl | later
                    · exact turned
                    · exact Std.TransCmp.lt_trans turned (firstBefore entry later)
                rw [same second.1] at absent
                simp [lookup] at absent
          have sameValue : first.2 = second.2 := by
            simpa [lookup, sameKey] using same first.1
          have sameEntry : first = second := Prod.ext sameKey sameValue
          subst sameEntry
          refine congrArg (first :: ·) (ih leftRestIncreasing rightRestIncreasing fun key => ?_)
          by_cases found : compare key first.1 = .eq
          · have : key = first.1 := Std.LawfulEqCmp.compare_eq_iff_eq.mp found
            subst this
            rw [lookup_eq_none_of_forall_lt firstBefore, lookup_eq_none_of_forall_lt secondBefore]
          · simpa [lookup, found] using same key

/-- A map is determined by the values under its keys. -/
theorem eq_of_get?_eq {left right : OrderedMap Key Value}
    (same : ∀ key, left.get? key = right.get? key) : left = right := by
  rcases left with ⟨leftEntries, leftIncreasing⟩
  rcases right with ⟨rightEntries, rightIncreasing⟩
  rcases entries_eq_of_lookup_eq leftIncreasing rightIncreasing same with rfl
  rfl

end Order

end OrderedMap

end PropertyCascade
