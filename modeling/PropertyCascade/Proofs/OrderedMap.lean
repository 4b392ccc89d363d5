import Mathlib.Data.Set.Card
import PropertyCascade.OrderedMap.Lemmas

/-!
# Ordered maps as functions

An ordered map is determined by the function that looks its keys up. Insertion and removal change
that function at one key, and its keys with a value are as many as there are entries.

The two ways to combine maps are one operation seen from its two sides: filling a map from another
one is overlaying the other one with it. So the laws of overlaying are those of filling, read in the
other direction, and a walk that fills from what is nearest first ends where a walk from the far end
that replaces what it has ends.
-/

namespace PropertyCascade

namespace OrderedMap

universe u v

/-! ## Keys with a value -/

/-- A list without repetitions has as many members as the set of them. -/
theorem ncard_eq_length {Key : Type u} [DecidableEq Key] {keys : List Key} (distinct : keys.Nodup)
    {isKey : Key → Prop} (mem_iff : ∀ key, isKey key ↔ key ∈ keys) :
    {key | isKey key}.ncard = keys.length := by
  have same : {key | isKey key} = (keys.toFinset : Set Key) := by
    ext key
    simp [mem_iff]
  rw [same, Set.ncard_coe_finset, List.toFinset_card_of_nodup distinct]

variable {Key : Type u} [Ord Key] [Std.TransOrd Key] [Std.LawfulEqOrd Key] {Value : Type v}

omit [Std.TransOrd Key] in
theorem isSome_get?_iff {map : OrderedMap Key Value} {key : Key} :
    (map.get? key).isSome ↔ key ∈ map.keys := by
  simp [Option.isSome_iff_exists, keys, mem_entries_iff]

omit [Std.TransOrd Key] in
/-- There are as many entries as keys with a value. -/
theorem ncard_isSome_get? [DecidableEq Key] (map : OrderedMap Key Value) :
    {key | (map.get? key).isSome}.ncard = map.size :=
  (ncard_eq_length map.nodup_keys fun _ => isSome_get?_iff).trans (List.length_map ..)

/-! ## Lookup as a function -/

theorem get?_insert_eq_update [DecidableEq Key] (map : OrderedMap Key Value) (key : Key)
    (value : Value) : (map.insert key value).get? = Function.update map.get? key (some value) := by
  funext wanted
  rw [get?_insert, Function.update_apply]
  simp only [Std.LawfulEqCmp.compare_eq_iff_eq]

theorem get?_erase_eq_update [DecidableEq Key] (map : OrderedMap Key Value) (key : Key) :
    (map.erase key).get? = Function.update map.get? key none := by
  funext wanted
  rw [get?_erase, Function.update_apply]
  simp only [Std.LawfulEqCmp.compare_eq_iff_eq]

/-! ## Filling -/

theorem fillFrom_eq_overlay (map other : OrderedMap Key Value) :
    map.fillFrom other = other.overlay map :=
  eq_of_get?_eq fun key => by rw [get?_fillFrom, get?_overlay]

theorem empty_fillFrom (map : OrderedMap Key Value) : empty.fillFrom map = map :=
  eq_of_get?_eq fun key => by rw [get?_fillFrom, get?_empty, Option.none_or]

theorem fillFrom_self (map : OrderedMap Key Value) : map.fillFrom map = map :=
  eq_of_get?_eq fun key => by rw [get?_fillFrom, Option.or_self]

theorem fillFrom_assoc (first second third : OrderedMap Key Value) :
    (first.fillFrom second).fillFrom third = first.fillFrom (second.fillFrom third) :=
  eq_of_get?_eq fun key => by simp only [get?_fillFrom, Option.or_assoc]

theorem fillFrom_fillFrom_self (map other : OrderedMap Key Value) :
    (map.fillFrom other).fillFrom other = map.fillFrom other := by
  rw [fillFrom_assoc, fillFrom_self]

/-! ## Overlaying -/

theorem overlay_self (map : OrderedMap Key Value) : map.overlay map = map := by
  rw [← fillFrom_eq_overlay, fillFrom_self]

theorem overlay_assoc (first second third : OrderedMap Key Value) :
    (first.overlay second).overlay third = first.overlay (second.overlay third) := by
  simp only [← fillFrom_eq_overlay, fillFrom_assoc]

theorem overlay_overlay_self (map other : OrderedMap Key Value) :
    (map.overlay other).overlay other = map.overlay other := by
  rw [overlay_assoc, overlay_self]

/-! ## One map after the other -/

/-- Filling a map from several others in turn fills it from what overlaying them in the other
direction leads to. -/
theorem foldl_fillFrom (map : OrderedMap Key Value) (others : List (OrderedMap Key Value)) :
    others.foldl fillFrom map = map.fillFrom (others.reverse.foldl overlay empty) := by
  induction others generalizing map with
  | nil => rfl
  | cons other rest ih =>
      calc
        rest.foldl fillFrom (map.fillFrom other)
        _ = (map.fillFrom other).fillFrom (rest.reverse.foldl overlay empty) := ih _
        _ = map.fillFrom ((rest.reverse.foldl overlay empty).overlay other) := by
          rw [fillFrom_assoc, fillFrom_eq_overlay other]
        _ = map.fillFrom ((other :: rest).reverse.foldl overlay empty) := by
          rw [List.reverse_cons, List.foldl_concat]

theorem foldl_fillFrom_empty (maps : List (OrderedMap Key Value)) :
    maps.foldl fillFrom empty = maps.reverse.foldl overlay empty := by
  rw [foldl_fillFrom, empty_fillFrom]

end OrderedMap

end PropertyCascade
