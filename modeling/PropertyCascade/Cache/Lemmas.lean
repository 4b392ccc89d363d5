import PropertyCascade.Cache
import PropertyCascade.OrderedMap.Lemmas

/-!
# Looking up in caches

What every operation on caches does to `find?`. Paths only count by their parts, so each law
compares the parts of two paths.
-/

namespace PropertyCascade

namespace Cache

@[simp]
theorem find?_empty (path : PathName) : empty.find? path = none :=
  rfl

theorem find?_store (cache : Cache) (path : PathName) (table : Properties) (wanted : PathName) :
    (cache.store path table).find? wanted =
      if wanted.parts = path.parts then some table else cache.find? wanted := by
  simp [store, find?, OrderedMap.get?_insert]

theorem find?_invalidate (cache : Cache) (path wanted : PathName) :
    (cache.invalidate path).find? wanted =
      if wanted.parts = path.parts then none else cache.find? wanted := by
  simp [invalidate, find?, OrderedMap.get?_erase]

theorem find?_invalidateWithin (cache : Cache) (directory wanted : PathName) :
    (cache.invalidateWithin directory).find? wanted =
      if wanted.isWithin directory then none else cache.find? wanted := by
  rw [invalidateWithin, find?, OrderedMap.get?_filterKeys]
  rw [PathName.isWithin]
  cases directory.parts.isPrefixOf wanted.parts <;> rfl

theorem find?_fetch (cache : Cache) (path : PathName) (compute : Unit → Properties)
    (wanted : PathName) :
    (cache.fetch path compute).1.find? wanted =
      if wanted.parts = path.parts then some ((cache.find? path).getD (compute ()))
      else cache.find? wanted := by
  rw [fetch]
  split
  case h_1 table found =>
    split
    case isTrue same =>
      have : cache.find? wanted = cache.find? path := by rw [find?, same, find?]
      simp [this, found]
    case isFalse => rfl
  case h_2 missing =>
    simp [find?_store, missing]

end Cache

end PropertyCascade
