import PropertyCascade.PathName
import PropertyCascade.Properties

/-!
# Caches

A cache remembers tables under paths. Paths count as the same if their parts are the same, so
every operation goes through the parts, and the cache is a map from these.
-/

namespace PropertyCascade

/-- Tables under the parts of paths. -/
structure Cache where
  tables : OrderedMap (List Segment) Properties
  deriving DecidableEq

namespace Cache

/-- The cache that remembers nothing. -/
def empty : Cache :=
  ⟨OrderedMap.empty⟩

/-- The number of paths with a table. -/
def size (cache : Cache) : Nat :=
  cache.tables.size

/-- Whether no path has a table. -/
def isEmpty (cache : Cache) : Bool :=
  cache.tables.isEmpty

/-- The table under a path. -/
def find? (cache : Cache) (path : PathName) : Option Properties :=
  cache.tables.get? path.parts

/-- Puts a table under a path. -/
def store (cache : Cache) (path : PathName) (table : Properties) : Cache :=
  ⟨cache.tables.insert path.parts table⟩

/-- The table under a path, and the cache with it. A path that has none gets the computed one. -/
def fetch (cache : Cache) (path : PathName) (compute : Unit → Properties) : Cache × Properties :=
  match cache.find? path with
  | some table => (cache, table)
  | none =>
      let table := compute ()
      (cache.store path table, table)

/-- Forgets the table under a path. -/
def invalidate (cache : Cache) (path : PathName) : Cache :=
  ⟨cache.tables.erase path.parts⟩

/-- Forgets the tables under all paths at or below a directory. -/
def invalidateWithin (cache : Cache) (directory : PathName) : Cache :=
  ⟨cache.tables.filterKeys fun parts => !directory.parts.isPrefixOf parts⟩

/-- Forgets every table. -/
def clear (_ : Cache) : Cache :=
  empty

end Cache

end PropertyCascade
