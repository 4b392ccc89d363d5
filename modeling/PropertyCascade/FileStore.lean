import PropertyCascade.Resolution

/-!
# File stores

Files in memory, under the parts of their paths. Reading a path can be made to fail; such a
refusal comes before the files, and only reads that reach the files are counted.
-/

namespace PropertyCascade

/-- Files in memory. -/
structure FileStore where
  files : OrderedMap (List Segment) Text
  /-- The paths that cannot be read, and why. -/
  denials : OrderedMap (List Segment) ReadFailure
  /-- The number of reads that reached the files, whether or not they found one. -/
  reads : Nat
  deriving DecidableEq

namespace FileStore

/-- The store without files. -/
def empty : FileStore :=
  ⟨OrderedMap.empty, OrderedMap.empty, 0⟩

/-- What reading a path gives. -/
def source (store : FileStore) : FileSource := fun path =>
  match store.denials.get? path.parts with
  | some failure => .error failure
  | none =>
      match store.files.get? path.parts with
      | some text => .ok text
      | none => .error .notFound

/-- Whether reading a path is refused. -/
def isDenied (store : FileStore) (path : PathName) : Bool :=
  store.denials.contains path.parts

/-- The store after paths have been read from. -/
def counting (store : FileStore) (asked : List PathName) : FileStore :=
  { store with reads := store.reads + asked.countP fun path => !store.isDenied path }

/-- Adds or replaces a file. -/
def insert (store : FileStore) (path : PathName) (text : Text) : FileStore :=
  { store with files := store.files.insert path.parts text }

/-- Removes a file. -/
def remove (store : FileStore) (path : PathName) : FileStore :=
  { store with files := store.files.erase path.parts }

/-- Makes a path unreadable. -/
def deny (store : FileStore) (path : PathName) (failure : ReadFailure) : FileStore :=
  { store with denials := store.denials.insert path.parts failure }

/-- Makes a path readable again. -/
def allow (store : FileStore) (path : PathName) : FileStore :=
  { store with denials := store.denials.erase path.parts }

end FileStore

end PropertyCascade
