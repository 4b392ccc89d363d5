import PropertyCascade.Cache
import PropertyCascade.FileStore

/-!
# Sessions

Several clients resolve paths over one store of files that changes between the resolutions. Each
client has a config file name of its own, and either a cache of its own or a part in the one that
is shared. Tables are remembered under normalised paths, so all spellings of a path have the same
entry, and an entry stays until it is invalidated, whatever becomes of the files.
-/

namespace PropertyCascade

/-- Which cache a client uses. -/
inductive CacheUse where
  /-- One that only this client uses. -/
  | own (cache : Cache)
  /-- The one that is shared. -/
  | shared
  deriving DecidableEq

/-- A client. -/
structure Client where
  configName : Text
  cacheUse : CacheUse
  deriving DecidableEq

/-- A store of files, the shared cache and the clients. -/
structure Session where
  store : FileStore
  sharedCache : Cache
  clients : List Client
  deriving DecidableEq

namespace Session

/-- A session over an empty store. -/
def ofClients (clients : List Client) : Session :=
  ⟨FileStore.empty, Cache.empty, clients⟩

/-- What a client does with paths. -/
inductive Request where
  /-- Resolves a path, unless its cache has a table for it. -/
  | resolve (path : PathName)
  /-- Resolves a path without its cache. -/
  | resolveUncached (path : PathName)
  /-- Looks a path up in its cache. -/
  | lookup (path : PathName)
  /-- Forgets the table under a path. -/
  | invalidate (path : PathName)
  /-- Forgets the tables at or below a directory. -/
  | invalidateWithin (directory : PathName)
  /-- Forgets every table. -/
  | clear
  deriving DecidableEq

/-- A change to the files, or a request of the client with a given number. -/
inductive Step where
  | insert (path : PathName) (text : Text)
  | remove (path : PathName)
  | deny (path : PathName) (failure : ReadFailure)
  | allow (path : PathName)
  | request (client : Nat) (request : Request)
  deriving DecidableEq

/-- What a step answers. -/
inductive Answer where
  | done
  /-- The text of the file that was removed. -/
  | removed (text : Option Text)
  /-- Whether there was something to undo. -/
  | existed (truth : Bool)
  /-- The number of tables forgotten. -/
  | dropped (count : Nat)
  | table (result : Except ResolveError Properties)
  | cached (table : Option Properties)

/-- The cache that a client uses. -/
def cacheOf (session : Session) (client : Client) : Cache :=
  match client.cacheUse with
  | .own cache => cache
  | .shared => session.sharedCache

/-- The session with the cache that the client with a given number uses replaced. -/
def withCache (session : Session) (index : Nat) (client : Client) (cache : Cache) : Session :=
  match client.cacheUse with
  | .own _ =>
      { session with clients := session.clients.set index { client with cacheUse := .own cache } }
  | .shared => { session with sharedCache := cache }

/-- Resolves a path through the cache of a client. The files are only read if the cache has no
table for the normalised path. -/
def resolve (session : Session) (index : Nat) (client : Client) (path : PathName) :
    Session × Except ResolveError Properties :=
  if path.isAbsolute then
    let cache := session.cacheOf client
    match cache.find? path.normalize with
    | some table => (session, .ok table)
    | none =>
        let resolution :=
          Resolution.ofNames session.store.source client.configName path.names
        let counted := { session with store := session.store.counting resolution.asked }
        (counted.withCache index client (cache.store path.normalize resolution.properties),
          .ok resolution.properties)
  else (session, .error (.relativePath path))

/-- Resolves a path without a cache. -/
def resolveUncached (session : Session) (client : Client) (path : PathName) :
    Session × Except ResolveError Properties :=
  match Resolution.ofPath session.store.source client.configName path with
  | .error failure => (session, .error failure)
  | .ok resolution =>
      ({ session with store := session.store.counting resolution.asked },
        .ok resolution.properties)

/-- Answers a request of a client. -/
def serve (session : Session) (index : Nat) (client : Client) : Request → Session × Answer
  | .resolve path =>
      let (after, result) := session.resolve index client path
      (after, .table result)
  | .resolveUncached path =>
      let (after, result) := session.resolveUncached client path
      (after, .table result)
  | .lookup path => (session, .cached ((session.cacheOf client).find? path))
  | .invalidate path =>
      let cache := session.cacheOf client
      (session.withCache index client (cache.invalidate path),
        .existed (cache.find? path).isSome)
  | .invalidateWithin directory =>
      let cache := session.cacheOf client
      let after := cache.invalidateWithin directory
      (session.withCache index client after, .dropped (cache.size - after.size))
  | .clear => (session.withCache index client Cache.empty, .done)

/-- One step. A request of a client that does not exist changes nothing. -/
def step (session : Session) : Step → Session × Answer
  | .insert path text => ({ session with store := session.store.insert path text }, .done)
  | .remove path =>
      ({ session with store := session.store.remove path },
        .removed (session.store.files.get? path.parts))
  | .deny path failure => ({ session with store := session.store.deny path failure }, .done)
  | .allow path =>
      ({ session with store := session.store.allow path },
        .existed (session.store.isDenied path))
  | .request index request =>
      match session.clients[index]? with
      | some client => session.serve index client request
      | none => (session, .done)

/-- The session after several steps. -/
def run (session : Session) (steps : List Step) : Session :=
  steps.foldl (fun state next => (state.step next).1) session

/-- The numbers of tables in the caches of the clients. -/
def cacheSizes (session : Session) : List Nat :=
  session.clients.map fun client => (session.cacheOf client).size

end Session

end PropertyCascade
