import PropertyCascade.Properties
import PropertyCascade.Proofs.OrderedMap
import PropertyCascade.Proofs.Text.Utf8Order

/-!
# Tables under changes

Tables that are changed one after the other, also with the entries of one another or of themselves,
hold what maps hold after the same changes. A map here is no more than a function with the values
under some keys, so nothing in it depends on an order; that the entries of a table are listed in the
order of the bytes of their keys comes with the type of tables and the order of texts.

Changes are run in one way over tables and over maps, given what one operation does. Looking up
turns a table into a map, and it turns what one operation does to tables into what the operation
does to maps. So only one operation has to be looked at, and the run follows by induction on the
changes.
-/

namespace PropertyCascade

namespace Properties

/-- What is done to a table. The other tables are known by names. -/
inductive Operation (Name : Type) where
  | insert (key : Text) (value : Value)
  | insertIfAbsent (key : Text) (value : Value)
  | remove (key : Text)
  | fillFrom (other : Name)
  | overlay (other : Name)

/-- The values under some keys. -/
abbrev Map := Text → Option Value

section Runs

variable {Name : Type} [DecidableEq Name] {Store Other : Type}

/-- Does operations one after the other, each to the store with its name. -/
def run (apply : (Name → Store) → Store → Operation Name → Store) (stores : Name → Store)
    (changes : List (Name × Operation Name)) : Name → Store :=
  changes.foldl (fun stores (name, operation) =>
    Function.update stores name (apply stores (stores name) operation)) stores

/-- A view of stores that commutes with one operation commutes with every run. -/
theorem comp_run {apply : (Name → Store) → Store → Operation Name → Store}
    {applyOther : (Name → Other) → Other → Operation Name → Other} {view : Store → Other}
    (commutes : ∀ stores store operation,
      view (apply stores store operation) = applyOther (view ∘ stores) (view store) operation)
    (stores : Name → Store) (changes : List (Name × Operation Name)) :
    view ∘ run apply stores changes = run applyOther (view ∘ stores) changes := by
  induction changes generalizing stores with
  | nil => rfl
  | cons change rest ih =>
      rcases change with ⟨name, operation⟩
      calc
        view ∘ run apply (Function.update stores name (apply stores (stores name) operation)) rest
        _ = run applyOther
            (view ∘ Function.update stores name (apply stores (stores name) operation)) rest := ih _
        _ = run applyOther (Function.update (view ∘ stores) name
            (applyOther (view ∘ stores) (view (stores name)) operation)) rest := by
          rw [Function.comp_update, commutes]

end Runs

/-- The table after an operation. -/
def applyTo {Name : Type} (tables : Name → Properties) (table : Properties) :
    Operation Name → Properties
  | .insert key value => table.insert key value
  | .insertIfAbsent key value => table.insertIfAbsent key value
  | .remove key => table.erase key
  | .fillFrom other => table.fillFrom (tables other)
  | .overlay other => table.overlay (tables other)

namespace Map

/-- The map after an operation. -/
def applyTo {Name : Type} (maps : Name → Map) (map : Map) : Operation Name → Map
  | .insert key value => Function.update map key (some value)
  | .insertIfAbsent key value =>
      if (map key).isSome then map else Function.update map key (some value)
  | .remove key => Function.update map key none
  | .fillFrom other => fun key => (map key).or (maps other key)
  | .overlay other => fun key => (maps other key).or (map key)

end Map

/-- Looking up after an operation on tables is the operation on what was looked up before. -/
theorem get?_applyTo {Name : Type} (tables : Name → Properties) (table : Properties)
    (operation : Operation Name) :
    (applyTo tables table operation).get? =
      Map.applyTo (OrderedMap.get? ∘ tables) table.get? operation := by
  cases operation with
  | insert key value => exact table.get?_insert_eq_update key value
  | insertIfAbsent key value =>
      rw [applyTo, Map.applyTo, OrderedMap.insertIfAbsent, OrderedMap.contains,
        apply_ite OrderedMap.get?, table.get?_insert_eq_update]
  | remove key => exact table.get?_erase_eq_update key
  | fillFrom other => exact funext (table.get?_fillFrom (tables other))
  | overlay other => exact funext (table.get?_overlay (tables other))

/-- A table lists a map: its entries are those of the map, in strictly increasing order of the bytes
of their keys and no key twice, and their number and what is found under a key are those of the
map. -/
structure Lists (table : Properties) (map : Map) : Prop where
  increasing : table.entries.Pairwise fun earlier later =>
    Text.Utf8.encode earlier.1 < Text.Utf8.encode later.1
  distinct : table.keys.Nodup
  mem_iff : ∀ key value, (key, value) ∈ table.entries ↔ map key = some value
  size_eq : table.size = {key | (map key).isSome}.ncard
  get?_eq : ∀ key, table.get? key = map key

theorem lists_get? (table : Properties) : table.Lists table.get? where
  increasing := table.increasing.imp Text.Utf8.encode_lt_encode
  distinct := table.nodup_keys
  mem_iff _ _ := OrderedMap.mem_entries_iff
  size_eq := table.ncard_isSome_get?.symm
  get?_eq _ := rfl

/-- Whatever is done to tables, each of them lists the map that the same operations make of the maps
at the start. Filling is overlaying from the other side, both are idempotent and associative, and
filling from several tables in turn is overlaying with them in the other direction. -/
theorem tables_as_ordered_maps :
    (∀ (Name : Type) [DecidableEq Name] (tables : Name → Properties)
        (changes : List (Name × Operation Name)) (name : Name),
      (run applyTo tables changes name).Lists
        (run Map.applyTo (fun name => (tables name).get?) changes name)) ∧
      (∀ table other : Properties, table.fillFrom other = other.overlay table) ∧
      (∀ table : Properties, table.fillFrom table = table ∧ table.overlay table = table) ∧
      (∀ table other : Properties, (table.fillFrom other).fillFrom other = table.fillFrom other ∧
        (table.overlay other).overlay other = table.overlay other) ∧
      (∀ first second third : Properties,
        (first.fillFrom second).fillFrom third = first.fillFrom (second.fillFrom third) ∧
          (first.overlay second).overlay third = first.overlay (second.overlay third)) ∧
      ∀ tables : List Properties,
        tables.foldl OrderedMap.fillFrom OrderedMap.empty =
          tables.reverse.foldl OrderedMap.overlay OrderedMap.empty := by
  refine ⟨fun Name _ tables changes name => ?_, OrderedMap.fillFrom_eq_overlay,
    fun table => ⟨table.fillFrom_self, table.overlay_self⟩,
    fun table other => ⟨table.fillFrom_fillFrom_self other, table.overlay_overlay_self other⟩,
    fun first second third =>
      ⟨first.fillFrom_assoc second third, first.overlay_assoc second third⟩,
    OrderedMap.foldl_fillFrom_empty⟩
  have looked : (run applyTo tables changes name).get? =
      run Map.applyTo (OrderedMap.get? ∘ tables) changes name :=
    congrFun (comp_run get?_applyTo tables changes) name
  exact looked ▸ lists_get? (run applyTo tables changes name)

end Properties

end PropertyCascade
