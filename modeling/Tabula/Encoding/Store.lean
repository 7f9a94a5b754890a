import Tabula.Encoding.Mapping

/-!
# Mapping stores

The mappings of an encoder by column name, in ascending order of the names.

* `MappingStore.insert`, `MappingStore.insertAll` — store mappings over earlier ones.
* `MappingStore.get?`, `MappingStore.names` — look a mapping up, list the names.
-/

namespace Tabula

/-- Mappings by column name. -/
structure MappingStore where
  entries : List (String × Mapping)

namespace MappingStore

def empty : MappingStore := ⟨[]⟩

instance : Inhabited MappingStore := ⟨empty⟩

/-- The store with a mapping for the name, in place of an earlier one. -/
def insert (s : MappingStore) (name : String) (m : Mapping) : MappingStore :=
  ⟨insertByKey compare Prod.fst (name, m) s.entries⟩

/-- The store with all the mappings, one after the other. -/
def insertAll (s : MappingStore) (ms : List (String × Mapping)) : MappingStore :=
  ms.foldl (fun s (name, m) => s.insert name m) s

variable (s : MappingStore)

/-- The mapping stored for the name. -/
def get? (name : String) : Option Mapping := s.entries.lookup name

/-- The mapping stored for the name, which has to exist. -/
def get (name : String) : Except Error Mapping :=
  match s.get? name with
  | some m => .ok m
  | none => .error (.notFitted name)

def contains (name : String) : Bool := (s.get? name).isSome

def length : Nat := s.entries.length

def isEmpty : Bool := s.entries.isEmpty

/-- The names with a mapping, in ascending order. -/
def names : List String := s.entries.map Prod.fst

/-- Whether two stores have the same names and equal mappings for them. -/
def equal (s t : MappingStore) : Bool := s.entries == t.entries

instance : BEq MappingStore := ⟨equal⟩

end MappingStore

end Tabula
