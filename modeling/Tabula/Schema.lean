import Tabula.Error

/-!
# Schemas

A schema is the ordered list of the names and types of columns, no name twice, and beside it the
position of every name. It grows by one column at a time.

* `Schema.add` — a schema with one more column, unless the name is taken.
* `Schema.ofColumns` — the schema of a list of columns; the earliest repeated name is refused.
* `Schema.index?`, `Schema.typeOf` — where a name stands, and its type.
* `Schema.missing` — the requested names that a schema does not have.
-/

namespace Tabula

/-- The names and types of the columns of a table, in order. -/
structure Schema where
  columns : List (String × ColumnType)
  /-- Where each name stands, the latest column first. -/
  positions : List (String × Nat)
  /-- No name occurs twice, so that a name finds one column. -/
  nodup : (columns.map Prod.fst).Nodup
  /-- Every column has its name and position noted, and nothing else is noted. -/
  positions_eq : positions = (columns.map Prod.fst).zipIdx.reverse
  deriving DecidableEq

namespace Schema

/-- The schema without columns. -/
def empty : Schema := ⟨[], [], .nil, rfl⟩

instance : Inhabited Schema := ⟨empty⟩

variable (s : Schema)

def names : List String := s.columns.map Prod.fst

def types : List ColumnType := s.columns.map Prod.snd

def length : Nat := s.columns.length

def isEmpty : Bool := s.columns.isEmpty

/-- The position of the column with the name. -/
def index? (name : String) : Option Nat := s.positions.lookup name

/-- Whether a column has the name. -/
def has (name : String) : Bool := (s.index? name).isSome

/-- A name is found exactly if a column has it. -/
theorem has_iff_mem_names {name : String} : s.has name = true ↔ name ∈ s.names := by
  rw [has, index?, List.lookup_isSome_iff]
  constructor
  · rintro ⟨⟨n, i⟩, hp, hn⟩
    rw [positions_eq, List.mem_reverse] at hp
    rw [eq_of_beq hn]
    exact List.fst_mem_of_mem_zipIdx hp
  · intro h
    obtain ⟨i, hi, hn⟩ := List.getElem_of_mem h
    refine ⟨(name, i), ?_, beq_self_eq_true name⟩
    rw [positions_eq, List.mem_reverse, List.mem_zipIdx_iff_getElem?]
    exact List.getElem?_eq_some_iff.2 ⟨hi, hn⟩

/-! ### Building -/

/-- The schema with one more column at the end, unless its name is taken. -/
def add (name : String) (type : ColumnType) : Except Error Schema :=
  if h : s.has name then .error (.duplicateColumn name)
  else .ok {
    columns := s.columns ++ [(name, type)]
    positions := (name, s.length) :: s.positions
    nodup := by
      have hn : name ∉ s.names := fun hm => h (s.has_iff_mem_names.2 hm)
      rw [List.map_append, List.nodup_append]
      exact ⟨s.nodup, by simp, fun a ha b hb e => hn (by simp_all [names])⟩
    positions_eq := by
      rw [s.positions_eq, List.map_append, List.zipIdx_append, List.reverse_append]
      simp [length] }

/-- The schema of the columns; the earliest name that occurred before is refused. -/
def ofColumns (columns : List (String × ColumnType)) : Except Error Schema :=
  columns.foldlM (fun s (name, type) => s.add name type) empty

/-! ### Names and types -/

/-- The type of the column with the name. -/
def typeOf? (name : String) : Option ColumnType := (s.index? name).bind fun i => s.types[i]?

/-- The position of the column with the name, which has to exist. -/
def index (name : String) : Except Error Nat :=
  match s.index? name with
  | some i => .ok i
  | none => .error (.missingColumns [name])

/-- The type of the column with the name, which has to exist. -/
def typeOf (name : String) : Except Error ColumnType :=
  match s.typeOf? name with
  | some t => .ok t
  | none => .error (.missingColumns [name])

/-- The requested names that no column has, each once, in the order of the first request. -/
def missing (requested : List String) : List String :=
  (requested.filter fun name => !s.has name).eraseDups

/-- Refuses requested names that no column has. -/
def require (requested : List String) : Except Error Unit :=
  match s.missing requested with
  | [] => .ok ()
  | names => .error (.missingColumns names)

end Schema

end Tabula
