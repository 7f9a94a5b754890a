import Tabula.Proofs.Grammar
import Tabula.Proofs.Outcome
import Tabula.Proofs.Pieces
import Tabula.Records.Document

/-!
# Documents that are read back

A document is a text of the grammar: a record is an object of its cells under their names, and the
records are the items of an array or stand on lines. What is read is therefore the JSON value that
each record stands for, whatever is in its texts.

* `cellJson`, `recordJson` — the values that cells and records are read as; `Exact` — the cells that
  are read as they are.
* `denotes_valueText`, `denotes_record` — cells and records stand for these values.
* `items?_records`, `items?_lines` — the records of a document in each of the two layouts.
-/

namespace Tabula.Records

variable {v : Value} {vs : List Value} {names : List String} {rows : List (List Value)}

/-! ### Cells -/

/-- The JSON value that a cell is written as. A floating-point number is not told from nothing here,
as it need not be read back. -/
def cellJson : Value → Json
  | .null | .float _ => .null
  | .boolean b => .bool b
  | .integer i => .number (.ofInt i.toInt)
  | .string s => .string (some s)

/-- Nothing, a truth value, an integer or a text. -/
def Exact (v : Value) : Prop := v.columnType? ≠ some .float

/-- The text of a cell denotes the value it is read as. -/
theorem denotes_valueText (hv : Exact v) : Json.Denotes (.value (cellJson v)) (valueText v) := by
  cases v with
  | null => exact .null
  | boolean b =>
    cases b with
    | true => exact .true
    | false => exact .false
  | integer i => exact Json.denotes_toString i.toInt
  | float x => exact absurd rfl hv
  | string s => exact Json.denotes_quote s

/-- There is no control character in the text of a cell. -/
theorem le_toNat_of_mem_valueText (hv : Exact v) {d : Char} (h : d ∈ valueText v) :
    32 ≤ d.toNat := by
  cases v with
  | null =>
    have hnull : ∀ d ∈ ['n', 'u', 'l', 'l'], 32 ≤ d.toNat := by simp
    exact hnull d h
  | boolean b =>
    cases b with
    | true =>
      have htrue : ∀ d ∈ ['t', 'r', 'u', 'e'], 32 ≤ d.toNat := by simp
      exact htrue d h
    | false =>
      have hfalse : ∀ d ∈ ['f', 'a', 'l', 's', 'e'], 32 ≤ d.toNat := by simp
      exact hfalse d h
  | integer i => exact Json.le_toNat_of_mem_toString h
  | float x => exact absurd rfl hv
  | string s => exact Json.le_toNat_of_mem_quote h

/-! ### Records -/

/-- A member of a record. -/
def memberText (m : String × Value) : List Char := Json.quote m.1 ++ ':' :: valueText m.2

/-- The member that is read back. -/
def memberJson (m : String × Value) : Option String × Json := (some m.1, cellJson m.2)

/-- The value that a record is read as. -/
def recordJson (names : List String) (vs : List Value) : Json :=
  .object ((names.zip vs).map memberJson)

theorem record_eq (names : List String) (vs : List Value) : record names vs =
    '{' :: ([','].intercalate ((names.zip vs).map memberText) ++ ['}']) := rfl

/-- One value for each name, all of them such that they can be read back. -/
structure Fits (names : List String) (vs : List Value) : Prop where
  length_eq : vs.length = names.length
  exact : ∀ v ∈ vs, Exact v

/-- A record of a table with columns has members. -/
theorem Fits.zip_ne_nil (h : Fits names vs) (hne : names ≠ []) : names.zip vs ≠ [] := by
  have hlength : (names.zip vs).length = names.length := by
    rw [List.length_zip, h.length_eq, Nat.min_self]
  rwa [← List.length_pos_iff, hlength, List.length_pos_iff]

/-- A record stands for the object of its cells. -/
theorem denotes_record (hne : names ≠ []) (h : Fits names vs) :
    Json.Denotes (.value (recordJson names vs)) (record names vs) := by
  rw [record_eq]
  refine .object (Json.denotes_members (h.zip_ne_nil hne) fun m hm => ?_)
  have hcell := denotes_valueText (h.exact m.2 (List.of_mem_zip hm).2)
  exact Json.denotes_member m.1 hcell

/-! ### Documents -/

/-- A record is read as the object of its cells. -/
theorem parseChars?_record (hne : names ≠ []) (h : Fits names vs) :
    Json.parseChars? (record names vs) = some (recordJson names vs) :=
  Json.parseChars?_of_denotes (denotes_record hne h).unpadded

/-- The records of an array are read back. -/
theorem items?_records (hnames : names ≠ []) (hne : rows ≠ [])
    (hrows : ∀ vs ∈ rows, Fits names vs) :
    items? .records (render .records names rows) = some (rows.map (recordJson names)) := by
  have hrender : render .records names rows =
      '[' :: ([','].intercalate (rows.map (record names)) ++ [']']) := by
    rw [render, if_neg (by simpa using hnames)]
    rfl
  -- the document is an array, and each record one of its items
  have harray : Json.Denotes (.value (.array (rows.map (recordJson names))))
      (render .records names rows) := by
    rw [hrender]
    exact .array (Json.denotes_items hne fun vs hvs => denotes_record hnames (hrows vs hvs))
  rw [items?, Json.parseChars?_of_denotes harray.unpadded]
  rfl

/-- A break in a text is written by an escape, so there is none in a record. -/
theorem newline_notMem_record (h : Fits names vs) : '\n' ∉ record names vs := by
  have hcontrol : ∀ c ∈ record names vs, 32 ≤ c.toNat := by
    intro c hc
    rw [record_eq, List.mem_cons, List.mem_append, List.mem_singleton] at hc
    -- a brace, a character of a member or a comma between two, or the other brace
    obtain rfl | hc | rfl := hc
    · decide
    · obtain rfl | ⟨l, hl, hc⟩ := Text.mem_of_mem_intercalate hc
      · decide
      · obtain ⟨m, hm, rfl⟩ := List.mem_map.1 hl
        rw [memberText, List.mem_append, List.mem_cons] at hc
        obtain hc | rfl | hc := hc
        · exact Json.le_toNat_of_mem_quote hc
        · decide
        · exact le_toNat_of_mem_valueText (h.exact m.2 (List.of_mem_zip hm).2) hc
    · decide
  intro hbreak
  exact absurd (hcontrol '\n' hbreak) (by decide)

/-- The records on lines are read back. -/
theorem items?_lines (hnames : names ≠ []) (hrows : ∀ vs ∈ rows, Fits names vs) :
    items? .lines (render .lines names rows) = some (rows.map (recordJson names)) := by
  have hrender : render .lines names rows = (rows.map (record names)).flatMap (· ++ ['\n']) := by
    rw [render, if_neg (by simpa using hnames)]
  have hlines : Text.splitOn '\n' (render .lines names rows) = rows.map (record names) ++ [[]] := by
    rw [hrender]
    refine Text.splitOn_flatMap fun l hl => ?_
    obtain ⟨vs, hvs, rfl⟩ := List.mem_map.1 hl
    exact newline_notMem_record (hrows vs hvs)
  -- only the piece after the last break is blank
  have hfilter : (rows.map (record names) ++ [[]]).filter (fun line => !line.all Json.isBlank) =
      rows.map (record names) := by
    rw [List.filter_append]
    have hkeep : (rows.map (record names)).filter (fun line => !line.all Json.isBlank) =
        rows.map (record names) := by
      rw [List.filter_eq_self]
      intro l hl
      obtain ⟨vs, -, rfl⟩ := List.mem_map.1 hl
      rfl
    rw [hkeep]
    exact List.append_nil _
  show ((Text.splitOn '\n' (render .lines names rows)).filter _).mapM Json.parseChars? = _
  rw [hlines, hfilter]
  exact mapM_map_eq_some fun vs hvs => parseChars?_record hnames (hrows vs hvs)

end Tabula.Records
