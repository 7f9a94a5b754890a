import Tabula.Options
import Tabula.Proofs.Grammar

/-!
# Options as they are set and as they are written

Options are put together by a sequence of calls, in any order and with repetitions, and the last
call for a field decides. Written as JSON they come back, also if someone else has written them:
in another order, with other members between them, with blanks, or as an array. Reading does not
check anything, so options that cannot be built come back like all others.

* `Options.Setting`, `OptionsBuilder.ofSettings` — sequences of calls.
* `Options.overriddenBy`, `OptionsBuilder.onto_ofSettings` — the last call for each field decides.
* `Options.values`, `Options.fields` — the fields as JSON values, with and without their names.
* `Options.ofJson?_object` — what is read depends neither on the order nor on other members.
* `Options.built_and_read` — all of this, for every sequence of calls and for all options.
-/

namespace Tabula

/-! ### Setting -/

/-- A call that sets one field. -/
inductive Options.Setting where
  | separator (b : UInt8)
  | scanLength (n : Option UInt64)
  | layout (l : RecordLayout)
  | createsParents (creates : Bool)
  deriving DecidableEq, Repr

namespace Options.Setting

def separator? : Setting → Option UInt8
  | .separator b => some b
  | _ => none

def scanLength? : Setting → Option (Option UInt64)
  | .scanLength n => some n
  | _ => none

def layout? : Setting → Option RecordLayout
  | .layout l => some l
  | _ => none

def createsParents? : Setting → Option Bool
  | .createsParents creates => some creates
  | _ => none

/-- What the last call for a field sets it to, if there is such a call. -/
def last? {α : Type} (field? : Setting → Option α) (ss : List Setting) : Option α :=
  (ss.filterMap field?).getLast?

variable {α : Type} {field? : Setting → Option α} {s : Setting} {ss : List Setting}

/-- One more call decides if it is for the field, and does not matter otherwise. -/
theorem last?_append : last? field? (ss ++ [s]) = (field? s).or (last? field? ss) := by
  rw [last?, List.filterMap_append, List.getLast?_append]
  congr 1
  cases h : field? s with
  | none => simp [h]
  | some a => simp [h]

end Options.Setting

namespace Options

variable {o : Options}

/-- The options with each field as the last call for it sets it. -/
def overriddenBy (o : Options) (ss : List Setting) : Options where
  separator := (Setting.last? Setting.separator? ss).getD o.separator
  scanLength := (Setting.last? Setting.scanLength? ss).getD o.scanLength
  layout := (Setting.last? Setting.layout? ss).getD o.layout
  createsParents := (Setting.last? Setting.createsParents? ss).getD o.createsParents

/-- A separator that cannot separate is reported, whatever the other fields are. -/
theorem check_of_not_separates (h : ¬separates o.separator) :
    o.check = .error (.separator o.separator) := if_pos h

end Options

namespace OptionsBuilder

variable {b : OptionsBuilder} {o : Options} {f : OptionsFault}
  {ss : List Options.Setting}

/-- The builder after one more call. -/
def set (b : OptionsBuilder) : Options.Setting → OptionsBuilder
  | .separator x => b.withSeparator x
  | .scanLength n => b.withScanLength n
  | .layout l => b.withLayout l
  | .createsParents creates => b.withCreatesParents creates

/-- The builder after a sequence of calls. -/
def ofSettings (ss : List Options.Setting) : OptionsBuilder := ss.foldl set {}

/-- The builder remembers the last call for each field, also one that sets no bound. -/
theorem ofSettings_eq (ss : List Options.Setting) : ofSettings ss = {
    separator := Options.Setting.last? Options.Setting.separator? ss
    scanLength := Options.Setting.last? Options.Setting.scanLength? ss
    layout := Options.Setting.last? Options.Setting.layout? ss
    createsParents := Options.Setting.last? Options.Setting.createsParents? ss } := by
  -- the last call is taken off, as it is the one that decides for its field
  induction ss using List.reverseRecOn with
  | nil => rfl
  | append_singleton ss s ih =>
    have hstep : ofSettings (ss ++ [s]) = (ofSettings ss).set s := List.foldl_concat ..
    rw [hstep, ih]
    simp only [Options.Setting.last?_append]
    cases s with
    | separator x => rfl
    | scanLength n => rfl
    | layout l => rfl
    | createsParents creates => rfl

/-- What a sequence of calls sets is laid over the options. -/
theorem onto_ofSettings (ss : List Options.Setting) (o : Options) :
    (ofSettings ss).onto o = o.overriddenBy ss := by
  rw [ofSettings_eq]
  rfl

/-- Options are built if they pass the check, and are the default overridden by what was set. -/
theorem build_eq_ok_iff :
    b.build = .ok o ↔ (b.onto .default).check = .ok () ∧ o = b.onto .default := by
  rw [build]
  -- the check passes and nothing else happens, or it fails
  cases (b.onto .default).check with
  | error f => simp [Except.map]
  | ok u => simp [Except.map, eq_comm]

/-- Building fails with the fault that the check finds. -/
theorem build_eq_error_iff : b.build = .error f ↔ (b.onto .default).check = .error f := by
  rw [build]
  cases (b.onto .default).check with
  | error g => simp [Except.map]
  | ok u => simp [Except.map]

end OptionsBuilder

/-! ### JSON -/

namespace Options

variable {o : Options} {ms : List (String × Json)}

/-- The names of the fields. -/
def names : List String :=
  ["csv_separator", "infer_schema_length", "json_layout", "create_parent_dirs"]

/-- The number of scanned rows as a JSON value. -/
def scanJson (o : Options) : Json :=
  match o.scanLength with
  | some n => .number (.ofInt n.toNat)
  | none => .null

/-- The fields as JSON values. -/
def values (o : Options) : List Json :=
  [.number (.ofInt o.separator.toNat), o.scanJson, .string (some o.layout.label),
    .bool o.createsParents]

/-- The fields with their names. -/
def fields (o : Options) : List (String × Json) := names.zip o.values

/-- A number below a bound is read back from its literal. -/
theorem natBelow?_ofInt {n bound : Nat} (h : n < bound) :
    (Json.number (.ofInt n)).natBelow? bound = some n := by
  have hsign : (Json.Number.ofInt n).negative = false := by simp [Json.Number.ofInt]
  rw [Json.natBelow?, Json.Number.integer?_ofInt, Option.bind_some,
    if_pos ⟨hsign, Int.ofNat_lt.2 h⟩, Int.toNat_natCast]

/-- A layout is known by its label. -/
theorem ofLabel?_label (l : RecordLayout) : RecordLayout.ofLabel? l.label = some l := by
  cases l with
  | records => rfl
  | lines => rfl

/-- The number of records to be scanned is read back, also if there is none. -/
theorem scanLength?_scanJson (o : Options) : scanLength? o.scanJson = some o.scanLength := by
  rw [scanJson]
  cases o.scanLength with
  | none => rfl
  | some n =>
    have hn : (Json.number (.ofInt n.toNat)).natBelow? UInt64.size = some n.toNat :=
      natBelow?_ofInt n.toNat_lt
    rw [scanLength?, hn, Option.map_some, UInt64.ofNat_toNat]
    rintro ⟨⟩

/-- The fields are read back from their values. -/
theorem ofFields?_values (o : Options) :
    ofFields? (.number (.ofInt o.separator.toNat)) o.scanJson (.string (some o.layout.label))
      (.bool o.createsParents) = some o := by
  rw [ofFields?, natBelow?_ofInt o.separator.toNat_lt, scanLength?_scanJson]
  simp [Json.label?, Json.bool?, ofLabel?_label]

/-- A name that occurs once is found. -/
theorem member?_of_filter {key : String} {j : Json}
    (h : (ms.filter fun m => m.1 = key) = [(key, j)]) :
    Json.member? key (ms.map (Prod.map some id)) = some (some j) := by
  have hfilter : (ms.map (Prod.map some id)).filter (fun m => m.1 = some key) =
      [(some key, j)] := by
    rw [List.filter_map]
    simp only [Function.comp_def, Prod.map_fst, Option.some.injEq, h]
    rfl
  rw [Json.member?, hfilter]

/-- An object gives the options if it has their fields, in whatever order, and whatever else it
has. -/
theorem ofJson?_object (h : (ms.filter fun m => m.1 ∈ names).Perm o.fields) :
    ofJson? (.object (ms.map (Prod.map some id))) = some o := by
  have hmember : ∀ {key j}, key ∈ names → (o.fields.filter fun m => m.1 = key) = [(key, j)] →
      Json.member? key (ms.map (Prod.map some id)) = some (some j) := by
    intro key j hkey hfield
    refine member?_of_filter (List.perm_singleton.1 ?_)
    -- among the members with a known name are all with this name, and a permutation keeps them
    have hknown : (ms.filter fun m => m.1 = key) =
        (ms.filter fun m => m.1 ∈ names).filter fun m => m.1 = key := by
      rw [List.filter_filter]
      refine List.filter_congr fun m _ => ?_
      by_cases hm : m.1 = key
      · simp [hm, hkey]
      · simp [hm]
    rw [hknown, ← hfield]
    exact h.filter _
  have hnames : guard ((ms.map (Prod.map some id)).all fun m => m.1.isSome) = some () :=
    if_pos (by simp)
  rw [ofJson?, hnames, hmember (by decide) rfl, hmember (by decide) rfl, hmember (by decide) rfl,
    hmember (by decide) rfl]
  simp only [Option.bind_eq_bind, Option.bind_some, Option.getD_some]
  exact ofFields?_values o

/-- An array gives the options if it has their values in the fixed order. -/
theorem ofJson?_array (o : Options) : ofJson? (.array o.values) = some o := ofFields?_values o

/-! ### Texts -/

/-- The number of scanned rows as it is written. -/
def scanText (o : Options) : String :=
  match o.scanLength with
  | some n => toString n.toNat
  | none => "null"

/-- Whether directories are created, as it is written. -/
def createsText (o : Options) : String := if o.createsParents then "true" else "false"

theorem json_eq (o : Options) : o.json = "\x7b\"csv_separator\":" ++ toString o.separator.toNat ++
    ",\"infer_schema_length\":" ++ o.scanText ++ ",\"json_layout\":\"" ++ o.layout.label ++
    "\",\"create_parent_dirs\":" ++ o.createsText ++ "\x7d" := rfl

/-- The text consists of the members, with commas in between. -/
theorem toList_json (o : Options) : o.json.toList =
    '{' :: ((Json.quote "csv_separator" ++ ':' :: (toString o.separator.toNat).toList) ++ ',' ::
      ((Json.quote "infer_schema_length" ++ ':' :: o.scanText.toList) ++ ',' ::
        ((Json.quote "json_layout" ++ ':' :: Json.quote o.layout.label) ++ ',' ::
          (Json.quote "create_parent_dirs" ++ ':' :: o.createsText.toList))) ++ ['}']) := by
  have hopen : "\x7b\"csv_separator\":".toList =
      '{' :: (Json.quote "csv_separator" ++ [':']) := rfl
  have hscan : ",\"infer_schema_length\":".toList =
      ',' :: (Json.quote "infer_schema_length" ++ [':']) := rfl
  have hlayout : ",\"json_layout\":\"".toList =
      ',' :: (Json.quote "json_layout" ++ [':', '"']) := rfl
  have hcreates : "\",\"create_parent_dirs\":".toList =
      '"' :: ',' :: (Json.quote "create_parent_dirs" ++ [':']) := rfl
  have hclose : "\x7d".toList = ['}'] := rfl
  -- the name of a layout has no character that is escaped
  have hlabel : Json.quote o.layout.label = '"' :: (o.layout.label.toList ++ ['"']) := by
    cases o.layout with
    | records => rfl
    | lines => rfl
  rw [hlabel, json_eq]
  simp only [String.toList_append]
  rw [hopen, hscan, hlayout, hcreates, hclose]
  simp only [List.append_assoc, List.cons_append, List.nil_append]

/-- The text stands for the object of the fields. -/
theorem denotes_json (o : Options) :
    Json.Denotes (.value (.object (o.fields.map (Prod.map some id)))) o.json.toList := by
  -- one value for each field, as its text denotes it
  have hseparator : Json.Denotes (.value (.number (.ofInt o.separator.toNat)))
      (toString o.separator.toNat).toList := Json.denotes_toString o.separator.toNat
  have hscan : Json.Denotes (.value o.scanJson) o.scanText.toList := by
    rw [scanJson, scanText]
    cases o.scanLength with
    | none => exact .null
    | some n => exact Json.denotes_toString n.toNat
  have hlayout : Json.Denotes (.value (.string (some o.layout.label)))
      (Json.quote o.layout.label) := Json.denotes_quote o.layout.label
  have hcreates : Json.Denotes (.value (.bool o.createsParents)) o.createsText.toList := by
    rw [createsText]
    cases o.createsParents with
    | true => exact .true
    | false => exact .false
  -- the text has no blanks, and its members stand in the order of the fields
  rw [toList_json]
  exact .object (.members (Json.denotes_member _ hseparator) (.members (Json.denotes_member _ hscan)
    (.members (Json.denotes_member _ hlayout) (.lastMember (Json.denotes_member _ hcreates)))))

/-- Options are built by the calls that set them exactly if the defaults, overridden by the last
call for each field, are valid, and then they are these; otherwise the same fault is reported, and
the separator before the number of scanned rows. All options, valid or not, come back from the text
that they are written as, and from every other text of an object that has their fields in any order
and any other members between them, or of the array of their values. -/
theorem built_and_read :
    (∀ ss : List Setting,
      (∀ o, (OptionsBuilder.ofSettings ss).build = .ok o ↔
        (default.overriddenBy ss).check = .ok () ∧ o = default.overriddenBy ss) ∧
      (∀ f, (OptionsBuilder.ofSettings ss).build = .error f ↔
        (default.overriddenBy ss).check = .error f) ∧
      (¬separates (default.overriddenBy ss).separator →
        (OptionsBuilder.ofSettings ss).build =
          .error (.separator (default.overriddenBy ss).separator))) ∧
    ∀ o : Options,
      parse? o.json = some o ∧
      (∀ (ms : List (String × Json)) (text : String),
        (ms.filter fun m => m.1 ∈ names).Perm o.fields →
        Json.Denotes (.element (.object (ms.map (Prod.map some id)))) text.toList →
        parse? text = some o) ∧
      ∀ text : String, Json.Denotes (.element (.array o.values)) text.toList →
        parse? text = some o := by
  have hread : ∀ {o : Options} {j : Json} {text : String}, ofJson? j = some o →
      Json.Denotes (.element j) text.toList → parse? text = some o := by
    intro o j text hj htext
    rw [parse?, Json.parse?, Json.parseChars?_of_denotes htext]
    exact hj
  constructor
  · intro ss
    -- the built options are the default overridden by the calls, and only the check may fail
    have honto := OptionsBuilder.onto_ofSettings ss default
    refine ⟨fun o => ?_, fun f => ?_, fun h => ?_⟩
    · rw [OptionsBuilder.build_eq_ok_iff, honto]
    · rw [OptionsBuilder.build_eq_error_iff, honto]
    · rw [OptionsBuilder.build_eq_error_iff, honto]
      exact check_of_not_separates h
  · intro o
    refine ⟨?_, fun ms text hms htext => hread (ofJson?_object hms) htext,
      fun text htext => hread (ofJson?_array o) htext⟩
    -- the own text names all fields in order and nothing besides
    have hfields : (o.fields.filter fun m => m.1 ∈ names) = o.fields := rfl
    exact hread (ofJson?_object (hfields ▸ List.Perm.refl _)) o.denotes_json.unpadded

/-- Of several bounds the last one decides, also if it is no bound; the separator is reported before
the bound; and members may be in any order, with others in between. -/
theorem built_and_read_mixed :
    (OptionsBuilder.ofSettings [.scanLength (some 0), .separator 59, .scanLength none]).build =
      .ok ⟨59, none, .records, true⟩ ∧
    (OptionsBuilder.ofSettings [.scanLength (some 0), .separator 34]).build =
      .error (.separator 34) ∧
    parse? ("\x7b\"json_layout\":\"Lines\",\"note\":[],\"create_parent_dirs\":false," ++
      "\"csv_separator\":0,\"infer_schema_length\":null\x7d") = some ⟨0, none, .lines, false⟩ ∧
    parse? "[0,null,\"Lines\",false]" = some ⟨0, none, .lines, false⟩ := by
  obtain ⟨hbuilt, hread⟩ := built_and_read
  obtain ⟨-, hobject, harray⟩ := hread ⟨0, none, .lines, false⟩
  refine ⟨((hbuilt _).1 _).2 ⟨rfl, rfl⟩, (hbuilt _).2.2 (by decide), ?_, ?_⟩
  · -- the text is taken apart by the grammar
    have hmembers : Json.Denotes _ _ := .object
      (.members (Json.denotes_member "json_layout" (Json.denotes_quote "Lines"))
        (.members (Json.denotes_member "note" (.emptyArray Json.blank_nil))
          (.members (Json.denotes_member "create_parent_dirs" .false)
            (.members (Json.denotes_member "csv_separator" (Json.denotes_toString 0))
              (.lastMember (Json.denotes_member "infer_schema_length" .null))))))
    have horder : ∀ a b c d : String × Json, [c, d, a, b].Perm [a, b, c, d] := by
      intro a b c d
      show ([c, d] ++ [a, b]).Perm ([a, b] ++ [c, d])
      exact List.perm_append_comm
    exact hobject [("json_layout", .string (some "Lines")), ("note", .array []),
      ("create_parent_dirs", .bool false), ("csv_separator", .number (.ofInt 0)),
      ("infer_schema_length", .null)] _ (horder _ _ _ _) hmembers.unpadded
  · have hitems : Json.Denotes _ _ := .array
      (.item (Json.denotes_toString 0).unpadded (.item Json.Denotes.null.unpadded
        (.item (Json.denotes_quote "Lines").unpadded (.lastItem Json.Denotes.false.unpadded))))
    exact harray _ hitems.unpadded

end Options

end Tabula
