import Tabula.Proofs.Learning
import Tabula.Proofs.Numbering

/-!
# What can be reached

Tables, columns, mappings and encoders are made from each other: a column of one table replaces one
of another, a mapping learned from a column encodes a second, an encoder that was fitted on one
table transforms the next. `Reachable` is everything that comes about in this way, by calls in any
order and of any number.

* `Object` — what calls are about; `Reachable` — which objects there are.
* `Object.Sound` — what is true of an object by itself, and `Reachable.sound` — it is of all of
  them.
* `Reachable.ordered_mappings`, `Reachable.sound_of_mem` — what this says of the entries of a store.
* `Frame.scores` — a frame to make a table of.
-/

namespace Tabula

/-- What calls are about. -/
inductive Object where
  | table (t : Table)
  | column (c : Column)
  | mapping (m : Mapping)
  | encoder (e : Encoder)

/-- What comes about by calls, in any order and of any number. A copy of an object is the object, so
there are no calls for copying. -/
inductive Reachable : Object → Prop where
  -- tables: built, loaded, or made from another table
  | empty : Reachable (.table .empty)
  | ofFrame {f : Frame} {t : Table} : Table.ofFrame f = .ok t → Reachable (.table t)
  | ofColumns {cs : List Column} {t : Table} : (∀ c ∈ cs, Reachable (.column c)) →
      Table.ofColumns cs = .ok t → Reachable (.table t)
  | ofRows {rows : List Row} {t : Table} : Table.ofRows rows = .ok t → Reachable (.table t)
  | load {format : FileFormat} {o : Options} {path : String} {s s' : Session} {i : Instance} :
      (Instance.load format o path).run.run s = (.ok i, s') → Reachable (.table i.table)
  | rename {t u : Table} {old new : String} : Reachable (.table t) → t.rename old new = .ok u →
      Reachable (.table u)
  | drop {t u : Table} {names : List String} : Reachable (.table t) → t.drop names = .ok u →
      Reachable (.table u)
  | keep {t u : Table} {names : List String} : Reachable (.table t) → t.keep names = .ok u →
      Reachable (.table u)
  | replace {t u : Table} {c : Column} : Reachable (.table t) → Reachable (.column c) →
      t.replace c = .ok u → Reachable (.table u)
  | transform {e : Encoder} {t u : Table} {name : String} : Reachable (.encoder e) →
      Reachable (.table t) → e.transform t name = .ok u → Reachable (.table u)
  | inverse {e : Encoder} {t u : Table} {name : String} : Reachable (.encoder e) →
      Reachable (.table t) → e.inverse t name = .ok u → Reachable (.table u)
  | fitTransform {e e' : Encoder} {t u : Table} {names : List String} : Reachable (.encoder e) →
      Reachable (.table t) → (Encoder.fitTransform t names).run.run e = (.ok u, e') →
      Reachable (.table u)
  -- columns: built, read from a table, or made by a mapping
  | ofSeries {name : String} {s : Series} {c : Column} : Column.ofSeries name s = .ok c →
      Reachable (.column c)
  | ofValues {name : String} {type : ColumnType} {vs : List Value} {c : Column} :
      Column.ofValues name type vs = .ok c → Reachable (.column c)
  | column {t : Table} {name : String} {c : Column} : Reachable (.table t) →
      t.column name = .ok c → Reachable (.column c)
  | encode {m : Mapping} {c d : Column} : Reachable (.mapping m) → Reachable (.column c) →
      m.encode c = .ok d → Reachable (.column d)
  | decode {m : Mapping} {c d : Column} : Reachable (.mapping m) → Reachable (.column c) →
      m.decode c = .ok d → Reachable (.column d)
  -- mappings: learned from a column, or found in an encoder
  | sorted {c : Column} {m : Mapping} : Reachable (.column c) → Mapping.sorted c = .ok m →
      Reachable (.mapping m)
  | ordered {c : Column} {order : List Value} {m : Mapping} : Reachable (.column c) →
      Mapping.ordered c order = .ok m → Reachable (.mapping m)
  | stored {e : Encoder} {name : String} {m : Mapping} : Reachable (.encoder e) →
      e.mappings.get? name = some m → Reachable (.mapping m)
  -- encoders: new, after a call that may have failed, with a mapping of the caller's choice, or
  -- with the mappings of another encoder
  | ofRule (r : Rule) : Reachable (.encoder (.ofRule r))
  | afterFit {e : Encoder} {t : Table} (name : String) : Reachable (.encoder e) →
      Reachable (.table t) → Reachable (.encoder ((Encoder.fit t name).run.run e).2)
  | afterFitTransform {e : Encoder} {t : Table} (names : List String) : Reachable (.encoder e) →
      Reachable (.table t) → Reachable (.encoder ((Encoder.fitTransform t names).run.run e).2)
  | withMapping {e : Encoder} {m : Mapping} (name : String) : Reachable (.encoder e) →
      Reachable (.mapping m) →
      Reachable (.encoder { e with mappings := e.mappings.insert name m })
  | withStore {e : Encoder} (r : Rule) : Reachable (.encoder e) →
      Reachable (.encoder ⟨r, e.mappings⟩)

/-! ### Soundness -/

/-- A table that is loaded is the table of a frame. -/
theorem Instance.exists_ofFrame_of_load {format : FileFormat} {o : Options} {path : String}
    {s s' : Session} {i : Instance} (h : (Instance.load format o path).run.run s = (.ok i, s')) :
    ∃ f, Table.ofFrame f = .ok i.table := by
  have hmade := makes_load format o path s
  rw [h] at hmade
  exact hmade.2.1

/-- What is true of an object by itself. -/
def Object.Sound : Object → Prop
  | table t => t.Consistent
  | column c => c.Canonical
  | mapping m => m.Sound
  | encoder e => e.Sound

/-- Every call keeps what is true of the objects. -/
theorem Reachable.sound {o : Object} (h : Reachable o) : o.Sound := by
  -- the induction is on how the object came about, and each case is what is known of its last call
  induction h with
  | empty => exact ⟨0, [], Table.holds_empty⟩
  | ofFrame ht =>
    obtain ⟨n, cs, hh, -⟩ := Table.exists_holds_of_ofFrame ht
    exact ⟨n, cs, hh⟩
  | ofColumns _ ht ih =>
    obtain ⟨n, hh⟩ := Table.exists_holds_of_ofColumns ht ih
    exact ⟨n, _, hh⟩
  | ofRows ht =>
    obtain ⟨cs, hh⟩ := Table.exists_holds_of_ofRows ht
    exact ⟨_, cs, hh⟩
  | load hi =>
    obtain ⟨f, ht⟩ := Instance.exists_ofFrame_of_load hi
    obtain ⟨n, cs, hh, -⟩ := Table.exists_holds_of_ofFrame ht
    exact ⟨n, cs, hh⟩
  | rename _ hu ih =>
    obtain ⟨n, cs, hh⟩ := ih
    obtain ⟨-, ⟨-, rfl⟩ | ⟨-, hu⟩⟩ := hh.of_rename hu
    · exact ⟨n, cs, hh⟩
    · exact ⟨n, _, hu⟩
  | drop _ hu ih =>
    obtain ⟨n, cs, hh⟩ := ih
    exact ⟨n, _, (hh.of_drop hu).2⟩
  | keep _ hu ih =>
    obtain ⟨n, cs, hh⟩ := ih
    exact ⟨n, _, (hh.of_keep hu).2⟩
  | replace _ _ hu iht ihc =>
    obtain ⟨n, cs, hh⟩ := iht
    exact ⟨n, _, (hh.of_replace ihc hu).2.2⟩
  | transform _ _ hu _ ih =>
    obtain ⟨n, cs, hh⟩ := ih
    exact ⟨n, Encoder.exists_holds_of_transform hh hu⟩
  | inverse _ _ hu _ ih =>
    obtain ⟨n, cs, hh⟩ := ih
    exact ⟨n, Encoder.exists_holds_of_inverse hh hu⟩
  | fitTransform _ _ hu _ ih =>
    obtain ⟨n, cs, hh⟩ := ih
    exact ⟨n, Encoder.exists_holds_of_fitTransform hh hu⟩
  | ofSeries hc => exact Column.canonical_of_ofSeries hc
  | ofValues hc => exact (Column.ofValues_eq_ok_iff.1 hc).2.1
  | column _ hc ih =>
    obtain ⟨n, cs, hh⟩ := ih
    exact hh.canonical_of_column hc
  | encode _ _ hd _ ih => exact Mapping.canonical_of_encode ih hd
  | decode _ _ hd _ ih => exact Mapping.canonical_of_decode ih hd
  | sorted _ hm ih => exact (Mapping.learned_of_sorted ih hm).sound
  | ordered _ hm ih => exact (Mapping.learned_of_ordered ih hm).sound
  | stored _ hm ih => exact ih _ _ hm
  | ofRule r => exact Encoder.sound_ofRule r
  | afterFit name _ _ ihe iht =>
    obtain ⟨n, cs, hh⟩ := iht
    exact Encoder.Sound.fit ihe hh
  | afterFitTransform names _ _ ihe iht =>
    obtain ⟨n, cs, hh⟩ := iht
    exact Encoder.Sound.fitTransform ihe hh
  | withMapping name _ _ ihe ihm => exact Encoder.Sound.insert ihe ihm
  | withStore r _ ih => exact ih

/-- Every encoder keeps its mappings by ascending names. -/
theorem Reachable.ordered_mappings {e : Encoder} (h : Reachable (.encoder e)) :
    e.mappings.Ordered := by
  generalize ho : Object.encoder e = o at h
  induction h generalizing e with
  | ofRule r =>
    cases ho
    exact MappingStore.ordered_empty
  | afterFit name _ _ ih _ =>
    cases ho
    exact Encoder.ordered_fit (ih rfl)
  | afterFitTransform names _ _ ih _ =>
    cases ho
    exact Encoder.ordered_fitTransform (ih rfl)
  | withMapping name _ _ ih _ =>
    cases ho
    exact (ih rfl).insert
  | withStore r _ ih =>
    cases ho
    have hstored := ih rfl
    exact hstored
  | _ => cases ho

/-- Every mapping that an encoder has stored is sound. -/
theorem Reachable.sound_of_mem {e : Encoder} (h : Reachable (.encoder e)) {a : String × Mapping}
    (ha : a ∈ e.mappings.entries) : a.2.Sound :=
  h.sound a.1 a.2 (h.ordered_mappings.get?_eq_some_iff.2 ha)

theorem Reachable.of_fit {e e' : Encoder} {t : Table} {name : String} {x : Except Error Unit}
    (he : Reachable (.encoder e)) (ht : Reachable (.table t))
    (h : (Encoder.fit t name).run.run e = (x, e')) : Reachable (.encoder e') := by
  have hafter : ((Encoder.fit t name).run.run e).2 = e' := congrArg Prod.snd h
  rw [← hafter]
  exact .afterFit name he ht

/-- Two series of three cells, neither of them in canonical storage. -/
def Frame.scores : Frame :=
  ⟨3, [⟨"name", .categories .categorical [some "ann", none, some "bob"]⟩,
    ⟨"score", .ints .u8 [some 7, some 9, none]⟩]⟩

end Tabula
