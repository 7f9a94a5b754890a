import Tabula.Error
import Tabula.Series.Basic

/-!
# Frames

A frame is the storage of a table: series of the same length, no name twice. Its height is kept on
its own, so that a frame without series can have rows.

* `Frame.ofSeries`, `Frame.ofSeriesOver` — a frame of series that agree in length and differ in
  name.
* `Frame.series?`, `Frame.rename`, `Frame.put`, `Frame.select` — access and change by name.
-/

namespace Tabula

/-- The storage of a table. -/
structure Frame where
  height : Nat
  series : List Series

namespace Frame

/-- The frame without series and with the given number of rows. -/
def ofHeight (height : Nat) : Frame := ⟨height, []⟩

/-- The frame of the series, which have to agree in length and differ in name. -/
def ofSeries (series : List Series) : Except Error Frame :=
  match series with
  | [] => .ok (ofHeight 0)
  | first :: rest =>
    if ¬rest.all fun s => s.length = first.length then
      .error (.engine "the series of a frame differ in length")
    else if ¬(series.map Series.name).Nodup then
      .error (.engine "two series of a frame have the same name")
    else .ok ⟨first.length, series⟩

/-- The frame of the series; without any it has the given number of rows. -/
def ofSeriesOver (height : Nat) (series : List Series) : Except Error Frame :=
  if series.isEmpty then .ok (ofHeight height) else ofSeries series

variable (f : Frame)

def names : List String := f.series.map Series.name

/-- The series with the name. -/
def series? (name : String) : Option Series := f.series.find? fun s => s.name = name

/-- The series with the name, which has to exist. -/
def seriesOf (name : String) : Except Error Series :=
  match f.series? name with
  | some s => .ok s
  | none => .error (.engine "the frame has no series of that name")

/-- The frame with one series under another name, which no other series may have. -/
def rename (old new : String) : Except Error Frame :=
  if old ≠ new ∧ new ∈ f.names then .error (.engine "two series of a frame have the same name")
  else if old ∉ f.names then .error (.engine "the frame has no series of that name")
  else .ok ⟨f.height, f.series.map fun s => if s.name = old then s.rename new else s⟩

/-- The frame with a series in the place of the one of its name, or at the end. A series of another
length is refused. Storage libraries let a series of one cell pass here and repeat the cell for
every row; a table compares the lengths itself before it asks for the change, so none comes this
far. -/
def put (s : Series) : Except Error Frame :=
  if s.length ≠ f.height then .error (.engine "the series of a frame differ in length")
  else if s.name ∈ f.names then
    .ok ⟨f.height, f.series.map fun t => if t.name = s.name then s else t⟩
  else .ok ⟨f.height, f.series ++ [s]⟩

/-- The series with the names, in their order; no name may occur twice. -/
def select (names : List String) : Except Error Frame :=
  if ¬names.Nodup then .error (.engine "two series of a frame have the same name")
  else do return ⟨f.height, ← names.mapM f.seriesOf⟩

end Frame

end Tabula
