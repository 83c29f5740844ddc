import ChangeSql.Bytes
import ChangeSql.BufferedReader
import ChangeSql.Schema
import ChangeSql.Statements
import ChangeSql.QueryBuilder
import ChangeSql.CsvFile
import ChangeSql.RecordStream
import ChangeSql.MultiFile
import ChangeSql.Emitter
import ChangeSql.Emission
import ChangeSql.Calls
import ChangeSql.Completeness
import ChangeSql.Library.NewestWins
import ChangeSql.Table
import ChangeSql.Replay
import ChangeSql.Driver
import ChangeSql.Resume
import ChangeSql.TornCommit
import ChangeSql.Ddl
import ChangeSql.DdlGrammar
import ChangeSql.Directory
import ChangeSql.Reading
import ChangeSql.SourceOrder
import ChangeSql.Library.SqlLexer
import ChangeSql.Library.SqlQuery
import ChangeSql.Library.SqlTemplate
import ChangeSql.StatementTexts
import ChangeSql.ReadBack
import ChangeSql.ColumnMasks
import ChangeSql.UniqueKeys
import ChangeSql.Library.Refinement
import ChangeSql.PlainCursor
import ChangeSql.SafeReading
import ChangeSql.FileEnd
import ChangeSql.ImportLoop
import ChangeSql.CommittedCursor
import ChangeSql.DdlLayout
import ChangeSql.Library.BinaryRounding
import ChangeSql.Library.DecimalDigits
import ChangeSql.FloatKeys
import ChangeSql.BatchSizes
import ChangeSql.TableTasks
import ChangeSql.Library.DecimalRounding
import ChangeSql.RepresentFloat
import ChangeSql.RoundedText
import ChangeSql.SixDigits
import ChangeSql.Library.RobinHood
import ChangeSql.FlatHashTable
import ChangeSql.FlatHashContent
import ChangeSql.FlatHashRefinement
import ChangeSql.SharedTable
import ChangeSql.TableRoom
import ChangeSql.SharedWorlds
import ChangeSql.Library.StripeHash
import ChangeSql.Xxh3
import ChangeSql.Xxh3Streaming
import ChangeSql.Library.Transitions
import ChangeSql.Crashes
import ChangeSql.SecondRun
import ChangeSql.SharedCrashes
import ChangeSql.Library.LooseSlots
import ChangeSql.RoughTable
import ChangeSql.FullSegment
import ChangeSql.Library.SqlTable
import ChangeSql.TextExecution
import ChangeSql.DdlStatements
import ChangeSql.TextWorlds
import ChangeSql.Library.Calendar
import ChangeSql.Datetime
import ChangeSql.Library.RoundRobin
import ChangeSql.Distribution
import ChangeSql.DeclaredTasks
import ChangeSql.TableWorlds
import ChangeSql.ServerWorlds
