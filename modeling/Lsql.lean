import Lsql.Core.Arithmetic
import Lsql.Core.FloatCast
import Lsql.Core.JsonPointer
import Lsql.Core.SplitPart
import Lsql.Front.Compile
import Lsql.Front.Expansion
import Lsql.Front.LowerAnswers
import Lsql.Front.OutputColumns
import Lsql.Logfmt.Csv
import Lsql.Opt.FilterMoves
import Lsql.Output.JSONFormatter
import Lsql.Output.OrderedSink
import Lsql.Output.TSKVFormatter
import Lsql.Phys.Caching
import Lsql.Phys.KeyLaws
import Lsql.Phys.LeftJoin
import Lsql.Phys.LogRange
import Lsql.Phys.Materialization
import Lsql.Phys.Sorting
import Lsql.Phys.Totality
import Lsql.Phys.UnionAll
import Lsql.Storage.Archive
