import Reldb.Sql.Reprint
import Reldb.Sql.Viable
import Reldb.Sql.Layout
import Reldb.Query.Columns
import Reldb.Query.Costs
import Reldb.Query.Estimates
import Reldb.Query.Inserts
import Reldb.Query.Reopen
import Reldb.Query.Silent
import Reldb.Query.Typed
import Reldb.Query.Crashes
import Reldb.Tables.Planted
import Reldb.Crash.Lookups
import Reldb.Crash.Rounds
import Reldb.Tree.Balance
import Reldb.Tables.Mirror
import Reldb.Tables.Blob
import Reldb.Pool.Recency
import Reldb.Pool.Journal
import Reldb.Log.Data
