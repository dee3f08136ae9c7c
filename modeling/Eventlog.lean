import Eventlog.Contract.Collation
import Eventlog.Contract.Creation
import Eventlog.Contract.Fingerprints
import Eventlog.Contract.HiddenBlobs
import Eventlog.Contract.Lasting
import Eventlog.Contract.Reservations
import Eventlog.Contract.RestoredIdentities
import Eventlog.Contract.Resumption
import Eventlog.Contract.SnapshotPolicy
import Eventlog.Contract.SplitBlobs
import Eventlog.Contract.StreamIdentity
import Eventlog.Core.CapturedOrder
import Eventlog.Core.VerifiedContent
import Eventlog.File.SharedContent
import Eventlog.Postgres.Accounts
import Eventlog.Postgres.Feed
import Eventlog.Postgres.Locking
import Eventlog.Sqlite.SchemaTokens
import Eventlog.Sqlite.TrackedCapture
import Eventlog.Tree.Canonical
import Eventlog.Tree.Immutable
import Eventlog.Tree.Names
