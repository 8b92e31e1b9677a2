import Dctl.Audit.Anchor
import Dctl.Audit.Escapes
import Dctl.Audit.Runs
import Dctl.Backup.Accounts
import Dctl.Check.Agree
import Dctl.Check.Sides
import Dctl.Cli.Addressing
import Dctl.Cli.ChunkCache
import Dctl.Cli.Classify
import Dctl.Cli.WindowedReads
import Dctl.Core.Leftover
import Dctl.Core.PutFailure
import Dctl.Core.Recount
import Dctl.Core.Rekey
import Dctl.Core.ShareIdentity
import Dctl.Core.VerifySample
import Dctl.Decode.Reference
import Dctl.Filter.Classes
import Dctl.Listing.Drawing
import Dctl.Listing.Grouped
import Dctl.Mount.InodeRuns
import Dctl.Mount.Readdir
import Dctl.Mount.SpillAltered
import Dctl.Mount.SpillOpened
import Dctl.Object.Nonces
import Dctl.Object.Planned
import Dctl.Object.SpanEnds
import Dctl.Object.Window
import Dctl.Recovery.Destinations
import Dctl.Recovery.Instants
import Dctl.Removal.Debris
import Dctl.Removal.Orphans
import Dctl.Removal.Sound
import Dctl.Replicate.Sound
import Dctl.Store.GuardRuns
import Dctl.Store.RetryDriver
import Dctl.Store.RetryRuns
import Dctl.Store.S3Uploads
import Dctl.Store.S3Write
import Dctl.Store.SftpBase
import Dctl.Store.SftpLink
import Dctl.Store.SftpReads
import Dctl.Store.SftpWrite
import Dctl.Store.Versions
import Dctl.Store.WriteFaults
import Dctl.Transfer.Accounting
import Dctl.Transfer.Extras
import Dctl.Transfer.Immutable
import Dctl.Transfer.Moves
import Dctl.Transfer.Recorded
