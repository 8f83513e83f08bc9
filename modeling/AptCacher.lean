import AptCacher.Spec.Sys
import AptCacher.Spec.Count
import AptCacher.Spec.Table
import AptCacher.Spec.Tx
import AptCacher.Spec.Gather
import AptCacher.Spec.Url
import AptCacher.Spec.Regex
import AptCacher.Spec.Numeral
import AptCacher.Spec.Ranking
import AptCacher.Spec.Drain
import AptCacher.Spec.Sweep
import AptCacher.Spec.Since
import AptCacher.Spec.Lines
import AptCacher.Spec.Windows
import AptCacher.Spec.Fail
import AptCacher.Flipgate.Gate
import AptCacher.Flipgate.Step
import AptCacher.Flipgate.Transitions
import AptCacher.Flipgate.Tokens
import AptCacher.Flipgate.Entries
import AptCacher.Flipgate.Barrier
import AptCacher.Flipgate.TokenSteps
import AptCacher.Flipgate.Holds
import AptCacher.Flipgate.Outcome
import AptCacher.Flipgate.Orphans
import AptCacher.Aptpath.Suite
import AptCacher.Aptpath.Grammar
import AptCacher.Debversion.Compare
import AptCacher.Debversion.Order
import AptCacher.Cache.NewestVersions
import AptCacher.Cache.Db
import AptCacher.Cache.UrlPath
import AptCacher.Cache.SuiteRows
import AptCacher.Cache.Adoption
import AptCacher.Cache.Retention
import AptCacher.Cache.PathGc
import AptCacher.Cache.Writer
import AptCacher.Cache.Change
import AptCacher.Cache.Frame
import AptCacher.Cache.Stmt
import AptCacher.Cache.Walk
import AptCacher.Cache.Stamps
import AptCacher.Cache.HoldGrace
import AptCacher.Cache.Fence
import AptCacher.Cache.Creation
import AptCacher.Cache.Pointer
import AptCacher.Cache.HotSet
import AptCacher.Cache.SnapshotGc
import AptCacher.Cache.RetiredGc
import AptCacher.Cache.Pins
import AptCacher.Cache.Downgrade
import AptCacher.Cache.Growth
import AptCacher.Cache.Submit
import AptCacher.Cache.SuiteMetadata
import AptCacher.Cache.Dates
import AptCacher.Cache.Rows
import AptCacher.Gc.Pool
import AptCacher.Freshness.Member
import AptCacher.Gpg.Clearsign
import AptCacher.Aptpath.Sniff
import AptCacher.Aptpath.Encode
import AptCacher.Gpg.Verifier
import AptCacher.Freshness.Admission
import AptCacher.Freshness.Queue
import AptCacher.Freshness.Places
import AptCacher.Spec.Ring
import AptCacher.Freshness.Turns
import AptCacher.Freshness.Loop
import AptCacher.Freshness.SuiteLock
import AptCacher.Spec.Prog
import AptCacher.Spec.Threads
import AptCacher.Spec.Flight
import AptCacher.Freshness.Probe
import AptCacher.Freshness.Due
import AptCacher.Freshness.MarkerSweep
import AptCacher.Freshness.Reconcile
import AptCacher.Freshness.Junk
import AptCacher.Freshness.Anchorless
import AptCacher.Cache.Reads
import AptCacher.Cache.Vouching
import AptCacher.Cache.Provenance
import AptCacher.Freshness.Filename
import AptCacher.Freshness.PackageRows
import AptCacher.Freshness.RowPlaces
import AptCacher.Proxy.Request
import AptCacher.Proxy.Parse
import AptCacher.Proxy.Connect
import AptCacher.Tlsmitm.NameConstraints
import AptCacher.Tlsmitm.Alternation
import AptCacher.Fetch.Range
import AptCacher.Freshness.PackagesParse
import AptCacher.Fetch.Client
import AptCacher.Handler.Effect
import AptCacher.Handler.Fetch
import AptCacher.Handler.Serve
import AptCacher.Handler.Rules
import AptCacher.Handler.Contract
import AptCacher.Handler.Package
import AptCacher.Handler.Strict
import AptCacher.Handler.Validation
import AptCacher.Integrity.Pool
import AptCacher.Hostsem.Sem
import AptCacher.Handler.Singleflight
import AptCacher.Freshness.Inflight
import AptCacher.Proxy.Tunnels
import AptCacher.Proxy.Mirror
import AptCacher.Clientaddr.Resolve
