import Novbot.Lib.Text
import Novbot.Lib.Memo
import Novbot.Runtime.Grant
import Novbot.Runtime.Host
import Novbot.Catalog.Capability
import Novbot.Lib.Check
import Novbot.Package.Archive
import Novbot.Catalog.Package
import Novbot.Skills.Package
import Novbot.Package.Agree
import Novbot.Package.Unpacked
import Novbot.Skills.Uploads
import Novbot.Skills.Unpacked
import Novbot.Skills.Desired
import Novbot.Skills.Fetch
import Novbot.Skills.Store
import Novbot.Skills.Host
import Novbot.Skills.Reconcile
import Novbot.Skills.Attempts
import Novbot.Lib.Machine
import Novbot.Control.Message
import Novbot.Control.ReadyGate
import Novbot.Lib.Json
import Novbot.Lib.JsonDecode
import Novbot.Control.Db
import Novbot.Control.Hub
import Novbot.Control.Op
import Novbot.Control.Session
import Novbot.Control.Dispatch
import Novbot.Control.Host
import Novbot.Control.World
import Novbot.Control.Contract
import Novbot.Control.SessionMeets
import Novbot.Control.Obeys
import Novbot.Control.Routing
import Novbot.Control.Newest
import Novbot.Control.Presented
import Novbot.Control.GateRuns
import Novbot.Control.Tables
import Novbot.Control.Accepted
import Novbot.Control.Reports
import Novbot.Skills.Referenced
import Novbot.Skills.Restart
import Novbot.Skills.Clamped
import Novbot.Skills.Genuine
import Novbot.Config.Spec
import Novbot.Config.Execute
import Novbot.Schedules.Entry
import Novbot.Schedules.Tables
import Novbot.Schedules.Requests
import Novbot.Schedules.Database
import Novbot.Schedules.Specs
import Novbot.Schedules.Effects
import Novbot.Schedules.Correspondence
import Novbot.Schedules.Runs
import Novbot.Schedules.Applied
import Novbot.Desired.Plans
import Novbot.Desired.InUse
import Novbot.Desired.Center
import Novbot.Desired.Alone
import Novbot.Desired.Descent
import Novbot.Desired.Installs
import Novbot.Desired.DryRun
import Novbot.Desired.Generations
import Novbot.Desired.Platforms
import Novbot.Runtime.Epoch
import Novbot.Lib.JsonObject
import Novbot.Lib.FileTree
import Novbot.Lib.Glob
import Novbot.Lib.Utf8
import Novbot.Runtime.Paths
import Novbot.Runtime.Globs
import Novbot.Runtime.Deny
import Novbot.Runtime.Listing
import Novbot.Runtime.Reads
import Novbot.Runtime.Calls
import Novbot.Runtime.Refused
import Novbot.Runtime.Access
import Novbot.Runtime.Scopes
import Novbot.Skills.Reported
import Novbot.Skills.Denials
import Novbot.Skills.Clipped
import Novbot.Tags.Rows
import Novbot.Tags.Plans
import Novbot.Tags.Center
import Novbot.Tags.Selector
import Novbot.Tags.Grammar
import Novbot.Tags.Stored
import Novbot.Tags.Views
import Novbot.Catalog.Grants
import Novbot.Tags.Limits
import Novbot.Tags.Production
import Novbot.Tags.Registered
import Novbot.Spool.Node
import Novbot.Spool.Kept
import Novbot.Catalog.Center
import Novbot.Catalog.Contract
import Novbot.Catalog.Kept
import Novbot.Catalog.References
import Novbot.Targets.Resolve
import Novbot.Targets.Submit
import Novbot.Console.Reads
import Novbot.Lib.Sums
import Novbot.Console.Selector
import Novbot.Console.Merge
import Novbot.Tags.Canonical
import Novbot.Targets.Rematch
import Novbot.Tags.Bytes
import Novbot.Tags.Declared
import Novbot.Tags.Bulk
import Novbot.Schedules.Alone
import Novbot.Schedules.Strays
import Novbot.Schedules.Timing
import Novbot.Targets.ReResolve
import Novbot.Lib.Recents
import Novbot.Skills.Previous
import Novbot.Lib.TomlText
import Novbot.Pack.Manifest
import Novbot.Pack.Printed
import Novbot.Pack.Decoded
import Novbot.Pack.Normal
import Novbot.Pack.Project
import Novbot.Pack.Loaded
import Novbot.Pack.Repacked
import Novbot.Lib.Checked
import Novbot.Lib.Gregorian
import Novbot.Cron.UtcParts
import Novbot.Cron.Matches
import Novbot.Cron.Accepted
import Novbot.Cron.Due
import Novbot.Cron.Tick
import Novbot.Runtime.Access
import Novbot.Runtime.Scopes
import Novbot.Runtime.Scopes
import Novbot.Lib.Lines
import Novbot.Probe.Outcome
import Novbot.Probe.Sshd
import Novbot.Probe.Ports
import Novbot.Lib.Lossy
import Novbot.Probe.Output
import Novbot.Probe.WorldWritable
import Novbot.Lib.JsonScan
import Novbot.Spool.Torn
import Novbot.Audit.Hash
import Novbot.Skills.Tickets
import Novbot.Lib.Decimal
import Novbot.Runtime.Entries
import Novbot.Runtime.Mounts
import Novbot.Runtime.Processes
import Novbot.Skills.Limiter
import Novbot.Targets.Push
import Novbot.Config.File
import Novbot.Tags.Backfill
import Novbot.Console.Fixed
import Novbot.Console.Meaning
import Novbot.Audit.Appends
import Novbot.Control.Acked
import Novbot.Control.Sends
import Novbot.Control.Windows
import Novbot.Daemon.Probes
import Novbot.Skills.Redacted
import Novbot.Skills.Reopened
import Novbot.Daemon.Configs
import Novbot.Skills.Stopped
import Novbot.Delivery.Wire
import Novbot.Delivery.Shown
import Novbot.Delivery.Audited
import Novbot.Desired.Bundles
import Novbot.Desired.Provenance
import Novbot.Config.Starts
import Novbot.Lib.Grouping
import Novbot.Tags.Overview
import Novbot.Console.Links
import Novbot.Pack.Uploaded
