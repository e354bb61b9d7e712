import VersionedContent.Json.Reader
import VersionedContent.Listing.Store
import VersionedContent.Proofs.Content.Dates
import VersionedContent.Proofs.Content.Pointwise
import VersionedContent.Proofs.Content.Refusal
import VersionedContent.Proofs.Content.Retraction
import VersionedContent.Proofs.Schema.Minimal
import VersionedContent.Proofs.Schema.Reordering
import VersionedContent.Proofs.Schema.RoundTrip
import VersionedContent.Proofs.Site.Assigning
import VersionedContent.Proofs.Site.Blank
import VersionedContent.Proofs.Site.ClaimOrder
import VersionedContent.Proofs.Site.Compiling
import VersionedContent.Proofs.Site.Concluding
import VersionedContent.Proofs.Site.Counting
import VersionedContent.Proofs.Site.EarlyPins
import VersionedContent.Proofs.Site.Failing
import VersionedContent.Proofs.Site.Forking
import VersionedContent.Proofs.Site.Founding
import VersionedContent.Proofs.Site.Importing
import VersionedContent.Proofs.Site.Inheriting
import VersionedContent.Proofs.Site.Interval
import VersionedContent.Proofs.Site.JobCourse
import VersionedContent.Proofs.Site.Lingering
import VersionedContent.Proofs.Site.Memo
import VersionedContent.Proofs.Site.Purge
import VersionedContent.Proofs.Site.Refusals
import VersionedContent.Proofs.Site.Remainder
import VersionedContent.Proofs.Site.Rerun
import VersionedContent.Proofs.Site.Standstill
import VersionedContent.Proofs.Site.Stepwise
import VersionedContent.Proofs.Site.Trails
import VersionedContent.Proofs.Site.Upgrade
import VersionedContent.Proofs.Site.Usage
import VersionedContent.Proofs.Site.Waiting
import VersionedContent.Proofs.Store.Drafting
import VersionedContent.Proofs.Store.Forest
import VersionedContent.Settings.Encoding
import VersionedContent.Settings.Environment
import VersionedContent.Site.Content
import VersionedContent.Site.Worker
