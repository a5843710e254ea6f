import ArtifactKeeper.Upload.Durability
import ArtifactKeeper.BlobGc.References
import ArtifactKeeper.Journal.Tombstones
import ArtifactKeeper.OciUpload.Resumption
import ArtifactKeeper.OciUpload.Blobs
import ArtifactKeeper.UsageLedger.Quota
import ArtifactKeeper.Lockout
import ArtifactKeeper.MavenFlat.Ownership
import ArtifactKeeper.RefreshTokens.SingleUse
import ArtifactKeeper.Credentials.Totp
import ArtifactKeeper.ApiTokens.Revocation
import ArtifactKeeper.Maven.Order
import ArtifactKeeper.OciRoutes
import ArtifactKeeper.OutboundUrls
import ArtifactKeeper.ClientAddress
import ArtifactKeeper.RpmDepth.Paths
import ArtifactKeeper.TokenTable
import ArtifactKeeper.PermissionCache.Freshness
import ArtifactKeeper.DeviceSessions.Sessions
import ArtifactKeeper.RpmRetention.Safety
import ArtifactKeeper.Transfer.Bookkeeping
import ArtifactKeeper.Serve.Range
import ArtifactKeeper.Gcs.Safety
import ArtifactKeeper.S3.Parts
import ArtifactKeeper.Azure.Integrity
import ArtifactKeeper.Filesystem.Listing
import ArtifactKeeper.Fanout.SingleFlight
import ArtifactKeeper.Packuments.Invalidation
import ArtifactKeeper.Cpe.Criteria
import ArtifactKeeper.AgeGate.Packument
import ArtifactKeeper.AgeGate.SimpleIndex
import ArtifactKeeper.Curation.Names
import ArtifactKeeper.Bundle.Inspection
import ArtifactKeeper.RateLimits.Admission
import ArtifactKeeper.RateLimits.Audit
import ArtifactKeeper.Spdx
import ArtifactKeeper.CondaAllowlist
import ArtifactKeeper.SchedulerLeases
import ArtifactKeeper.MergeGate
import ArtifactKeeper.CondaIndex
import ArtifactKeeper.ProxyCache
import ArtifactKeeper.IngestLimits
import ArtifactKeeper.BoundedArchive
