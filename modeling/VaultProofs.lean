import VaultProofs.ExecutionRaces
import VaultProofs.DenialRaces
import VaultProofs.VoteRaces
import VaultProofs.FetchRaces
import VaultProofs.FailedExecutions
import VaultProofs.CredentialDelivery
import VaultProofs.LeaseParity
import VaultProofs.VoteAuthenticity
import VaultProofs.DistinctApprovers
import VaultProofs.ApprovalHints
import VaultProofs.CredentialSecrecy
import VaultProofs.ExecutedRequests
import VaultProofs.TimeLimits
import VaultProofs.FailedSteps
import VaultProofs.RuleDeletionRaces
import VaultProofs.MyRequests
import VaultProofs.OutsiderCalls
import VaultProofs.PolicyOrder
import VaultProofs.MountAccess
import VaultProofs.ShamirShares
import VaultProofs.RevocationRetries
import VaultProofs.UseLimits
import VaultProofs.EscapedChildren
import VaultProofs.LiveCubbyholes
import VaultProofs.KeyUpdates
import VaultProofs.CiphertextRoundTrip
import VaultProofs.LeaseCounters
import VaultProofs.LeaseRenewals
import VaultProofs.JobFairness
import VaultProofs.CacheTransparency
import VaultProofs.PackedItems
import VaultProofs.GroupInheritance
import VaultProofs.MirroredLogins
import VaultProofs.QuotaRules
import VaultProofs.AuthorizationCodes
import VaultProofs.RotationQueue
import VaultProofs.CidrBlocks
import VaultProofs.TotpCodes
import VaultProofs.AcmeRaces
import VaultProofs.AuthorizationRaces
import VaultProofs.CrlNumbers
import VaultProofs.CrlCoverage
import VaultProofs.DeltaBuilds
import VaultProofs.ChallengeQueue
import VaultProofs.EncryptionCounts
import VaultProofs.MountPaths
import VaultProofs.FailedMounts
