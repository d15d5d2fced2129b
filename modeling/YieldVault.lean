import YieldVault.FixedWidth
import YieldVault.ContractMonad
import YieldVault.Traps
import YieldVault.Storage
import YieldVault.Environment
import YieldVault.Runs
import YieldVault.ProRata
import YieldVault.Custody
import YieldVault.ShareMath
import YieldVault.Strategies
import YieldVault.Shares
import YieldVault.Administration
import YieldVault.Governance
import YieldVault.EntryPoints
import YieldVault.FundMoves
import YieldVault.StorageParts
import YieldVault.EmergencyProposals
import YieldVault.Paging
import YieldVault.ShipmentIndex
import YieldVault.Pagination
import YieldVault.Polling
import YieldVault.GovernanceSafety
import YieldVault.Ranges
import YieldVault.SimpleHost
import YieldVault.Books
import YieldVault.Journal
import YieldVault.Founding
import YieldVault.ShareLedger
import YieldVault.PriceFloor
import YieldVault.RunningTotals
import YieldVault.ArithmeticSafety
import YieldVault.PauseGuard
import YieldVault.PauseFlag
import YieldVault.SharePrice
import YieldVault.FundAuthority
import YieldVault.Backing
import YieldVault.AssetLedgers
import YieldVault.Redeemability
import YieldVault.RoundTrip
import YieldVault.RoundTripLoss
import YieldVault.BatchRefinement
import YieldVault.Splitting
import YieldVault.BatchIsolation
import YieldVault.RealisticRange
import YieldVault.WithdrawalTimelock
import YieldVault.Cooldown
import YieldVault.PerUserCap
import YieldVault.Checkpoints
import YieldVault.Allocation
import YieldVault.FullExit
import YieldVault.YieldPaths
import YieldVault.Office
import YieldVault.AdminRotation
import YieldVault.DualApproval
import YieldVault.CodeUpgrades
import YieldVault.EmergencyEffects
import YieldVault.Oracle
import YieldVault.OracleGuard
import YieldVault.OraclePrices
import YieldVault.Backend.Idempotency
import YieldVault.Backend.WalletNonce
import YieldVault.Backend.KeyLifetime
import YieldVault.Backend.VaultLedger
import YieldVault.Backend.VaultHandler
import YieldVault.Backend.VaultRequests
import YieldVault.Backend.SubmittedOnce
import YieldVault.Backend.MatchedReplays
import YieldVault.Backend.WalletLocks
import YieldVault.Backend.Retries
import YieldVault.Backend.SorobanClient
import YieldVault.Backend.LedgerMirror
import YieldVault.Backend.CircuitBreaker
import YieldVault.Texts
import YieldVault.Calendar
import YieldVault.Csv
import YieldVault.Rounding
import YieldVault.Holdings
import YieldVault.Base64
import YieldVault.Utf16
import YieldVault.JsonTexts
import YieldVault.Chunks
import YieldVault.Backend.WalletSignature
import YieldVault.Backend.AllowlistGate
import YieldVault.Backend.DailyLimit
import YieldVault.Backend.RefreshTokens
import YieldVault.Backend.Logout
import YieldVault.Backend.TokenRotation
import YieldVault.Backend.EventPolling
import YieldVault.Backend.LeaderLock
import YieldVault.Backend.AdminRoles
import YieldVault.Backend.Impersonation
import YieldVault.Backend.GracefulShutdown
import YieldVault.Frontend.OptimisticUpdates
import YieldVault.Backend.Webhooks
import YieldVault.Backend.WebhookEndpoints
import YieldVault.Backend.DeadLetters
import YieldVault.Backend.EmailQueue
import YieldVault.Backend.ResponseCache
import YieldVault.Backend.RateLimiter
import YieldVault.Backend.Referrals
import YieldVault.Backend.CursorPages
import YieldVault.Backend.TransactionPages
import YieldVault.Backend.CacheKeys
import YieldVault.Backend.Fingerprints
import YieldVault.Backend.ApyHistory
import YieldVault.Backend.DateRanges
import YieldVault.Backend.CsvExports
import YieldVault.Backend.Redaction
import YieldVault.Backend.Runtime
import YieldVault.Backend.AccessTokens
import YieldVault.Backend.DeliveryPages
import YieldVault.Backend.ApiKeyChanges
import YieldVault.Backend.ReferralYield
import YieldVault.Projections
import YieldVault.EventRecord
import YieldVault.Quotes
import YieldVault.RollingWindow
import YieldVault.Backend.LatencyAlerts
import YieldVault.Attempts
import YieldVault.Backend.JobGovernance
import YieldVault.Frontend.ApiRequests
import YieldVault.Backend.DbBackups
