import Lectern.Deletion
import Lectern.Quota
import Lectern.SharedKeys
import Lectern.Disclosure
import Lectern.Sync.Delivery
import Lectern.Sync.Silence
import Lectern.Sync.Revocation
import Lectern.Export.LockDown
import Lectern.Concurrent.Serial
import Lectern.Concurrent.Commit
import Lectern.Sync.WellBehaved
import Lectern.Sync.Notification
import Lectern.Sync.Origin
import Lectern.Sync.Frames
import Lectern.Sync.Watches
import Lectern.Sync.Answers
import Lectern.Ceiling
import Lectern.Session.Table
import Lectern.Session.Agreement
import Lectern.Session.Lifetime
import Lectern.Auth
import Lectern.Export.Loaded
import Lectern.Canonical
import Lectern.FileTree.Entries
import Lectern.Flatten
import Lectern.Projection
import Lectern.RateLimiter.Buckets
import Lectern.RateLimiter.Eviction
import Lectern.RateLimiter.Window
import Lectern.RateLimiter.Callers
import Lectern.Minting
import Lectern.Relocation
import Lectern.AtomicSteps
import Lectern.InFlight
import Lectern.ListableNames
import Lectern.Dotenv
import Lectern.Migrations
import Lectern.Fonts.Invariant
import Lectern.Fonts.Replacing
import Lectern.Fonts.Upload
import Lectern.Fonts.Limit
import Lectern.Fonts.Style
import Lectern.Comments
import Lectern.Export.DevToolsPort
import Lectern.Export.Renders
import Lectern.Registration
import Lectern.Downloads
import Lectern.Sync.Replica
import Lectern.RateLimiter.Guesses
import Lectern.CatchUp
import Lectern.Sync.Handshake
import Lectern.Fonts.Interleaved
import Lectern.Fonts.Standing
import Lectern.Fonts.Crowded
