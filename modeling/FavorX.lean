import FavorX.GcSize
import FavorX.GcEntries
import FavorX.Payments
import FavorX.Indexes
import FavorX.Malformed
import FavorX.Pinning
import FavorX.Relays
import FavorX.LoopFreedom
import FavorX.Survival
import FavorX.Atomicity
import FavorX.FileMirrors
import FavorX.OwnBits
import FavorX.Schemas
import FavorX.IndexWalks
import FavorX.AddressBook
import FavorX.Registry
import FavorX.Blocklists
import FavorX.Transactions
import FavorX.Reservations
import FavorX.RouteIntegrity
import FavorX.Reads
import FavorX.ChunkWalks
import FavorX.EncryptedPipeline
import FavorX.Handlers
import FavorX.RelayParsers
import FavorX.Providers
import FavorX.Kademlia
import FavorX.Proximities
