import TrueStore.Resp.Fragmentation
import TrueStore.Resp.RoundTrip
import TrueStore.Command.Errors
import TrueStore.Command.Transactions
import TrueStore.Server.Runs
import TrueStore.Invariants.KeyTypes
import TrueStore.Invariants.SortedIndex
import TrueStore.Aof.Torn
import TrueStore.Server.Unauthenticated
import TrueStore.Invariants.Subscriptions
import TrueStore.Server.Messages
import TrueStore.Server.Offsets
import TrueStore.Stream.Radix
import TrueStore.Invariants.StreamLog
import TrueStore.Server.Wakeups
import TrueStore.Command.Counter
import TrueStore.Server.Delivery
import TrueStore.Server.Answers
import TrueStore.Store.BitArrays
import TrueStore.Rdb.Encoding
import TrueStore.Store.Acl
import TrueStore.Invariants.Tidy
import TrueStore.Invariants.LazyExpiry
import TrueStore.Command.ExecReplies
import TrueStore.Server.Fairness
import TrueStore.Store.BitOperations
import TrueStore.Store.Ranges
import TrueStore.Store.Increments
import TrueStore.Store.Deadlines
import TrueStore.Store.Additions
import TrueStore.Store.Geohash
import TrueStore.Store.Search
import TrueStore.Invariants.AutoIds
import TrueStore.Invariants.StreamIds
import TrueStore.Server.Timeouts
import TrueStore.Rdb.Safety
import TrueStore.Server.Slots
import TrueStore.Aof.Manifest
import TrueStore.Aof.Restart
import TrueStore.Aof.Durability
import TrueStore.Server.Conversations
import TrueStore.Server.Agreement
import TrueStore.Server.Joining
import TrueStore.Server.Buffers
