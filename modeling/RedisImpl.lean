import RedisImpl.Lib.Sys
import RedisImpl.Cmd.Agreement
import RedisImpl.Cmd.Calls
import RedisImpl.Cmd.Expiry
import RedisImpl.Cmd.Eager
import RedisImpl.Cmd.Interleaving
import RedisImpl.Cmd.ConfigListing
import RedisImpl.Cmd.Words
import RedisImpl.Lib.Ledger
import RedisImpl.Store.Growth
import RedisImpl.Server.Order
import RedisImpl.Server.Progress
import RedisImpl.Server.Sweep
import RedisImpl.Server.ListQueue
import RedisImpl.Server.Sections
import RedisImpl.Server.Send
import RedisImpl.App.Loop
import RedisImpl.App.Wire
import RedisImpl.App.Recv
import RedisImpl.App.Memory
import RedisImpl.App.Leaks
import RedisImpl.Protocol.SizeBuffer
import RedisImpl.Protocol.BulkMemory
import RedisImpl.Protocol.CleanUp
import RedisImpl.Rdb.File
