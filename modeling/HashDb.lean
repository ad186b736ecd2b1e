import HashDb.Basic
import HashDb.Codec.Varint
import HashDb.Codec.Hex
import HashDb.Codec.Json
import HashDb.Codec.StringPair
import HashDb.Lmdb.Db
import HashDb.Lmdb.Grow
import HashDb.Lmdb.SourceData
import HashDb.HashData.Record
import HashDb.HashData.Manager
import HashDb.HashData.Entry
import HashDb.HashData.Refinement
import HashDb.HashData.Run
import HashDb.HashData.Policy
import HashDb.HashData.Properties
import HashDb.HashData.Iteration
import HashDb.HashData.Interleave
import HashDb.HashData.Reimport
import HashDb.HashData.Limits
import HashDb.MapMultimap.Manager
import HashDb.MapMultimap.KeyRecord
import HashDb.MapMultimap.Invariant
import HashDb.MapMultimap.Properties
import HashDb.MapMultimap.Interleave
import HashDb.MapMultimap.Counters
import HashDb.Scan.SectorId
import HashDb.Scan.Lifecycle
import HashDb.Commands.Histogram
import HashDb.Commands.AddMultiple
import HashDb.Commands.Statistics
import HashDb.Commands.SetAlgebra
