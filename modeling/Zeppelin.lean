import Zeppelin.Cypher.OrderReuse
import Zeppelin.Cypher.Quoting
import Zeppelin.Fts.BlockBounds
import Zeppelin.Fts.LiveDfSpec
import Zeppelin.Fts.Phrase
import Zeppelin.Fts.PruneExact
import Zeppelin.Fts.TermDictionary
import Zeppelin.GraphStore.ArtifactSpec
import Zeppelin.GraphStore.ExpandSpec
import Zeppelin.GraphStore.InventoryRuns
import Zeppelin.GraphStore.KeyOrder
import Zeppelin.GraphStore.MergeExact
import Zeppelin.GraphStore.TreePageSpec
import Zeppelin.GraphWal.Watermark
import Zeppelin.Ingest.CrashRuns
import Zeppelin.Ingest.GenerationRuns
import Zeppelin.Ingest.PayloadCanonical
import Zeppelin.Ingest.Retry
import Zeppelin.Ingest.StageSequential
import Zeppelin.Manifest.CodecSpec
import Zeppelin.Meta.RowBuilder
import Zeppelin.Namespace.CascadeRuns
import Zeppelin.PropertyGraph.KeyRuns
import Zeppelin.Query.BatchPush
import Zeppelin.Query.DecimalText
import Zeppelin.Query.Extremes
import Zeppelin.Query.JoinWalk
import Zeppelin.Query.Trails
import Zeppelin.Reclaim.MarkSpec
import Zeppelin.Scan.Partitions
import Zeppelin.Segment.Reopened
import Zeppelin.VectorGraph.RegionSpec
import Zeppelin.VectorGraph.RepairRuns
import Zeppelin.Wal.Tallies
