import UnifiedNamespace.Config.DecodeTotality
import UnifiedNamespace.Config.EventRoundTrip
import UnifiedNamespace.Config.Events
import UnifiedNamespace.Config.UnsIngest
import UnifiedNamespace.Datalake.Batch
import UnifiedNamespace.Datalake.BatchRuns
import UnifiedNamespace.Datalake.Checkpoint
import UnifiedNamespace.Datalake.LedgerRuns
import UnifiedNamespace.Datalake.CommitSafety
import UnifiedNamespace.Datalake.Custody
import UnifiedNamespace.Datalake.CustodyRuns
import UnifiedNamespace.Datalake.Mapper
import UnifiedNamespace.Datalake.PendingRejections
import UnifiedNamespace.Datalake.Overwrite
import UnifiedNamespace.Datalake.Wedged
import UnifiedNamespace.Datalake.Routing
import UnifiedNamespace.Kafka.Rejections
import UnifiedNamespace.Lib.Dict
import UnifiedNamespace.Lib.Effect
import UnifiedNamespace.Lib.Pruning
import UnifiedNamespace.Lib.Interleaving
import UnifiedNamespace.Lib.Clients
import UnifiedNamespace.Lib.Table
import UnifiedNamespace.Lib.Transition
import UnifiedNamespace.Lib.Watermark
import UnifiedNamespace.Oee.Calc
import UnifiedNamespace.Oee.Engine
import UnifiedNamespace.Oee.Pareto
import UnifiedNamespace.Oee.Pipeline
import UnifiedNamespace.Oee.Published
import UnifiedNamespace.Oee.Reassigned
import UnifiedNamespace.Oee.Recompute
import UnifiedNamespace.Oee.RunShift
import UnifiedNamespace.Oee.RunTime
import UnifiedNamespace.Oee.Scheduler
import UnifiedNamespace.Oee.ShiftCalendar
import UnifiedNamespace.Oee.Skip
import UnifiedNamespace.Oee.States
import UnifiedNamespace.Oee.Store
import UnifiedNamespace.Oee.StoreHistory
import UnifiedNamespace.Python.Base64
import UnifiedNamespace.Python.Datetime
import UnifiedNamespace.Python.Equality
import UnifiedNamespace.Python.Float
import UnifiedNamespace.Python.Instant
import UnifiedNamespace.Python.Json
import UnifiedNamespace.Python.JsonRoundTrip
import UnifiedNamespace.Python.Number
import UnifiedNamespace.Python.Sha256
import UnifiedNamespace.Python.Str
import UnifiedNamespace.Historian.Batch
import UnifiedNamespace.Historian.OneByOne
import UnifiedNamespace.Historian.Replay
import UnifiedNamespace.Config.EventCompatibility
import UnifiedNamespace.Config.PublicationRoutes
import UnifiedNamespace.Console.Alarms
import UnifiedNamespace.Console.Downsample
import UnifiedNamespace.Console.AlarmTopics
import UnifiedNamespace.Edge.Config
import UnifiedNamespace.Edge.TagNames
import UnifiedNamespace.Edge.LiveApply
import UnifiedNamespace.Edge.PendingFlag
import UnifiedNamespace.Edge.Sync
import UnifiedNamespace.FactoryAgent.Conversations
import UnifiedNamespace.FactoryAgent.StoresAgree
import UnifiedNamespace.Graphql.AlertRules
import UnifiedNamespace.Graphql.HierarchySave
import UnifiedNamespace.Graphql.LiveEvents
import UnifiedNamespace.Graphql.Reseed
import UnifiedNamespace.Graphql.TreeViews
import UnifiedNamespace.Graphql.TopicSearch
import UnifiedNamespace.Graphql.Retopic
import UnifiedNamespace.Historian.CheckpointSafety
import UnifiedNamespace.Historian.CommitOrder
import UnifiedNamespace.Historian.FailedFlush
import UnifiedNamespace.Historian.LateRefresh
import UnifiedNamespace.Historian.LostMessages
import UnifiedNamespace.Historian.Progress
import UnifiedNamespace.Opcua.Reload
import UnifiedNamespace.Sparkplug.Generator
import UnifiedNamespace.Lib.TreeLayout
import UnifiedNamespace.Graphdb.Attributes
import UnifiedNamespace.Graphql.GraphRoundTrip
import UnifiedNamespace.Sparkplug.Decoders
import UnifiedNamespace.Sparkplug.DecodersAgree
import UnifiedNamespace.Graphdb.Retries
import UnifiedNamespace.Graphdb.TopicChain
import UnifiedNamespace.Kafka.Ingest
import UnifiedNamespace.Kafka.PendingAccounts
import UnifiedNamespace.Opcua.TopicExclusive
import UnifiedNamespace.Sparkplug.Announced
import UnifiedNamespace.Datalake.Parquet
import UnifiedNamespace.Kafka.Backpressure
import UnifiedNamespace.Model.TopicBinder
import UnifiedNamespace.Model.TopicResolution
import UnifiedNamespace.Model.TreeMapping
import UnifiedNamespace.Model.SavedTree
import UnifiedNamespace.Model.AreaGroups
import UnifiedNamespace.Model.ContextCache
import UnifiedNamespace.Config.DisjointRoutes
import UnifiedNamespace.Datalake.ObjectPaths
import UnifiedNamespace.Datalake.Stores
import UnifiedNamespace.Kafka.RejectionSize
import UnifiedNamespace.Lib.Regex
import UnifiedNamespace.Mqtt.TopicFilters
import UnifiedNamespace.Oee.CounterWindows
import UnifiedNamespace.Oee.LateHorizon
import UnifiedNamespace.Oee.ProductCounts
import UnifiedNamespace.Oee.TimePartition
import UnifiedNamespace.Kafka.AckSafety
import UnifiedNamespace.Kafka.Stranded
import UnifiedNamespace.Opcua.SpoolTrim
import UnifiedNamespace.Opcua.Connector
import UnifiedNamespace.Opcua.Browse
import UnifiedNamespace.Sparkplug.Setters
import UnifiedNamespace.Sparkplug.ArrayRoundTrip
import UnifiedNamespace.Sparkplug.AddMetric
import UnifiedNamespace.Sparkplug.TopicFold
import UnifiedNamespace.Historian.Flatten
import UnifiedNamespace.Config.EventKey
import UnifiedNamespace.Config.Publications
import UnifiedNamespace.Kafka.Ingress
