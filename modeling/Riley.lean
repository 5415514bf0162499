import Riley.Scheduling.CacheRuns
import Riley.Scheduling.PlanExact
import Riley.Constraint.Decision
import Riley.Generation.AcceptSpec
import Riley.Sampling.GreedySpec
import Riley.Sampling.SupportSpec
import Riley.PagedKv.SystemSpec
import Riley.Tokenizer.MistralSpec
import Riley.Tokenizer.BpeRuns
import Riley.Tokenizer.RegexSpec
import Riley.Server.LogprobSpec
import Riley.Server.ChatSpec
import Riley.TensorParallel.Lockstep
import Riley.TensorParallel.LayerSpec
import Riley.Server.EngineRuns
import Riley.Constraint.LeftRecursion
import Riley.PagedKv.Layout
import Riley.PagedKv.ReclaimTwice
import Riley.PagedKv.Transaction
import Riley.Scheduling.Fcfs
import Riley.Scheduling.ExactlyOnce
import Riley.Library.Words
import Riley.Structured.StringDecode
import Riley.Structured.BoundSpec
import Riley.Structured.Pattern
import Riley.Structured.ObjectSpec
import Riley.Library.Pairing
import Riley.Server.DeviceGreedy
import Riley.Batch.EpochSpec
import Riley.Batch.Packing
import Riley.Checkpoint.Lora
import Riley.Checkpoint.LoraMerge
import Riley.Checkpoint.PublishRuns
import Riley.Checkpoint.Safetensors
import Riley.Checkpoint.SafetensorsSpec
import Riley.Graph.MetadataSpec
import Riley.Library.Numerals
import Riley.Sampling.Random
import Riley.Sampling.RandomSpec
import Riley.Server.Http
import Riley.Server.HttpPipelining
import Riley.Tensor.LayoutRuns
import Riley.Tokenizer.Segments
import Riley.Tokenizer.Streaming
