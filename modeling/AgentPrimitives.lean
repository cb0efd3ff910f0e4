import AgentPrimitives.Serde.Map
import AgentPrimitives.Serde.Json
import AgentPrimitives.Serde.Content
import AgentPrimitives.Serde.Deserializer
import AgentPrimitives.Serde.Derive
import AgentPrimitives.Serde.Document
import AgentPrimitives.Serde.Reorder
import AgentPrimitives.Serde.Layout
import AgentPrimitives.Serde.Simulation
import AgentPrimitives.Serde.Prune
import AgentPrimitives.Serde.Schema
import AgentPrimitives.Serde.Optional
import AgentPrimitives.Serde.Conform
import AgentPrimitives.Serde.Canon
import AgentPrimitives.Serde.Origin
import AgentPrimitives.Serde.Text
import AgentPrimitives.Serde.Prefix
import AgentPrimitives.Serde.Log
import AgentPrimitives.Message
import AgentPrimitives.Tool
import AgentPrimitives.Hook
import AgentPrimitives.Event
import AgentPrimitives.Permission
import AgentPrimitives.Memory
import AgentPrimitives.Reading
import AgentPrimitives.Acceptance
import AgentPrimitives.Order
import AgentPrimitives.RoundTrip
import AgentPrimitives.Unknown
import AgentPrimitives.Turn
import AgentPrimitives.Policy
import AgentPrimitives.Verdict
import AgentPrimitives.Canonical
import AgentPrimitives.Embedding
import AgentPrimitives.ToolBlocks
import AgentPrimitives.Grammar
import AgentPrimitives.Strip
import AgentPrimitives.Environment
import AgentPrimitives.Lines
import AgentPrimitives.Nesting
import AgentPrimitives.Stream
