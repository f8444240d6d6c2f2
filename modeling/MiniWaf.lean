import MiniWaf.Std.Text
import MiniWaf.Std.Decimal
import MiniWaf.Std.Integer
import MiniWaf.Std.F64
import MiniWaf.Std.SortUnstable
import MiniWaf.Std.Utf8
import MiniWaf.Std.AssocMap
import MiniWaf.Std.Json
import MiniWaf.Std.Platform
import MiniWaf.Std.Net
import MiniWaf.Std.Words
import MiniWaf.Std.Replace
import MiniWaf.Std.Entities
import MiniWaf.Context
import MiniWaf.Grl.Ast
import MiniWaf.Grl.Printer
import MiniWaf.Grl.Functions
import MiniWaf.Grl.Registry
import MiniWaf.Rete.Network
import MiniWaf.Rete.WorkingMemory
import MiniWaf.Rete.Percent
import MiniWaf.Rete.Eval
import MiniWaf.Rete.Arithmetic
import MiniWaf.Rete.Engine
import MiniWaf.Theory.Agenda
import MiniWaf.Theory.Histories
import MiniWaf.Theory.Upsert
import MiniWaf.Theory.References
import MiniWaf.Rete.Firing
import MiniWaf.Theory.Interning
import MiniWaf.Rete.Compilation
import MiniWaf.Rete.Conflicts
import MiniWaf.Theory.Simulation
import MiniWaf.Theory.StableSort
import MiniWaf.Rete.Order
import MiniWaf.Rete.Interpreter
import MiniWaf.Rete.Lockstep
import MiniWaf.Rete.Coincidence
import MiniWaf.Rete.Slicing
import MiniWaf.Rete.OnePass
import MiniWaf.Grl.Observed
import MiniWaf.Rete.Settings
import MiniWaf.Rete.FastPath
import MiniWaf.Rete.ListingOrder
import MiniWaf.Rete.Keys
import MiniWaf.Rete.Sharing
import MiniWaf.Pipeline.Inbound
import MiniWaf.Rete.Monitoring
import MiniWaf.Rete.Renaming
import MiniWaf.Theory.Peg
import MiniWaf.Grl.Parser
import MiniWaf.Grl.Tokens
import MiniWaf.Grl.Reading
import MiniWaf.Grl.Rules
import MiniWaf.Grl.Names
import MiniWaf.Grl.Inverse
import MiniWaf.Yaml
import MiniWaf.Grl.Converter
import MiniWaf.Grl.Shape
import MiniWaf.Grl.Literals
import MiniWaf.Grl.Conditions
import MiniWaf.Grl.Conversion
import MiniWaf.Grl.Failing
import MiniWaf.Rules.Rule
import MiniWaf.Rules.Loading
import MiniWaf.Rules.Matcher
import MiniWaf.Documents.Priority
import MiniWaf.Documents.Routing
import MiniWaf.Documents.Faithful
import MiniWaf.Documents.Scope
import MiniWaf.Documents.Sharing
import MiniWaf.Documents.Verdict
import MiniWaf.Documents.Logging
import MiniWaf.Documents.Served
import MiniWaf.Documents.Blacklist
import MiniWaf.Pipeline.Risk
import MiniWaf.Proxy.Routing
import MiniWaf.Proxy.Selection
import MiniWaf.Proxy.Forwarding
import MiniWaf.Plain.Types
import MiniWaf.Plain.Condition
import MiniWaf.Plain.Evaluator
import MiniWaf.Plain.Loader
import MiniWaf.Plain.Conversion
import MiniWaf.Plain.BothEngines
import MiniWaf.Theory.Glob
import MiniWaf.Theory.Runs
import MiniWaf.Theory.Scanner
import MiniWaf.Crs.Types
import MiniWaf.Crs.Parser
import MiniWaf.Crs.Chains
import MiniWaf.Optimized.Condition
import MiniWaf.Optimized.Glob
import MiniWaf.Optimized.Loader
import MiniWaf.Optimized.Agreement
import MiniWaf.Optimized.SharedCache
import MiniWaf.Plain.Cidr
import MiniWaf.Plugins.Geo
import MiniWaf.Pipeline.Enrichment
import MiniWaf.Plugins.IpLists
import MiniWaf.Lists.IpList
import MiniWaf.Plugins.Crs
import MiniWaf.Crs.Tags
import MiniWaf.Crs.Loading
import MiniWaf.Crs.Tx
import MiniWaf.Crs.Target
import MiniWaf.Crs.Operator
import MiniWaf.Crs.Transform
import MiniWaf.Crs.Paths
import MiniWaf.Crs.Shortcuts
import MiniWaf.Crs.Entities
import MiniWaf.Crs.Arguments
import MiniWaf.Std.Base64
import MiniWaf.Crs.Base64
import MiniWaf.Crs.Escapes
import MiniWaf.Crs.Setvar
import MiniWaf.Crs.Scoring
import MiniWaf.Crs.Actions
import MiniWaf.Crs.Layout
import MiniWaf.Crs.Files
import MiniWaf.State.Loader
import MiniWaf.State.Store
import MiniWaf.State.Reload
import MiniWaf.State.Serving
import MiniWaf.Consul.Seeding
import MiniWaf.Consul.Replicas
import MiniWaf.Crs.Quotes
import MiniWaf.Crs.ChainTest
import MiniWaf.Crs.Cookies
import MiniWaf.Rete.Representation
