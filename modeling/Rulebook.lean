import Rulebook.Call.Binding
import Rulebook.Call.Invocation
import Rulebook.Call.Report
import Rulebook.Call.Schema
import Rulebook.Catalog
import Rulebook.Command.Arguments
import Rulebook.Command.Help
import Rulebook.Command.Run
import Rulebook.Decimal.Binary
import Rulebook.Decimal.Notation
import Rulebook.Decimal.Reading
import Rulebook.Decimal.Rounding
import Rulebook.Decimal.Shortest
import Rulebook.Digest
import Rulebook.Evaluation
import Rulebook.Fields
import Rulebook.Json.Printer
import Rulebook.Json.Value
import Rulebook.Main
import Rulebook.Proofs.Acceptance
import Rulebook.Proofs.ActiveFunctions
import Rulebook.Proofs.ArgumentDefaults
import Rulebook.Proofs.ByteScanning
import Rulebook.Proofs.CallContexts
import Rulebook.Proofs.Catalogs
import Rulebook.Proofs.ChunkTokens
import Rulebook.Proofs.CodeArguments
import Rulebook.Proofs.Collection
import Rulebook.Proofs.CommentArguments
import Rulebook.Proofs.Copies
import Rulebook.Proofs.Digits
import Rulebook.Proofs.DocumentIds
import Rulebook.Proofs.Except
import Rulebook.Proofs.Fields
import Rulebook.Proofs.HolePositions
import Rulebook.Proofs.InStep
import Rulebook.Proofs.IntegerEquality
import Rulebook.Proofs.IntegerSums
import Rulebook.Proofs.Invocation
import Rulebook.Proofs.JsonNumerals
import Rulebook.Proofs.JsonReading
import Rulebook.Proofs.JsonStrings
import Rulebook.Proofs.JsonValues
import Rulebook.Proofs.KeyTexts
import Rulebook.Proofs.Lexing
import Rulebook.Proofs.ListRemoval
import Rulebook.Proofs.LoadedFunctions
import Rulebook.Proofs.LonePieces
import Rulebook.Proofs.LongBracketArguments
import Rulebook.Proofs.Lookups
import Rulebook.Proofs.LoweredTokens
import Rulebook.Proofs.Membership
import Rulebook.Proofs.NameRuns
import Rulebook.Proofs.NewestEntries
import Rulebook.Proofs.NumberArguments
import Rulebook.Proofs.Numerals
import Rulebook.Proofs.PathChanges
import Rulebook.Proofs.PathFrames
import Rulebook.Proofs.PatternChoices
import Rulebook.Proofs.PhaseMaps
import Rulebook.Proofs.PieceTokens
import Rulebook.Proofs.PlaceholderSpans
import Rulebook.Proofs.Placeholders
import Rulebook.Proofs.Places
import Rulebook.Proofs.PlainNodes
import Rulebook.Proofs.Positions
import Rulebook.Proofs.QuotedArguments
import Rulebook.Proofs.QuotedTexts
import Rulebook.Proofs.Redrafting
import Rulebook.Proofs.Reloading
import Rulebook.Proofs.Resolution
import Rulebook.Proofs.ResolvedValues
import Rulebook.Proofs.RootEffects
import Rulebook.Proofs.RoundTrips
import Rulebook.Proofs.RuleFilling
import Rulebook.Proofs.SafeWords
import Rulebook.Proofs.Schemas
import Rulebook.Proofs.ScriptLexing
import Rulebook.Proofs.ScriptSeams
import Rulebook.Proofs.Seams
import Rulebook.Proofs.Sessions
import Rulebook.Proofs.Staging
import Rulebook.Proofs.StructuredArguments
import Rulebook.Proofs.Tables
import Rulebook.Proofs.Targets
import Rulebook.Proofs.TokenSpans
import Rulebook.Proofs.Transactions
import Rulebook.Proofs.Undeclared
import Rulebook.Proofs.VersionNumbers
import Rulebook.Proofs.Versions
import Rulebook.Proofs.WholeFloats
import Rulebook.Rule.Lowering
import Rulebook.Rule.Safety
import Rulebook.Rule.Token
import Rulebook.Ruleset.Document
import Rulebook.Ruleset.Draft
import Rulebook.Ruleset.Loading
import Rulebook.Ruleset.Phase
import Rulebook.Ruleset.Validation
import Rulebook.Ruleset.Version
import Rulebook.Script.Argument
import Rulebook.Script.Chunk
import Rulebook.Script.Evaluator
import Rulebook.Script.Exchange
import Rulebook.Script.Expr
import Rulebook.Script.Format
import Rulebook.Script.Heap
import Rulebook.Script.Jump
import Rulebook.Script.Library.Codes
import Rulebook.Script.Library.Globals
import Rulebook.Script.Library.Numbers
import Rulebook.Script.Library.Rules
import Rulebook.Script.Library.Tables
import Rulebook.Script.Library.Text
import Rulebook.Script.Machine
import Rulebook.Script.Number
import Rulebook.Script.Operation
import Rulebook.Script.Packing
import Rulebook.Script.Pattern
import Rulebook.Script.PatternCost
import Rulebook.Script.Routine
import Rulebook.Script.Sorting
import Rulebook.Script.Substitution
import Rulebook.Script.Table
import Rulebook.Script.Token
import Rulebook.Script.Value
import Rulebook.Session
import Rulebook.Settings
import Rulebook.Source.JsonText
import Rulebook.Source.Node
import Rulebook.Source.Yaml.Cursor
import Rulebook.Source.Yaml.Reading
import Rulebook.Source.Yaml.Scalar
import Rulebook.Source.Yaml.Token
import Rulebook.Source.Yaml.Tree
import Rulebook.Source.YamlText
import Rulebook.State.Path
import Rulebook.State.Store
import Rulebook.Template
import Rulebook.Text.Blank
