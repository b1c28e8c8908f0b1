import OpcodeCatalog.Bytes
import OpcodeCatalog.Numeral
import OpcodeCatalog.Path
import OpcodeCatalog.FileTree
import OpcodeCatalog.SourceRegistry
import OpcodeCatalog.Diagnostic
import OpcodeCatalog.Diagnostic.Template
import OpcodeCatalog.Diagnostic.Finding
import OpcodeCatalog.Operand
import OpcodeCatalog.NamedValues
import OpcodeCatalog.Instruction
import OpcodeCatalog.Catalog
import OpcodeCatalog.Catalog.Review
import OpcodeCatalog.Catalog.Load
import OpcodeCatalog.Settings
import OpcodeCatalog.Trace
import OpcodeCatalog.Source.Span
import OpcodeCatalog.Source.Lexeme
import OpcodeCatalog.Source.Gap
import OpcodeCatalog.Source.Number
import OpcodeCatalog.Source.Quoted
import OpcodeCatalog.Source.RawString
import OpcodeCatalog.Source.Scanner
import OpcodeCatalog.Source.TokenStream
import OpcodeCatalog.Source.Refusal
import OpcodeCatalog.Source.Reader
import OpcodeCatalog.Source.SkippedValue
import OpcodeCatalog.Source.Field
import OpcodeCatalog.Source.NamedValueList
import OpcodeCatalog.Source.FunctionDraft
import OpcodeCatalog.Source.Function
import OpcodeCatalog.Source.Document
import OpcodeCatalog.Source.Writer
import OpcodeCatalog.CommandLine.Query
import OpcodeCatalog.CommandLine.Arguments
import OpcodeCatalog.CommandLine.Transcript
import OpcodeCatalog.CommandLine.Run
import OpcodeCatalog.Main
import OpcodeCatalog.Proofs.NamedValueIndices
import OpcodeCatalog.Proofs.InsertionOrder
import OpcodeCatalog.Proofs.Grammar
import OpcodeCatalog.Proofs.Reading
import OpcodeCatalog.Proofs.Acceptance
import OpcodeCatalog.Proofs.CatalogAcceptance
import OpcodeCatalog.Proofs.FunctionDrafts
import OpcodeCatalog.Proofs.IntegerLiterals
import OpcodeCatalog.Proofs.LexemeTexts
import OpcodeCatalog.Proofs.Lexing
import OpcodeCatalog.Proofs.Gaps
import OpcodeCatalog.Proofs.Truncation
import OpcodeCatalog.Proofs.Numerals
import OpcodeCatalog.Proofs.WrittenTexts
import OpcodeCatalog.Proofs.RoundTrip
import OpcodeCatalog.Proofs.GapTexts
import OpcodeCatalog.Proofs.JoinedSources
import OpcodeCatalog.Proofs.ReviewedLookups
import OpcodeCatalog.Proofs.TokenPlaces
import OpcodeCatalog.Proofs.ItemTexts
import OpcodeCatalog.Proofs.Presentation
import OpcodeCatalog.Proofs.ScannedLiterals
import OpcodeCatalog.Proofs.RawStrings
import OpcodeCatalog.Proofs.EscapedStrings
import OpcodeCatalog.Proofs.AlikeReaders
import OpcodeCatalog.Proofs.MovedTokens
import OpcodeCatalog.Proofs.LookAhead
import OpcodeCatalog.Proofs.Recorder
import OpcodeCatalog.Proofs.RecordedReaders
import OpcodeCatalog.Proofs.RefusalPlaces
import OpcodeCatalog.Proofs.Breaches
import OpcodeCatalog.Proofs.ToldBreaches
import OpcodeCatalog.Proofs.BreachedSources
import OpcodeCatalog.Proofs.Messages
import OpcodeCatalog.Proofs.RegisteredPaths
import OpcodeCatalog.Proofs.LoadRuns
import OpcodeCatalog.Proofs.ArgumentNumbers
import OpcodeCatalog.Proofs.AcceptedArguments
import OpcodeCatalog.Proofs.ArgumentGroups
import OpcodeCatalog.Proofs.ArgumentOrder
import OpcodeCatalog.Proofs.RunTranscripts
import OpcodeCatalog.Proofs.SafeArguments
import OpcodeCatalog.Proofs.LayoutSizes
import OpcodeCatalog.Proofs.PrintedLayouts
import OpcodeCatalog.Proofs.ReviewReports
import OpcodeCatalog.Proofs.NormalPaths
import OpcodeCatalog.Proofs.RegistrationRuns
import OpcodeCatalog.Proofs.Substitutions
import OpcodeCatalog.Proofs.FaultyConstructs
import OpcodeCatalog.Proofs.FaultPlaces
import OpcodeCatalog.Proofs.BlamedWords
import OpcodeCatalog.Proofs.PrintedLines
import OpcodeCatalog.Proofs.ScannerCalls
import OpcodeCatalog.Proofs.ReaderRounds
import OpcodeCatalog.Proofs.ValueTrees
import OpcodeCatalog.Proofs.OpenValues
