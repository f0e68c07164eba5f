import ElementCompiler.Component.Encode
import ElementCompiler.Component.Equality
import ElementCompiler.Main
import ElementCompiler.Proofs.Attempt
import ElementCompiler.Proofs.CommandLine.Reading
import ElementCompiler.Proofs.Component.FirstFlaw
import ElementCompiler.Proofs.Component.InsertedState
import ElementCompiler.Proofs.Component.Names
import ElementCompiler.Proofs.Component.NullWord
import ElementCompiler.Proofs.Component.Nulls
import ElementCompiler.Proofs.Component.Parts
import ElementCompiler.Proofs.Component.Passes
import ElementCompiler.Proofs.Component.Props
import ElementCompiler.Proofs.Component.RefRenaming
import ElementCompiler.Proofs.Component.Refs
import ElementCompiler.Proofs.Component.Rewriting
import ElementCompiler.Proofs.Component.RoundTrip
import ElementCompiler.Proofs.Component.Shapes
import ElementCompiler.Proofs.Component.Texts
import ElementCompiler.Proofs.Component.Tree
import ElementCompiler.Proofs.Component.Visits
import ElementCompiler.Proofs.Component.WellFormed
import ElementCompiler.Proofs.Distinct
import ElementCompiler.Proofs.Entries
import ElementCompiler.Proofs.Import.Binding
import ElementCompiler.Proofs.Import.Channel
import ElementCompiler.Proofs.Import.Classification
import ElementCompiler.Proofs.Import.Record
import ElementCompiler.Proofs.Import.Refusals
import ElementCompiler.Proofs.Import.Resolution
import ElementCompiler.Proofs.Import.Statement
import ElementCompiler.Proofs.Import.StatementReading
import ElementCompiler.Proofs.Json.Document
import ElementCompiler.Proofs.Json.Fields
import ElementCompiler.Proofs.Json.Nulls
import ElementCompiler.Proofs.Json.Numbers
import ElementCompiler.Proofs.Json.ReadBack
import ElementCompiler.Proofs.Json.Readings
import ElementCompiler.Proofs.Json.Shapes
import ElementCompiler.Proofs.Json.Strings
import ElementCompiler.Proofs.Json.WellPaired
import ElementCompiler.Proofs.Markup.AttributeNames
import ElementCompiler.Proofs.Markup.AttributeReading
import ElementCompiler.Proofs.Markup.Attributes
import ElementCompiler.Proofs.Markup.Callables
import ElementCompiler.Proofs.Markup.Closing
import ElementCompiler.Proofs.Markup.Elements
import ElementCompiler.Proofs.Markup.Emission
import ElementCompiler.Proofs.Markup.EncodedHandlers
import ElementCompiler.Proofs.Markup.HandlerBraces
import ElementCompiler.Proofs.Markup.IndexTokens
import ElementCompiler.Proofs.Markup.InternalCode
import ElementCompiler.Proofs.Markup.InternalKeys
import ElementCompiler.Proofs.Markup.LoopIndexes
import ElementCompiler.Proofs.Markup.LoopScope
import ElementCompiler.Proofs.Markup.Nesting
import ElementCompiler.Proofs.Markup.NullWord
import ElementCompiler.Proofs.Markup.Quoting
import ElementCompiler.Proofs.Markup.Rendering
import ElementCompiler.Proofs.Markup.Rules
import ElementCompiler.Proofs.Markup.Shown
import ElementCompiler.Proofs.Markup.ShownAttributes
import ElementCompiler.Proofs.Markup.SlotCode
import ElementCompiler.Proofs.Markup.SlotMarkup
import ElementCompiler.Proofs.Markup.SpreadOrder
import ElementCompiler.Proofs.Markup.Spreads
import ElementCompiler.Proofs.Markup.Standing
import ElementCompiler.Proofs.Markup.TagFree
import ElementCompiler.Proofs.Markup.TagReading
import ElementCompiler.Proofs.Markup.TemplateReading
import ElementCompiler.Proofs.Module.Assembly
import ElementCompiler.Proofs.Module.AssignedImports
import ElementCompiler.Proofs.Module.Attributes
import ElementCompiler.Proofs.Module.ClassBody
import ElementCompiler.Proofs.Module.ClassSnippets
import ElementCompiler.Proofs.Module.Compile
import ElementCompiler.Proofs.Module.ElementRefs
import ElementCompiler.Proofs.Module.FrameworkNames
import ElementCompiler.Proofs.Module.HandlerLiterals
import ElementCompiler.Proofs.Module.ImportNulls
import ElementCompiler.Proofs.Module.ImportedNames
import ElementCompiler.Proofs.Module.Imports
import ElementCompiler.Proofs.Module.InPlace
import ElementCompiler.Proofs.Module.InsertedState
import ElementCompiler.Proofs.Module.LoweredNodes
import ElementCompiler.Proofs.Module.LoweredTexts
import ElementCompiler.Proofs.Module.Lowering
import ElementCompiler.Proofs.Module.MemberLines
import ElementCompiler.Proofs.Module.MemberNames
import ElementCompiler.Proofs.Module.NullWord
import ElementCompiler.Proofs.Module.Props
import ElementCompiler.Proofs.Module.Runs
import ElementCompiler.Proofs.Module.SectionNulls
import ElementCompiler.Proofs.Module.Sections
import ElementCompiler.Proofs.Module.SlotMarkup
import ElementCompiler.Proofs.Module.Spreads
import ElementCompiler.Proofs.Module.StateInView
import ElementCompiler.Proofs.Module.StateMembers
import ElementCompiler.Proofs.Module.StateReferences
import ElementCompiler.Proofs.Module.UnusedNames
import ElementCompiler.Proofs.Module.Usage
import ElementCompiler.Proofs.Module.View
import ElementCompiler.Proofs.Module.ViewTags
import ElementCompiler.Proofs.Options
import ElementCompiler.Proofs.Snippet.AddedWords
import ElementCompiler.Proofs.Snippet.Blank
import ElementCompiler.Proofs.Snippet.Context
import ElementCompiler.Proofs.Snippet.DefinitionHead
import ElementCompiler.Proofs.Snippet.Ends
import ElementCompiler.Proofs.Snippet.Handlers
import ElementCompiler.Proofs.Snippet.LiteralPasses
import ElementCompiler.Proofs.Snippet.Literals
import ElementCompiler.Proofs.Snippet.NullWord
import ElementCompiler.Proofs.Snippet.Parameters
import ElementCompiler.Proofs.Snippet.Passes
import ElementCompiler.Proofs.Snippet.PropReads
import ElementCompiler.Proofs.Snippet.RefLiterals
import ElementCompiler.Proofs.Snippet.RefPasses
import ElementCompiler.Proofs.Snippet.RefRenaming
import ElementCompiler.Proofs.Snippet.Relocated
import ElementCompiler.Proofs.Snippet.Relocation
import ElementCompiler.Proofs.Snippet.Segments
import ElementCompiler.Proofs.Snippet.Settled
import ElementCompiler.Proofs.Snippet.Signature
import ElementCompiler.Proofs.Snippet.SinglePass
import ElementCompiler.Proofs.Snippet.Strip
import ElementCompiler.Proofs.Snippet.UnusedName
import ElementCompiler.Proofs.Snippet.Words
import ElementCompiler.Proofs.Text.Braces
import ElementCompiler.Proofs.Text.Class
import ElementCompiler.Proofs.Text.Indent
import ElementCompiler.Proofs.Text.Kebab
import ElementCompiler.Proofs.Text.Lines
import ElementCompiler.Proofs.Text.Lower
import ElementCompiler.Proofs.Text.NullWord
import ElementCompiler.Proofs.Text.Split
import ElementCompiler.Proofs.Text.Trim
import ElementCompiler.Proofs.Text.Words
