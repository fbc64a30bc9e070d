import SfcTsx.Component.Compile
import SfcTsx.EditBuffer.Move
import SfcTsx.EditBuffer.Operation
import SfcTsx.EditBuffer.Slice
import SfcTsx.Main
import SfcTsx.Markup.Extract
import SfcTsx.Markup.Outline
import SfcTsx.Markup.Template.Parser
import SfcTsx.Project.Files
import SfcTsx.Proofs.EditBuffer.Layout
import SfcTsx.Script.Classify
import SfcTsx.Script.Generic
import SfcTsx.Script.Outline
import SfcTsx.Script.Parse
import SfcTsx.SourceMap.V3
import SfcTsx.View.Outline
import SfcTsx.View.Render
import SfcTsx.Proofs.EditBuffer.Operation
import SfcTsx.Proofs.EditBuffer.Links
import SfcTsx.Proofs.EditBuffer.Gaps
import SfcTsx.Proofs.EditBuffer.Refinement
import SfcTsx.Proofs.EditBuffer.Relink
import SfcTsx.Proofs.EditBuffer.Ring
import SfcTsx.Proofs.EditBuffer.Moves
import SfcTsx.Proofs.SourceMap
import SfcTsx.Proofs.EditBuffer.Provenance
import SfcTsx.Proofs.EditBuffer.Refusal
import SfcTsx.Proofs.Markup.StartTag
import SfcTsx.Proofs.Markup.TagSpans
import SfcTsx.Proofs.Markup.Tree
import SfcTsx.Proofs.Markup.Extract
import SfcTsx.Proofs.Markup.EmptyBlocks
import SfcTsx.Proofs.Markup.Lossless
import SfcTsx.Proofs.Markup.Openings
import SfcTsx.Proofs.Markup.Sweeps
import SfcTsx.Proofs.EditBuffer.Cells
import SfcTsx.Proofs.EditBuffer.Perform
import SfcTsx.Proofs.EditBuffer.Accepted
import SfcTsx.Proofs.View.Placed
import SfcTsx.Proofs.View.Tree
import SfcTsx.Proofs.View.Siblings
import SfcTsx.Proofs.View.Edits
import SfcTsx.Proofs.View.Tags
import SfcTsx.Proofs.View.Guards
import SfcTsx.Proofs.View.Render
import SfcTsx.Proofs.View.Frame
import SfcTsx.Proofs.View.Escape
import SfcTsx.Proofs.View.LoopSyntax
import SfcTsx.Proofs.Markup.EmptyElement
import SfcTsx.Proofs.Markup.Scan
import SfcTsx.Proofs.Markup.Edges
import SfcTsx.Proofs.Markup.Around
import SfcTsx.Proofs.Markup.ScriptContent
import SfcTsx.Proofs.Script.Tokens
import SfcTsx.Proofs.Script.Cursor
import SfcTsx.Proofs.Script.Zones
import SfcTsx.Proofs.Script.Spans
import SfcTsx.Proofs.Script.Progress
import SfcTsx.Proofs.Script.Loops
import SfcTsx.Proofs.Script.Total
import SfcTsx.Proofs.Script.Walk
import SfcTsx.Proofs.Script.Classify
import SfcTsx.Proofs.Script.Nesting
import SfcTsx.Proofs.Script.Expansion
import SfcTsx.Proofs.Script.Names
import SfcTsx.Proofs.Script.Await
import SfcTsx.Proofs.Script.Ascii.Pairs
import SfcTsx.Proofs.Script.Ascii.Lookahead
import SfcTsx.Proofs.Script.Ascii.Productions
import SfcTsx.Proofs.Script.Ascii.Reading
import SfcTsx.Proofs.LineIndex
import SfcTsx.Proofs.SourceMap.Decode
import SfcTsx.Proofs.EditBuffer.Verbatim
import SfcTsx.Proofs.EditBuffer.Strip
import SfcTsx.Proofs.EditBuffer.Slice
import SfcTsx.Proofs.EditBuffer.Commute
import SfcTsx.Proofs.Component.Context
import SfcTsx.Proofs.EditBuffer.Update
import SfcTsx.Proofs.EditBuffer.Gather
import SfcTsx.EditBuffer.Index
import SfcTsx.Proofs.EditBuffer.Index
import SfcTsx.Proofs.SourceMap.Scan
import SfcTsx.Proofs.EditBuffer.Lookup
import SfcTsx.Proofs.Markup.Directives
import SfcTsx.Proofs.View.TagName
import SfcTsx.Proofs.Json.Commented
import SfcTsx.Proofs.View.Kept
import SfcTsx.Proofs.Markup.TemplateContent
