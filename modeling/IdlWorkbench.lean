import IdlWorkbench.Ast.Basic
import IdlWorkbench.Ast.OfTree
import IdlWorkbench.Check.Error
import IdlWorkbench.Check.Expr
import IdlWorkbench.Check.Package
import IdlWorkbench.Check.State
import IdlWorkbench.Check.Type
import IdlWorkbench.Diagnostic.Basic
import IdlWorkbench.Disk
import IdlWorkbench.Doc.Lines
import IdlWorkbench.Doc.Tag
import IdlWorkbench.Editor.Definition
import IdlWorkbench.Editor.Formatting
import IdlWorkbench.Editor.Lint
import IdlWorkbench.Format.Error
import IdlWorkbench.Format.Expr
import IdlWorkbench.Format.File
import IdlWorkbench.Format.Initialism
import IdlWorkbench.Format.Layout
import IdlWorkbench.Format.Sequence
import IdlWorkbench.Grammar.Error
import IdlWorkbench.Grammar.Expr
import IdlWorkbench.Grammar.File
import IdlWorkbench.Grammar.State
import IdlWorkbench.Grammar.Type
import IdlWorkbench.Graph.Analysis
import IdlWorkbench.Graph.Basic
import IdlWorkbench.Graph.Diagnostics
import IdlWorkbench.Graph.Edit
import IdlWorkbench.Graph.Load
import IdlWorkbench.Number.Binary64
import IdlWorkbench.Number.Shortest
import IdlWorkbench.Path
import IdlWorkbench.Proofs.Action
import IdlWorkbench.Proofs.Check.Backed
import IdlWorkbench.Proofs.Check.Chain
import IdlWorkbench.Proofs.Check.Closed
import IdlWorkbench.Proofs.Check.Coverage
import IdlWorkbench.Proofs.Check.Follow
import IdlWorkbench.Proofs.Check.Keys
import IdlWorkbench.Proofs.Check.Limits
import IdlWorkbench.Proofs.Check.Order
import IdlWorkbench.Proofs.Check.Range
import IdlWorkbench.Proofs.Check.Replay
import IdlWorkbench.Proofs.Check.Reports
import IdlWorkbench.Proofs.Check.Settle
import IdlWorkbench.Proofs.Check.Spots
import IdlWorkbench.Proofs.Check.Stepwise
import IdlWorkbench.Proofs.Check.Tables
import IdlWorkbench.Proofs.Check.Verdict
import IdlWorkbench.Proofs.Doc.Attach
import IdlWorkbench.Proofs.Doc.Place
import IdlWorkbench.Proofs.Editor.Cursor
import IdlWorkbench.Proofs.Editor.Queries
import IdlWorkbench.Proofs.Format.Carried
import IdlWorkbench.Proofs.Format.Chunks
import IdlWorkbench.Proofs.Format.Columns
import IdlWorkbench.Proofs.Format.Comments
import IdlWorkbench.Proofs.Format.Expr
import IdlWorkbench.Proofs.Format.Initialism
import IdlWorkbench.Proofs.Format.Lines
import IdlWorkbench.Proofs.Format.Sequence
import IdlWorkbench.Proofs.Format.Tags
import IdlWorkbench.Proofs.Grammar.Accept
import IdlWorkbench.Proofs.Grammar.Account
import IdlWorkbench.Proofs.Grammar.Ahead
import IdlWorkbench.Proofs.Grammar.Consume
import IdlWorkbench.Proofs.Grammar.DocLines
import IdlWorkbench.Proofs.Grammar.Imports
import IdlWorkbench.Proofs.Grammar.Lossless
import IdlWorkbench.Proofs.Grammar.Nesting
import IdlWorkbench.Proofs.Grammar.PackageName
import IdlWorkbench.Proofs.Grammar.Phrase
import IdlWorkbench.Proofs.Grammar.Rounds
import IdlWorkbench.Proofs.Grammar.Spacing
import IdlWorkbench.Proofs.Grammar.Stepwise
import IdlWorkbench.Proofs.Graph.Agree
import IdlWorkbench.Proofs.Graph.Alike
import IdlWorkbench.Proofs.Graph.Analysis
import IdlWorkbench.Proofs.Graph.Batch
import IdlWorkbench.Proofs.Graph.Checks
import IdlWorkbench.Proofs.Graph.Consistent
import IdlWorkbench.Proofs.Graph.Cycle
import IdlWorkbench.Proofs.Graph.Edit
import IdlWorkbench.Proofs.Graph.Edited
import IdlWorkbench.Proofs.Graph.Files
import IdlWorkbench.Proofs.Graph.Follow
import IdlWorkbench.Proofs.Graph.Forget
import IdlWorkbench.Proofs.Graph.Fresh
import IdlWorkbench.Proofs.Graph.Invariant
import IdlWorkbench.Proofs.Graph.Load
import IdlWorkbench.Proofs.Graph.Ranked
import IdlWorkbench.Proofs.Graph.Record
import IdlWorkbench.Proofs.Graph.Settle
import IdlWorkbench.Proofs.Graph.Sited
import IdlWorkbench.Proofs.Graph.Typed
import IdlWorkbench.Proofs.Path
import IdlWorkbench.Proofs.Session.Amid
import IdlWorkbench.Proofs.Session.Cycle
import IdlWorkbench.Proofs.Session.Edits
import IdlWorkbench.Proofs.Session.Faithful
import IdlWorkbench.Proofs.Session.Held
import IdlWorkbench.Proofs.Session.Onward
import IdlWorkbench.Proofs.Session.Pass
import IdlWorkbench.Proofs.Session.Publish
import IdlWorkbench.Proofs.Session.Ranked
import IdlWorkbench.Proofs.Session.Reload
import IdlWorkbench.Proofs.Session.Scratch
import IdlWorkbench.Proofs.Session.Shown
import IdlWorkbench.Proofs.Session.Stale
import IdlWorkbench.Proofs.Session.Steady
import IdlWorkbench.Proofs.Session.Touch
import IdlWorkbench.Proofs.Session.Turns
import IdlWorkbench.Proofs.StructTag
import IdlWorkbench.Proofs.Table
import IdlWorkbench.Proofs.Text.Bytes
import IdlWorkbench.Proofs.Text.Position
import IdlWorkbench.Proofs.Token.Comment
import IdlWorkbench.Proofs.Token.Cover
import IdlWorkbench.Proofs.Validate
import IdlWorkbench.Proofs.Workspace.Identity
import IdlWorkbench.Proofs.Workspace.Listing
import IdlWorkbench.Proofs.Workspace.Module
import IdlWorkbench.Proofs.Workspace.Overlay
import IdlWorkbench.Proofs.Workspace.Vacant
import IdlWorkbench.Session
import IdlWorkbench.Settings.Basic
import IdlWorkbench.Settings.Json
import IdlWorkbench.Source
import IdlWorkbench.StructTag
import IdlWorkbench.Table
import IdlWorkbench.Text.Blank
import IdlWorkbench.Text.ByteRange
import IdlWorkbench.Text.Case
import IdlWorkbench.Text.CaseTable
import IdlWorkbench.Text.HiddenTable
import IdlWorkbench.Text.Integer
import IdlWorkbench.Text.Position
import IdlWorkbench.Text.Quoted
import IdlWorkbench.Token.Basic
import IdlWorkbench.Token.Scan
import IdlWorkbench.Token.Value
import IdlWorkbench.Tree.Basic
import IdlWorkbench.Typing.Basic
import IdlWorkbench.Typing.Comparable
import IdlWorkbench.Typing.Const
import IdlWorkbench.Typing.Surface
import IdlWorkbench.Typing.Universe
import IdlWorkbench.Validate
import IdlWorkbench.Workspace.Layout
import IdlWorkbench.Workspace.Listing
import IdlWorkbench.Workspace.Overlay
