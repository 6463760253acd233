import IrafCl.Text.Bytes
import IrafCl.Text.Scalar
import IrafCl.Text.Blank
import IrafCl.Text.Printable
import IrafCl.Text.Quoted
import IrafCl.Number.Binary64
import IrafCl.Number.Shortest
import IrafCl.Number.Text
import IrafCl.Number.Reading
import IrafCl.Failure
import IrafCl.Contract
import IrafCl.Log
import IrafCl.Pattern.Regex
import IrafCl.Pattern.Reader
import IrafCl.Token
import IrafCl.Scanner
import IrafCl.Pattern.Table
import IrafCl.Script.Symbol
import IrafCl.Script.Lexicon
import IrafCl.Grammar.Basic
import IrafCl.Grammar.First
import IrafCl.Grammar.Spec
import IrafCl.Grammar.Summary
import IrafCl.Chart
import IrafCl.Derivation
import IrafCl.Tree.Node
import IrafCl.Tree.Walk
import IrafCl.Script.Rules
import IrafCl.Param.Value
import IrafCl.Param.Variable
import IrafCl.Param.List
import IrafCl.Param.Schema
import IrafCl.Library
import IrafCl.Param.Defaults
import IrafCl.Script.Syntax
import IrafCl.Script.Reader
import IrafCl.Text.Similar
import IrafCl.Script.Literal
import IrafCl.Script.Scope
import IrafCl.Script.Typing
import IrafCl.Code.Name
import IrafCl.Code.Quoted
import IrafCl.Code.Expr
import IrafCl.Code.Layout
import IrafCl.Code.Stmt
import IrafCl.Script.Lowering.Expr
import IrafCl.Script.Lowering.Stmt
import IrafCl.Script.Preamble
import IrafCl.Script.Unit
import IrafCl.Text.Numeral
import IrafCl.Digest.Blake2b
import IrafCl.Library.Validator
import IrafCl.Library.Standard
import IrafCl.Cbor.Float
import IrafCl.Cbor.Item
import IrafCl.Cbor.Reader
import IrafCl.Cache.Version
import IrafCl.Cache.Entry
import IrafCl.Cache.Memory
import IrafCl.Files
import IrafCl.Command.Flag
import IrafCl.Command.Invocation
import IrafCl.Command.Session
import IrafCl.Main
import IrafCl.Proofs.Grammar.Language
import IrafCl.Proofs.Grammar.First
import IrafCl.Proofs.Grammar.Tables
import IrafCl.Proofs.Grammar.Beginnings
import IrafCl.Proofs.Grammar.Cycles
import IrafCl.Proofs.Chart.Closing
import IrafCl.Proofs.Chart.Saturation
import IrafCl.Proofs.Chart.Recognition
import IrafCl.Proofs.Chart.Backwards
import IrafCl.Proofs.Chart.Links
import IrafCl.Proofs.Parser
import IrafCl.Proofs.Chart.Preference
import IrafCl.Proofs.Chart.Cycles
import IrafCl.Proofs.Chart.Prefixes
import IrafCl.Proofs.Chart.Termination
import IrafCl.Proofs.Tree
import IrafCl.Proofs.Grammar.Outlook
import IrafCl.Proofs.Grammar.Unambiguous
import IrafCl.Proofs.Grammar.Survey
import IrafCl.Code.Emitter
import IrafCl.Proofs.Code.Emitter
import IrafCl.Proofs.Script.Failures
import IrafCl.Proofs.Script.Shape
import IrafCl.Proofs.Script.Nodes
import IrafCl.Proofs.Script.Reading
import IrafCl.Proofs.Pattern.Matching
import IrafCl.Proofs.Pattern.Scanning
import IrafCl.Proofs.Script.Lexemes
import IrafCl.Proofs.Script.Parsing
import IrafCl.Proofs.Script.Else
import IrafCl.Proofs.Script.Programs
import IrafCl.Proofs.Script.Compile
import IrafCl.Proofs.Python.Reader
import IrafCl.Proofs.Python.Grammar
import IrafCl.Proofs.Python.Spelling
import IrafCl.Proofs.Python.Numbers
import IrafCl.Proofs.Python.Reads
import IrafCl.Proofs.Python.Sums
import IrafCl.Proofs.Python.Statements
import IrafCl.Proofs.Code.Parens
import IrafCl.Proofs.Code.Printing
import IrafCl.Proofs.Code.Blocks
import IrafCl.Proofs.Script.Names
import IrafCl.Proofs.Script.Constants
import IrafCl.Proofs.Script.Meaning
import IrafCl.Proofs.Script.Printing
import IrafCl.Proofs.Script.Precedence
import IrafCl.Proofs.Python.Typing
import IrafCl.Proofs.Script.Forms
import IrafCl.Proofs.Script.Soundness
import IrafCl.Proofs.Param.List
import IrafCl.Proofs.Script.Scope
import IrafCl.Proofs.Code.Running
import IrafCl.Proofs.Script.Lowering
import IrafCl.Proofs.Script.Loops
import IrafCl.Proofs.Script.Statements
import IrafCl.Proofs.Script.Layout
import IrafCl.Proofs.Cbor.Reader
import IrafCl.Proofs.Cache.Entry
import IrafCl.Proofs.Cache.RoundTrip
import IrafCl.Proofs.Cache.Key
import IrafCl.Proofs.Cache.Memory
import IrafCl.Proofs.Script.Unambiguous
import IrafCl.Proofs.Script.Retyping
import IrafCl.Proofs.Script.Branching
import IrafCl.Proofs.Script.Assignments
import IrafCl.Proofs.Param.Messages
import IrafCl.Proofs.Python.Lines
import IrafCl.Proofs.Python.Quoting
import IrafCl.Proofs.Script.Variables
import IrafCl.Proofs.Script.Warnings
import IrafCl.Proofs.Script.Declared
import IrafCl.Proofs.Code.Name
import IrafCl.Proofs.Code.Subterms
import IrafCl.Proofs.Code.Nesting
import IrafCl.Proofs.Script.Compiled
import IrafCl.Proofs.Script.Subterms
import IrafCl.Proofs.Script.Jumps
import IrafCl.Proofs.Script.Arguments
import IrafCl.Proofs.Script.Pipes
import IrafCl.Proofs.Script.Signature
import IrafCl.Proofs.Failure
import IrafCl.Proofs.Script.Newlines
import IrafCl.Proofs.Cache.History
import IrafCl.Proofs.Pattern.Stops
import IrafCl.Proofs.Pattern.Preference
import IrafCl.Proofs.Script.Extent
import IrafCl.Proofs.Script.Spacing
import IrafCl.Proofs.Script.Numerals
import IrafCl.Proofs.Number.Reading
import IrafCl.Proofs.Script.Defaults
import IrafCl.Proofs.Script.Denotation
import IrafCl.Proofs.Code.Layout
import IrafCl.Proofs.Script.Written
import IrafCl.Param.Table
import IrafCl.Proofs.Param.Table
import IrafCl.Proofs.Code.Wording
import IrafCl.Proofs.Script.Wording
import IrafCl.Proofs.Script.Captures
import IrafCl.Proofs.Number.Equality
import IrafCl.Proofs.Param.Compare
