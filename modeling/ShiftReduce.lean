import ShiftReduce.Action
import ShiftReduce.Automaton
import ShiftReduce.Closure
import ShiftReduce.Command.Arguments
import ShiftReduce.Command.Basic
import ShiftReduce.Description.Combinators
import ShiftReduce.Description.Line
import ShiftReduce.Description.Reader
import ShiftReduce.Description.RuleLine
import ShiftReduce.Grammar.Augmented
import ShiftReduce.Grammar.Basic
import ShiftReduce.Grammar.Builder
import ShiftReduce.Grammar.Passes
import ShiftReduce.Grammar.Sets
import ShiftReduce.Grouping
import ShiftReduce.Item
import ShiftReduce.Log
import ShiftReduce.Main
import ShiftReduce.Numbering
import ShiftReduce.OrderedSet
import ShiftReduce.ParseTable
import ShiftReduce.Recognizer.Guard
import ShiftReduce.Recognizer.Machine
import ShiftReduce.Recognizer.Run
import ShiftReduce.Recognizer.TokenStream
import ShiftReduce.Report.Conflicts
import ShiftReduce.Report.Graph
import ShiftReduce.Report.States
import ShiftReduce.Report.Symbols
import ShiftReduce.Report.Table
import ShiftReduce.Search
import ShiftReduce.Text.Blank
import ShiftReduce.Text.CharClass
import ShiftReduce.Text.Emoji
import ShiftReduce.Text.Escape
import ShiftReduce.Text.Grid
import ShiftReduce.Text.Ligature
import ShiftReduce.Text.Weightless
import ShiftReduce.Text.Wide
import ShiftReduce.Text.Width
import ShiftReduce.Proofs.Machine
import ShiftReduce.Proofs.Guard
import ShiftReduce.Proofs.Termination
import ShiftReduce.Proofs.Search
import ShiftReduce.Proofs.Builder
import ShiftReduce.Proofs.Closure
import ShiftReduce.Proofs.Automaton
import ShiftReduce.Proofs.ActionTable
import ShiftReduce.Proofs.Table
import ShiftReduce.Proofs.Derivation
import ShiftReduce.Proofs.Stack
import ShiftReduce.Proofs.Soundness
import ShiftReduce.Proofs.Completeness
import ShiftReduce.Proofs.Transitions
import ShiftReduce.Proofs.ViablePrefix
import ShiftReduce.Proofs.Safety
import ShiftReduce.Proofs.ErrorPosition
import ShiftReduce.Proofs.Productive
import ShiftReduce.Proofs.StateSpace
import ShiftReduce.Proofs.Discovery
import ShiftReduce.Proofs.Entries
import ShiftReduce.Proofs.Conflicts
import ShiftReduce.Proofs.Failure
import ShiftReduce.Proofs.Sets
import ShiftReduce.Proofs.Drafts
import ShiftReduce.Proofs.SetPasses
import ShiftReduce.Proofs.FirstSets
import ShiftReduce.Proofs.FollowSets
import ShiftReduce.Proofs.LeastClosure
import ShiftReduce.Proofs.Acceptance
import ShiftReduce.Proofs.Registration
import ShiftReduce.Proofs.ConflictSummary
import ShiftReduce.Proofs.RuleSyntax
import ShiftReduce.Proofs.RuleParser
import ShiftReduce.Proofs.LineParser
import ShiftReduce.Proofs.Writing
import ShiftReduce.Proofs.RenamedRun
import ShiftReduce.Proofs.History
import ShiftReduce.Proofs.Augmentation
import ShiftReduce.Proofs.Parsing
import ShiftReduce.Proofs.LineNumbers
import ShiftReduce.Proofs.Layout
import ShiftReduce.Proofs.WriteHistory
import ShiftReduce.Proofs.TableGrid
import ShiftReduce.Proofs.Edges
import ShiftReduce.Proofs.Markup
import ShiftReduce.Proofs.OrderedSet
import ShiftReduce.Proofs.Kernels
import ShiftReduce.Proofs.Rounds
import ShiftReduce.Proofs.StateSearch
import ShiftReduce.Proofs.Generation
