import StackScript.Token.Scan
import StackScript.Tree.Render
import StackScript.Tree.Parse
import StackScript.Code.Instr
import StackScript.Text.Quoted
import StackScript.Text.Lower
import StackScript.Text.Blank
import StackScript.Value
import StackScript.Symbol.Forest
import StackScript.Compile
import StackScript.Machine
import StackScript.Session
import StackScript.Config.Load
import StackScript.Suite.Load
import StackScript.Repl
import StackScript.Command
import StackScript.Main
import StackScript.Proofs.Code.Layout
import StackScript.Proofs.Compile.Scheme
import StackScript.Proofs.Tree.Induction
import StackScript.Proofs.Compile.Realization
import StackScript.Proofs.Compile.Balance
import StackScript.Proofs.Symbol.Chain
import StackScript.Proofs.Compile.WellFormed
import StackScript.Proofs.Session.Reachable
import StackScript.Proofs.Session.WellFormedCode
import StackScript.Proofs.Machine.Effect
import StackScript.Proofs.Machine.Safety
import StackScript.Proofs.Machine.SafeStep
import StackScript.Proofs.Machine.Run
import StackScript.Proofs.Session.Evaluation
import StackScript.Proofs.Compile.Faults
import StackScript.Proofs.Session.Safety
import StackScript.Proofs.Session.Silent
import StackScript.Proofs.Session.Invariant
import StackScript.Proofs.Meaning.Evaluate
import StackScript.Proofs.Meaning.Outline
import StackScript.Proofs.Meaning.Binding
import StackScript.Proofs.Meaning.Represent
import StackScript.Proofs.Meaning.Simulation
import StackScript.Proofs.Meaning.Expressions
import StackScript.Proofs.Meaning.Statements
import StackScript.Proofs.Meaning.Calls
import StackScript.Proofs.Session.Meaning
import StackScript.Proofs.Compile.Paths
import StackScript.Proofs.Machine.Control
import StackScript.Proofs.Compile.Occurrence
import StackScript.Proofs.Machine.Stations
import StackScript.Proofs.Session.StackDiscipline
import StackScript.Proofs.Compile.Shift
import StackScript.Proofs.Machine.Lockstep
import StackScript.Proofs.Machine.Completion
import StackScript.Proofs.Session.Composition
import StackScript.Proofs.Compile.Stores
import StackScript.Proofs.Machine.Retained
import StackScript.Proofs.Session.GlobalStore
import StackScript.Proofs.Machine.Capacity
import StackScript.Proofs.Tree.Grammar
import StackScript.Proofs.Tree.Sound
import StackScript.Proofs.Tree.Complete
import StackScript.Proofs.Tree.Recognition
import StackScript.Proofs.Meaning.Literals
import StackScript.Proofs.Compile.LiteralCode
import StackScript.Proofs.Tree.Spelling
import StackScript.Proofs.Session.ReadBack
import StackScript.Proofs.Code.RoundTrip
import StackScript.Proofs.Token.Text
import StackScript.Proofs.Token.Faithful
import StackScript.Proofs.Machine.Hashes
import StackScript.Proofs.Machine.Lookup
import StackScript.Proofs.Machine.Passage
import StackScript.Proofs.Machine.Insertion
import StackScript.Proofs.Machine.Report
import StackScript.Proofs.Session.FaultReport
import StackScript.Proofs.Compile.Parameters
import StackScript.Proofs.Session.HashLiterals
import StackScript.Proofs.Meaning.Scoping
import StackScript.Proofs.Tree.Whole
import StackScript.Proofs.Compile.Outcome
import StackScript.Proofs.Session.Refusals
import StackScript.Proofs.Machine.Leftovers
import StackScript.Proofs.Session.Leftovers
import StackScript.Proofs.Symbol.Resolution
import StackScript.Proofs.Tree.Formed
import StackScript.Proofs.Tree.Recovery
import StackScript.Proofs.Tree.Shape
import StackScript.Proofs.Tree.RoundTrip
import StackScript.Proofs.Tree.Calls
import StackScript.Proofs.Tree.Termination
import StackScript.Proofs.Tree.Spans
import StackScript.Proofs.Tree.Quoting
import StackScript.Proofs.Session.StringLiterals
import StackScript.Proofs.Tree.Positions
import StackScript.Proofs.Tree.Following
import StackScript.Proofs.Token.Lines
import StackScript.Proofs.Tree.Joining
import StackScript.Proofs.Compile.PairOrder
import StackScript.Proofs.Machine.Arithmetic
import StackScript.Proofs.Session.Integers
import StackScript.Proofs.Code.Rows
import StackScript.Proofs.Code.Sections
import StackScript.Proofs.Session.Conversation
import StackScript.Proofs.Symbol.Consistency
import StackScript.Proofs.Value.EntryOrder
