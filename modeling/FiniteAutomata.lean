import FiniteAutomata.Automaton.Basic
import FiniteAutomata.Automaton.Determinism
import FiniteAutomata.Automaton.Distance
import FiniteAutomata.Automaton.Edit
import FiniteAutomata.Automaton.Isomorphism
import FiniteAutomata.Automaton.Path
import FiniteAutomata.Automaton.Render
import FiniteAutomata.Automaton.Reversal
import FiniteAutomata.Automaton.Simulation
import FiniteAutomata.Automaton.SingleRun
import FiniteAutomata.Automaton.Walk
import FiniteAutomata.Automaton.WellFormed
import FiniteAutomata.Checked
import FiniteAutomata.Closing
import FiniteAutomata.CommandLine.Contents
import FiniteAutomata.CommandLine.Lines
import FiniteAutomata.CommandLine.Options
import FiniteAutomata.CommandLine.Session
import FiniteAutomata.Compile
import FiniteAutomata.Determinize
import FiniteAutomata.Explore
import FiniteAutomata.Label
import FiniteAutomata.Main
import FiniteAutomata.Minimize.DoubleReversal
import FiniteAutomata.Minimize.Marking
import FiniteAutomata.Minimize.Partition
import FiniteAutomata.Minimize.Refinement
import FiniteAutomata.Pairing
import FiniteAutomata.Pattern.Error
import FiniteAutomata.Pattern.Fragment
import FiniteAutomata.Pattern.Grammar
import FiniteAutomata.Pattern.InPlace
import FiniteAutomata.Pattern.Language
import FiniteAutomata.Pattern.Location
import FiniteAutomata.Pattern.Parse
import FiniteAutomata.Pattern.Regex
import FiniteAutomata.Pattern.Shape
import FiniteAutomata.Proofs.Agreement
import FiniteAutomata.Proofs.Ascending
import FiniteAutomata.Proofs.Assembly
import FiniteAutomata.Proofs.Blocks
import FiniteAutomata.Proofs.BreadthFirst
import FiniteAutomata.Proofs.Canonical
import FiniteAutomata.Proofs.Checked
import FiniteAutomata.Proofs.CheckedConstruction
import FiniteAutomata.Proofs.CheckedRefinement
import FiniteAutomata.Proofs.Closing
import FiniteAutomata.Proofs.ClosureOperator
import FiniteAutomata.Proofs.Coarsest
import FiniteAutomata.Proofs.Compilation
import FiniteAutomata.Proofs.Correspondence
import FiniteAutomata.Proofs.Covering
import FiniteAutomata.Proofs.Derivation
import FiniteAutomata.Proofs.Determinism
import FiniteAutomata.Proofs.DeterminismTest
import FiniteAutomata.Proofs.Distance
import FiniteAutomata.Proofs.DoubleReversal
import FiniteAutomata.Proofs.Edit
import FiniteAutomata.Proofs.Explore
import FiniteAutomata.Proofs.Extension
import FiniteAutomata.Proofs.Faultless
import FiniteAutomata.Proofs.FixedPoints
import FiniteAutomata.Proofs.Fragment
import FiniteAutomata.Proofs.InPlace
import FiniteAutomata.Proofs.Invariance
import FiniteAutomata.Proofs.Isomorphism
import FiniteAutomata.Proofs.Legible
import FiniteAutomata.Proofs.Lines
import FiniteAutomata.Proofs.Location
import FiniteAutomata.Proofs.Marking
import FiniteAutomata.Proofs.Minimal
import FiniteAutomata.Proofs.Pairing
import FiniteAutomata.Proofs.Printed
import FiniteAutomata.Proofs.Quotient
import FiniteAutomata.Proofs.Reachability
import FiniteAutomata.Proofs.Readability
import FiniteAutomata.Proofs.Reading
import FiniteAutomata.Proofs.Refinement
import FiniteAutomata.Proofs.Renaming
import FiniteAutomata.Proofs.Renumbering
import FiniteAutomata.Proofs.Reversal
import FiniteAutomata.Proofs.ReversalRound
import FiniteAutomata.Proofs.SameView
import FiniteAutomata.Proofs.Session
import FiniteAutomata.Proofs.Shape
import FiniteAutomata.Proofs.Simulation
import FiniteAutomata.Proofs.SingleExit
import FiniteAutomata.Proofs.SingleRun
import FiniteAutomata.Proofs.SingleStart
import FiniteAutomata.Proofs.Splitting
import FiniteAutomata.Proofs.SubsetConstruction
import FiniteAutomata.Proofs.System
import FiniteAutomata.Proofs.Tiling
import FiniteAutomata.Proofs.Tokens
import FiniteAutomata.Proofs.Unreachable
import FiniteAutomata.Proofs.Visiting
import FiniteAutomata.Proofs.Worklist
import FiniteAutomata.StateSet
import FiniteAutomata.Symbol
import FiniteAutomata.Text.Extending
import FiniteAutomata.Text.Ignorable
import FiniteAutomata.Text.Quoted
import FiniteAutomata.Text.Unprintable
import FiniteAutomata.Visiting
