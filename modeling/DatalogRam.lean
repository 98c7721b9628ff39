import DatalogRam.Analysis.Collection
import DatalogRam.Analysis.Components
import DatalogRam.Analysis.Kind
import DatalogRam.Analysis.Reach
import DatalogRam.Analysis.Reads
import DatalogRam.Analysis.Recursion
import DatalogRam.Analysis.Schedule
import DatalogRam.Analysis.Strata
import DatalogRam.Compiler.Compile
import DatalogRam.Compiler.Settings
import DatalogRam.Datalog.Argument
import DatalogRam.Datalog.Clause
import DatalogRam.Datalog.Name
import DatalogRam.Datalog.Program
import DatalogRam.Datalog.Text
import DatalogRam.Datalog.Variables
import DatalogRam.Decimal.Binary64
import DatalogRam.Decimal.Layout
import DatalogRam.Decimal.Shortest
import DatalogRam.Event
import DatalogRam.EventFilter
import DatalogRam.EventFilter.Directive
import DatalogRam.Json.Document
import DatalogRam.Json.Reader
import DatalogRam.Letter
import DatalogRam.Lowering.Clause
import DatalogRam.Lowering.Condition
import DatalogRam.Lowering.Draft
import DatalogRam.Lowering.Error
import DatalogRam.Lowering.Evaluation
import DatalogRam.Lowering.Explanation
import DatalogRam.Lowering.Info
import DatalogRam.Lowering.Plan
import DatalogRam.Lowering.Relation
import DatalogRam.Lowering.Sites
import DatalogRam.Lowering.Slots
import DatalogRam.Lowering.Strategy
import DatalogRam.Lowering.Unit
import DatalogRam.Lowering.Value
import DatalogRam.Machine.Arithmetic
import DatalogRam.Machine.Execution
import DatalogRam.Machine.Fault
import DatalogRam.Machine.Rows
import DatalogRam.Machine.Store
import DatalogRam.Operator
import DatalogRam.Pattern.CharacterClass
import DatalogRam.Pattern.Expression
import DatalogRam.Pattern.Item
import DatalogRam.Ram.Arena
import DatalogRam.Ram.Dump
import DatalogRam.Ram.Node
import DatalogRam.Ram.Program
import DatalogRam.Ram.Replace
import DatalogRam.Ram.Symbols
import DatalogRam.Ram.Text
import DatalogRam.Ram.Tree
import DatalogRam.Ram.Unfold
import DatalogRam.Text
import DatalogRam.Proofs.Analysis.Components
import DatalogRam.Proofs.Analysis.Search
import DatalogRam.Proofs.Analysis.Strata
import DatalogRam.Proofs.Analysis.Worklist
import DatalogRam.Proofs.Analysis.Expiry
import DatalogRam.Proofs.Datalog.Fragment
import DatalogRam.Proofs.Datalog.Model
import DatalogRam.Proofs.Datalog.Fixpoint
import DatalogRam.Proofs.Evaluation.Changes
import DatalogRam.Proofs.Evaluation.Clauses
import DatalogRam.Proofs.Evaluation.Infos
import DatalogRam.Proofs.Evaluation.Layers
import DatalogRam.Proofs.Evaluation.Stores
import DatalogRam.Proofs.LeastModel
import DatalogRam.Proofs.Lowering.Alike
import DatalogRam.Proofs.Machine.Maintains
import DatalogRam.Proofs.Provenance.Answers
import DatalogRam.Proofs.Provenance.Justified
import DatalogRam.Proofs.Provenance.Phases
import DatalogRam.Proofs.Strategies
import DatalogRam.Proofs.Analysis.Dependencies
import DatalogRam.Proofs.Lowering.ReadTables
import DatalogRam.Proofs.Explanations
import DatalogRam.Proofs.Lowering.ScopedPrograms
import DatalogRam.Proofs.Provenance.Repetitions
import DatalogRam.Proofs.Provenance.Decisions
import DatalogRam.Proofs.Provenance.Derivations
import DatalogRam.Proofs.Machine.Wildcards
import DatalogRam.Proofs.Lowering.ClauseUses
import DatalogRam.Proofs.Lowering.ExplanationUses
import DatalogRam.Proofs.Lowering.DeclaredTables
import DatalogRam.Proofs.Lowering.ProgramUses
import DatalogRam.Proofs.Lowering.AskedWildcards
import DatalogRam.Proofs.Lowering.FittingTables
import DatalogRam.Proofs.Provenance.SubroutineTable
import DatalogRam.Proofs.Lowering.PlantedDrafts
import DatalogRam.Proofs.Lowering.Refusals
import DatalogRam.Proofs.DebugInfo
import DatalogRam.Proofs.Provenance.Retention
import DatalogRam.Proofs.Provenance.InfoRelations
import DatalogRam.Proofs.Iterations
import DatalogRam.Proofs.Lowering.GuardedInsertions
import DatalogRam.Proofs.Consequences
import DatalogRam.Proofs.Query.Folds
import DatalogRam.Proofs.Query.Instances
import DatalogRam.Proofs.Query.Concluding
import DatalogRam.Proofs.Aggregation
import DatalogRam.Proofs.Analysis.LastUses
import DatalogRam.Proofs.Analysis.Kinds
import DatalogRam.Proofs.Analysis.Resolution
import DatalogRam.Proofs.Datalog.Occurrences
import DatalogRam.Proofs.Lowering.SlotOrder
import DatalogRam.Proofs.Lowering.Failing
import DatalogRam.Proofs.Lowering.RangeRestriction
import DatalogRam.Proofs.Machine.Stopping
import DatalogRam.Proofs.Machine.StaleRows
import DatalogRam.Proofs.Machine.Loopless
import DatalogRam.Proofs.Provenance.Calls
import DatalogRam.Proofs.Ram.Layout
import DatalogRam.Ram.Clone
import DatalogRam.Proofs.Ram.Copies
import DatalogRam.Proofs.Ram.Replaced
import DatalogRam.Proofs.Lowering.ValueLayout
import DatalogRam.Proofs.Lowering.RedirectedMeaning
import DatalogRam.Proofs.Machine.Words
import DatalogRam.Proofs.Lowering.TableTexts
import DatalogRam.Proofs.Ordinals
import DatalogRam.Proofs.Lowering.Renaming
import DatalogRam.Proofs.RenamedVariables
import DatalogRam.Proofs.EventFilter.Deciding
import DatalogRam.Proofs.EventFilter.Reading
