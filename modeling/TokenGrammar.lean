import TokenGrammar.Main
import TokenGrammar.Strategy.Stock
import TokenGrammar.Tree.Forest
import TokenGrammar.Proofs.Derivation
import TokenGrammar.Proofs.Simulation
import TokenGrammar.Proofs.Trivia
import TokenGrammar.Proofs.Notes
import TokenGrammar.Proofs.Rollback
import TokenGrammar.Proofs.Routes
import TokenGrammar.Proofs.Discipline
import TokenGrammar.Proofs.Recognition
import TokenGrammar.Proofs.Suffix
import TokenGrammar.Proofs.TriviaFree
import TokenGrammar.Proofs.Depth
import TokenGrammar.Proofs.Compilation
import TokenGrammar.Proofs.LeftRecursion
import TokenGrammar.Proofs.Leaves
import TokenGrammar.Proofs.Termination
import TokenGrammar.Proofs.Validity
import TokenGrammar.Proofs.Interleaving
import TokenGrammar.Proofs.Folding
import TokenGrammar.Proofs.Selection
import TokenGrammar.Proofs.Documents
import TokenGrammar.Proofs.Provenance
import TokenGrammar.Proofs.Breakdowns
import TokenGrammar.Proofs.Candidates
import TokenGrammar.Proofs.Wrapping
import TokenGrammar.Proofs.Exhaustion
import TokenGrammar.Proofs.Shadowing
import TokenGrammar.Proofs.Arithmetic
import TokenGrammar.Proofs.TraceLines
import TokenGrammar.Proofs.Tracer
import TokenGrammar.Proofs.Traces
import TokenGrammar.Proofs.Shorthand
import TokenGrammar.Proofs.TokenStreams
import TokenGrammar.Proofs.Construction
import TokenGrammar.Proofs.TreeLines
import TokenGrammar.Proofs.Reach
import TokenGrammar.Proofs.Unfolding
import TokenGrammar.Proofs.SharedTrees
import TokenGrammar.Proofs.Constraints
import TokenGrammar.Proofs.TagSpellings
