import CnfSimp.Arena.Blob
import CnfSimp.Restart.Trigger
import CnfSimp.Main
import CnfSimp.Proofs.Resolution
import CnfSimp.Proofs.Cells
import CnfSimp.Proofs.Arena.Dimacs
import CnfSimp.Proofs.Occurrences.Build
import CnfSimp.Proofs.Arena.Shrink
import CnfSimp.Proofs.Arena.Weight
import CnfSimp.Proofs.Arena.Refinement
import CnfSimp.Proofs.Arena.Blob
import CnfSimp.Proofs.WorkingSet
import CnfSimp.Proofs.Candidates
import CnfSimp.Proofs.Pass.EliminateRun
import CnfSimp.Proofs.Pass.EliminateWeight
import CnfSimp.Proofs.Simplifier.Answers
import CnfSimp.Proofs.Simplifier.Growth
import CnfSimp.Proofs.Pass.SubsumeRun
import CnfSimp.Proofs.Pass.Block
import CnfSimp.Proofs.Pass.Hidden
import CnfSimp.Proofs.Pass.HiddenRun
import CnfSimp.Proofs.Pass.HiddenLimit
import CnfSimp.Proofs.Pass.Irredundant
import CnfSimp.Proofs.Pass.Units
import CnfSimp.Proofs.Pass.UnitsRun
import CnfSimp.Proofs.Pass.Greedy
import CnfSimp.Proofs.Pass.Elect
import CnfSimp.Proofs.Simplifier.Lists
import CnfSimp.Proofs.Arena.Reserve
import CnfSimp.Proofs.Dimacs.Coverage
import CnfSimp.Proofs.Simplifier.Output
import CnfSimp.Proofs.Sizing
import CnfSimp.Proofs.Restart.Limit
import CnfSimp.Proofs.Restart.Schedule
import CnfSimp.Proofs.Restart.Rate
import CnfSimp.Proofs.Dimacs.Faults
import CnfSimp.Proofs.Occurrences.Upkeep
import CnfSimp.Proofs.Occurrences.Overflow
import CnfSimp.Proofs.Simplifier.Room
import CnfSimp.Proofs.Arena.Truncate
import CnfSimp.Proofs.Arena.Rewriting
import CnfSimp.Proofs.Restart.Average
