import StructLang.Main
import StructLang.Proofs.Agreement
import StructLang.Proofs.CallEffects
import StructLang.Proofs.LayoutSpec
import StructLang.Proofs.Ssa.CheckedRuns
import StructLang.Proofs.Ssa.ModuleCheck
import StructLang.Proofs.Termination
import StructLang.Proofs.TypeDecision
import StructLang.Proofs.CallTargets
import StructLang.Proofs.RoundTrip
import StructLang.Proofs.Partition
import StructLang.Proofs.TokenSpelling
import StructLang.Proofs.LoadingOrder
import StructLang.Proofs.MissingReturns
import StructLang.Proofs.Progress
import StructLang.Proofs.SideTables
import StructLang.Proofs.ErrorTypes
import StructLang.Proofs.SourceSpans
import StructLang.Proofs.Flat.Arguments
import StructLang.Proofs.Equality
import StructLang.Proofs.Excerpts
import StructLang.Proofs.Formats
import StructLang.Proofs.PrintedTexts
import StructLang.Proofs.Intermediates
