import KernelIR.Code.BinOp
import KernelIR.Code.Builder
import KernelIR.Code.Instruction
import KernelIR.Code.Value
import KernelIR.Codec.Basic
import KernelIR.Codec.Code
import KernelIR.Codec.Program
import KernelIR.Failure
import KernelIR.Intrinsic.Family
import KernelIR.Intrinsic.Site
import KernelIR.Json.Basic
import KernelIR.Json.Parser
import KernelIR.Json.Printer
import KernelIR.Json.Record
import KernelIR.Json.Token
import KernelIR.Lowering.Copy
import KernelIR.Lowering.Error
import KernelIR.Lowering.Event
import KernelIR.Lowering.Fill
import KernelIR.Lowering.Funnel
import KernelIR.Lowering.Pass
import KernelIR.Lowering.Reinterpretation
import KernelIR.Lowering.Replacement
import KernelIR.Lowering.TypeMatch
import KernelIR.Program.Function
import KernelIR.Program.Module
import KernelIR.SettingsFile
import KernelIR.Ty.Basic
import KernelIR.Ty.Layout
import KernelIR.Ty.Text
import KernelIR.Proofs.CallSites
import KernelIR.Proofs.Edits
import KernelIR.Proofs.Faults
import KernelIR.Proofs.Completeness
import KernelIR.Proofs.Passes
import KernelIR.Proofs.Fixpoint
import KernelIR.Proofs.Evaluation
import KernelIR.Proofs.Folding
import KernelIR.Proofs.FunnelShift
import KernelIR.Proofs.Addressing
import KernelIR.Proofs.CopyCoverage
import KernelIR.Proofs.Visits
import KernelIR.Proofs.FillCoverage
import KernelIR.Proofs.Preservation
import KernelIR.Proofs.Provenance
import KernelIR.Proofs.Frame
import KernelIR.Proofs.CopyPrimitives
import KernelIR.Proofs.RoundTrip
import KernelIR.Proofs.Acceptance
import KernelIR.Proofs.Addresses
import KernelIR.Proofs.Verdicts
import KernelIR.Proofs.Stability
import KernelIR.Proofs.Locality
import KernelIR.Proofs.Descent
import KernelIR.Proofs.ElementTypes
import KernelIR.Proofs.CopyAlignment
import KernelIR.Proofs.Refusals
import KernelIR.Proofs.Handles
import KernelIR.Proofs.Spelling
import KernelIR.Proofs.Markers
import KernelIR.Proofs.DeadCasts
import KernelIR.Proofs.UseReplacement
import KernelIR.Proofs.Building
