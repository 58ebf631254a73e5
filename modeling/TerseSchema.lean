import TerseSchema.Main
import TerseSchema.Proofs.Balance
import TerseSchema.Proofs.Bounds
import TerseSchema.Proofs.Calls
import TerseSchema.Proofs.Canonical
import TerseSchema.Proofs.Conformance
import TerseSchema.Proofs.Construction
import TerseSchema.Proofs.Decimals
import TerseSchema.Proofs.Descent
import TerseSchema.Proofs.Endings
import TerseSchema.Proofs.Exactness
import TerseSchema.Proofs.Faults
import TerseSchema.Proofs.Flattening
import TerseSchema.Proofs.Growth
import TerseSchema.Proofs.History
import TerseSchema.Proofs.Idempotence
import TerseSchema.Proofs.InPlace
import TerseSchema.Proofs.InStep
import TerseSchema.Proofs.Inclusion
import TerseSchema.Proofs.Inference
import TerseSchema.Proofs.Keys
import TerseSchema.Proofs.Leftmost
import TerseSchema.Proofs.Loosening
import TerseSchema.Proofs.Observation
import TerseSchema.Proofs.Offsets
import TerseSchema.Proofs.Origins
import TerseSchema.Proofs.Outline
import TerseSchema.Proofs.Parsed
import TerseSchema.Proofs.Pieces
import TerseSchema.Proofs.Placeholders
import TerseSchema.Proofs.Placement
import TerseSchema.Proofs.Rebuilding
import TerseSchema.Proofs.References
import TerseSchema.Proofs.Reordering
import TerseSchema.Proofs.Repair
import TerseSchema.Proofs.Representable
import TerseSchema.Proofs.Rerooting
import TerseSchema.Proofs.RoundTrip
import TerseSchema.Proofs.Rounding
import TerseSchema.Proofs.SideBySide
import TerseSchema.Proofs.SingleTerm
import TerseSchema.Proofs.Untyped
import TerseSchema.Proofs.Verdicts
import TerseSchema.Proofs.Views
import TerseSchema.Proofs.Violations
