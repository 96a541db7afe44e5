import SsaCodegen.Main
import SsaCodegen.Proofs.Allocation.DataFlow
import SsaCodegen.Proofs.CallAgreement
import SsaCodegen.Proofs.Construction.Placement
import SsaCodegen.Proofs.Construction.Ranges
import SsaCodegen.Proofs.Construction.UseCounts
import SsaCodegen.Proofs.EdgeSplitting
import SsaCodegen.Proofs.Emission.Addresses
import SsaCodegen.Proofs.Emission.Placement
import SsaCodegen.Proofs.Emission.Relocations
import SsaCodegen.Proofs.Emission.Transfers
import SsaCodegen.Proofs.Literals
import SsaCodegen.Proofs.StructLayout
