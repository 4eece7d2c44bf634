import SaleRules.Main
import SaleRules.Proofs.ArgumentOrder
import SaleRules.Proofs.CopyOperands
import SaleRules.Proofs.CutEncodings
import SaleRules.Proofs.DateTexts
import SaleRules.Proofs.EncodedInstructions
import SaleRules.Proofs.EncodedSizes
import SaleRules.Proofs.FailureReports
import SaleRules.Proofs.HexReading
import SaleRules.Proofs.Listings
import SaleRules.Proofs.PackedBlobs
import SaleRules.Proofs.ParameterViews
import SaleRules.Proofs.ProgramRecomposition
import SaleRules.Proofs.ReaderPositions
import SaleRules.Proofs.RuleMeaning
import SaleRules.Proofs.StepFailures
import SaleRules.Proofs.TupleTexts
import SaleRules.Proofs.WordConversions
import SaleRules.Proofs.WordScaling
import SaleRules.Proofs.WordSubtraction
