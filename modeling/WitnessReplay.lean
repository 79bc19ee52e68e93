import WitnessReplay.Main
import WitnessReplay.Proofs.ProgressEvents
import WitnessReplay.Proofs.ReplayedWitness
import WitnessReplay.Proofs.ProviderContents
import WitnessReplay.Proofs.EscapedRemarks
import WitnessReplay.Proofs.ProgramSites
import WitnessReplay.Proofs.ImportMeaning
import WitnessReplay.Proofs.RenamedEntryPoint
import WitnessReplay.Proofs.HeaderTokens
import WitnessReplay.Proofs.AssignedLiterals
import WitnessReplay.Proofs.LiteralLines
import WitnessReplay.Proofs.EscapedAngles
import WitnessReplay.Proofs.PlaceholderLine
import WitnessReplay.Proofs.ElementData
import WitnessReplay.Proofs.WrittenHarness
import WitnessReplay.Proofs.OverlaidCopy
import WitnessReplay.Proofs.BodilessMethods
import WitnessReplay.Proofs.TemplateCalls
import WitnessReplay.Proofs.TextBlocks
import WitnessReplay.Proofs.ReportReading
import WitnessReplay.Proofs.SearchOrder
