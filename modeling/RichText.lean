import RichText.Main
import RichText.Proofs.Anchored
import RichText.Proofs.Bare
import RichText.Proofs.Beside
import RichText.Proofs.Conserved
import RichText.Proofs.Diagram
import RichText.Proofs.EditorRun
import RichText.Proofs.History
import RichText.Proofs.LeafWalk
import RichText.Proofs.Limits
import RichText.Proofs.LinedBlock
import RichText.Proofs.Links
import RichText.Proofs.Meaning
import RichText.Proofs.NormalForm
import RichText.Proofs.Ordered
import RichText.Proofs.Passage
import RichText.Proofs.PastedText
import RichText.Proofs.Readable
import RichText.Proofs.Rearranged
import RichText.Proofs.Refused
import RichText.Proofs.Repeated
import RichText.Proofs.Reread
import RichText.Proofs.Sealed
import RichText.Proofs.Settled
import RichText.Proofs.Spliced
import RichText.Proofs.Tidied
import RichText.Proofs.ToggleSelection
import RichText.Proofs.Views
import RichText.Tidy
