import LineShell.Echo
import LineShell.Files.Fixture
import LineShell.Files.Listing
import LineShell.Invocation
import LineShell.Proofs.AfterExit
import LineShell.Proofs.Answers
import LineShell.Proofs.BlankInput
import LineShell.Proofs.Conservation
import LineShell.Proofs.Directories
import LineShell.Proofs.Fallbacks
import LineShell.Proofs.Invocations
import LineShell.Proofs.LimitedOutput
import LineShell.Proofs.Refusals
import LineShell.Proofs.RestoredContent
import LineShell.Proofs.SearchPath
import LineShell.Proofs.Sequencing
import LineShell.Proofs.Spacing
import LineShell.Toolbox.Installed
