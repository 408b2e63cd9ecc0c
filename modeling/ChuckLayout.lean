import ChuckLayout.CommandLine.Run
import ChuckLayout.Comparison
import ChuckLayout.Editor
import ChuckLayout.Main
import ChuckLayout.Proofs.Code.Gaps
import ChuckLayout.Proofs.Code.Numbers
import ChuckLayout.Proofs.Fidelity
import ChuckLayout.Proofs.Lines.Breaks
import ChuckLayout.Proofs.Lines.Nesting
import ChuckLayout.Proofs.Literals.Opaque
import ChuckLayout.Proofs.Literals.Placement
import ChuckLayout.Proofs.Literals.Salt
import ChuckLayout.Proofs.Stability.Idempotence
import ChuckLayout.Proofs.Tokens
import ChuckLayout.Proofs.Lines.Returns
import ChuckLayout.Proofs.Stability.Surround
import ChuckLayout.Proofs.Files.Tree
import ChuckLayout.Proofs.Files.Runs
import ChuckLayout.Proofs.Edits
import ChuckLayout.Proofs.Files.Settling
import ChuckLayout.Proofs.Literals.Cutouts
import ChuckLayout.Proofs.Notices.Faults
import ChuckLayout.Proofs.Passes.BracketStack
import ChuckLayout.Proofs.Passes.BreakRuns
import ChuckLayout.Proofs.Literals.Revealing
import ChuckLayout.Proofs.Lines.Blanks
import ChuckLayout.Proofs.Files.Expansion
import ChuckLayout.Proofs.Comparison
import ChuckLayout.Proofs.Files.Stopping
import ChuckLayout.Proofs.Relexing.OneLine
