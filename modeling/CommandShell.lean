import CommandShell.Disk.Image
import CommandShell.Program
import CommandShell.Main
import CommandShell.Proofs.Redirection
import CommandShell.Proofs.Utf8
import CommandShell.Proofs.PromptLoop
import CommandShell.Proofs.Paths
import CommandShell.Proofs.Walks
import CommandShell.Proofs.Changes
import CommandShell.Proofs.Containment
import CommandShell.Proofs.ArchiveRoundTrip
import CommandShell.Proofs.PlainDisks
import CommandShell.Proofs.Gathering
import CommandShell.Proofs.Extraction
import CommandShell.Proofs.Restoration
import CommandShell.Proofs.Quoting
import CommandShell.Proofs.Breakdowns
import CommandShell.Proofs.WorkingDirectory
import CommandShell.Proofs.Losses
import CommandShell.Proofs.LineGrammar
import CommandShell.Proofs.StoredObjects
import CommandShell.Proofs.TreeCopies
import CommandShell.Proofs.FileCopies
import CommandShell.Proofs.PartialExtraction
import CommandShell.Proofs.Reextraction
import CommandShell.Proofs.MissingDirectories
import CommandShell.Proofs.Overlays
import CommandShell.Proofs.DirectoryCopies
import CommandShell.Proofs.WordPositions
import CommandShell.Proofs.Atomicity
import CommandShell.Proofs.OutputLimits
import CommandShell.Proofs.OperandsInTurn
import CommandShell.Proofs.TextLines
import CommandShell.Proofs.ShownFiles
import CommandShell.Proofs.Undoing
import CommandShell.Proofs.EmptyDirectories
import CommandShell.Proofs.LineEndings
import CommandShell.Proofs.CanonicalPaths
import CommandShell.Proofs.StoredNames
import CommandShell.Proofs.CyclicTrees
import CommandShell.Proofs.NormalForms
import CommandShell.Proofs.OperandNames
