import MolePuzzle.Main
import MolePuzzle.Proofs.BoxChange
import MolePuzzle.Proofs.CanonicalText
import MolePuzzle.Proofs.Footprint
import MolePuzzle.Proofs.Legality
import MolePuzzle.Proofs.Loading
import MolePuzzle.Proofs.Mirror
import MolePuzzle.Proofs.Onlooker
import MolePuzzle.Proofs.Playable
import MolePuzzle.Proofs.Replay
import MolePuzzle.Proofs.SaveGame
import MolePuzzle.Proofs.SharedSize
import MolePuzzle.Proofs.SymmetricPlay
import MolePuzzle.Proofs.Winning
import MolePuzzle.Proofs.Counting
import MolePuzzle.Proofs.Resizing
import MolePuzzle.Proofs.Repainting
import MolePuzzle.Proofs.ClickOrder
import MolePuzzle.Proofs.CheckedSave
import MolePuzzle.Proofs.PlayReport
import MolePuzzle.Proofs.WalkBack
import MolePuzzle.Proofs.SavedFile
import MolePuzzle.Proofs.Zipper
import MolePuzzle.Proofs.FieldCalls
import MolePuzzle.Proofs.FieldScan
import MolePuzzle.Proofs.ShortTexts
import MolePuzzle.Proofs.SavedAgain
import MolePuzzle.Proofs.ColumnSet
import MolePuzzle.Proofs.Delivery
