import SqlHighlight.Main
import SqlHighlight.Proofs.Coverage
import SqlHighlight.Proofs.Difference
import SqlHighlight.Proofs.EmptySpans
import SqlHighlight.Proofs.Fragments
import SqlHighlight.Proofs.HexColors
import SqlHighlight.Proofs.LineStarts
import SqlHighlight.Proofs.Listing
import SqlHighlight.Proofs.Parentheses
import SqlHighlight.Proofs.Quoting
import SqlHighlight.Proofs.Recovery
import SqlHighlight.Proofs.Relexing
import SqlHighlight.Proofs.Session
import SqlHighlight.Proofs.StartWords
import SqlHighlight.Proofs.Terminal
