import HostSheet.Main
import HostSheet.Proofs.Moves
import HostSheet.Proofs.RoundTrip
import HostSheet.Proofs.Listing
import HostSheet.Proofs.Brackets
import HostSheet.Proofs.Hoisting
import HostSheet.Proofs.Gaps
import HostSheet.Proofs.Pieces
import HostSheet.Proofs.Agreement
import HostSheet.Proofs.Frames
import HostSheet.Proofs.Grammar
import HostSheet.Proofs.Seams
import HostSheet.Proofs.Outline
import HostSheet.Proofs.Respacing
import HostSheet.Proofs.Unwrapping
import HostSheet.Proofs.Waiting
import HostSheet.Proofs.Splicing
import HostSheet.Proofs.Exposure
import HostSheet.Proofs.Separation
import HostSheet.Proofs.Depth
import HostSheet.Proofs.Placing
import HostSheet.Proofs.Layering
import HostSheet.Proofs.Standing
import HostSheet.Proofs.Rereading
import HostSheet.Proofs.Reprinting
import HostSheet.Proofs.Acceptance
import HostSheet.Proofs.Regularity
import HostSheet.Proofs.Concatenation
import HostSheet.Proofs.Stability
import HostSheet.Proofs.Breaks
import HostSheet.Proofs.LastToken
import HostSheet.Proofs.Names
import HostSheet.Proofs.Closed
import HostSheet.Proofs.Scanning
import HostSheet.Proofs.Writing
import HostSheet.Proofs.Refusals
import HostSheet.Proofs.Positions
import HostSheet.Proofs.Finality
import HostSheet.Proofs.Exclusions
import HostSheet.Proofs.Effects
import HostSheet.Proofs.Arguments
import HostSheet.Proofs.Blocks
import HostSheet.Proofs.Precedence
import HostSheet.Proofs.FirstNames
import HostSheet.Proofs.Lines
import HostSheet.Proofs.Semicolons
import HostSheet.Proofs.Strings
import HostSheet.Proofs.Trailing
