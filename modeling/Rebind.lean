import Rebind.Main
import Rebind.Proofs.Grammar
import Rebind.Proofs.Nesting
import Rebind.Proofs.Cut
import Rebind.Proofs.Blocks
import Rebind.Proofs.Spans
import Rebind.Proofs.Readings
import Rebind.Proofs.Accepted
import Rebind.Proofs.Matches
import Rebind.Proofs.Replacement
import Rebind.Proofs.Codec
import Rebind.Proofs.Outcomes
import Rebind.Proofs.Layout
import Rebind.Proofs.Reach
import Rebind.Proofs.Steps
import Rebind.Proofs.Runs
import Rebind.Proofs.History
import Rebind.Proofs.DryRun
import Rebind.Proofs.Edits
import Rebind.Proofs.Tokens
import Rebind.Proofs.Groups
import Rebind.Proofs.Entries
import Rebind.Proofs.Walks
import Rebind.Proofs.Sources
import Rebind.Proofs.Found
import Rebind.Proofs.Ways
import Rebind.Proofs.Specifiers
import Rebind.Proofs.LineBreaks
import Rebind.Proofs.Markers
import Rebind.Proofs.Meaning
import Rebind.Proofs.Removed
import Rebind.Proofs.Legible
import Rebind.Proofs.Standalone
import Rebind.Proofs.Confined
import Rebind.Proofs.Inside
import Rebind.Proofs.LogFile
import Rebind.Proofs.Effects
import Rebind.Proofs.RoundTrip
import Rebind.Proofs.Surrounded
import Rebind.Proofs.RelativeSpecifiers
import Rebind.Proofs.Overlaps
import Rebind.Proofs.Verbosity
import Rebind.Proofs.Endings
