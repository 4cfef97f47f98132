import Cassette.Main
import Cassette.Proofs.Accounting
import Cassette.Proofs.Agreement
import Cassette.Proofs.Appending
import Cassette.Proofs.Arranging
import Cassette.Proofs.Browsing
import Cassette.Proofs.Calling
import Cassette.Proofs.Choosing
import Cassette.Proofs.Configuring
import Cassette.Proofs.Cursor
import Cassette.Proofs.Cutting
import Cassette.Proofs.Driving
import Cassette.Proofs.Dubbing
import Cassette.Proofs.Duration
import Cassette.Proofs.Editing
import Cassette.Proofs.Ending
import Cassette.Proofs.Evidence
import Cassette.Proofs.Faltering
import Cassette.Proofs.Files
import Cassette.Proofs.Forgetting
import Cassette.Proofs.Framing
import Cassette.Proofs.Holding
import Cassette.Proofs.Inserting
import Cassette.Proofs.Layout
import Cassette.Proofs.Listing
import Cassette.Proofs.Looping
import Cassette.Proofs.Measured
import Cassette.Proofs.Naming
import Cassette.Proofs.Operating
import Cassette.Proofs.Playback
import Cassette.Proofs.Polarity
import Cassette.Proofs.Polling
import Cassette.Proofs.Progress
import Cassette.Proofs.Reinserting
import Cassette.Proofs.Relabelling
import Cassette.Proofs.Renaming
import Cassette.Proofs.Saving
import Cassette.Proofs.Scanning
import Cassette.Proofs.Slicing
import Cassette.Proofs.Spelling
import Cassette.Proofs.Splice
import Cassette.Proofs.Stalling
import Cassette.Proofs.Standstill
import Cassette.Proofs.Streaming
import Cassette.Proofs.Tolerance
import Cassette.Proofs.Unpacking
