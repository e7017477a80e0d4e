import Qpack.Proofs.Encoder.Capacity
import Qpack.Proofs.Encoder.Commute
import Qpack.Proofs.Encoder.Handler
import Qpack.Proofs.Encoder.Never
import Qpack.Proofs.Encoder.Records
import Qpack.Proofs.Encoder.Refusal
import Qpack.Proofs.Encoder.Tableless
import Qpack.Proofs.Encoder.Zone
import Qpack.Proofs.Peer.Confinement
import Qpack.Proofs.Peer.Delay
import Qpack.Proofs.Peer.Exchange
import Qpack.Proofs.Peer.Lag
import Qpack.Proofs.Sent.History
import Qpack.Proofs.Wire.Integer.Forms
import Qpack.Settings.Text
