import Kascov.Undo.Restored
import Kascov.Summary.Current
import Kascov.Feed.LiveFilter
import Kascov.History.Backfill
import Kascov.Ledger.Refines
import Kascov.Market.Window
import Kascov.Market.Quote
import Kascov.Pages.Complete
import Kascov.Token.Soundness
import Kascov.Orders.Current
import Kascov.Sync.Wedged
import Kascov.Sync.GapHonest
import Kascov.Market.Replay
import Kascov.Market.Numbers
import Kascov.Sync.Kept
import Kascov.Feed.Surfaced
import Kascov.Repair.Bookkeeping
import Kascov.Token.Verdict
import Kascov.Web.Disasm
import Kascov.Market.PushAgree
import Kascov.Kcc1.Invocation
import Kascov.Kcc1.Recognize
import Kascov.Decode.Observed
import Kascov.Web.Generator
import Kascov.Argent.Decoder
import Kascov.Market.NoExtraction
import Kascov.Web.Rail
import Kascov.Web.ReadBack
import Kascov.Web.Reconciled
import Kascov.Preflight.Ready
import Kascov.Sim.Faithful
import Kascov.History.TxIndex
import Kascov.History.TxIndexed
import Kascov.Listed.Registry
import Kascov.Listed.Witness
import Kascov.Market.Benched
import Kascov.Token.Fixpoint
import Kascov.Vesting.Walked
import Kascov.Summary.Templates
import Kascov.Web.Hashed
import Kascov.Passport.Published
import Kascov.Labkit.Receive
import Kascov.Sync.Convergence
import Kascov.Sync.Published
import Kascov.Feed.StreamLaw
import Kascov.Feed.StreamResume
import Kascov.Summary.Families
import Kascov.Writer.Handshake
import Kascov.Hooks.Standing
import Kascov.Web.GridLaw
import Kascov.Feed.Wire
import Kascov.Feed.WireLaw
import Kascov.Market.Candles
import Kascov.Argent.Client
