import Elle.Sets.Run
import Elle.Reader.RoundTrip
import Elle.Tiers.Agree
import Elle.Repr.TableKey
import Elle.Value.Template
import Elle.Match.Redundancy
import Elle.Region.Client
import Elle.Framing.Calls
import Elle.Gun.Converge
import Elle.Hpack.Connection
import Elle.Http2.Channel
import Elle.Http2.Settings
import Elle.Http2.Window
import Elle.Json.RoundTrip
import Elle.Wasm.Apart
import Elle.Process.ExitLaw
import Elle.Process.MailLaw
import Elle.Process.Naming
import Elle.Match.Picked
import Elle.Lir.Builder
import Elle.Region.Ledger
import Elle.Region.MintScope
import Elle.Region.Spare
import Elle.Region.PageWalk
import Elle.Syntax.Quasiquote
import Elle.Formatter.Render
import Elle.Hir.Environment
import Elle.Hir.Ascent
import Elle.Epoch.Renames
import Elle.Sync.Once
import Elle.Sync.Gates
