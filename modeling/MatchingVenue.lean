import MatchingVenue.Market.Midpoint
import MatchingVenue.Engine.Collisions
import MatchingVenue.Ledger.Conservation
import MatchingVenue.Ledger.Standing
import MatchingVenue.Terminal.Blotter
import MatchingVenue.Gateway.OrderGateway
import MatchingVenue.Gateway.FixFrameDecoder
import MatchingVenue.Gateway.Decoding
import MatchingVenue.Net.RoundTrip
import MatchingVenue.Engine.Totals
import MatchingVenue.Engine.Mirror
import MatchingVenue.Terminal.Streams
import MatchingVenue.Terminal.Depth
import MatchingVenue.Ledger.TradeLog
import MatchingVenue.Terminal.Session
import MatchingVenue.Gateway.Scanning
import MatchingVenue.Gateway.Reuse
import MatchingVenue.Net.FieldOrder
import MatchingVenue.Gateway.Recovery
import MatchingVenue.Terminal.OrderEntry
import MatchingVenue.Ledger.Status
import MatchingVenue.Market.Protection
import MatchingVenue.Publisher.SnapshotOnConnect
import MatchingVenue.Engine.Cancellation
import MatchingVenue.Engine.Progress
import MatchingVenue.Engine.QueueOrder
import MatchingVenue.Library.Pairing
import MatchingVenue.Engine.PoolCross
import MatchingVenue.Engine.TimeInForce
import MatchingVenue.Library.Bites
import MatchingVenue.Engine.Splitting
import MatchingVenue.Market.PegImprovement
import MatchingVenue.Terminal.PriceSeries
import MatchingVenue.Net.WebSocketFrameHandler
import MatchingVenue.Gateway.Checksum
import MatchingVenue.Terminal.Affordances
import MatchingVenue.Terminal.DepthCurve
import MatchingVenue.Pipeline.Delivery
import MatchingVenue.Pipeline.Shutdown
import MatchingVenue.Pipeline.Stamps
import MatchingVenue.Terminal.Connection
import MatchingVenue.Terminal.Inspector
import MatchingVenue.Terminal.OwnCancels
import MatchingVenue.Terminal.App
import MatchingVenue.Publisher.ExecFeed
import MatchingVenue.Market.Prints
import MatchingVenue.Terminal.Header
import MatchingVenue.Terminal.DepthLadder
import MatchingVenue.Terminal.Restamping
import MatchingVenue.Pipeline.Legible
import MatchingVenue.Pipeline.Settled
import MatchingVenue.Terminal.TradeTape
import MatchingVenue.Publisher.FeedProgress
import MatchingVenue.Pipeline.Screens
import MatchingVenue.Library.Rounding
import MatchingVenue.Terminal.NumberText
