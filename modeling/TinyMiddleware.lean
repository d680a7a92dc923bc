import TinyMiddleware.Lib.Runs
import TinyMiddleware.Lib.Fairness
import TinyMiddleware.Lib.Family
import TinyMiddleware.Lib.Ledger
import TinyMiddleware.Core.ThreadPool
import TinyMiddleware.Core.ThreadPoolControl
import TinyMiddleware.Core.ThreadPoolAccounting
import TinyMiddleware.Core.ThreadPoolShutdown
import TinyMiddleware.Core.ThreadPoolWakeup
import TinyMiddleware.Core.EventLoop
import TinyMiddleware.Core.ParamClient
import TinyMiddleware.Node.Api
import TinyMiddleware.Core.EventLoopStop
import TinyMiddleware.Node.Subscriptions
import TinyMiddleware.Node.Topics
import TinyMiddleware.Node.Bridge
import TinyMiddleware.Node.BridgeWiring
import TinyMiddleware.Node.BridgeDelivery
import TinyMiddleware.Node.BridgeOrder
import TinyMiddleware.Node.Teardown
import TinyMiddleware.Node.WallTimer
import TinyMiddleware.Core.AddEvent
import TinyMiddleware.Core.EventLoopDispatch
import TinyMiddleware.Node.Publish
import TinyMiddleware.Lib.Latch
import TinyMiddleware.Node.BridgeTicks
import TinyMiddleware.Lib.Gaps
import TinyMiddleware.Playground.PerfSub
import TinyMiddleware.Lib.Accounts
import TinyMiddleware.Node.Resources
import TinyMiddleware.Lib.LeadsTo
import TinyMiddleware.Core.ThreadPoolLiveness
import TinyMiddleware.Node.BridgeLiveness
import TinyMiddleware.Core.ParamServerOrder
import TinyMiddleware.Node.BridgeService
import TinyMiddleware.Node.BridgeClock
import TinyMiddleware.Node.BridgeSamples
import TinyMiddleware.Node.BridgeAlike
import TinyMiddleware.Node.Domain
import TinyMiddleware.Node.DomainDelivery
import TinyMiddleware.Node.DomainLiveness
import TinyMiddleware.Generated.PublisherAppStop
import TinyMiddleware.Generated.SubscriberApp
