import Keala.Lib.OrderedMap
import Keala.Lib.Backtrack
import Keala.Lib.Lts
import Keala.Router.TrieSpec
import Keala.Router.Router
import Keala.Router.Rebuild
import Keala.Router.StaticKey
import Keala.Router.Transaction
import Keala.Core.FallbackChains
import Keala.Core.Registration
import Keala.Core.UseAtomic
import Keala.Core.Compose
import Keala.Core.Onion
import Keala.Core.Admission
import Keala.Core.SinkGuard
import Keala.Core.TrustedHosts
import Keala.Plugins.CookieReplay
import Keala.Core.RedirectHost
import Keala.Core.Headers
import Keala.Core.Dispatch
import Keala.Core.DirectPath
import Keala.Core.Lifecycle
import Keala.Core.GateSlots
import Keala.Core.GateInvariant
import Keala.Core.GateSteps
import Keala.Core.GateArrivals
import Keala.Core.GateAccounting
import Keala.Core.InFlight
import Keala.Core.GateFrames
import Keala.Core.ServeInvariant
import Keala.Core.ServeSteps
import Keala.Core.ServeRuns
import Keala.Router.Overlap
import Keala.Core.Sink
import Keala.Core.TakeoverHeaders
import Keala.Core.ErrorResponse
import Keala.Core.Close
import Keala.Core.GracefulClose
import Keala.Core.PathSafety
import Keala.Lib.FixedWindow
import Keala.Middleware.RateLimit
import Keala.Middleware.RateLimitEviction
import Keala.Middleware.RateLimitWindows
import Keala.Http.Target
import Keala.Middleware.CacheBudget
import Keala.Middleware.CacheEviction
import Keala.Middleware.IpMembership
import Keala.Middleware.IpGrammar
import Keala.Js.ParseFloat
import Keala.Negotiation.Accepts
import Keala.Negotiation.BestMatch
import Keala.Js.WellFormed
import Keala.Router.Url
import Keala.Router.UrlRoundTrip
import Keala.Core.RedirectRoutes
import Keala.Router.TableMatch
import Keala.Router.TableCaptures
import Keala.Router.MatchReference
import Keala.Http.Conditional
import Keala.Js.Lower
import Keala.Lib.Memo
import Keala.Negotiation.Gzip
import Keala.Http.Query
import Keala.Http.QueryLookup
import Keala.Http.QueryScan
import Keala.Http.QueryPairs
import Keala.Http.QueryOrder
import Keala.Plugins.CookieRoundTrip
import Keala.Plugins.CookieOverwrite
import Keala.Js.NumberText
import Keala.Middleware.CsrfToken
import Keala.Middleware.CsrfBinding
import Keala.Negotiation.MediaType
import Keala.Negotiation.Reflexive
import Keala.Core.RouteScopes
import Keala.Core.MountScopes
import Keala.Core.MountRuns
import Keala.Core.StagedMerge
import Keala.Js.Rounding
import Keala.Middleware.StaticRange
import Keala.Plugins.BodyReaders
import Keala.Plugins.ReaderLimits
import Keala.Js.Json
import Keala.Middleware.JwtKeys
import Keala.Js.LastIndex
import Keala.Middleware.JwtVerify
import Keala.Middleware.JwtMemory
import Keala.Middleware.Cors
import Keala.Middleware.CorsVary
import Keala.Helpers.Sse
import Keala.Pooling.Context
import Keala.Pooling.ContextReset
import Keala.Pooling.ContextPool
import Keala.Pooling.ContextReuse
import Keala.Http.ReadableStream
import Keala.Http.Repump
import Keala.Http.RepumpFlow
import Keala.Http.RepumpRuns
import Keala.Plugins.FormHeader
import Keala.Plugins.FormParts
import Keala.Adapters.NodeResponse
import Keala.Core.LocationEncoding
import Keala.Http.TargetViews
import Keala.Adapters.NodeFraming
import Keala.Http.RepumpEnds
import Keala.Branches.PooledRequest
import Keala.Branches.Invariant
import Keala.Branches.PoolReturns
import Keala.Lib.SharedListener
import Keala.Adapters.NodeWire
import Keala.Adapters.WireAccounting
import Keala.Adapters.WireRuns
import Keala.Adapters.DrainBooks
import Keala.Adapters.GracefulStop
import Keala.Lib.Spaced
import Keala.Middleware.Jwks
import Keala.Middleware.JwksImport
import Keala.Middleware.JwksRuns
import Keala.Core.RoutedDispatch
import Keala.Core.MethodAnswers
import Keala.Helpers.StreamWriter
import Keala.Helpers.SseStream
import Keala.Adapters.NodeSource
import Keala.Adapters.OwnedRead
import Keala.Adapters.ReadEnds
import Keala.Core.SunkDirectory
import Keala.Middleware.Combine
import Keala.Adapters.BunStop
