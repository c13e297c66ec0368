import YetiPgExt.Dns.Draw
import YetiPgExt.Dns.Order
import YetiPgExt.Dns.Proportion
import YetiPgExt.Dns.Ranking
import YetiPgExt.Dns.SortSrv
import YetiPgExt.Library.Bytes
import YetiPgExt.Library.CString
import YetiPgExt.Library.Credit
import YetiPgExt.Library.Decimal
import YetiPgExt.Library.Distinct
import YetiPgExt.Library.Exchange
import YetiPgExt.Library.Independent
import YetiPgExt.Library.LiveStores
import YetiPgExt.Library.Memory
import YetiPgExt.Library.Runs
import YetiPgExt.Library.Segments
import YetiPgExt.Library.Split
import YetiPgExt.Library.Stores
import YetiPgExt.Library.WordPieces
import YetiPgExt.Lnp.Backend
import YetiPgExt.Lnp.BackendParts
import YetiPgExt.Lnp.BackendSessions
import YetiPgExt.Lnp.Cache
import YetiPgExt.Lnp.CacheTable
import YetiPgExt.Lnp.Configuration
import YetiPgExt.Lnp.DatabaseId
import YetiPgExt.Lnp.EndToEnd
import YetiPgExt.Lnp.EndpointTexts
import YetiPgExt.Lnp.Endpoints
import YetiPgExt.Lnp.ErrorAgreement
import YetiPgExt.Lnp.Failover
import YetiPgExt.Lnp.Foreign
import YetiPgExt.Lnp.Layout
import YetiPgExt.Lnp.Message
import YetiPgExt.Lnp.Ownership
import YetiPgExt.Lnp.ParseReply
import YetiPgExt.Lnp.Reachable
import YetiPgExt.Lnp.ReceiveBounds
import YetiPgExt.Lnp.RemoteError
import YetiPgExt.Lnp.ReplyBounds
import YetiPgExt.Lnp.RequestIds
import YetiPgExt.Lnp.RequestWire
import YetiPgExt.Lnp.Resolve
import YetiPgExt.Lnp.ResolveRow
import YetiPgExt.Lnp.ResolveSteps
import YetiPgExt.Lnp.RoundRobin
import YetiPgExt.Lnp.Schedule
import YetiPgExt.Lnp.UriFields
import YetiPgExt.Regexp.ArrayAgreement
import YetiPgExt.Regexp.ArrayNoopt
import YetiPgExt.Regexp.CallFrame
import YetiPgExt.Regexp.ChunkRun
import YetiPgExt.Regexp.DanglingSlots
import YetiPgExt.Regexp.EmptyRule
import YetiPgExt.Regexp.FindAll
import YetiPgExt.Regexp.FirstMatch
import YetiPgExt.Regexp.Noopt
import YetiPgExt.Regexp.Pairs
import YetiPgExt.Regexp.Placeholders
import YetiPgExt.Regexp.PointerArray
import YetiPgExt.Regexp.PointerSearch
import YetiPgExt.Regexp.ReplaceOutput
import YetiPgExt.Regexp.ReplaceRand
import YetiPgExt.Regexp.ReplaceRandOption
import YetiPgExt.Regexp.ScanSpans
import YetiPgExt.Regexp.Segmentation
import YetiPgExt.Regexp.SplitToken
import YetiPgExt.Regexp.Storage
import YetiPgExt.Regexp.VariablePairs
import YetiPgExt.Tags.Action
import YetiPgExt.Tags.ActionBounds
import YetiPgExt.Tags.Compare
import YetiPgExt.Tags.Pipeline
import YetiPgExt.Tags.ValueSet
import YetiPgExt.Tbf.Admission
import YetiPgExt.Tbf.Concurrent
import YetiPgExt.Tbf.Key
import YetiPgExt.Tbf.OneBucket
import YetiPgExt.Tbf.RateBound
import YetiPgExt.Tbf.RateCheck
import YetiPgExt.Tbf.TokenLoss
import YetiPgExt.Tbf.TokenRange
