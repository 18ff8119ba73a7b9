import Echofront.BreakerRef
import Echofront.HashRing.Distinct
import Echofront.Http.Accepted
import Echofront.Pool.Classes
import Echofront.Pool.Counters
import Echofront.Pool.HalfOpen
import Echofront.Pool.Latency
import Echofront.Pool.LeastConn
import Echofront.Pool.Load
import Echofront.Pool.Order
import Echofront.Pool.Outlier
import Echofront.Pool.Probes
import Echofront.Pool.Ramp
import Echofront.Pool.Recovery
import Echofront.Pool.Repoll
import Echofront.Pool.SmallPool
import Echofront.Pool.Sticky
import Echofront.Pool.Sustained
import Echofront.Pool.Uniform
import Echofront.Pool.WeightedI64
import Echofront.Proxy.Affinity
import Echofront.Proxy.Contract
import Echofront.Proxy.Failover
import Echofront.Proxy.Isolation
import Echofront.Proxy.Latency
import Echofront.Proxy.LeastConn
import Echofront.Proxy.Ledger
import Echofront.Proxy.Mock
import Echofront.Proxy.Order
import Echofront.Proxy.Outage
import Echofront.Proxy.Recovery
import Echofront.Proxy.Retries
import Echofront.Proxy.RoundRobin
import Echofront.Proxy.Session
import Echofront.Proxy.Weighted
import Echofront.Proxy.Clean
import Echofront.Proxy.Flaps
import Echofront.Retry.Bucket
import Echofront.Rng
import Echofront.Router.LongestPrefix
