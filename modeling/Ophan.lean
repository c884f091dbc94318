import Ophan.Http.NormalizePath
import Ophan.Waf.Totality
import Ophan.Waf.Scores
import Ophan.Waf.Precedence
import Ophan.Limiter.Bounded
import Ophan.Limiter.Concurrent
import Ophan.Cache.Capacity
import Ophan.Cache.Recording
import Ophan.Client.Execute
import Ophan.Static.Conditional
import Ophan.Static.Filesystem
import Ophan.Static.Path
import Ophan.Auth.Replay
import Ophan.Auth.Middleware
import Ophan.Auth.KeySets
import Ophan.Gateway.Pipeline
import Ophan.Rewrite.Shortcuts
import Ophan.State.Health
import Ophan.Config.Gateways
import Ophan.Config.Limiter
import Ophan.Config.Sizes
import Ophan.Sys.Release
import Ophan.Glob.Correctness
