import NemoSwap.Lib.LogApprox
import NemoSwap.Lib.OutsideGrowth
import NemoSwap.Lib.Radix
import NemoSwap.Lib.Ranges
import NemoSwap.Math.NextPrice
import NemoSwap.Math.SwapLaws
import NemoSwap.Math.U256Ops
import NemoSwap.Manager.LiquidityManager
import NemoSwap.Manager.SwapTermination
import NemoSwap.Manager.SwapTrace
import NemoSwap.Pool.Bookkeeping
import NemoSwap.Pool.Commute
import NemoSwap.Pool.Growth
import NemoSwap.Pool.Invariant
import NemoSwap.Pool.OutOfRange
import NemoSwap.Pool.Solvency
import NemoSwap.Pool.Splitting
import NemoSwap.Pool.Trading
import NemoSwap.Program.FeeTiers
import NemoSwap.Program.Frozen
import NemoSwap.Program.Rewards
import NemoSwap.Program.TwoHop
import NemoSwap.Sdk.CollectQuotes
import NemoSwap.Sdk.DecreaseLiquidityQuote
import NemoSwap.Sdk.PoolUtil
import NemoSwap.Sdk.TwoHopQuote
import NemoSwap.Util.TickTiling
