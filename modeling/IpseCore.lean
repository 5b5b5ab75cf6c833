import IpseCore.Library.Transition
import IpseCore.Library.MachineInt
import IpseCore.Library.Rounding
import IpseCore.Library.KeyedList
import IpseCore.Library.BoundedLog
import IpseCore.Library.Bytes
import IpseCore.Library.Slices
import IpseCore.Library.Scan
import IpseCore.Runtime.Primitives
import IpseCore.Arithmetic.PerThings
import IpseCore.Balances
import IpseCore.Balances.Moves
import IpseCore.Exchange.Model
import IpseCore.Exchange.Reports
import IpseCore.Exchange.Queue
import IpseCore.Exchange.Offchain
import IpseCore.PocStaking.Model
import IpseCore.PocStaking.Frame
import IpseCore.PocStaking.Funds
import IpseCore.PocStaking.Ledger
import IpseCore.PocStaking.Books
import IpseCore.PocStaking.Registry
import IpseCore.Poc.Model
import IpseCore.Poc.Reward
import IpseCore.Poc.Schedule
import IpseCore.Poc.Log
import IpseCore.Runtime.Mining
import IpseCore.Runtime.Cycles
import IpseCore.Ipse.Model
import IpseCore.Ipse.Orders
import IpseCore.Runtime.Difficulty
import IpseCore.Library.RankedList
import IpseCore.Runtime.Recommend
import IpseCore.Balances.Locks
import IpseCore.Poc.Histories
import IpseCore.Ipse.History
import IpseCore.Ipse.Prices
import IpseCore.Runtime.ActiveMiners
import IpseCore.Runtime.Adjustment
import IpseCore.Conjugate.Shabal
import IpseCore.Conjugate.Plot
import IpseCore.PocStaking.Locks
import IpseCore.Runtime.Storage
import IpseCore.Runtime.Issuance
