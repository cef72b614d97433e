import Justies.Accounts
import Justies.PageIndex
import Justies.IndexedKeys
import Justies.IndexRun
import Justies.Pda
import Justies.RevenueAccounts
import Justies.Instructions
import Justies.DevEnvironment
import Justies.JsNumbers
