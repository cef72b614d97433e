import Justies.Pda
import Justies.IndexRun
import Justies.RevenueAccounts

/-! # The instructions the client sends

Each transaction runner of `JustiesProgramClient` builds one instruction: the object it hands
to `.accounts(...)`, role by role, and its remaining accounts. An account is named by how the
client derives it. `address` is the PDA a getter call returns: the hash is not modelled, so
it is a parameter. The instruction arguments (amounts, durations, configs) are left out.
-/
namespace Justies.Instructions

open Justies.Pda Justies.IndexRun Justies.RevenueAccounts

section Runners

variable (address : PdaCall → PublicKey) (providerAddress : PublicKey)

end Runners

section Calls

variable (address : PdaCall → PublicKey) (ata : AtaDerivation) (providerAddress : PublicKey)

end Calls

end Justies.Instructions
