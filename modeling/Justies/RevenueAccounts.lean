import Justies.Accounts

/-! # Remaining accounts of the revenue claims

`claimAuctionRevenue` and `claimRaffleRevenue` pass the listing's revenue receivers and their
token accounts for the listing's currency as remaining accounts, built by
`createRemainingAccountsForRevenueDistribution`. Its `forEach` throws where
`getAssociatedTokenAddressSync` does: on a receiver off the curve.
-/
namespace Justies.RevenueAccounts

variable (ata : AtaDerivation)

variable {ata}

end Justies.RevenueAccounts
