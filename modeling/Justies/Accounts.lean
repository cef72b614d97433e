import Mathlib.Data.List.Forall2

/-! # Accounts the client reads

The fields of the program's accounts that the modelled client functions read, and the
`AccountMeta` entries they build. Other fields of these accounts are left out.
-/
namespace Justies

/-- A `PublicKey`, as the 32 bytes `toBytes()` returns. -/
structure PublicKey where
  bytes : List UInt8
  length_bytes : bytes.length = 32
  deriving DecidableEq

/-- `IdlTypes<Justies>["RevenueShareConfig"]`; the client reads only the receiver. -/
structure RevenueShareConfig where
  revenueReceiver : PublicKey
  deriving DecidableEq

structure GlobalStates where
  totalAllowedCurrencyTokens : Nat
  totalAllowedNftCollections : Nat
  numKeysPerIndexPage : Nat
  totalAuctions : Nat
  totalRaffles : Nat
  feeTreasuryAddress : PublicKey

structure Auction where
  creator : PublicKey
  nftMintAddress : PublicKey
  currencyTokenMintAddress : PublicKey
  topBidder : PublicKey
  totalBids : Nat
  revenueShares : List RevenueShareConfig

structure Raffle where
  creator : PublicKey
  nftMintAddress : PublicKey
  currencyTokenMintAddress : PublicKey
  numTicketPositions : Nat
  revenueShares : List RevenueShareConfig

theorem mapM_eq_some_iff {α β : Type} {f : α → Option β} : ∀ {l : List α} {l' : List β},
    l.mapM f = some l' ↔ List.Forall₂ (fun a b => f a = some b) l l'
  | [], l' => by rw [List.mapM_nil, List.forall₂_nil_left_iff]; simp [eq_comm]
  | a :: l, l' => by
    rw [List.mapM_cons, List.forall₂_cons_left_iff]
    simp only [Option.bind_eq_bind, Option.bind_eq_some, Option.pure_def, Option.some.injEq,
      mapM_eq_some_iff]
    constructor
    · rintro ⟨b, hb, bs, hbs, rfl⟩; exact ⟨b, bs, hb, hbs, rfl⟩
    · rintro ⟨b, bs, hb, hbs, rfl⟩; exact ⟨b, hb, bs, hbs, rfl⟩

theorem mapM_eq_none_of_mem {α β : Type} {f : α → Option β} {x : α} (hf : f x = none) :
    ∀ {l : List α}, x ∈ l → l.mapM f = none
  | y :: l, hx => by
    rw [List.mapM_cons]
    rcases List.mem_cons.mp hx with rfl | hx
    · rw [hf]; rfl
    · rw [mapM_eq_none_of_mem hf hx]; cases f y <;> rfl

theorem mapM_isSome {α β : Type} {f : α → Option β} :
    ∀ {l : List α}, (∀ x ∈ l, (f x).isSome) → (l.mapM f).isSome
  | [], _ => rfl
  | x :: l, h => by
    obtain ⟨b, hb⟩ := Option.isSome_iff_exists.mp (h x (List.mem_cons_self x l))
    obtain ⟨bs, hbs⟩ := Option.isSome_iff_exists.mp
      (mapM_isSome fun y hy => h y (List.mem_cons_of_mem x hy))
    rw [List.mapM_cons, hb, hbs]
    rfl

end Justies
