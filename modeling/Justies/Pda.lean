import Mathlib.Tactic.DeriveFintype
import Justies.Accounts

/-! # PDA seeds

`findPda` turns each argument into a seed and hands the seeds to
`PublicKey.findProgramAddressSync`, which hashes their concatenation, a bump byte, the
program id and `"ProgramDerivedAddress"`. The hash is not modelled. The getters' seed
layouts are compared instead: a layout fixes the bytes of the string literals and leaves a
hole of fixed width for each argument.
-/
namespace Justies.Pda

/-- `anchor.utils.bytes.utf8.encode`. -/
def utf8 (s : String) : List UInt8 := s.toUTF8.data.toList

def leBytes : Nat → Nat → List UInt8
  | 0, _ => []
  | len + 1, value => UInt8.ofNat (value % 256) :: leBytes len (value / 256)

/-- `BN.toBuffer("le", len)`, which throws when `value` needs more than `len` bytes. -/
def toBufferLE (value len : Nat) : Option (List UInt8) :=
  if value < 256 ^ len then some (leBytes len value) else none

/-- An argument of `findPda`, by the branch of its loop that takes it. -/
inductive Seed where
  | publicKey (key : PublicKey)
  | bn (value : Nat)
  /-- `new BN(pageId)` of a page id, a number: `BN` asserts it is below `2 ^ 53`. -/
  | bnOfNumber (value : Nat)
  | str (s : String)
  | number (value : Nat)

/-- The seed `findPda` pushes for one argument; `none` is a throw. -/
def Seed.toBuffer : Seed → Option (List UInt8)
  | .publicKey key => some key.bytes
  | .bn value => toBufferLE value 8
  | .bnOfNumber value => if value < 2 ^ 53 then toBufferLE value 8 else none
  | .str s => some (utf8 s)
  | .number value => toBufferLE value 4

def findPdaSeeds (args : List Seed) : Option (List (List UInt8)) := args.mapM Seed.toBuffer

/-- The bytes `createProgramAddressSync` hashes for the seeds `seedBytes`, concatenated,
and the bump `bump`. -/
def pdaPreimage (seedBytes : List UInt8) (bump : UInt8) (programId : PublicKey) : List UInt8 :=
  seedBytes ++ [bump] ++ programId.bytes ++ utf8 "ProgramDerivedAddress"

/-! ## The getters of `JustiesProgramClient`, by the arguments they pass to `findPda` -/

def findPdaGlobalStates : List Seed := [.str "global_states"]

def findPdaTokenAllowlistStates (tokenMintAddress : PublicKey) : List Seed :=
  [.str "token_allowlist_states", .publicKey tokenMintAddress]

def findPdaTokenAllowlistIndex (pageId : Nat) : List Seed :=
  [.str "token_allowlist_index", .bnOfNumber pageId]

def findPdaNftAllowlistStates (collectionMintAddress : PublicKey) : List Seed :=
  [.str "nft_allowlist_states", .publicKey collectionMintAddress]

def findPdaNftAllowlistIndex (pageId : Nat) : List Seed :=
  [.str "nft_allowlist_index", .bnOfNumber pageId]

def findPdaAuction (id : Nat) : List Seed := [.str "auction", .bn id]

def findPdaLotEscrow (auctionAddress : PublicKey) : List Seed :=
  [.str "auction", .publicKey auctionAddress, .str "lot_escrow"]

def findPdaAuctionBid (auctionAddress bidderAddress : PublicKey) : List Seed :=
  [.str "auction", .publicKey auctionAddress, .str "bid", .publicKey bidderAddress]

def findPdaBidsIndexPage (auctionAddress : PublicKey) (pageId : Nat) : List Seed :=
  [.str "auction", .publicKey auctionAddress, .str "bid_index", .bnOfNumber pageId]

def findPdaBidEscrow (auctionAddress bidderAddress : PublicKey) : List Seed :=
  [.str "auction", .publicKey auctionAddress, .str "bid", .publicKey bidderAddress,
    .str "escrow"]

def findPdaRaffle (id : Nat) : List Seed := [.str "raffle", .bn id]

def findPdaRaffleRewardsEscrow (raffleAddress : PublicKey) : List Seed :=
  [.str "raffle", .publicKey raffleAddress, .str "rewards_escrow"]

def findPdaRaffleRevenueEscrow (raffleAddress : PublicKey) : List Seed :=
  [.str "raffle", .publicKey raffleAddress, .str "revenue_escrow"]

def findPdaRaffleTicketPosition (raffleAddress buyerAddress : PublicKey) : List Seed :=
  [.str "raffle", .publicKey raffleAddress, .str "ticket_position", .publicKey buyerAddress]

def findPdaRaffleTicketPositionStats (raffleAddress : PublicKey) : List Seed :=
  [.str "raffle", .publicKey raffleAddress, .str "ticket_position_stats"]

def findPdaRaffleTicketPositionIndex (raffleAddress : PublicKey) (pageId : Nat) : List Seed :=
  [.str "raffle", .publicKey raffleAddress, .str "ticket_position_index", .bnOfNumber pageId]

inductive PdaCall where
  | globalStates
  | tokenAllowlistStates (tokenMintAddress : PublicKey)
  | tokenAllowlistIndex (pageId : Nat)
  | nftAllowlistStates (collectionMintAddress : PublicKey)
  | nftAllowlistIndex (pageId : Nat)
  | auction (id : Nat)
  | lotEscrow (auctionAddress : PublicKey)
  | auctionBid (auctionAddress bidderAddress : PublicKey)
  | bidsIndexPage (auctionAddress : PublicKey) (pageId : Nat)
  | bidEscrow (auctionAddress bidderAddress : PublicKey)
  | raffle (id : Nat)
  | raffleRewardsEscrow (raffleAddress : PublicKey)
  | raffleRevenueEscrow (raffleAddress : PublicKey)
  | raffleTicketPosition (raffleAddress buyerAddress : PublicKey)
  | raffleTicketPositionStats (raffleAddress : PublicKey)
  | raffleTicketPositionIndex (raffleAddress : PublicKey) (pageId : Nat)
  deriving DecidableEq

def PdaCall.seeds : PdaCall → List Seed
  | .globalStates => findPdaGlobalStates
  | .tokenAllowlistStates k => findPdaTokenAllowlistStates k
  | .tokenAllowlistIndex p => findPdaTokenAllowlistIndex p
  | .nftAllowlistStates k => findPdaNftAllowlistStates k
  | .nftAllowlistIndex p => findPdaNftAllowlistIndex p
  | .auction id => findPdaAuction id
  | .lotEscrow a => findPdaLotEscrow a
  | .auctionBid a b => findPdaAuctionBid a b
  | .bidsIndexPage a p => findPdaBidsIndexPage a p
  | .bidEscrow a b => findPdaBidEscrow a b
  | .raffle id => findPdaRaffle id
  | .raffleRewardsEscrow r => findPdaRaffleRewardsEscrow r
  | .raffleRevenueEscrow r => findPdaRaffleRevenueEscrow r
  | .raffleTicketPosition r b => findPdaRaffleTicketPosition r b
  | .raffleTicketPositionStats r => findPdaRaffleTicketPositionStats r
  | .raffleTicketPositionIndex r p => findPdaRaffleTicketPositionIndex r p

/-- The seed bytes of a call, concatenated; `none` when `findPda` throws. -/
def PdaCall.seedBytes (c : PdaCall) : Option (List UInt8) :=
  (findPdaSeeds c.seeds).map List.flatten

def Seed.inRange : Seed → Bool
  | .bn value => value < 2 ^ 64
  | .bnOfNumber value => value < 2 ^ 53
  | .number value => value < 2 ^ 32
  | _ => true

/-- Every id of the call is below `2 ^ 64` and every page id below `2 ^ 53`. -/
def PdaCall.InRange (c : PdaCall) : Prop := ∀ s ∈ c.seeds, s.inRange = true

instance (c : PdaCall) : Decidable c.InRange :=
  inferInstanceAs (Decidable (∀ s ∈ c.seeds, s.inRange = true))

/-! ## Seed layouts -/

/-- What the bytes of a seed are fixed to without looking at its argument. -/
inductive SeedShape where
  | lit (s : String)
  | key
  | u64
  | u32
  deriving DecidableEq

def Seed.shape : Seed → SeedShape
  | .publicKey _ => .key
  | .bn _ => .u64
  | .bnOfNumber _ => .u64
  | .str s => .lit s
  | .number _ => .u32

/-- Per byte: the byte a string literal fixes, or `none` inside an argument's hole. -/
def SeedShape.layout : SeedShape → List (Option UInt8)
  | .lit s => (utf8 s).map some
  | .key => List.replicate 32 none
  | .u64 => List.replicate 8 none
  | .u32 => List.replicate 4 none

def Seed.arg : Seed → Option (PublicKey ⊕ Nat)
  | .publicKey key => some (.inl key)
  | .bn value => some (.inr value)
  | .bnOfNumber value => some (.inr value)
  | .str _ => none
  | .number value => some (.inr value)

/-- `bytes` agrees with every byte `layout` fixes, and is as long. -/
def Fits (layout : List (Option UInt8)) (bytes : List UInt8) : Prop :=
  List.Forall₂ (fun o b => ∀ x, o = some x → x = b) layout bytes

/-- No byte string fits both layouts: they differ in length or fix a position differently. -/
def Disagree : List (Option UInt8) → List (Option UInt8) → Bool
  | [], [] => false
  | [], _ :: _ => true
  | _ :: _, [] => true
  | some a :: l₁, some b :: l₂ => a != b || Disagree l₁ l₂
  | _ :: l₁, _ :: l₂ => Disagree l₁ l₂

theorem Fits.disagree_eq_false {l₁ l₂ : List (Option UInt8)} {bytes : List UInt8}
    (h₁ : Fits l₁ bytes) (h₂ : Fits l₂ bytes) : Disagree l₁ l₂ = false := by
  induction h₁ generalizing l₂ with
  | nil => cases h₂; rfl
  | @cons o b l bs ho _ ih =>
    obtain ⟨o', l', ho', hrest, rfl⟩ : ∃ o' l', (∀ x, o' = some x → x = b) ∧ Fits l' bs ∧
        l₂ = o' :: l' := by
      cases h₂; exact ⟨_, _, ‹_›, ‹_›, rfl⟩
    rcases o with _ | a <;> rcases o' with _ | a'
    · exact ih hrest
    · exact ih hrest
    · exact ih hrest
    · obtain rfl := ho a rfl
      obtain rfl := ho' a' rfl
      simp [Disagree, ih hrest]

theorem fits_replicate_none {bytes : List UInt8} :
    ∀ {n : Nat}, bytes.length = n → Fits (List.replicate n none) bytes := by
  induction bytes with
  | nil => rintro _ rfl; exact .nil
  | cons b bytes ih => rintro _ rfl; exact .cons (fun _ h => by cases h) (ih rfl)

theorem fits_map_some (bytes : List UInt8) : Fits (bytes.map some) bytes := by
  induction bytes with
  | nil => exact .nil
  | cons b bytes ih => exact .cons (fun _ h => (Option.some.inj h).symm) ih

@[simp] theorem length_leBytes : ∀ (len value : Nat), (leBytes len value).length = len
  | 0, _ => rfl
  | len + 1, value => by simp [leBytes, length_leBytes len]

theorem toBufferLE_eq_some {value len : Nat} {bytes : List UInt8}
    (h : toBufferLE value len = some bytes) : value < 256 ^ len ∧ leBytes len value = bytes := by
  unfold toBufferLE at h
  split at h
  · exact ⟨‹_›, Option.some.inj h⟩
  · cases h

theorem leBytes_injective : ∀ {len v w : Nat}, v < 256 ^ len → w < 256 ^ len →
    leBytes len v = leBytes len w → v = w
  | 0, v, w, hv, hw, _ => by simp at hv hw; omega
  | len + 1, v, w, hv, hw, h => by
    simp only [leBytes, List.cons.injEq] at h
    have hmod := congrArg UInt8.toNat h.1
    rw [UInt8.toNat_ofNat_of_lt (by simp [UInt8.size]; omega),
      UInt8.toNat_ofNat_of_lt (by simp [UInt8.size]; omega)] at hmod
    rw [Nat.pow_succ] at hv hw
    have hdiv := leBytes_injective ((Nat.div_lt_iff_lt_mul (by omega)).mpr hv)
      ((Nat.div_lt_iff_lt_mul (by omega)).mpr hw) h.2
    omega

theorem Seed.toBufferLE_of_bnOfNumber {value : Nat} {bytes : List UInt8}
    (h : (Seed.bnOfNumber value).toBuffer = some bytes) : toBufferLE value 8 = some bytes := by
  rw [Seed.toBuffer] at h
  split_ifs at h
  exact h

theorem Seed.fits_toBuffer {s : Seed} {bytes : List UInt8} (h : s.toBuffer = some bytes) :
    Fits s.shape.layout bytes := by
  cases s with
  | publicKey key =>
    cases h; exact fits_replicate_none key.length_bytes
  | bn value =>
    obtain ⟨-, rfl⟩ := toBufferLE_eq_some h; exact fits_replicate_none (length_leBytes _ _)
  | bnOfNumber value =>
    obtain ⟨-, rfl⟩ := toBufferLE_eq_some (Seed.toBufferLE_of_bnOfNumber h)
    exact fits_replicate_none (length_leBytes _ _)
  | str s => cases h; exact fits_map_some _
  | number value =>
    obtain ⟨-, rfl⟩ := toBufferLE_eq_some h; exact fits_replicate_none (length_leBytes _ _)

theorem fits_findPdaSeeds : ∀ {args : List Seed} {seeds : List (List UInt8)},
    findPdaSeeds args = some seeds →
      Fits ((args.map Seed.shape).flatMap SeedShape.layout) seeds.flatten
  | [], seeds, h => by
    cases (mapM_eq_some_iff.mp h); exact .nil
  | a :: args, seeds, h => by
    obtain ⟨b, bs, ha, hargs, rfl⟩ : ∃ b bs, a.toBuffer = some b ∧ findPdaSeeds args = some bs ∧
        seeds = b :: bs := by
      cases (mapM_eq_some_iff.mp h) with
      | cons hb hbs => exact ⟨_, _, hb, mapM_eq_some_iff.mpr hbs, rfl⟩
    exact List.rel_append (Seed.fits_toBuffer ha) (fits_findPdaSeeds hargs)

/-! ## Distinct calls, distinct seeds -/

inductive PdaGetter where
  | globalStates | tokenAllowlistStates | tokenAllowlistIndex | nftAllowlistStates
  | nftAllowlistIndex | auction | lotEscrow | auctionBid | bidsIndexPage | bidEscrow | raffle
  | raffleRewardsEscrow | raffleRevenueEscrow | raffleTicketPosition | raffleTicketPositionStats
  | raffleTicketPositionIndex
  deriving DecidableEq, Fintype

def PdaGetter.shapes : PdaGetter → List SeedShape
  | .globalStates => [.lit "global_states"]
  | .tokenAllowlistStates => [.lit "token_allowlist_states", .key]
  | .tokenAllowlistIndex => [.lit "token_allowlist_index", .u64]
  | .nftAllowlistStates => [.lit "nft_allowlist_states", .key]
  | .nftAllowlistIndex => [.lit "nft_allowlist_index", .u64]
  | .auction => [.lit "auction", .u64]
  | .lotEscrow => [.lit "auction", .key, .lit "lot_escrow"]
  | .auctionBid => [.lit "auction", .key, .lit "bid", .key]
  | .bidsIndexPage => [.lit "auction", .key, .lit "bid_index", .u64]
  | .bidEscrow => [.lit "auction", .key, .lit "bid", .key, .lit "escrow"]
  | .raffle => [.lit "raffle", .u64]
  | .raffleRewardsEscrow => [.lit "raffle", .key, .lit "rewards_escrow"]
  | .raffleRevenueEscrow => [.lit "raffle", .key, .lit "revenue_escrow"]
  | .raffleTicketPosition => [.lit "raffle", .key, .lit "ticket_position", .key]
  | .raffleTicketPositionStats => [.lit "raffle", .key, .lit "ticket_position_stats"]
  | .raffleTicketPositionIndex => [.lit "raffle", .key, .lit "ticket_position_index", .u64]

def PdaGetter.layout (g : PdaGetter) : List (Option UInt8) := g.shapes.flatMap SeedShape.layout

def PdaCall.getter : PdaCall → PdaGetter
  | .globalStates => .globalStates
  | .tokenAllowlistStates _ => .tokenAllowlistStates
  | .tokenAllowlistIndex _ => .tokenAllowlistIndex
  | .nftAllowlistStates _ => .nftAllowlistStates
  | .nftAllowlistIndex _ => .nftAllowlistIndex
  | .auction _ => .auction
  | .lotEscrow _ => .lotEscrow
  | .auctionBid _ _ => .auctionBid
  | .bidsIndexPage _ _ => .bidsIndexPage
  | .bidEscrow _ _ => .bidEscrow
  | .raffle _ => .raffle
  | .raffleRewardsEscrow _ => .raffleRewardsEscrow
  | .raffleRevenueEscrow _ => .raffleRevenueEscrow
  | .raffleTicketPosition _ _ => .raffleTicketPosition
  | .raffleTicketPositionStats _ => .raffleTicketPositionStats
  | .raffleTicketPositionIndex _ _ => .raffleTicketPositionIndex

def PdaCall.ofArgs : PdaGetter → List (PublicKey ⊕ Nat) → Option PdaCall
  | .globalStates, [] => some .globalStates
  | .tokenAllowlistStates, [.inl k] => some (.tokenAllowlistStates k)
  | .tokenAllowlistIndex, [.inr p] => some (.tokenAllowlistIndex p)
  | .nftAllowlistStates, [.inl k] => some (.nftAllowlistStates k)
  | .nftAllowlistIndex, [.inr p] => some (.nftAllowlistIndex p)
  | .auction, [.inr id] => some (.auction id)
  | .lotEscrow, [.inl a] => some (.lotEscrow a)
  | .auctionBid, [.inl a, .inl b] => some (.auctionBid a b)
  | .bidsIndexPage, [.inl a, .inr p] => some (.bidsIndexPage a p)
  | .bidEscrow, [.inl a, .inl b] => some (.bidEscrow a b)
  | .raffle, [.inr id] => some (.raffle id)
  | .raffleRewardsEscrow, [.inl r] => some (.raffleRewardsEscrow r)
  | .raffleRevenueEscrow, [.inl r] => some (.raffleRevenueEscrow r)
  | .raffleTicketPosition, [.inl r, .inl b] => some (.raffleTicketPosition r b)
  | .raffleTicketPositionStats, [.inl r] => some (.raffleTicketPositionStats r)
  | .raffleTicketPositionIndex, [.inl r, .inr p] => some (.raffleTicketPositionIndex r p)
  | _, _ => none

theorem PdaCall.shapes_seeds (c : PdaCall) : c.seeds.map Seed.shape = c.getter.shapes := by
  cases c <;> rfl

theorem PdaCall.ofArgs_getter (c : PdaCall) :
    PdaCall.ofArgs c.getter (c.seeds.filterMap Seed.arg) = some c := by
  cases c <;> rfl

theorem PdaGetter.disagree :
    ∀ g₁ g₂ : PdaGetter, g₁ ≠ g₂ → Disagree g₁.layout g₂.layout = true := by
  decide

theorem PdaCall.fits_seedBytes {c : PdaCall} {seeds : List (List UInt8)}
    (h : findPdaSeeds c.seeds = some seeds) : Fits c.getter.layout seeds.flatten := by
  rw [PdaGetter.layout, ← c.shapes_seeds]
  exact fits_findPdaSeeds h

theorem Seed.toBuffer_of_arg {s : Seed} {bytes : List UInt8} (h : s.toBuffer = some bytes)
    {v : Nat} (hs : s.arg = some (.inr v)) :
    v < 256 ^ bytes.length ∧ leBytes bytes.length v = bytes := by
  have hle : ∀ {len}, toBufferLE v len = some bytes →
      v < 256 ^ bytes.length ∧ leBytes bytes.length v = bytes := fun h' => by
    obtain ⟨hv, rfl⟩ := toBufferLE_eq_some h'
    simpa using hv
  cases s <;> cases hs
  case bnOfNumber => exact hle (Seed.toBufferLE_of_bnOfNumber h)
  all_goals exact hle h

theorem Seed.arg_eq {x y : Seed} (hshape : x.shape = y.shape) {bytes : List UInt8}
    (hx : x.toBuffer = some bytes) (hy : y.toBuffer = some bytes) : x.arg = y.arg := by
  cases x <;> cases y <;> cases hshape
  case publicKey.publicKey k k' => cases k; cases k'; cases hx; cases hy; rfl
  case str.str => rfl
  all_goals
    obtain ⟨hv, hvb⟩ := Seed.toBuffer_of_arg hx rfl
    obtain ⟨hw, hwb⟩ := Seed.toBuffer_of_arg hy rfl
    exact congrArg (fun v => some (Sum.inr v)) (leBytes_injective hv hw (hvb.trans hwb.symm))

theorem args_eq_of_flatten_eq : ∀ {xs ys : List Seed} {bx by' : List (List UInt8)},
    xs.map Seed.shape = ys.map Seed.shape → findPdaSeeds xs = some bx →
    findPdaSeeds ys = some by' → bx.flatten = by'.flatten →
    xs.filterMap Seed.arg = ys.filterMap Seed.arg
  | [], [], _, _, _, _, _, _ => rfl
  | x :: xs, y :: ys, bx, by', hshape, hx, hy, hflat => by
    simp only [List.map_cons, List.cons.injEq] at hshape
    cases (mapM_eq_some_iff.mp hx) with
    | cons hbx hbxs =>
      cases (mapM_eq_some_iff.mp hy) with
      | cons hby hbys =>
        rename_i b bs b' bs'
        have hlen : b.length = b'.length := by
          rw [← (Seed.fits_toBuffer hbx).length_eq, ← (Seed.fits_toBuffer hby).length_eq,
            hshape.1]
        obtain ⟨rfl, hrest⟩ := List.append_inj hflat hlen
        rw [List.filterMap_cons, List.filterMap_cons, Seed.arg_eq hshape.1 hbx hby,
          args_eq_of_flatten_eq hshape.2 (mapM_eq_some_iff.mpr hbxs) (mapM_eq_some_iff.mpr hbys)
            hrest]

theorem PdaCall.eq_of_seedBytes {c₁ c₂ : PdaCall} {s₁ s₂ : List (List UInt8)}
    (h₁ : findPdaSeeds c₁.seeds = some s₁) (h₂ : findPdaSeeds c₂.seeds = some s₂)
    (h : s₁.flatten = s₂.flatten) : c₁ = c₂ := by
  by_cases hg : c₁.getter = c₂.getter
  · have hargs := args_eq_of_flatten_eq (by rw [c₁.shapes_seeds, c₂.shapes_seeds, hg]) h₁ h₂ h
    have e := c₁.ofArgs_getter
    rw [hg, hargs, c₂.ofArgs_getter] at e
    exact (Option.some.inj e).symm
  · have hfit := c₂.fits_seedBytes h₂
    rw [← h] at hfit
    exact absurd ((c₁.fits_seedBytes h₁).disagree_eq_false hfit)
      (by rw [PdaGetter.disagree _ _ hg]; decide)

theorem Seed.isSome_toBuffer (s : Seed) : s.toBuffer.isSome = s.inRange := by
  have h64 : (256 : Nat) ^ 8 = 2 ^ 64 := rfl
  have h32 : (256 : Nat) ^ 4 = 2 ^ 32 := rfl
  cases s <;> simp [Seed.toBuffer, Seed.inRange, toBufferLE, h64, h32, apply_ite Option.isSome]
  case bnOfNumber v => intro h; omega

theorem findPdaSeeds_of_inRange {c : PdaCall} (h : c.InRange) :
    ∃ seeds, findPdaSeeds c.seeds = some seeds :=
  Option.isSome_iff_exists.mp (mapM_isSome fun s hs => (Seed.isSome_toBuffer s).trans (h s hs))

theorem pdaPreimage_inj {b₁ b₂ : List UInt8} {bump₁ bump₂ : UInt8} {programId : PublicKey}
    (h : pdaPreimage b₁ bump₁ programId = pdaPreimage b₂ bump₂ programId) : b₁ = b₂ := by
  have hlen := congrArg List.length h
  simp only [pdaPreimage, List.length_append, List.length_singleton] at hlen
  simp only [pdaPreimage, List.append_assoc] at h
  exact (List.append_inj h (by omega)).1

/-- Calls that differ in the getter or an argument, with ids below `2 ^ 64` and page ids below
`2 ^ 53`, give different seed bytes, and so different preimages whatever the bumps. -/
theorem findPda_seeds_distinct {c₁ c₂ : PdaCall} (hne : c₁ ≠ c₂) (h₁ : c₁.InRange)
    (h₂ : c₂.InRange) :
    ∃ b₁ b₂, c₁.seedBytes = some b₁ ∧ c₂.seedBytes = some b₂ ∧ b₁ ≠ b₂ ∧
      ∀ (programId : PublicKey) (bump₁ bump₂ : UInt8),
        pdaPreimage b₁ bump₁ programId ≠ pdaPreimage b₂ bump₂ programId := by
  obtain ⟨s₁, hs₁⟩ := findPdaSeeds_of_inRange h₁
  obtain ⟨s₂, hs₂⟩ := findPdaSeeds_of_inRange h₂
  have hdiff : s₁.flatten ≠ s₂.flatten := fun h => hne (PdaCall.eq_of_seedBytes hs₁ hs₂ h)
  exact ⟨s₁.flatten, s₂.flatten, by rw [PdaCall.seedBytes, hs₁]; rfl,
    by rw [PdaCall.seedBytes, hs₂]; rfl, hdiff, fun _ _ _ h => hdiff (pdaPreimage_inj h)⟩

/-- A raffle's rewards and revenue escrows: seeds of the same length, 52 bytes. -/
theorem findPda_seeds_distinct_raffle_escrows :
    PdaCall.raffleRewardsEscrow ⟨List.replicate 32 0, rfl⟩ ≠
        .raffleRevenueEscrow ⟨List.replicate 32 0, rfl⟩ ∧
      (PdaCall.raffleRewardsEscrow ⟨List.replicate 32 0, rfl⟩).InRange ∧
      (PdaCall.raffleRevenueEscrow ⟨List.replicate 32 0, rfl⟩).InRange ∧
      ∃ b₁ b₂, (PdaCall.raffleRewardsEscrow ⟨List.replicate 32 0, rfl⟩).seedBytes = some b₁ ∧
        (PdaCall.raffleRevenueEscrow ⟨List.replicate 32 0, rfl⟩).seedBytes = some b₂ ∧
        b₁ ≠ b₂ ∧ ∀ (programId : PublicKey) (bump₁ bump₂ : UInt8),
          pdaPreimage b₁ bump₁ programId ≠ pdaPreimage b₂ bump₂ programId :=
  ⟨by decide, by decide, by decide, findPda_seeds_distinct (by decide) (by decide) (by decide)⟩

/-- A page id of `2 ^ 53` is below `2 ^ 64`, yet `new BN(pageId)` fails its assertion:
`findPdaTokenAllowlistIndex` throws and there are no seeds to compare. -/
theorem findPda_page_id_counterexample :
    2 ^ 53 < 2 ^ 64 ∧ (PdaCall.tokenAllowlistIndex (2 ^ 53)).seedBytes = none :=
  ⟨by decide, rfl⟩

end Justies.Pda
