import Mathlib.Data.Nat.Defs
import Mathlib.Data.List.Forall2
import Justies.Accounts
import Justies.PageIndex

/-! # Walking an index: `getIndexedKeys` and the generators over it

The loop of `JustiesProgramClient.getIndexedKeys`, one iteration at a time, and the four
generators that run it under the global `numKeysPerIndexPage`. Against pages that do not
change, the loop is a map over the key positions (`getIndexedKeys_eq_mapM`).
-/
namespace Justies.IndexedKeys

open Justies.PageIndex

variable {κ ρ : Type}

/-- The variables the loop of `getIndexedKeys` keeps between iterations. -/
structure Cursor (κ : Type) where
  currentIdx : Nat
  page : Option (List κ)

def Cursor.start : Cursor κ := ⟨0, none⟩

/-- One iteration of the loop of `getIndexedKeys` and the page ids it fetched; `fetchPage` is
the page account's fetch at that time, and `none` a throw (`undefined` is a `none` key). -/
def Cursor.step (pageSize : Nat) (fetchPage : Nat → Option (List κ)) (c : Cursor κ) :
    Option (List Nat × Cursor κ × Option κ) := do
  let pageId := getPubkeyIndexPageId c.currentIdx pageSize
  let idxWithinPage := c.currentIdx % pageSize
  let (fetched, page) ← if idxWithinPage = 0 then (fetchPage pageId).map ([pageId], ·)
    else c.page.map ([], ·)
  pure (fetched, ⟨c.currentIdx + 1, some page⟩, page[idxWithinPage]?)

def Cursor.next (pageSize : Nat) (fetchPage : Nat → Option (List κ)) (c : Cursor κ) :
    Option (Cursor κ × Option κ) :=
  (c.step pageSize fetchPage).map Prod.snd

/-- `n` more iterations of the loop against pages that do not change. -/
def loop (pageSize : Nat) (fetchPage : Nat → Option (List κ)) :
    Nat → Cursor κ → Option (List (Option κ))
  | 0, _ => some []
  | n + 1, c => do
    let (c', key) ← c.next pageSize fetchPage
    let keys ← loop pageSize fetchPage n c'
    pure (key :: keys)

/-- `JustiesProgramClient.getIndexedKeys`, all its yields collected: `totalKeys` iterations
from `currentIdx = 0`. -/
def getIndexedKeys (totalKeys pageSize : Nat) (fetchPage : Nat → Option (List κ)) :
    Option (List (Option κ)) :=
  loop pageSize fetchPage totalKeys .start

/-- What iteration `i` yields when every page it reads is the current one. -/
def keyAt (pageSize : Nat) (fetchPage : Nat → Option (List κ)) (i : Nat) : Option (Option κ) :=
  (fetchPage (i / pageSize)).map (·[i % pageSize]?)

/-- The loop will not refetch the page it holds, and that page is the current one. -/
def Cursor.Cached (pageSize : Nat) (fetchPage : Nat → Option (List κ)) (c : Cursor κ) : Prop :=
  c.currentIdx % pageSize ≠ 0 → c.page = fetchPage (c.currentIdx / pageSize)

section Static

variable {P : Nat} {fetchPage : Nat → Option (List κ)} {c : Cursor κ}

theorem Cursor.start_cached : (Cursor.start : Cursor κ).Cached P fetchPage := by
  simp [Cursor.Cached, Cursor.start]

theorem Cursor.next_eq :
    c.next P fetchPage =
      (if c.currentIdx % P = 0 then fetchPage (c.currentIdx / P) else c.page).map
        fun page => (⟨c.currentIdx + 1, some page⟩, page[c.currentIdx % P]?) := by
  simp only [Cursor.next, Cursor.step, getPubkeyIndexPageId]
  split_ifs <;> [cases fetchPage (c.currentIdx / P); cases c.page] <;> rfl

theorem Cursor.step_eq :
    c.step P fetchPage = (c.next P fetchPage).map fun n =>
      (if c.currentIdx % P = 0 then [getPubkeyIndexPageId c.currentIdx P] else [], n) := by
  simp only [Cursor.next, Cursor.step]
  split_ifs <;> [cases fetchPage (getPubkeyIndexPageId c.currentIdx P); cases c.page] <;> rfl

theorem Cursor.next_of_cached (h : c.Cached P fetchPage) :
    c.next P fetchPage = (fetchPage (c.currentIdx / P)).map
      fun page => (⟨c.currentIdx + 1, some page⟩, page[c.currentIdx % P]?) := by
  rw [Cursor.next_eq]
  by_cases h0 : c.currentIdx % P = 0
  · rw [if_pos h0]
  · rw [if_neg h0, h h0]

theorem Cursor.cached_succ (i : Nat) {page : List κ} (hpage : fetchPage (i / P) = some page) :
    (⟨i + 1, some page⟩ : Cursor κ).Cached P fetchPage := by
  intro h
  rw [← hpage, Nat.succ_div_of_not_dvd fun hd => h (Nat.mod_eq_zero_of_dvd hd)]

theorem loop_of_cached : ∀ (n : Nat) (c : Cursor κ), c.Cached P fetchPage →
    loop P fetchPage n c = (List.range' c.currentIdx n).mapM (keyAt P fetchPage)
  | 0, _, _ => rfl
  | n + 1, c, h => by
    rw [loop, Cursor.next_of_cached h, List.range'_succ, List.mapM_cons, keyAt]
    cases hpage : fetchPage (c.currentIdx / P) with
    | none => rfl
    | some page =>
      simp only [Option.map_some', Option.bind_eq_bind, Option.some_bind]
      rw [loop_of_cached n _ (Cursor.cached_succ _ hpage)]

theorem getIndexedKeys_eq_mapM (N : Nat) :
    getIndexedKeys N P fetchPage = (List.range N).mapM (keyAt P fetchPage) := by
  rw [getIndexedKeys, loop_of_cached N _ Cursor.start_cached, List.range_eq_range']
  rfl

end Static

theorem getIndexedKeys_eq_some_iff {N P : Nat} {fetchPage : Nat → Option (List κ)}
    {keys : List (Option κ)} : getIndexedKeys N P fetchPage = some keys ↔
      keys.length = N ∧ ∀ i < N, keyAt P fetchPage i = keys[i]? := by
  rw [getIndexedKeys_eq_mapM, mapM_eq_some_iff, List.forall₂_iff_get]
  simp only [List.length_range, List.get_eq_getElem, List.getElem_range]
  constructor
  · rintro ⟨hlen, h⟩
    exact ⟨hlen.symm, fun i hi => by rw [h i hi (by omega), List.getElem?_eq_getElem]⟩
  · rintro ⟨hlen, h⟩
    exact ⟨hlen.symm, fun i hi _ => by rw [h i hi, List.getElem?_eq_getElem]⟩

section Pages

variable {P P' : Nat} {keys : List κ}

theorem keyAt_pageOf (hP : 0 < P) {i : Nat} (hi : i < keys.length) :
    keyAt P (pageOf P keys) i = some keys[i]? := by
  have hq := Nat.div_mul_le_self i P
  rw [keyAt, pageOf_of_lt (by omega), Option.map_some',
    List.getElem?_take_of_lt (Nat.mod_lt i hP), List.getElem?_drop, Nat.div_add_mod']

theorem keyAt_of_lt {fetchPage : Nat → Option (List κ)} {i : Nat} (h : i < P) (h' : i < P') :
    keyAt P' fetchPage i = keyAt P fetchPage i := by
  rw [keyAt, keyAt, Nat.div_eq_of_lt h, Nat.div_eq_of_lt h', Nat.mod_eq_of_lt h,
    Nat.mod_eq_of_lt h']

theorem getIndexedKeys_pageOf (hP : 0 < P) (keys : List κ) :
    getIndexedKeys keys.length P (pageOf P keys) = some (keys.map some) := by
  refine getIndexedKeys_eq_some_iff.mpr ⟨by simp, fun i hi => ?_⟩
  simp [keyAt_pageOf hP hi, List.getElem?_eq_getElem hi]

/-- Under a page size other than the pages' own, some position below the key count yields no
key once the count passes the smaller size. -/
theorem keyAt_pageOf_missing (hP : 0 < P) (hP' : 0 < P')
    (h : ¬(P' = P ∨ keys.length ≤ min P P')) :
    ∃ i < keys.length, ∀ k, keyAt P' (pageOf P keys) i ≠ some (some k) := by
  rw [Nat.le_min] at h
  rcases Nat.lt_or_gt_of_ne (fun he => h (.inl he)) with hlt | hgt
  · -- a smaller page size: the last position lands on a later page, past the last key
    refine ⟨keys.length - 1, by omega, fun k hk => ?_⟩
    have hq : 1 ≤ (keys.length - 1) / P' := (Nat.le_div_iff_mul_le hP').mpr (by omega)
    have hdm := Nat.div_add_mod' (keys.length - 1) P'
    have hmul := Nat.mul_le_mul_left ((keys.length - 1) / P') (show P' + 1 ≤ P by omega)
    rw [Nat.mul_succ] at hmul
    have hr := Nat.mod_lt (keys.length - 1) hP'
    by_cases hpage : (keys.length - 1) / P' * P < keys.length
    · rw [keyAt, pageOf_of_lt hpage, Option.map_some', List.getElem?_take_of_lt (by omega),
        List.getElem?_drop, List.getElem?_eq_none (by omega)] at hk
      cases hk
    · rw [keyAt, pageOf_of_le (by omega)] at hk
      cases hk
  · -- a larger page size: position `P` is read from page 0, which holds `P` keys
    refine ⟨P, by omega, fun k hk => ?_⟩
    rw [keyAt, Nat.div_eq_of_lt hgt, Nat.mod_eq_of_lt hgt,
      pageOf_of_lt (by rw [Nat.zero_mul]; omega),
      Option.map_some', List.getElem?_eq_none (List.length_take_le _ _)] at hk
    cases hk

/-- The walk under `P'` over pages built under `P` yields the keys in order exactly when
the sizes agree or every key sits on page 0 under both. -/
theorem getIndexedKeys_pageOf_iff (hP : 0 < P) (hP' : 0 < P') :
    getIndexedKeys keys.length P' (pageOf P keys) = some (keys.map some) ↔
      P' = P ∨ keys.length ≤ min P P' := by
  constructor
  · intro h
    by_contra hne
    obtain ⟨i, hi, hnone⟩ := keyAt_pageOf_missing hP hP' hne
    refine hnone keys[i] ?_
    rw [(getIndexedKeys_eq_some_iff.mp h).2 i hi]
    simp [List.getElem?_eq_getElem hi]
  · rintro (rfl | hlen)
    · exact getIndexedKeys_pageOf hP keys
    · rw [Nat.le_min] at hlen
      refine getIndexedKeys_eq_some_iff.mpr ⟨by simp, fun i hi => ?_⟩
      rw [keyAt_of_lt (P := P) (by omega) (by omega), keyAt_pageOf hP hi]
      simp [List.getElem?_eq_getElem hi]

theorem mem_pageOf (hP : 0 < P) {k : κ} (hk : k ∈ keys) :
    ∃ q page, pageOf P keys q = some page ∧ k ∈ page := by
  obtain ⟨i, hi, rfl⟩ := List.mem_iff_getElem.mp hk
  have h := keyAt_pageOf hP hi
  rw [keyAt, List.getElem?_eq_getElem hi] at h
  obtain ⟨page, hpage, hget⟩ := Option.map_eq_some'.mp h
  exact ⟨_, page, hpage, List.getElem?_mem hget⟩

end Pages

/-! ## The generators over an index -/

/-- The body the four record generators share: `getIndexedKeys` under the global
`numKeysPerIndexPage`, then a fetch of each key's account (`fetch(undefined)` throws). -/
def indexedRecords (totalKeys numKeysPerIndexPage : Nat) (fetchPage : Nat → Option (List κ))
    (fetchRecord : κ → Option ρ) : Option (List ρ) := do
  let keys ← getIndexedKeys totalKeys numKeysPerIndexPage fetchPage
  keys.mapM fun key => key.bind fetchRecord

def getTokenAllowlistStates (globalStates : GlobalStates)
    (tokenAllowlistIndex : Nat → Option (List κ)) (tokenAllowlistStates : κ → Option ρ) :
    Option (List ρ) :=
  indexedRecords globalStates.totalAllowedCurrencyTokens globalStates.numKeysPerIndexPage
    tokenAllowlistIndex tokenAllowlistStates

def getNftAllowlistStates (globalStates : GlobalStates)
    (nftAllowlistIndex : Nat → Option (List κ)) (tokenAllowlistStates : κ → Option ρ) :
    Option (List ρ) :=
  indexedRecords globalStates.totalAllowedNftCollections globalStates.numKeysPerIndexPage
    nftAllowlistIndex tokenAllowlistStates

def getAuctionBids (auction : Auction) (globalStates : GlobalStates)
    (bidsIndexPage : Nat → Option (List κ)) (auctionBid : κ → Option ρ) : Option (List ρ) :=
  indexedRecords auction.totalBids globalStates.numKeysPerIndexPage bidsIndexPage auctionBid

def getRaffleTicketPositions (raffle : Raffle) (globalStates : GlobalStates)
    (ticketPositionIndex : Nat → Option (List κ)) (raffleTicketPosition : κ → Option ρ) :
    Option (List ρ) :=
  indexedRecords raffle.numTicketPositions globalStates.numKeysPerIndexPage ticketPositionIndex
    raffleTicketPosition

section Records

variable {N P : Nat} {fetchPage : Nat → Option (List κ)} {fetchRecord : κ → Option ρ}

theorem indexedRecords_of_walk {keys : List κ}
    (h : getIndexedKeys N P fetchPage = some (keys.map some)) :
    indexedRecords N P fetchPage fetchRecord = keys.mapM fetchRecord := by
  simp only [indexedRecords, h, Option.bind_eq_bind, Option.some_bind]
  clear h
  induction keys with
  | nil => rfl
  | cons k keys ih => rw [List.map_cons, List.mapM_cons, List.mapM_cons, ih]; rfl

theorem indexedRecords_of_missing {i : Nat} (hi : i < N)
    (hmiss : ∀ k, keyAt P fetchPage i ≠ some (some k)) :
    indexedRecords N P fetchPage fetchRecord = none := by
  cases hw : getIndexedKeys N P fetchPage with
  | none => simp [indexedRecords, hw]
  | some ks =>
    obtain ⟨hlen, hks⟩ := getIndexedKeys_eq_some_iff.mp hw
    have hget := hks i hi
    rw [List.getElem?_eq_getElem (by omega)] at hget
    have hnone : ks[i] = none := Option.eq_none_iff_forall_not_mem.mpr fun k hk =>
      hmiss k (hget.trans (congrArg some hk))
    simp only [indexedRecords, hw, Option.bind_eq_bind, Option.some_bind]
    exact mapM_eq_none_of_mem (x := none) rfl (hnone ▸ List.getElem_mem _)

end Records

/-! ## Changing `numKeysPerIndexPage` -/

/-- After `numKeysPerIndexPage` moves from `P` to `P'` over unchanged pages, the generators yield
what they yielded before exactly when `P' = P` or every key is on page 0, and throw otherwise. -/
theorem indexedRecords_after_page_size_update {P P' : Nat} (hP : 0 < P) (hP' : 0 < P')
    {s : IndexState κ} (hs : Reachable P s) {fetchRecord : κ → Option ρ}
    (hrec : ∀ q page, s.pages q = some page → ∀ k ∈ page, (fetchRecord k).isSome) :
    ∃ records, indexedRecords s.total P s.pages fetchRecord = some records ∧
      indexedRecords s.total P' s.pages fetchRecord =
        if P' = P ∨ s.total ≤ min P P' then some records else none := by
  obtain ⟨keys, hk⟩ := hs.represents hP
  obtain ⟨records, hrecords⟩ := Option.isSome_iff_exists.mp (mapM_isSome fun k hk' => by
    obtain ⟨q, page, hq, hmem⟩ := mem_pageOf hP hk'
    exact hrec q page (hk.pages_eq ▸ hq) k hmem)
  rw [hk.total_eq, hk.pages_eq]
  refine ⟨records, by rw [indexedRecords_of_walk (getIndexedKeys_pageOf hP keys), hrecords], ?_⟩
  split_ifs with h
  · rw [indexedRecords_of_walk ((getIndexedKeys_pageOf_iff hP hP').mpr h), hrecords]
  · obtain ⟨i, hi, hmiss⟩ := keyAt_pageOf_missing hP hP' h
    exact indexedRecords_of_missing hi hmiss

/-- Keys 7, 8 and 9 appended under a page size of 2: page 0 is full and page 1 holds 9. -/
def threeKeys : IndexState Nat := ((IndexState.empty.push 0 7).push 0 8).push 1 9

theorem threeKeys_reachable : Reachable 2 threeKeys :=
  ((Reachable.empty.push 7).push 8).push 9

/-- Walked under a page size of 3, position 2 of `threeKeys` reads past page 0 and the walk
throws, so the page-size update changes what `getTokenAllowlistStates` yields. -/
theorem getTokenAllowlistStates_page_size_update_counterexample :
    ¬ ∀ (P P' : Nat) (s : IndexState Nat), 0 < P → 0 < P' → Reachable P s →
      ∀ globalStates : GlobalStates, globalStates.totalAllowedCurrencyTokens = s.total →
        globalStates.numKeysPerIndexPage = P →
        getTokenAllowlistStates { globalStates with numKeysPerIndexPage := P' } s.pages some =
          getTokenAllowlistStates globalStates s.pages some := fun h =>
  let zero : PublicKey := ⟨List.replicate 32 0, rfl⟩
  absurd (h 2 3 threeKeys (by decide) (by decide) threeKeys_reachable ⟨3, 0, 2, 0, 0, zero⟩ rfl
    rfl) (by decide)

theorem indexedRecords_after_page_size_update_three_keys :
    0 < 2 ∧ 0 < 3 ∧ Reachable 2 threeKeys ∧
      (∀ q page, threeKeys.pages q = some page → ∀ k ∈ page, (some k).isSome) ∧
      ∃ records, indexedRecords threeKeys.total 2 threeKeys.pages some = some records ∧
        indexedRecords threeKeys.total 3 threeKeys.pages some =
          if 3 = 2 ∨ threeKeys.total ≤ min 2 3 then some records else none :=
  ⟨by decide, by decide, threeKeys_reachable, fun _ _ _ _ _ => rfl,
    indexedRecords_after_page_size_update (by decide) (by decide) threeKeys_reachable
      fun _ _ _ _ _ => rfl⟩

end Justies.IndexedKeys
