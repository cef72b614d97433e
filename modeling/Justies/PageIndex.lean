import Mathlib.Logic.Function.Basic
import Mathlib.Data.List.Basic

/-! # Paginated pubkey indexes

One index of the program (allowlisted tokens, allowlisted collections, an auction's bids,
a raffle's ticket positions) as the ledger holds it: `PubkeyIndexPage` accounts by page id
and the owner's counter. The append itself runs on chain and is not in the client sources;
it is modelled from the spec. `pageOf` is the abstraction: the pages an append-only list of
keys occupies.
-/
namespace Justies.PageIndex

variable {κ : Type}

/-- `JustiesProgramClient.getPubkeyIndexPageId`: `Math.trunc(totalKeys / pageSize)`. -/
def getPubkeyIndexPageId (totalKeys pageSize : Nat) : Nat := totalKeys / pageSize

/-- The `PubkeyIndexPage` accounts of one index (`none` while an account does not exist)
and the counter kept beside it (`totalAllowedCurrencyTokens`, `totalBids`, ...). -/
structure IndexState (κ : Type) where
  pages : Nat → Option (List κ)
  total : Nat

def IndexState.empty : IndexState κ := ⟨fun _ => none, 0⟩

/-- `key` pushed onto page `pageId`, the page account created on its first key, and the
counter advanced. -/
def IndexState.push (s : IndexState κ) (pageId : Nat) (key : κ) : IndexState κ :=
  ⟨Function.update s.pages pageId (some ((s.pages pageId).getD [] ++ [key])), s.total + 1⟩

/-- Modelled from the spec: the page account passed for `pageId` must be page
`total / pageSize` (`ConstraintSeeds`), and a rejected append changes nothing. -/
def IndexState.append (s : IndexState κ) (pageSize pageId : Nat) (key : κ) :
    Option (IndexState κ) :=
  if pageId = s.total / pageSize then some (s.push pageId key) else none

theorem IndexState.append_total {s s' : IndexState κ} {pageSize pageId : Nat} {key : κ}
    (h : s.append pageSize pageId key = some s') : s'.total = s.total + 1 := by
  unfold IndexState.append at h
  split_ifs at h
  cases h; rfl

/-- The page `pageId` of an index whose keys, in append order, are `keys`. -/
def pageOf (pageSize : Nat) (keys : List κ) (pageId : Nat) : Option (List κ) :=
  if pageId * pageSize < keys.length then some ((keys.drop (pageId * pageSize)).take pageSize)
  else none

/-- The ledger state `s` stores `keys`, in this order, in pages of `pageSize`. -/
structure Represents (pageSize : Nat) (keys : List κ) (s : IndexState κ) : Prop where
  total_eq : s.total = keys.length
  pages_eq : s.pages = pageOf pageSize keys

/-- States built from the empty index by appends under one page size. -/
inductive Reachable (pageSize : Nat) : IndexState κ → Prop where
  | empty : Reachable pageSize .empty
  | append {s s' : IndexState κ} {pageId : Nat} {key : κ} :
      Reachable pageSize s → s.append pageSize pageId key = some s' → Reachable pageSize s'

@[simp] theorem pageOf_nil (P q : Nat) : pageOf P ([] : List κ) q = none := by
  simp [pageOf]

theorem pageOf_of_lt {P q : Nat} {keys : List κ} (h : q * P < keys.length) :
    pageOf P keys q = some ((keys.drop (q * P)).take P) := if_pos h

theorem pageOf_of_le {P q : Nat} {keys : List κ} (h : keys.length ≤ q * P) :
    pageOf P keys q = none := if_neg (by omega)

theorem pageOf_append {P : Nat} (hP : 0 < P) (keys : List κ) (k : κ) :
    pageOf P (keys ++ [k]) = Function.update (pageOf P keys) (keys.length / P)
      (some ((pageOf P keys (keys.length / P)).getD [] ++ [k])) := by
  funext q
  have hlen : (keys ++ [k]).length = keys.length + 1 := by simp
  by_cases hq : q = keys.length / P
  · have hlo : q * P ≤ keys.length := (Nat.le_div_iff_mul_le hP).mp hq.le
    have hhi : keys.length < (q + 1) * P :=
      (Nat.div_lt_iff_lt_mul hP).mp (by rw [← hq]; exact Nat.lt_succ_self q)
    rw [Nat.succ_mul] at hhi
    have hdrop : (keys.drop (q * P)).length ≤ P := by simp; omega
    rw [hq, Function.update_same, ← hq, pageOf_of_lt (by omega),
      List.drop_append_of_le_length hlo, List.take_of_length_le (by simp; omega)]
    by_cases hlt : q * P < keys.length
    · rw [pageOf_of_lt hlt, List.take_of_length_le hdrop]; rfl
    · rw [pageOf_of_le (by omega), List.drop_eq_nil_of_le (by omega)]; rfl
  · rw [Function.update_noteq hq]
    rcases Nat.lt_or_gt_of_ne hq with hlt | hgt
    · have h := (Nat.le_div_iff_mul_le hP).mp hlt
      rw [Nat.succ_mul] at h
      rw [pageOf_of_lt (by omega), pageOf_of_lt (by omega),
        List.drop_append_of_le_length (by omega),
        List.take_append_of_le_length (by simp; omega)]
    · have h := (Nat.div_lt_iff_lt_mul hP).mp hgt
      rw [pageOf_of_le (by omega), pageOf_of_le (by omega)]

theorem Represents.append {P : Nat} {keys : List κ} {s : IndexState κ}
    (hP : 0 < P) (h : Represents P keys s) (pageId : Nat) (key : κ) :
    (pageId = s.total / P → ∃ s', s.append P pageId key = some s' ∧
      Represents P (keys ++ [key]) s') ∧
    (pageId ≠ s.total / P → s.append P pageId key = none) := by
  refine ⟨fun hq => ⟨_, if_pos hq, ?_, ?_⟩, fun hq => if_neg hq⟩
  · simp [IndexState.push, h.total_eq]
  · rw [IndexState.push, pageOf_append hP, hq, h.total_eq, h.pages_eq]

theorem Reachable.push {P : Nat} {s : IndexState κ} (h : Reachable P s) (key : κ) :
    Reachable P (s.push (s.total / P) key) :=
  .append h (if_pos rfl)

theorem Reachable.represents {P : Nat} (hP : 0 < P) {s : IndexState κ} (h : Reachable P s) :
    ∃ keys, Represents P keys s := by
  induction h with
  | empty => exact ⟨[], rfl, funext fun q => (pageOf_nil P q).symm⟩
  | @append s s' pageId key _ hs ih =>
    obtain ⟨keys, hk⟩ := ih
    by_cases hq : pageId = s.total / P
    · obtain ⟨s'', h'', hr⟩ := (hk.append hP pageId key).1 hq
      exact ⟨_, (Option.some.inj (hs.symm.trans h'')) ▸ hr⟩
    · rw [(hk.append hP pageId key).2 hq] at hs; cases hs

end Justies.PageIndex
