import Mathlib.Data.Int.Log
import Mathlib.Data.Rat.Floor
import Mathlib.Tactic.Linarith
import Justies.IndexRun
import Justies.Pda

/-! # Page arithmetic over JavaScript numbers

The client computes page ids and offsets with JavaScript numbers: `BN.toNumber`, `/`,
`Math.trunc`, `%`, `==` and `new BN(number)`. A number is an IEEE 754 double. The rest of the
development computes the same quantities in `Nat`; this module models the numbers and shows
that the loop of `getIndexedKeys`, and the interleaved run of appends and generators, computed
over them are the `Nat` ones where the code does not throw. Signed zero is left out: every
operand here is non-negative.
-/
namespace Justies.JsNumbers

open Justies.PageIndex Justies.IndexedKeys Justies.IndexRun

/-- A JavaScript number: a finite double, by its value, an infinity, or `NaN`. -/
inductive JsNumber where
  | finite (value : ℚ)
  | posInfinity
  | negInfinity
  | nan
  deriving DecidableEq

def JsNumber.neg : JsNumber → JsNumber
  | .finite v => .finite (-v)
  | .posInfinity => .negInfinity
  | .negInfinity => .posInfinity
  | .nan => .nan

def truncRat (v : ℚ) : ℤ := if 0 ≤ v then ⌊v⌋ else ⌈v⌉

def roundHalfEven (m : ℚ) : ℤ :=
  if m - ⌊m⌋ < 1 / 2 then ⌊m⌋
  else if 1 / 2 < m - ⌊m⌋ then ⌊m⌋ + 1
  else if ⌊m⌋ % 2 = 0 then ⌊m⌋ else ⌊m⌋ + 1

/-- The double nearest a positive rational, ties to even: 53 significant bits, the spacing
`2 ^ -1074` of the subnormals below `2 ^ -1022`, and `Infinity` from `2 ^ 1024` on. -/
def roundPos (x : ℚ) : JsNumber :=
  let spacing : ℚ := 2 ^ (max (Int.log 2 x) (-1022) - 52)
  let r : ℚ := roundHalfEven (x / spacing) * spacing
  if 2 ^ 1024 ≤ r then .posInfinity else .finite r

def ofRat (x : ℚ) : JsNumber :=
  if x = 0 then .finite 0 else if 0 < x then roundPos x else (roundPos (-x)).neg

def JsNumber.div : JsNumber → JsNumber → JsNumber
  | .finite a, .finite b =>
    if b = 0 then (if a = 0 then .nan else if 0 < a then .posInfinity else .negInfinity)
    else ofRat (a / b)
  | .finite _, .posInfinity => .finite 0
  | .finite _, .negInfinity => .finite 0
  | .posInfinity, .finite b => if b < 0 then .negInfinity else .posInfinity
  | .negInfinity, .finite b => if b < 0 then .posInfinity else .negInfinity
  | _, _ => .nan

def JsNumber.trunc : JsNumber → JsNumber
  | .finite v => .finite (truncRat v)
  | x => x

def JsNumber.rem : JsNumber → JsNumber → JsNumber
  | .finite a, .finite b => if b = 0 then .nan else .finite (a - b * truncRat (a / b))
  | .finite a, .posInfinity => .finite a
  | .finite a, .negInfinity => .finite a
  | _, _ => .nan

/-- `BN.toNumber` of a non-negative `BN`: exact below `2 ^ 53`, an assertion failure from
there on. -/
def bnToNumber (n : Nat) : Option JsNumber := if n < 2 ^ 53 then some (.finite n) else none

/-- The value `new BN(number)` encodes: `NaN` is 0, a finite number below `2 ^ 53` in
magnitude is truncated (`toBuffer` drops its sign), and anything else fails the assertion. -/
def newBN : JsNumber → Option Nat
  | .nan => some 0
  | .finite v => if |v| < 2 ^ 53 then some (truncRat v).natAbs else none
  | _ => none

/-- `keys[idx]`: the element at a non-negative integer index, `undefined` otherwise. -/
def elementAt {κ : Type} (keys : List κ) : JsNumber → Option κ
  | .finite v => if 0 ≤ v ∧ (⌊v⌋ : ℚ) = v then keys[⌊v⌋.toNat]? else none
  | _ => none

/-- `JustiesProgramClient.getPubkeyIndexPageId`: `Math.trunc(totalKeys.toNumber() / pageSize)`. -/
def getPubkeyIndexPageId (totalKeys : Nat) (pageSize : JsNumber) : Option JsNumber :=
  (bnToNumber totalKeys).map fun n => (n.div pageSize).trunc

variable {κ : Type}

/-- One iteration of the loop of `getIndexedKeys` as the code computes it over numbers, with
the page ids it fetches through `new BN(pageId)`. -/
def step (pageSize : JsNumber) (fetchPage : Nat → Option (List κ)) (c : Cursor κ) :
    Option (List Nat × Cursor κ × Option κ) := do
  let pageId ← getPubkeyIndexPageId c.currentIdx pageSize
  let idxWithinPage := (JsNumber.finite c.currentIdx).rem pageSize
  let (fetched, page) ← if idxWithinPage = .finite 0 then
      (newBN pageId).bind fun id => (fetchPage id).map ([id], ·)
    else c.page.map ([], ·)
  pure (fetched, ⟨c.currentIdx + 1, some page⟩, elementAt page idxWithinPage)

def iteration (pageSize : JsNumber) (fetchPage : Nat → Option (List κ)) (c : Cursor κ) :
    Option (Cursor κ × Option κ) :=
  (step pageSize fetchPage c).map Prod.snd

def loop (pageSize : JsNumber) (fetchPage : Nat → Option (List κ)) :
    Nat → Cursor κ → Option (List (Option κ))
  | 0, _ => some []
  | n + 1, c => do
    let (c', key) ← iteration pageSize fetchPage c
    let keys ← loop pageSize fetchPage n c'
    pure (key :: keys)

/-- `getIndexedKeys` over numbers: the loop test `currentIdx < totalKeys.toNumber()` throws
when `totalKeys` needs more than 53 bits, and otherwise lets `totalKeys` iterations run. -/
def getIndexedKeys (totalKeys : Nat) (pageSize : JsNumber) (fetchPage : Nat → Option (List κ)) :
    Option (List (Option κ)) :=
  (bnToNumber totalKeys).bind fun _ => loop pageSize fetchPage totalKeys .start

/-- A generator's `next()` as the code computes it: the loop test reads
`totalKeys.toNumber()`, which throws from `2 ^ 53` on, before each iteration over numbers. -/
def readerNext (pageSize : JsNumber) (fetchPage : Nat → Option (List κ)) (r : Reader κ) :
    Option (Reader κ) :=
  (bnToNumber r.totalKeys).bind fun _ => r.advance (step pageSize fetchPage)

/-- The page seed `new BN(pageId)` an appending runner declares: its caller's `indexPageId`, or
else `Math.trunc(count.toNumber() / numKeysPerIndexPage)`. -/
def declaredPageSeed (numKeysPerIndexPage : JsNumber) (totalKeys : Nat) :
    Option Nat → Option Nat
  | some indexPageId => newBN (.finite indexPageId)
  | none => (getPubkeyIndexPageId totalKeys numKeysPerIndexPage).bind newBN

/-- A step of the interleaved run over numbers; an append whose page seed throws is not sent. -/
def worldStep (pageSize : Nat) (w : World κ) : Action κ → Option (World κ)
  | .append observedTotal indexPageId key =>
    match declaredPageSeed (.finite pageSize) observedTotal indexPageId with
    | some pageId => w.step pageSize (.append observedTotal (some pageId) key)
    | none => some w
  | .start => w.step pageSize .start
  | .next => match w.reader with
    | none => some w
    | some r => (readerNext (.finite pageSize) w.index.pages r).map fun r' =>
      { w with reader := some r' }

def worldRun (pageSize : Nat) (w : World κ) : List (Action κ) → Option (World κ)
  | [] => some w
  | a :: as => (worldStep pageSize w a).bind fun w' => worldRun pageSize w' as

/-! ## Rounding a quotient of naturals -/

theorem roundHalfEven_cases (m : ℚ) :
    roundHalfEven m = ⌊m⌋ ∨ (roundHalfEven m = ⌊m⌋ + 1 ∧ 1 / 2 ≤ m - ⌊m⌋) := by
  unfold roundHalfEven
  split_ifs <;> first | exact .inl rfl | exact .inr ⟨rfl, by linarith⟩

theorem le_roundHalfEven {m : ℚ} {k : ℤ} (h : (k : ℚ) ≤ m) : k ≤ roundHalfEven m := by
  have := Int.le_floor.mpr h
  rcases roundHalfEven_cases m with e | ⟨e, -⟩ <;> omega

theorem roundHalfEven_lt {m : ℚ} {k : ℤ} (h : m < k - 1 / 2) : roundHalfEven m < k := by
  have hf := Int.floor_le m
  rcases roundHalfEven_cases m with e | ⟨e, hhalf⟩
  · rw [e]; exact Int.floor_lt.mpr (by linarith)
  · have : ((⌊m⌋ + 1 : ℤ) : ℚ) < k := by push_cast; linarith
    rw [e]; exact_mod_cast this

theorem zpow_sub_52 {e : ℤ} (he : e ≤ 52) :
    (2 : ℚ) ^ (e - 52) = 1 / ((2 ^ (52 - e).toNat : ℕ) : ℚ) := by
  rw [show e - 52 = -((52 - e).toNat : ℤ) by omega, zpow_neg, zpow_natCast]
  push_cast; ring

theorem log_le_52 {x : ℚ} (hx : 0 < x) (h : x < 2 ^ 53) : Int.log 2 x ≤ 52 := by
  have h' : x < ((2 : ℕ) : ℚ) ^ ((53 : ℕ) : ℤ) := by rw [zpow_natCast]; exact_mod_cast h
  have := (Int.lt_zpow_iff_log_lt (by norm_num) hx).mp h'
  omega

theorem log_div_le_52 {a b : ℕ} (ha53 : a < 2 ^ 53) (hb : 0 < b) (hx : 0 < (a : ℚ) / b) :
    Int.log 2 ((a : ℚ) / b) ≤ 52 :=
  log_le_52 hx ((div_le_self (Nat.cast_nonneg a) (by exact_mod_cast hb)).trans_lt
    (by exact_mod_cast ha53))

theorem round_grid_mem {x : ℚ} {q N : ℕ} (hN : 0 < N) (hq : (q : ℚ) ≤ x)
    (hgap : 1 / 2 < ((q : ℚ) + 1 - x) * N) :
    (q : ℚ) ≤ roundHalfEven (x * N) * (1 / (N : ℚ)) ∧
      (roundHalfEven (x * N) : ℚ) * (1 / (N : ℚ)) < q + 1 := by
  have hNq : (0 : ℚ) < N := by exact_mod_cast hN
  have hlo : ((q * N : ℕ) : ℤ) ≤ roundHalfEven (x * N) :=
    le_roundHalfEven (by push_cast; exact mul_le_mul_of_nonneg_right hq hNq.le)
  have hhi : roundHalfEven (x * N) < (((q + 1) * N : ℕ) : ℤ) :=
    roundHalfEven_lt (by push_cast; linarith)
  have hlo' : ((q : ℚ) * N) ≤ roundHalfEven (x * N) := by exact_mod_cast hlo
  have hhi' : (roundHalfEven (x * N) : ℚ) < ((q : ℚ) + 1) * N := by exact_mod_cast hhi
  constructor
  · rw [mul_one_div, le_div_iff₀ hNq]; exact hlo'
  · rw [mul_one_div, div_lt_iff₀ hNq]; exact hhi'

theorem gap_div_natCast {a b : ℕ} (ha53 : a < 2 ^ 53) (hb : 0 < b) (hx : 0 < (a : ℚ) / b) :
    1 / 2 < (((a / b : ℕ) : ℚ) + 1 - a / b) *
      ((2 ^ (52 - max (Int.log 2 ((a : ℚ) / b)) (-1022)).toNat : ℕ) : ℚ) := by
  set x : ℚ := (a : ℚ) / b with hxdef
  have hbq : (0 : ℚ) < b := by exact_mod_cast hb
  have hstep : (1 : ℚ) / b ≤ ((a / b : ℕ) : ℚ) + 1 - x := by
    have h' : (a : ℚ) + 1 ≤ b * ((a / b : ℕ) + 1) := by exact_mod_cast Nat.lt_mul_div_succ a hb
    rw [hxdef, div_le_iff₀ hbq, sub_mul, div_mul_cancel₀ _ hbq.ne']
    linarith
  have hlog := Int.zpow_log_le_self (b := 2) (by norm_num) hx
  have hsucc := Int.lt_zpow_succ_log_self (b := 2) (by norm_num) x
  push_cast at hlog hsucc
  rcases le_or_lt (-1022) (Int.log 2 x) with hnormal | hsub
  · -- a normal quotient: `b * 2 ^ e ≤ a < 2 ^ 53` puts `b` below twice `2 ^ (52 - e)`
    rw [max_eq_left hnormal]
    have hN : ((2 ^ (52 - Int.log 2 x).toNat : ℕ) : ℚ) * 2 ^ Int.log 2 x = 2 ^ 52 := by
      have he : Int.log 2 x ≤ 52 := log_div_le_52 ha53 hb hx
      push_cast
      rw [← zpow_natCast, Int.toNat_of_nonneg (by omega), ← zpow_add₀ (by norm_num)]
      norm_num
    have hba : (b : ℚ) * 2 ^ Int.log 2 x ≤ a := by
      rw [hxdef, le_div_iff₀ hbq] at hlog; linarith
    have ha' : (a : ℚ) < 2 ^ 53 := by exact_mod_cast ha53
    have hpos : (0 : ℚ) < 2 ^ Int.log 2 x := zpow_pos (by norm_num) _
    have hb2N : (b : ℚ) < 2 * ((2 ^ (52 - Int.log 2 x).toNat : ℕ) : ℚ) := by
      refine lt_of_mul_lt_mul_right ?_ hpos.le
      calc (b : ℚ) * 2 ^ Int.log 2 x ≤ a := hba
        _ < 2 ^ 53 := ha'
        _ = _ := by rw [mul_assoc, hN]; norm_num
    calc (1 : ℚ) / 2 < ((2 ^ (52 - Int.log 2 x).toNat : ℕ) : ℚ) * (1 / b) := by
          rw [mul_one_div, lt_div_iff₀ hbq]; linarith
      _ ≤ _ := by rw [mul_comm]; exact mul_le_mul_of_nonneg_right hstep (Nat.cast_nonneg _)
  · -- a subnormal quotient is below one half: its page is 0 and it rounds below 1
    rw [max_eq_right hsub.le]
    have hhalf : x < 1 / 2 := by
      calc x < (2 : ℚ) ^ (Int.log 2 x + 1) := hsucc
        _ ≤ 2 ^ (-1 : ℤ) := zpow_le_zpow_right₀ (by norm_num) (by omega)
        _ = 1 / 2 := by norm_num
    have hq : a / b = 0 := by
      by_contra hne
      have h1 : (1 : ℚ) ≤ ((a / b : ℕ) : ℚ) := by exact_mod_cast Nat.one_le_iff_ne_zero.mpr hne
      have h2 : ((a / b : ℕ) : ℚ) ≤ x := by
        rw [hxdef, le_div_iff₀ hbq]; exact_mod_cast Nat.div_mul_le_self a b
      linarith
    have hN1 : (1 : ℚ) ≤ ((2 ^ (52 - (-1022 : ℤ)).toNat : ℕ) : ℚ) :=
      Nat.one_le_cast.mpr Nat.one_le_two_pow
    rw [hq]
    calc (1 : ℚ) / 2 < ((0 : ℕ) : ℚ) + 1 - x := by push_cast; linarith
      _ = (((0 : ℕ) : ℚ) + 1 - x) * 1 := (mul_one _).symm
      _ ≤ _ := mul_le_mul_of_nonneg_left hN1 (by push_cast; linarith)

theorem roundPos_div_natCast {a b : ℕ} (ha53 : a < 2 ^ 53) (hb : 0 < b)
    (hx : 0 < (a : ℚ) / b) : ∃ r : ℚ, roundPos (a / b) = .finite r ∧
      ((a / b : ℕ) : ℚ) ≤ r ∧ r < (a / b : ℕ) + 1 := by
  have hbq : (0 : ℚ) < b := by exact_mod_cast hb
  have he : max (Int.log 2 ((a : ℚ) / b)) (-1022) ≤ 52 :=
    max_le (log_div_le_52 ha53 hb hx) (by norm_num)
  have hq : ((a / b : ℕ) : ℚ) ≤ (a : ℚ) / b := by
    rw [le_div_iff₀ hbq]; exact_mod_cast Nat.div_mul_le_self a b
  obtain ⟨hlo, hhi⟩ := round_grid_mem (Nat.two_pow_pos _) hq (gap_div_natCast ha53 hb hx)
  have hq53 : ((a / b : ℕ) : ℚ) + 1 ≤ 2 ^ 53 := by
    exact_mod_cast Nat.lt_of_le_of_lt (Nat.div_le_self a b) ha53
  refine ⟨_, ?_, hlo, hhi⟩
  simp only [roundPos, zpow_sub_52 he, div_div_eq_mul_div, div_one]
  rw [if_neg (not_le.mpr (hhi.trans_le (hq53.trans (by norm_num))))]

theorem floor_div_natCast (a b : ℕ) : ⌊(a : ℚ) / b⌋ = ((a / b : ℕ) : ℤ) := by
  simpa using Rat.floor_intCast_div_natCast (a : ℤ) b

/-- `Math.trunc(a / b)` is the quotient of the naturals, for `a` below `2 ^ 53`: rounding
the division never reaches the next integer. -/
theorem trunc_div_natCast {a b : ℕ} (ha53 : a < 2 ^ 53) (hb : 0 < b) :
    ((JsNumber.finite a).div (.finite b)).trunc = .finite (a / b : ℕ) := by
  have hb0 : (b : ℚ) ≠ 0 := by exact_mod_cast hb.ne'
  rcases Nat.eq_zero_or_pos a with rfl | ha
  · simp [JsNumber.div, JsNumber.trunc, ofRat, truncRat, hb0]
  have hx : 0 < (a : ℚ) / b := by positivity
  obtain ⟨r, hr, hlo, hhi⟩ := roundPos_div_natCast ha53 hb hx
  have hfloor : ⌊r⌋ = ((a / b : ℕ) : ℤ) := Int.floor_eq_iff.mpr ⟨by exact_mod_cast hlo,
    by exact_mod_cast hhi⟩
  simp only [JsNumber.div, if_neg hb0, ofRat, if_neg hx.ne', if_pos hx, hr, JsNumber.trunc,
    truncRat, if_pos (le_trans (Nat.cast_nonneg _) hlo), hfloor, Int.cast_natCast]

theorem rem_natCast (a : ℕ) {b : ℕ} (hb : 0 < b) :
    (JsNumber.finite a).rem (.finite b) = .finite (a % b : ℕ) := by
  have hb0 : (b : ℚ) ≠ 0 := by exact_mod_cast hb.ne'
  have hnn : (0 : ℚ) ≤ (a : ℚ) / b := by positivity
  simp only [JsNumber.rem, if_neg hb0, truncRat, if_pos hnn, floor_div_natCast, Int.cast_natCast,
    JsNumber.finite.injEq]
  have h : ((a % b : ℕ) : ℚ) + b * ((a / b : ℕ) : ℚ) = a := by
    exact_mod_cast Nat.mod_add_div a b
  linarith

theorem newBN_natCast {n : ℕ} (h : n < 2 ^ 53) : newBN (.finite n) = some n := by
  have h' : ((n : ℚ)) < 2 ^ 53 := by exact_mod_cast h
  simp [newBN, abs_of_nonneg (Nat.cast_nonneg n : (0 : ℚ) ≤ n), h', truncRat]

theorem newBN_natCast_of_le {n : ℕ} (h : 2 ^ 53 ≤ n) : newBN (.finite n) = none := by
  have h' : (2 : ℚ) ^ 53 ≤ n := by exact_mod_cast h
  simp [newBN, abs_of_nonneg (Nat.cast_nonneg n : (0 : ℚ) ≤ n), not_lt.mpr h']

theorem toBuffer_bnOfNumber_eq_newBN (n : ℕ) :
    (Pda.Seed.bnOfNumber n).toBuffer = (newBN (.finite n)).bind (Pda.toBufferLE · 8) := by
  by_cases h : n < 2 ^ 53
  · rw [newBN_natCast h, Option.some_bind, Pda.Seed.toBuffer, if_pos h]
  · rw [newBN_natCast_of_le (not_lt.mp h), Pda.Seed.toBuffer, if_neg h]
    rfl

theorem elementAt_natCast (page : List κ) (n : ℕ) : elementAt page (.finite n) = page[n]? := by
  simp [elementAt]

/-! ## The loop over numbers is the loop over naturals -/

section Refinement

variable {P : Nat} {fetchPage : Nat → Option (List κ)}

theorem getPubkeyIndexPageId_natCast {n : Nat} (hn : n < 2 ^ 53) (hP : 0 < P) :
    getPubkeyIndexPageId n (.finite P) = some (.finite (n / P : ℕ)) := by
  rw [getPubkeyIndexPageId, bnToNumber, if_pos hn, Option.map_some', trunc_div_natCast hn hP]

theorem pageSeed_natCast (hP : 0 < P) {n : Nat} (hn : n < 2 ^ 53) :
    (getPubkeyIndexPageId n (.finite P)).bind newBN =
      some (PageIndex.getPubkeyIndexPageId n P) := by
  rw [getPubkeyIndexPageId_natCast hn hP, Option.some_bind,
    newBN_natCast ((Nat.div_le_self _ _).trans_lt hn)]
  rfl

theorem step_eq_step (hP : 0 < P) {c : Cursor κ} (hc : c.currentIdx < 2 ^ 53) :
    step (.finite P) fetchPage c = c.step P fetchPage := by
  have hid : newBN (.finite (c.currentIdx / P : ℕ)) = some (c.currentIdx / P) :=
    newBN_natCast ((Nat.div_le_self _ _).trans_lt hc)
  simp only [step, Cursor.step, getPubkeyIndexPageId_natCast hc hP, rem_natCast _ hP, hid,
    elementAt_natCast, JsNumber.finite.injEq, Nat.cast_eq_zero, Option.bind_eq_bind,
    Option.some_bind, PageIndex.getPubkeyIndexPageId]

theorem iteration_eq_next (hP : 0 < P) {c : Cursor κ} (hc : c.currentIdx < 2 ^ 53) :
    iteration (.finite P) fetchPage c = c.next P fetchPage := by
  rw [iteration, step_eq_step hP hc, Cursor.next]

theorem loop_eq_loop (hP : 0 < P) : ∀ (n : Nat) (c : Cursor κ), c.currentIdx + n ≤ 2 ^ 53 →
    loop (.finite P) fetchPage n c = IndexedKeys.loop P fetchPage n c
  | 0, _, _ => rfl
  | n + 1, c, hn => by
    rw [loop, IndexedKeys.loop, iteration_eq_next hP (by omega), Cursor.next_eq]
    cases (if c.currentIdx % P = 0 then fetchPage (c.currentIdx / P) else c.page) with
    | none => rfl
    | some page =>
      simp only [Option.map_some', Option.bind_eq_bind, Option.some_bind]
      rw [loop_eq_loop hP n _ (by dsimp only; omega)]

/-- Under page size 0 the first iteration throws: `0 % 0` is `NaN`, so no page is fetched. -/
theorem iteration_pageSize_zero (c : Cursor κ) (hpage : c.page = none) :
    iteration (.finite 0) fetchPage c = none := by
  unfold iteration step getPubkeyIndexPageId bnToNumber
  split_ifs <;> simp [JsNumber.rem, hpage]

theorem getIndexedKeys_of_lt (hP : 0 < P) {N : Nat} (hN : N < 2 ^ 53) :
    getIndexedKeys N (.finite P) fetchPage = IndexedKeys.getIndexedKeys N P fetchPage := by
  rw [getIndexedKeys, bnToNumber, if_pos hN, Option.some_bind,
    loop_eq_loop hP _ _ (by simpa [Cursor.start] using hN.le)]
  rfl

end Refinement

/-- `getIndexedKeys` over numbers yields what the model over naturals yields, and throws where
the code throws: from `2 ^ 53` keys (`BN.toNumber`), and under page size 0 once there is a key. -/
theorem getIndexedKeys_numbers (totalKeys pageSize : Nat) (fetchPage : Nat → Option (List κ)) :
    getIndexedKeys totalKeys (.finite pageSize) fetchPage =
      if totalKeys < 2 ^ 53 ∧ (0 < pageSize ∨ totalKeys = 0) then
        IndexedKeys.getIndexedKeys totalKeys pageSize fetchPage
      else none := by
  by_cases hN : totalKeys < 2 ^ 53
  · rcases Nat.eq_zero_or_pos pageSize with rfl | hP
    · cases totalKeys with
      | zero => rfl
      | succ n =>
        simp [getIndexedKeys, bnToNumber, hN, loop, iteration_pageSize_zero Cursor.start rfl]
    · rw [if_pos ⟨hN, .inl hP⟩, getIndexedKeys_of_lt hP hN]
  · rw [if_neg (fun h => hN h.1), getIndexedKeys, bnToNumber, if_neg hN]
    rfl

/-- Over the ledger any run of appends and generator steps leaves, `getIndexedKeys` over numbers
yields every committed key in commit order, while there are fewer than `2 ^ 53`. -/
theorem getIndexedKeys_numbers_committed {P : Nat} (hP : 0 < P) (as : List (Action κ)) :
    ∃ w, World.initial.run P as = some w ∧ (w.log.length < 2 ^ 53 →
      getIndexedKeys w.index.total (.finite P) w.index.pages = some (w.log.map some)) := by
  obtain ⟨w, hw, h, -⟩ := World.initial_inv.run hP as
  refine ⟨w, hw, fun hN => ?_⟩
  rw [h.index.total_eq, h.index.pages_eq, getIndexedKeys_of_lt hP hN]
  exact getIndexedKeys_pageOf hP w.log

theorem getIndexedKeys_numbers_committed_two_clients :
    0 < 2 ∧ ∃ w, World.initial.run 2 [Action.append 0 none 5, .append 0 none 6] = some w ∧
      (w.log.length < 2 ^ 53 →
        getIndexedKeys w.index.total (.finite 2) w.index.pages = some (w.log.map some)) :=
  ⟨by decide, getIndexedKeys_numbers_committed (by decide) _⟩

/-- With no `indexPageId`, the declared page seed is the page of the count over naturals, or
the runner throws: from `2 ^ 53` keys, and under page size 0 once there is a key. -/
theorem declared_page_seed_numbers (totalKeys pageSize : Nat) :
    (getPubkeyIndexPageId totalKeys (.finite pageSize)).bind newBN =
      if totalKeys < 2 ^ 53 ∧ (0 < pageSize ∨ totalKeys = 0) then
        some (PageIndex.getPubkeyIndexPageId totalKeys pageSize)
      else none := by
  by_cases hN : totalKeys < 2 ^ 53
  · rcases Nat.eq_zero_or_pos pageSize with rfl | hP
    · rcases Nat.eq_zero_or_pos totalKeys with rfl | hpos
      · rfl
      · have hq : (0 : ℚ) < totalKeys := by exact_mod_cast hpos
        simp [getPubkeyIndexPageId, bnToNumber, hN, JsNumber.div, hq.ne', hq, JsNumber.trunc,
          newBN, hpos.ne']
    · rw [pageSeed_natCast hP hN, if_pos ⟨hN, .inl hP⟩]
  · rw [if_neg (fun h => hN h.1), getPubkeyIndexPageId, bnToNumber, if_neg hN]
    rfl

/-! ## The interleaved run over numbers is the run over naturals -/

section Runs

variable {P : Nat}

theorem declaredPageSeed_eq (hP : 0 < P) {t : Nat} {p : Option Nat} (ht : t < 2 ^ 53)
    (hp : p.all (· < 2 ^ 53)) : declaredPageSeed (.finite P) t p = some (declaredPageId P t p) := by
  cases p with
  | none => exact pageSeed_natCast hP ht
  | some q => exact newBN_natCast (by simpa using hp)

theorem readerNext_eq_next (hP : 0 < P) {fetchPage : Nat → Option (List κ)} {r : Reader κ}
    (hr : r.totalKeys < 2 ^ 53) : readerNext (.finite P) fetchPage r = r.next P fetchPage := by
  rw [readerNext, bnToNumber, if_pos hr, Option.some_bind, Reader.next]
  unfold Reader.advance
  split_ifs with hlt
  · rw [step_eq_step hP (hlt.trans hr)]
  · rfl

theorem worldStep_eq_step (hP : 0 < P) {w : World κ} (h : w.Inv P)
    (htotal : w.index.total < 2 ^ 53) {a : Action κ} (ha : a.inRange) :
    worldStep P w a = w.step P a := by
  cases a with
  | append t p key =>
    simp only [Action.inRange, Bool.and_eq_true, decide_eq_true_eq] at ha
    rw [worldStep, declaredPageSeed_eq hP ha.1 ha.2]
    rfl
  | start => rfl
  | next =>
    cases hr : w.reader with
    | none => simp only [worldStep, World.step, hr]
    | some r =>
      have hlt : r.totalKeys < 2 ^ 53 := by
        have := (h.reader r hr).total_le; have := h.index.total_eq; omega
      simp only [worldStep, World.step, hr, readerNext_eq_next hP hlt]

theorem worldRun_eq_run (hP : 0 < P) : ∀ (as : List (Action κ)) {w : World κ}, w.Inv P →
    w.index.total + as.length ≤ 2 ^ 53 → (∀ a ∈ as, a.inRange) → worldRun P w as = w.run P as
  | [], _, _, _, _ => rfl
  | a :: as, w, h, hlen, hin => by
    obtain ⟨w', hw', h', -⟩ := h.step hP a
    have htotal := World.step_total_le hw'
    rw [List.length_cons] at hlen
    rw [worldRun, World.run, worldStep_eq_step hP h (by omega) (hin a (List.mem_cons_self a as)),
      hw', Option.some_bind, Option.some_bind, worldRun_eq_run hP as h' (by omega)
        fun b hb => hin b (List.mem_cons_of_mem a hb)]

end Runs

/-- Under a positive page size, a run of fewer than `2 ^ 53` actions whose counts and page ids
are below `2 ^ 53` computes over JavaScript numbers what it computes over naturals. -/
theorem world_run_numbers {P : Nat} (hP : 0 < P) (as : List (Action κ))
    (hlen : as.length ≤ 2 ^ 53) (hin : ∀ a ∈ as, a.inRange) :
    worldRun P World.initial as = World.initial.run P as :=
  worldRun_eq_run hP as World.initial_inv (by simpa [World.initial, IndexState.empty] using hlen)
    hin

theorem world_run_numbers_stale_page :
    0 < 2 ∧ [Action.append 0 none 5, .start, .append 0 (some 3) 6, .next].length ≤ 2 ^ 53 ∧
      (∀ a ∈ [Action.append 0 none 5, .start, .append 0 (some 3) 6, .next], a.inRange) ∧
      worldRun 2 World.initial [Action.append 0 none 5, .start, .append 0 (some 3) 6, .next] =
        World.initial.run 2 [Action.append 0 none 5, .start, .append 0 (some 3) 6, .next] :=
  ⟨by decide, by decide, by decide, world_run_numbers (by decide) _ (by decide) (by decide)⟩

end Justies.JsNumbers
