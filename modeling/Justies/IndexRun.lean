import Mathlib.Algebra.Group.Nat.Basic
import Justies.IndexedKeys

/-! # Appends and a running generator, interleaved

Clients append to one index while a `getIndexedKeys` generator walks it. A client declares
the page id of a count it read at some earlier time, or the one its caller passed; the
program commits the append only if that page is the current one. The generator reads the
counter once, when it starts, and each iteration reads the pages as they are at that moment.
`World.log` records the committed keys in commit order; the ledger does not hold it.
-/
namespace Justies.IndexRun

open Justies.PageIndex Justies.IndexedKeys

variable {κ : Type}

/-- The page id `addCurrencyTokenToAllowlist`, `addNftCollectionToAllowlist`, `makeBid` and
`buyRaffleTickets` send: the caller's `indexPageId`, or else the page of the count read. -/
def declaredPageId (numKeysPerIndexPage totalKeys : Nat) (indexPageId : Option Nat) : Nat :=
  indexPageId.getD (getPubkeyIndexPageId totalKeys numKeysPerIndexPage)

/-- A `getIndexedKeys` generator in flight: the `totalKeys` it started with, its loop
variables, what it has yielded and which pages it has fetched. -/
structure Reader (κ : Type) where
  totalKeys : Nat
  cursor : Cursor κ
  yielded : List (Option κ)
  fetched : List Nat

def Reader.start (totalKeys : Nat) : Reader κ := ⟨totalKeys, .start, [], []⟩

@[simp] theorem Reader.start_totalKeys (n : Nat) : (Reader.start n : Reader κ).totalKeys = n := rfl

@[simp] theorem Reader.start_currentIdx (n : Nat) :
    (Reader.start n : Reader κ).cursor.currentIdx = 0 := rfl

/-- One iteration by `step` while `currentIdx < totalKeys`; a finished generator stays as
it is. -/
def Reader.advance (step : Cursor κ → Option (List Nat × Cursor κ × Option κ)) (r : Reader κ) :
    Option (Reader κ) :=
  if r.cursor.currentIdx < r.totalKeys then
    (step r.cursor).map fun (fetched, cursor, key) =>
      { r with cursor := cursor, yielded := r.yielded ++ [key], fetched := r.fetched ++ fetched }
  else some r

def Reader.next (pageSize : Nat) (fetchPage : Nat → Option (List κ)) (r : Reader κ) :
    Option (Reader κ) :=
  r.advance (Cursor.step pageSize fetchPage)

structure World (κ : Type) where
  index : IndexState κ
  log : List κ
  reader : Option (Reader κ)

def World.initial : World κ := ⟨.empty, [], none⟩

inductive Action (κ : Type) where
  /-- An append reaches the program, declaring `declaredPageId` of the count the client
  read, however stale, or of its caller's `indexPageId`. -/
  | append (observedTotal : Nat) (indexPageId : Option Nat) (key : κ)
  | start
  | next
  deriving DecidableEq

def Action.isNext : Action κ → Bool
  | .next => true
  | _ => false

/-- The count and the page id an action carries are below `2 ^ 53`, where numbers are exact. -/
def Action.inRange : Action κ → Bool
  | .append observedTotal indexPageId _ =>
    decide (observedTotal < 2 ^ 53) && indexPageId.all (· < 2 ^ 53)
  | _ => true

/-- A step of the run; `none` is the generator throwing. -/
def World.step (pageSize : Nat) (w : World κ) : Action κ → Option (World κ)
  | .append observedTotal indexPageId key =>
    let pageId := declaredPageId pageSize observedTotal indexPageId
    some <| match w.index.append pageSize pageId key with
      | some index => { w with index := index, log := w.log ++ [key] }
      | none => w
  | .start => some { w with reader := some (.start w.index.total) }
  | .next => match w.reader with
    | none => some w
    | some r => (r.next pageSize w.index.pages).map fun r' => { w with reader := some r' }

def World.run (pageSize : Nat) (w : World κ) : List (Action κ) → Option (World κ)
  | [] => some w
  | a :: as => (w.step pageSize a).bind fun w' => w'.run pageSize as

/-- A generator started over the first `totalKeys` keys of `log` has yielded the keys before
`currentIdx` in order, fetched each page it entered once, and holds its current page. -/
structure Reader.Inv (P : Nat) (log : List κ) (r : Reader κ) : Prop where
  total_le : r.totalKeys ≤ log.length
  idx_le : r.cursor.currentIdx ≤ r.totalKeys
  yielded_eq : r.yielded = (log.take r.cursor.currentIdx).map some
  fetched_eq : r.fetched = List.range ((r.cursor.currentIdx + P - 1) / P)
  page_eq : r.cursor.currentIdx % P ≠ 0 → ∃ page, r.cursor.page = some page ∧
    ∀ j < P, r.cursor.currentIdx / P * P + j < r.totalKeys →
      page[j]? = log[r.cursor.currentIdx / P * P + j]?

structure World.Inv (P : Nat) (w : World κ) : Prop where
  index : Represents P w.log w.index
  reader : ∀ r, w.reader = some r → r.Inv P w.log

section Arithmetic

variable {P : Nat}

theorem range_ceil_succ (hP : 0 < P) (i : Nat) :
    List.range ((i + 1 + P - 1) / P) =
      List.range ((i + P - 1) / P) ++ if i % P = 0 then [getPubkeyIndexPageId i P] else [] := by
  have hdm := Nat.div_add_mod' i P
  have hr := Nat.mod_lt i hP
  have hsucc : (i / P + 1) * P = i / P * P + P := Nat.succ_mul _ _
  have hsucc₂ : (i / P + 1 + 1) * P = i / P * P + P + P := by rw [Nat.succ_mul, hsucc]
  have e₁ : (i + 1 + P - 1) / P = i / P + 1 := Nat.div_eq_of_lt_le (by omega) (by omega)
  by_cases h0 : i % P = 0
  · have e₂ : (i + P - 1) / P = i / P := Nat.div_eq_of_lt_le (by omega) (by omega)
    rw [e₁, e₂, List.range_succ, if_pos h0, getPubkeyIndexPageId]
  · have e₂ : (i + P - 1) / P = i / P + 1 := Nat.div_eq_of_lt_le (by omega) (by omega)
    rw [e₁, e₂, if_neg h0, List.append_nil]

end Arithmetic

section Reader

variable {P : Nat} {log : List κ} {r : Reader κ}

theorem Reader.Inv.append_log (h : r.Inv P log) (k : κ) : r.Inv P (log ++ [k]) where
  total_le := by rw [List.length_append]; exact Nat.le_succ_of_le h.total_le
  idx_le := h.idx_le
  yielded_eq := by
    rw [h.yielded_eq, List.take_append_of_le_length (h.idx_le.trans h.total_le)]
  fetched_eq := h.fetched_eq
  page_eq := fun h0 => by
    obtain ⟨page, hp, hj⟩ := h.page_eq h0
    refine ⟨page, hp, fun j hjP hj' => ?_⟩
    rw [hj j hjP hj', List.getElem?_append_left (by have := h.total_le; omega)]

theorem Reader.Inv.start (hP : 0 < P) (log : List κ) : (Reader.start log.length).Inv P log where
  total_le := le_rfl
  idx_le := Nat.zero_le _
  yielded_eq := rfl
  fetched_eq := by
    simp [Reader.start, Cursor.start, Nat.div_eq_of_lt (show P - 1 < P by omega)]
  page_eq := fun h0 => absurd (Nat.zero_mod P) h0

theorem Reader.Inv.current_page {s : IndexState κ} (hs : Represents P log s)
    (h : r.Inv P log) (hlt : r.cursor.currentIdx < r.totalKeys) :
    ∃ page, (if r.cursor.currentIdx % P = 0 then s.pages (r.cursor.currentIdx / P)
      else r.cursor.page) = some page ∧
      ∀ j < P, r.cursor.currentIdx / P * P + j < r.totalKeys →
        page[j]? = log[r.cursor.currentIdx / P * P + j]? := by
  by_cases h0 : r.cursor.currentIdx % P = 0
  · have hbase := Nat.div_mul_le_self r.cursor.currentIdx P
    have := h.total_le
    rw [if_pos h0, hs.pages_eq, pageOf_of_lt (by omega)]
    exact ⟨_, rfl, fun j hj _ => by rw [List.getElem?_take_of_lt hj, List.getElem?_drop]⟩
  · rw [if_neg h0]
    exact h.page_eq h0

theorem Reader.Inv.next (hP : 0 < P) {s : IndexState κ} (hs : Represents P log s)
    (h : r.Inv P log) :
    ∃ r', r.next P s.pages = some r' ∧ r'.Inv P log ∧ r'.totalKeys = r.totalKeys ∧
      r'.cursor.currentIdx = min r.totalKeys (r.cursor.currentIdx + 1) := by
  by_cases hlt : r.cursor.currentIdx < r.totalKeys
  · obtain ⟨page, hpage, hkeys⟩ := h.current_page hs hlt
    have hdm := Nat.div_add_mod' r.cursor.currentIdx P
    have hlog : r.cursor.currentIdx < log.length := by have := h.total_le; omega
    have hkey : page[r.cursor.currentIdx % P]? = some log[r.cursor.currentIdx] := by
      rw [hkeys _ (Nat.mod_lt _ hP) (by omega), hdm, List.getElem?_eq_getElem hlog]
    refine ⟨{ r with cursor := ⟨r.cursor.currentIdx + 1, some page⟩,
                     yielded := r.yielded ++ [page[r.cursor.currentIdx % P]?],
                     fetched := r.fetched ++ if r.cursor.currentIdx % P = 0 then
                       [getPubkeyIndexPageId r.cursor.currentIdx P] else [] },
      by rw [Reader.next, Reader.advance, if_pos hlt, Cursor.step_eq, Cursor.next_eq, hpage]; rfl,
      ⟨h.total_le, hlt, ?_, ?_, fun h0 => ⟨page, rfl, ?_⟩⟩, rfl, by dsimp only; omega⟩
    · dsimp only
      rw [h.yielded_eq, hkey]
      simp only [List.take_succ, List.getElem?_eq_getElem hlog, Option.toList_some,
        List.map_append, List.map_cons, List.map_nil]
    · dsimp only
      rw [h.fetched_eq, range_ceil_succ hP]
    · dsimp only at h0 ⊢
      rw [Nat.succ_div_of_not_dvd fun hd => h0 (Nat.mod_eq_zero_of_dvd hd)]
      exact hkeys
  · exact ⟨r, if_neg hlt, h, rfl, by have := h.idx_le; omega⟩

end Reader

section World

variable {P : Nat} {w : World κ}

theorem World.initial_inv : (World.initial : World κ).Inv P :=
  ⟨⟨rfl, funext fun q => (pageOf_nil P q).symm⟩, fun _ h => by cases h⟩

theorem World.Inv.step_append (hP : 0 < P) (h : w.Inv P) (t : Nat) (p : Option Nat)
    (key : κ) : ∃ w', w.step P (.append t p key) = some w' ∧ w'.Inv P ∧
      w.log <+: w'.log ∧ w'.reader = w.reader := by
  by_cases hq : declaredPageId P t p = w.index.total / P
  · obtain ⟨s', hs', hrep⟩ := (h.index.append hP _ key).1 hq
    exact ⟨{ w with index := s', log := w.log ++ [key] }, by simp only [World.step, hs'],
      ⟨hrep, fun r hr => (h.reader r hr).append_log key⟩, List.prefix_append _ _, rfl⟩
  · exact ⟨w, by simp only [World.step, (h.index.append hP _ key).2 hq], h,
      List.prefix_refl _, rfl⟩

theorem World.Inv.step_start (hP : 0 < P) (h : w.Inv P) :
    ∃ w', w.step P .start = some w' ∧ w'.Inv P ∧ w'.log = w.log ∧
      w'.reader = some (.start w.index.total) :=
  ⟨_, rfl, ⟨h.index, fun r hr => by
    cases hr; rw [h.index.total_eq]; exact Reader.Inv.start hP _⟩, rfl, rfl⟩

theorem World.Inv.step_next (hP : 0 < P) (h : w.Inv P) :
    ∃ w', w.step P .next = some w' ∧ w'.Inv P ∧ w'.log = w.log ∧
      ∀ r, w.reader = some r → ∃ r', w'.reader = some r' ∧ r'.totalKeys = r.totalKeys ∧
        r'.cursor.currentIdx = min r.totalKeys (r.cursor.currentIdx + 1) := by
  cases hr : w.reader with
  | none => exact ⟨w, by simp only [World.step, hr], h, rfl, fun _ h => by cases h⟩
  | some r =>
    obtain ⟨r', hnext, hinv, htotal, hidx⟩ := (h.reader r hr).next hP h.index
    refine ⟨{ w with reader := some r' }, by simp only [World.step, hr, hnext]; rfl,
      ⟨h.index, fun r'' hr'' => ?_⟩, rfl, fun r'' hr'' => ?_⟩
    · cases hr''; exact hinv
    · cases hr''; exact ⟨r', rfl, htotal, hidx⟩

theorem World.Inv.step (hP : 0 < P) (h : w.Inv P) (a : Action κ) :
    ∃ w', w.step P a = some w' ∧ w'.Inv P ∧ w.log <+: w'.log := by
  cases a with
  | append t p key =>
    obtain ⟨w', hw', hinv, hlog, -⟩ := h.step_append hP t p key
    exact ⟨w', hw', hinv, hlog⟩
  | start =>
    obtain ⟨w', hw', hinv, hlog, -⟩ := h.step_start hP
    exact ⟨w', hw', hinv, hlog ▸ List.prefix_refl _⟩
  | next =>
    obtain ⟨w', hw', hinv, hlog, -⟩ := h.step_next hP
    exact ⟨w', hw', hinv, hlog ▸ List.prefix_refl _⟩

theorem World.step_total_le {w' : World κ} {a : Action κ} (h : w.step P a = some w') :
    w'.index.total ≤ w.index.total + 1 := by
  cases a with
  | append t p key =>
    cases Option.some.inj h
    split
    · next hs => exact (IndexState.append_total hs).le
    · exact Nat.le_succ _
  | start => cases h; exact Nat.le_succ _
  | next =>
    simp only [World.step] at h
    split at h
    · cases h; exact Nat.le_succ _
    · obtain ⟨_, -, rfl⟩ := Option.map_eq_some'.mp h; exact Nat.le_succ _

theorem World.run_append (w : World κ) (as bs : List (Action κ)) :
    w.run P (as ++ bs) = (w.run P as).bind fun w' => w'.run P bs := by
  induction as generalizing w with
  | nil => rfl
  | cons a as ih =>
    simp only [List.cons_append, World.run]
    cases w.step P a with
    | none => rfl
    | some w' => exact ih w'

/-- No schedule makes the generator throw, and every reachable world keeps the invariant. -/
theorem World.Inv.run (hP : 0 < P) : ∀ (as : List (Action κ)) {w : World κ}, w.Inv P →
    ∃ w', w.run P as = some w' ∧ w'.Inv P ∧ w.log <+: w'.log
  | [], w, h => ⟨w, rfl, h, List.prefix_refl _⟩
  | a :: as, w, h => by
    obtain ⟨w₁, hw₁, h₁, hlog₁⟩ := h.step hP a
    obtain ⟨w₂, hw₂, h₂, hlog₂⟩ := h₁.run hP as
    exact ⟨w₂, by rw [World.run, hw₁, Option.some_bind, hw₂], h₂, hlog₁.trans hlog₂⟩

/-- Whatever appends reach the program and whatever generators run meanwhile, no update is
lost or duplicated: page `q` holds committed keys `qP .. qP + P - 1` in commit order. -/
theorem index_pages_hold_committed_keys (hP : 0 < P) (as : List (Action κ)) :
    ∃ w, World.initial.run P as = some w ∧ w.index.total = w.log.length ∧
      ∀ q, w.index.pages q = pageOf P w.log q := by
  obtain ⟨w, hw, h, -⟩ := World.initial_inv.run hP as
  exact ⟨w, hw, h.index.total_eq, congrFun h.index.pages_eq⟩

theorem index_pages_hold_committed_keys_two_clients :
    0 < 2 ∧ ∃ w, World.initial.run 2 [Action.append 0 none 5, .append 0 none 6] = some w ∧
      w.index.total = w.log.length ∧ ∀ q, w.index.pages q = pageOf 2 w.log q :=
  ⟨by decide, index_pages_hold_committed_keys (by decide) _⟩

theorem World.Inv.step_reader (hP : 0 < P) (h : w.Inv P) {r : Reader κ} (hr : w.reader = some r)
    {a : Action κ} (ha : a ≠ .start) :
    ∃ w' r', w.step P a = some w' ∧ w'.Inv P ∧ w.log <+: w'.log ∧ w'.reader = some r' ∧
      r'.totalKeys = r.totalKeys ∧
      r'.cursor.currentIdx = min r.totalKeys (r.cursor.currentIdx + if a.isNext then 1 else 0) := by
  have hidx := (h.reader r hr).idx_le
  cases a with
  | append t p key =>
    obtain ⟨w', hw', hinv, hlog, hr'⟩ := h.step_append hP t p key
    exact ⟨w', r, hw', hinv, hlog, hr'.trans hr, rfl, by simp [Action.isNext]; omega⟩
  | start => exact absurd rfl ha
  | next =>
    obtain ⟨w', hw', hinv, hlog, hr'⟩ := h.step_next hP
    obtain ⟨r', hr'', ht, hi⟩ := hr' r hr
    exact ⟨w', r', hw', hinv, hlog ▸ List.prefix_refl _, hr'', ht, by simpa [Action.isNext]⟩

/-- Between restarts each `next` runs one iteration until the generator is done. -/
theorem World.Inv.run_reader (hP : 0 < P) : ∀ (as : List (Action κ)) {w : World κ} {r : Reader κ},
    w.Inv P → w.reader = some r → (∀ a ∈ as, a ≠ .start) →
    ∃ w' r', w.run P as = some w' ∧ w'.Inv P ∧ w.log <+: w'.log ∧ w'.reader = some r' ∧
      r'.totalKeys = r.totalKeys ∧
      r'.cursor.currentIdx = min r.totalKeys (r.cursor.currentIdx + as.countP Action.isNext)
  | [], w, r, h, hr, _ => ⟨w, r, rfl, h, List.prefix_refl _, hr, rfl,
      by have := (h.reader r hr).idx_le; simp; omega⟩
  | a :: as, w, r, h, hr, hstart => by
    obtain ⟨w₁, r₁, hw₁, h₁, hlog₁, hr₁, ht₁, hi₁⟩ :=
      h.step_reader hP hr (hstart a (List.mem_cons_self a as))
    obtain ⟨w₂, r₂, hw₂, h₂, hlog₂, hr₂, ht₂, hi₂⟩ :=
      h₁.run_reader hP as hr₁ fun b hb => hstart b (List.mem_cons_of_mem a hb)
    refine ⟨w₂, r₂, by rw [World.run, hw₁, Option.some_bind, hw₂], h₂, hlog₁.trans hlog₂, hr₂,
      ht₂.trans ht₁, ?_⟩
    rw [hi₂, ht₁, hi₁, List.countP_cons]
    split_ifs <;> omega

end World

/-- Whatever appends run meanwhile, a generator started at count `N` yields the first `N`
committed keys in order, fetches pages `0 .. ⌈N / P⌉ - 1` once each, and never throws. -/
theorem getIndexedKeys_interleaved_appends {P : Nat} (hP : 0 < P) (pre post : List (Action κ))
    (hpost : ∀ a ∈ post, a ≠ .start) :
    ∃ w₀ w r, World.initial.run P pre = some w₀ ∧
      World.initial.run P (pre ++ .start :: post) = some w ∧ w.reader = some r ∧
      r.totalKeys = w₀.index.total ∧ w₀.log.length = w₀.index.total ∧ w₀.log <+: w.log ∧
      r.cursor.currentIdx = min r.totalKeys (post.countP Action.isNext) ∧
      r.yielded = (w₀.log.take r.cursor.currentIdx).map some ∧
      r.fetched = List.range ((r.cursor.currentIdx + P - 1) / P) ∧
      (r.totalKeys ≤ post.countP Action.isNext →
        r.yielded = w₀.log.map some ∧ r.fetched = List.range ((r.totalKeys + P - 1) / P)) := by
  obtain ⟨w₀, hw₀, h₀, -⟩ := World.initial_inv.run hP pre
  obtain ⟨w₁, hw₁, h₁, hlog₁, hr₁⟩ := h₀.step_start hP
  obtain ⟨w, r, hw, h, hlog, hr, htotal, hidx⟩ := h₁.run_reader hP post hr₁ hpost
  simp only [Reader.start_totalKeys, Reader.start_currentIdx, Nat.zero_add] at htotal hidx
  have hinv := h.reader r hr
  have hlen := h₀.index.total_eq
  have hpre : w.log.take r.totalKeys = w₀.log := by
    rw [htotal, hlen, ← hlog₁]
    exact (List.prefix_iff_eq_take.mp hlog).symm
  have hyield : r.yielded = (w₀.log.take r.cursor.currentIdx).map some := by
    rw [hinv.yielded_eq, ← hpre, List.take_take, Nat.min_eq_left hinv.idx_le]
  refine ⟨w₀, w, r, hw₀, by rw [World.run_append, hw₀, Option.some_bind, World.run, hw₁,
      Option.some_bind, hw], hr, htotal, hlen.symm, hlog₁ ▸ hlog, htotal ▸ hidx,
    hyield, hinv.fetched_eq, fun hdone => ?_⟩
  have hend : r.cursor.currentIdx = r.totalKeys := by omega
  rw [hyield, hinv.fetched_eq, hend, ← hpre, List.take_take, Nat.min_self, hpre]
  exact ⟨rfl, rfl⟩

/-- An append declaring a stale page while the generator runs is rejected. -/
theorem getIndexedKeys_interleaved_appends_one_key :
    0 < 2 ∧ (∀ a ∈ [Action.append 0 (some 3) 6, .next], a ≠ .start) ∧
    ∃ w₀ w r, World.initial.run 2 [.append 0 none 5] = some w₀ ∧
      World.initial.run 2 ([.append 0 none 5] ++ .start :: [.append 0 (some 3) 6, .next]) =
        some w ∧ w.reader = some r ∧
      r.totalKeys = w₀.index.total ∧ w₀.log.length = w₀.index.total ∧ w₀.log <+: w.log ∧
      r.cursor.currentIdx =
        min r.totalKeys ([Action.append 0 (some 3) 6, .next].countP Action.isNext) ∧
      r.yielded = (w₀.log.take r.cursor.currentIdx).map some ∧
      r.fetched = List.range ((r.cursor.currentIdx + 2 - 1) / 2) ∧
      (r.totalKeys ≤ [Action.append 0 (some 3) 6, .next].countP Action.isNext →
        r.yielded = w₀.log.map some ∧ r.fetched = List.range ((r.totalKeys + 2 - 1) / 2)) :=
  ⟨by decide, by decide, getIndexedKeys_interleaved_appends (by decide) _ _ (by decide)⟩

end Justies.IndexRun
