import Mathlib.Data.Nat.Bitwise

/-! # Keypair seeds of the dev environment

`DevEnvironment.generateKeypair` hands `randomSeed()` to `Keypair.fromSeed`; the major
signer, every token mint, every NFT mint and every client wallet come from it. `randomSeed`
fills 32 bytes, four from each of eight `rng.int32()` draws. A draw is its two's-complement
bit pattern, `&` and `>>` act on it as on a JavaScript int32, and a store into a
`Uint8Array` keeps the low byte (a store past the end is ignored, as `List.set` ignores it).
-/
namespace Justies.DevEnvironment

/-- `1 << 8 - 1`: JavaScript's `-` binds tighter than `<<`, so the shift is by 7. -/
def bitMask : BitVec 32 := 1 <<< (8 - 1)

/-- One pass of the inner loop for draw `i`: `randomSeed[i * 4 + j] = randomInt & bitMask`,
then `randomInt = randomInt >> 8`. -/
def storeByte (i : Nat) (acc : List UInt8 × BitVec 32) (j : Nat) : List UInt8 × BitVec 32 :=
  (acc.1.set (i * 4 + j) (UInt8.ofNat (acc.2 &&& bitMask).toNat), acc.2.sshiftRight 8)

/-- One pass of the outer loop: draw `randomInt = rng.int32()` and store its four bytes. -/
def storeDraw {σ : Type} (int32 : σ → BitVec 32 × σ) (acc : List UInt8 × σ) (i : Nat) :
    List UInt8 × σ :=
  let draw := int32 acc.2
  (((List.range 4).foldl (storeByte i) (acc.1, draw.1)).1, draw.2)

/-- `DevEnvironment.randomSeed`; `int32` is `rng.int32()`, the draw and the generator
after it. -/
def randomSeed {σ : Type} (int32 : σ → BitVec 32 × σ) (rng : σ) : List UInt8 × σ :=
  (List.range 8).foldl (storeDraw int32) (List.replicate 32 0, rng)

def MaskedByte (b : UInt8) : Prop := b = 0 ∨ b = 128

def MaskedSeed (n : Nat) (seed : List UInt8) : Prop := seed.length = n ∧ ∀ b ∈ seed, MaskedByte b

/-! ## The seed in closed form -/

/-- What `randomSeed` keeps of byte `j` of a draw: its bit `8 * j + 7`, in place. -/
def drawByte (draw : BitVec 32) (j : Nat) : UInt8 := if draw.getLsbD (8 * j + 7) then 128 else 0

def drawAt {σ : Type} (int32 : σ → BitVec 32 × σ) (rng : σ) (i : Nat) : BitVec 32 :=
  (int32 ((fun s => (int32 s).2)^[i] rng)).1

theorem storedByte_eq (y : BitVec 32) :
    UInt8.ofNat (y &&& bitMask).toNat = if y.getLsbD 7 then 128 else 0 := by
  have hmask : bitMask.toNat = 2 ^ 7 := rfl
  rw [BitVec.toNat_and, hmask, Nat.and_two_pow, ← BitVec.testBit_toNat]
  cases y.toNat.testBit 7 <;> rfl

theorem storeDraw_eq {σ : Type} (int32 : σ → BitVec 32 × σ) (bytes : List UInt8) (s : σ)
    (i : Nat) : storeDraw int32 (bytes, s) i =
      ((((bytes.set (i * 4) (drawByte (int32 s).1 0)).set (i * 4 + 1)
        (drawByte (int32 s).1 1)).set (i * 4 + 2) (drawByte (int32 s).1 2)).set (i * 4 + 3)
        (drawByte (int32 s).1 3), (int32 s).2) := by
  simp only [storeDraw, storeByte, List.range, List.range.loop, List.foldl, storedByte_eq]
  simp [drawByte, BitVec.getLsbD_sshiftRight]

theorem foldl_storeDraw {σ : Type} (int32 : σ → BitVec 32 × σ) (rng : σ) :
    ∀ n ≤ 8, (List.range n).foldl (storeDraw int32) (List.replicate 32 0, rng) =
      ((List.range 32).map fun k =>
        if k / 4 < n then drawByte (drawAt int32 rng (k / 4)) (k % 4) else 0,
        (fun s => (int32 s).2)^[n] rng)
  | 0, _ => by simp [List.map_const']
  | n + 1, hn => by
    rw [List.range_succ, List.foldl_append, foldl_storeDraw int32 rng n (by omega),
      List.foldl_cons, List.foldl_nil, storeDraw_eq, Function.iterate_succ_apply']
    refine Prod.ext (List.ext_getElem (by simp) fun k h₁ _ => ?_) rfl
    simp only [List.getElem_set, List.getElem_map, List.getElem_range, drawAt, List.length_map,
      List.length_range] at h₁ ⊢
    split_ifs <;> first | omega | rfl | (rw [show k / 4 = n by omega]; congr 1; omega)

theorem randomSeed_fst {σ : Type} (int32 : σ → BitVec 32 × σ) (rng : σ) :
    (randomSeed int32 rng).1 =
      (List.range 32).map fun k => drawByte (drawAt int32 rng (k / 4)) (k % 4) := by
  rw [randomSeed, foldl_storeDraw int32 rng 8 le_rfl]
  exact List.map_congr_left fun k hk => if_pos (by rw [List.mem_range] at hk; omega)

/-- `randomSeed` in closed form: byte `k` of the seed is bit `8 * (k % 4) + 7` of draw
`k / 4`, kept in place as 128 or 0, and the generator is left after eight draws. -/
theorem randomSeed_eq_drawn_bits {σ : Type} (int32 : σ → BitVec 32 × σ) (rng : σ) :
    randomSeed int32 rng =
      ((List.range 32).map fun k => drawByte (drawAt int32 rng (k / 4)) (k % 4),
        (fun s => (int32 s).2)^[8] rng) :=
  Prod.ext (randomSeed_fst int32 rng) (congrArg Prod.snd (foldl_storeDraw int32 rng 8 le_rfl))

/-- Draws of all ones, which a mask of `0xff` would store as 255s, store 128s. -/
example : (randomSeed (fun u : Unit => (BitVec.allOnes 32, u)) ()).1 = List.replicate 32 128 := by
  decide

theorem drawByte_masked (draw : BitVec 32) (j : Nat) : MaskedByte (drawByte draw j) := by
  unfold drawByte
  split
  · exact .inr rfl
  · exact .inl rfl

/-- Every seed `generateKeypair` uses has 32 bytes, each 0 or 128: the mask keeps one bit
of each byte of a draw, so a seed carries 32 bits of the generator's output, not 256. -/
theorem randomSeed_bytes_masked {σ : Type} (int32 : σ → BitVec 32 × σ) (rng : σ) :
    MaskedSeed 32 (randomSeed int32 rng).1 := by
  rw [randomSeed_fst]
  refine ⟨by simp, fun b hb => ?_⟩
  obtain ⟨k, -, rfl⟩ := List.mem_map.mp hb
  exact drawByte_masked _ _

end Justies.DevEnvironment
