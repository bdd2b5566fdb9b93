import Uros.Cap.Fips

/-!
The block function of `sha256_shani.c`.

A 128-bit register is its four 32-bit lanes; the byte operations go through the sixteen
bytes.  The SHA instructions have their documented meaning: `SHA256RNDS2` does two rounds
on registers that hold `ABEF` and `CDGH`, `SHA256MSG1` and `SHA256MSG2` build the next four
words of the schedule.  The routine is shown equal to the portable one.
-/

namespace Uros.Cap

open Uros.Foundation Fips

structure M128 where
  lane0 : UInt32
  lane1 : UInt32
  lane2 : UInt32
  lane3 : UInt32
deriving DecidableEq

namespace M128

variable (a b k : M128)

def lane (i : Nat) : UInt32 :=
  match i % 4 with
  | 0 => a.lane0
  | 1 => a.lane1
  | 2 => a.lane2
  | _ => a.lane3

def toBytes : Bytes :=
  u32Bytes a.lane0 ++ u32Bytes a.lane1 ++ u32Bytes a.lane2 ++ u32Bytes a.lane3

def ofBytes (bytes : Bytes) : M128 :=
  let word (i : Nat) := UInt32.ofNat (leNat ((bytes.drop (4 * i)).take 4))
  ⟨word 0, word 1, word 2, word 3⟩

end M128

def mmLoaduState (state : HashState) (i : Nat) : M128 :=
  let word (j : Nat) := state.toArray.getD (i + j) 0
  ⟨word 0, word 1, word 2, word 3⟩

def mmLoaduBytes (block : Bytes) (i : Nat) : M128 := .ofBytes ((block.drop i).take 16)

def mmSetEpi64x (hi lo : UInt64) : M128 :=
  ⟨lo.toUInt32, (lo >>> 32).toUInt32, hi.toUInt32, (hi >>> 32).toUInt32⟩

def mmAddEpi32 (a b : M128) : M128 :=
  ⟨a.lane0 + b.lane0, a.lane1 + b.lane1, a.lane2 + b.lane2, a.lane3 + b.lane3⟩

def mmShuffleEpi32 (a : M128) (imm : Nat) : M128 :=
  ⟨a.lane imm, a.lane (imm >>> 2), a.lane (imm >>> 4), a.lane (imm >>> 6)⟩

def mmShuffleEpi8 (a mask : M128) : M128 :=
  .ofBytes (mask.toBytes.map fun m =>
    if m.toNat < 128 then a.toBytes.getD (m.toNat % 16) 0 else 0)

def mmAlignrEpi8 (a b : M128) (n : Nat) : M128 :=
  .ofBytes (((b.toBytes ++ a.toBytes).drop n).take 16)

def mmBlendEpi16 (a b : M128) (imm : Nat) : M128 :=
  .ofBytes ((List.range 16).map fun i =>
    if imm.testBit (i / 2) then b.toBytes.getD i 0 else a.toBytes.getD i 0)

/-- `SHA256RNDS2`: two rounds from `C, D, G, H` in `a` and `A, B, E, F` in `b`, high lane
first, with the sums of word and constant in the two low lanes of `k`. -/
def mmSha256rnds2Epu32 (a b k : M128) : M128 :=
  let ⟨A₀, B₀, E₀, F₀⟩ := (b.lane3, b.lane2, b.lane1, b.lane0)
  let ⟨C₀, D₀, G₀, H₀⟩ := (a.lane3, a.lane2, a.lane1, a.lane0)
  let t := Ch E₀ F₀ G₀ + bigSigma1 E₀ + k.lane0 + H₀
  let ⟨A₁, B₁, C₁, D₁⟩ := (t + Maj A₀ B₀ C₀ + bigSigma0 A₀, A₀, B₀, C₀)
  let ⟨E₁, F₁, G₁, H₁⟩ := (t + D₀, E₀, F₀, G₀)
  let t := Ch E₁ F₁ G₁ + bigSigma1 E₁ + k.lane1 + H₁
  let ⟨A₂, B₂⟩ := (t + Maj A₁ B₁ C₁ + bigSigma0 A₁, A₁)
  let ⟨E₂, F₂⟩ := (t + D₁, E₁)
  ⟨F₂, E₂, B₂, A₂⟩

def mmSha256msg1Epu32 (a b : M128) : M128 :=
  ⟨a.lane0 + smallSigma0 a.lane1, a.lane1 + smallSigma0 a.lane2,
    a.lane2 + smallSigma0 a.lane3, a.lane3 + smallSigma0 b.lane0⟩

def mmSha256msg2Epu32 (a b : M128) : M128 :=
  let w16 := a.lane0 + smallSigma1 b.lane2
  let w17 := a.lane1 + smallSigma1 b.lane3
  let w18 := a.lane2 + smallSigma1 w16
  let w19 := a.lane3 + smallSigma1 w17
  ⟨w16, w17, w18, w19⟩

def bswapMask : M128 := mmSetEpi64x 0x0c0d0e0f08090a0b 0x0405060700010203

structure ShaNiState where
  state0 : M128
  state1 : M128

def roundsOnly (s : ShaNiState) (ma : M128) (kHi kLo : UInt64) : ShaNiState :=
  let msg := mmAddEpi32 ma (mmSetEpi64x kHi kLo)
  let state1 := mmSha256rnds2Epu32 s.state1 s.state0 msg
  let msg := mmShuffleEpi32 msg 0x0E
  let state0 := mmSha256rnds2Epu32 s.state0 state1 msg
  ⟨state0, state1⟩

def round4NoMsg1 (s : ShaNiState) (ma mb md : M128) (kHi kLo : UInt64) : ShaNiState × M128 :=
  let msg := mmAddEpi32 ma (mmSetEpi64x kHi kLo)
  let state1 := mmSha256rnds2Epu32 s.state1 s.state0 msg
  let tmp := mmAlignrEpi8 ma md 4
  let mb := mmAddEpi32 mb tmp
  let mb := mmSha256msg2Epu32 mb ma
  let msg := mmShuffleEpi32 msg 0x0E
  let state0 := mmSha256rnds2Epu32 s.state0 state1 msg
  (⟨state0, state1⟩, mb)

def round4 (s : ShaNiState) (ma mb md : M128) (kHi kLo : UInt64) :
    ShaNiState × M128 × M128 :=
  let (s, mb) := round4NoMsg1 s ma mb md kHi kLo
  let md := mmSha256msg1Epu32 md ma
  (s, mb, md)

def loadState (state : HashState) : ShaNiState :=
  let tmp := mmLoaduState state 0
  let state1 := mmLoaduState state 4
  let tmp := mmShuffleEpi32 tmp 0xB1
  let state1 := mmShuffleEpi32 state1 0x1B
  let state0 := mmAlignrEpi8 tmp state1 8
  let state1 := mmBlendEpi16 state1 tmp 0xF0
  ⟨state0, state1⟩

def storeState (s : ShaNiState) : HashState :=
  let tmp := mmShuffleEpi32 s.state0 0x1B
  let state1 := mmShuffleEpi32 s.state1 0xB1
  let state0 := mmBlendEpi16 tmp state1 0xF0
  let state1 := mmAlignrEpi8 state1 tmp 8
  #v[state0.lane0, state0.lane1, state0.lane2, state0.lane3,
    state1.lane0, state1.lane1, state1.lane2, state1.lane3]

def sha256CompressShani : Compress := fun state block =>
  let saved := loadState state
  let msg0 := mmShuffleEpi8 (mmLoaduBytes block 0) bswapMask
  let s := roundsOnly saved msg0 0xE9B5DBA5B5C0FBCF 0x71374491428A2F98
  let msg1 := mmShuffleEpi8 (mmLoaduBytes block 16) bswapMask
  let s := roundsOnly s msg1 0xAB1C5ED5923F82A4 0x59F111F13956C25B
  let msg0 := mmSha256msg1Epu32 msg0 msg1
  let msg2 := mmShuffleEpi8 (mmLoaduBytes block 32) bswapMask
  let s := roundsOnly s msg2 0x550C7DC3243185BE 0x12835B01D807AA98
  let msg1 := mmSha256msg1Epu32 msg1 msg2
  let msg3 := mmShuffleEpi8 (mmLoaduBytes block 48) bswapMask
  -- Rounds 12-15 are written out in the source and are those of the macro.
  let (s, msg0, msg2) := round4 s msg3 msg0 msg2 0xC19BF1749BDC06A7 0x80DEB1FE72BE5D74
  let (s, msg1, msg3) := round4 s msg0 msg1 msg3 0x240CA1CC0FC19DC6 0xEFBE4786E49B69C1
  let (s, msg2, msg0) := round4 s msg1 msg2 msg0 0x76F988DA5CB0A9DC 0x4A7484AA2DE92C6F
  let (s, msg3, msg1) := round4 s msg2 msg3 msg1 0xBF597FC7B00327C8 0xA831C66D983E5152
  let (s, msg0, msg2) := round4 s msg3 msg0 msg2 0x1429296706CA6351 0xD5A79147C6E00BF3
  let (s, msg1, msg3) := round4 s msg0 msg1 msg3 0x53380D134D2C6DFC 0x2E1B213827B70A85
  let (s, msg2, msg0) := round4 s msg1 msg2 msg0 0x92722C8581C2C92E 0x766A0ABB650A7354
  let (s, msg3, msg1) := round4 s msg2 msg3 msg1 0xC76C51A3C24B8B70 0xA81A664BA2BFE8A1
  let (s, msg0, msg2) := round4 s msg3 msg0 msg2 0x106AA070F40E3585 0xD6990624D192E819
  let (s, msg1, msg3) := round4 s msg0 msg1 msg3 0x34B0BCB52748774C 0x1E376C0819A4C116
  let (s, msg2) := round4NoMsg1 s msg1 msg2 msg0 0x682E6FF35B9CCA4F 0x4ED8AA4A391C0CB3
  let (s, msg3) := round4NoMsg1 s msg2 msg3 msg1 0x8CC7020884C87814 0x78A5636F748F82EE
  let s := roundsOnly s msg3 0xC67178F2BEF9A3F7 0xA4506CEB90BEFFFA
  storeState ⟨mmAddEpi32 s.state0 saved.state0, mmAddEpi32 s.state1 saved.state1⟩

theorem ofNat_leNat_u32Bytes (x : UInt32) : UInt32.ofNat (leNat (u32Bytes x)) = x := by
  rw [u32Bytes, leNat_leBytes x.toNat_lt, UInt32.ofNat_toNat]

theorem M128.ofBytes_toBytes (a : M128) : M128.ofBytes a.toBytes = a :=
  calc
    ofBytes a.toBytes = ⟨UInt32.ofNat (leNat (u32Bytes a.lane0)),
        UInt32.ofNat (leNat (u32Bytes a.lane1)), UInt32.ofNat (leNat (u32Bytes a.lane2)),
        UInt32.ofNat (leNat (u32Bytes a.lane3))⟩ := rfl
    _ = a := by simp only [ofNat_leNat_u32Bytes]

theorem u32Bytes_ofNat_leNat (a b c d : UInt8) :
    u32Bytes (UInt32.ofNat (leNat [a, b, c, d])) = [a, b, c, d] := by
  have hlt := leNat_lt [a, b, c, d]
  rw [u32Bytes, UInt32.toNat_ofNat', Nat.mod_eq_of_lt (by simpa using hlt)]
  have ha := a.toNat_lt
  have hb := b.toNat_lt
  have hc := c.toNat_lt
  have hd := d.toNat_lt
  simp only [leNat, leBytes, List.cons.injEq, and_true]
  refine ⟨?_, ?_, ?_, ?_⟩
  all_goals
    apply UInt8.toNat_inj.mp
    rw [UInt8.toNat_ofNat']
    omega

theorem mmShuffleEpi8_bswap {bytes : Bytes} (hlen : bytes.length = 16) :
    mmShuffleEpi8 (.ofBytes bytes) bswapMask =
      ⟨M bytes 0, M bytes 1, M bytes 2, M bytes 3⟩ := by
  match bytes, hlen with
  | [b0, b1, b2, b3, b4, b5, b6, b7, b8, b9, b10, b11, b12, b13, b14, b15], _ =>
    have hbytes : (M128.ofBytes [b0, b1, b2, b3, b4, b5, b6, b7, b8, b9, b10, b11, b12, b13,
        b14, b15]).toBytes =
          [b0, b1, b2, b3, b4, b5, b6, b7, b8, b9, b10, b11, b12, b13, b14, b15] := by
      simp only [M128.toBytes, M128.ofBytes]
      simp only [Nat.mul_zero, List.drop_zero, List.take_succ_cons, List.take_zero, Nat.reduceMul,
        List.drop_succ_cons, u32Bytes_ofNat_leNat]
      rfl
    have hmask : bswapMask.toBytes =
        [3, 2, 1, 0, 7, 6, 5, 4, 11, 10, 9, 8, 15, 14, 13, 12] := by decide
    rw [mmShuffleEpi8, hbytes, hmask]
    rfl

theorem mmAlignrEpi8_four (a b : M128) :
    mmAlignrEpi8 a b 4 = ⟨b.lane1, b.lane2, b.lane3, a.lane0⟩ := by
  rw [mmAlignrEpi8, ← M128.ofBytes_toBytes ⟨b.lane1, b.lane2, b.lane3, a.lane0⟩]
  rfl

theorem mmAlignrEpi8_eight (a b : M128) :
    mmAlignrEpi8 a b 8 = ⟨b.lane2, b.lane3, a.lane0, a.lane1⟩ := by
  rw [mmAlignrEpi8, ← M128.ofBytes_toBytes ⟨b.lane2, b.lane3, a.lane0, a.lane1⟩]
  rfl

theorem mmBlendEpi16_high (a b : M128) :
    mmBlendEpi16 a b 0xF0 = ⟨a.lane0, a.lane1, b.lane2, b.lane3⟩ := by
  rw [mmBlendEpi16, ← M128.ofBytes_toBytes ⟨a.lane0, a.lane1, b.lane2, b.lane3⟩]
  rfl

def quad (block : Bytes) (q : Nat) : M128 :=
  ⟨W block (4 * q), W block (4 * q + 1), W block (4 * q + 2), W block (4 * q + 3)⟩

def halfQuad (block : Bytes) (q : Nat) : M128 :=
  mmSha256msg1Epu32 (quad block q) (quad block (q + 1))

theorem loadWords {block : Bytes} (hlen : block.length = 64) {q : Nat} (hq : q < 4) :
    mmShuffleEpi8 (mmLoaduBytes block (16 * q)) bswapMask = quad block q := by
  have hword {i : Nat} (hi : i < 4) :
      M ((block.drop (16 * q)).take 16) i = W block (4 * q + i) := by
    rw [W, if_pos (by omega), M, M, List.drop_take, List.take_take, List.drop_drop,
      show min 4 (16 - 4 * i) = 4 by omega, show 16 * q + 4 * i = 4 * (4 * q + i) by omega]
  rw [mmLoaduBytes, mmShuffleEpi8_bswap (by simp; omega), hword (by omega), hword (by omega),
    hword (by omega), hword (by omega)]
  rfl

theorem W_step (block : Bytes) (t : Nat) :
    W block (t + 16) = W block t + smallSigma0 (W block (t + 1)) + W block (t + 9) +
      smallSigma1 (W block (t + 14)) := by
  rw [W, if_neg (by omega), show t + 16 - 2 = t + 14 by omega, show t + 16 - 7 = t + 9 by omega,
    show t + 16 - 15 = t + 1 by omega, Nat.add_sub_cancel]
  ac_rfl

theorem nextQuad (block : Bytes) (q : Nat) :
    mmSha256msg2Epu32
      (mmAddEpi32 (halfQuad block q)
        (mmAlignrEpi8 (quad block (q + 3)) (quad block (q + 2)) 4)) (quad block (q + 3)) =
      quad block (q + 4) := by
  have h0 := W_step block (4 * q)
  have h1 := W_step block (4 * q + 1)
  have h2 := W_step block (4 * q + 2)
  have h3 := W_step block (4 * q + 3)
  rw [mmAlignrEpi8_four]
  simp only [halfQuad, quad, mmSha256msg1Epu32, mmSha256msg2Epu32, mmAddEpi32, Nat.mul_add,
    Nat.reduceMul, Nat.add_assoc, Nat.reduceAdd] at h0 h1 h2 h3 ⊢
  rw [h2, h3, h0, h1]

def roundStep (v : HashState) (wk : UInt32) : HashState :=
  let T₁ := varH v + bigSigma1 (varE v) + Ch (varE v) (varF v) (varG v) + wk
  let T₂ := bigSigma0 (varA v) + Maj (varA v) (varB v) (varC v)
  #v[T₁ + T₂, varA v, varB v, varC v, varD v + T₁, varE v, varF v, varG v]

theorem working_succ (state : HashState) (block : Bytes) (t : Nat) :
    working state block (t + 1) = roundStep (working state block t) (W block t + K t) := by
  have hsum (x : UInt32) : x + K t + W block t = x + (W block t + K t) := by
    rw [UInt32.add_comm (W block t), UInt32.add_assoc]
  simp only [working, roundStep, hsum]

theorem roundStep_eq (v : HashState) (wk : UInt32) :
    roundStep v wk =
      let t := Ch (varE v) (varF v) (varG v) + bigSigma1 (varE v) + wk + varH v
      #v[t + Maj (varA v) (varB v) (varC v) + bigSigma0 (varA v), varA v, varB v, varC v,
        t + varD v, varE v, varF v, varG v] := by
  have hA : varH v + bigSigma1 (varE v) + Ch (varE v) (varF v) (varG v) + wk +
      (bigSigma0 (varA v) + Maj (varA v) (varB v) (varC v)) =
        Ch (varE v) (varF v) (varG v) + bigSigma1 (varE v) + wk + varH v + Maj (varA v) (varB v) (varC v) +
          bigSigma0 (varA v) := by ac_rfl
  have hE : varD v + (varH v + bigSigma1 (varE v) + Ch (varE v) (varF v) (varG v) + wk) =
      Ch (varE v) (varF v) (varG v) + bigSigma1 (varE v) + wk + varH v + varD v := by ac_rfl
  simp only [roundStep, hA, hE]

def pack (v : HashState) : ShaNiState where
  state0 := ⟨varF v, varE v, varB v, varA v⟩
  state1 := ⟨varH v, varG v, varD v, varC v⟩

theorem mmSha256rnds2_pack (v : HashState) (k : M128) :
    mmSha256rnds2Epu32 (pack v).state1 (pack v).state0 k =
      (pack (roundStep (roundStep v k.lane0) k.lane1)).state0 ∧
    (pack v).state0 = (pack (roundStep (roundStep v k.lane0) k.lane1)).state1 := by
  rw [roundStep_eq, roundStep_eq]
  exact ⟨rfl, rfl⟩

theorem fourRounds_pack (v : HashState) (m : M128) :
    let state1 := mmSha256rnds2Epu32 (pack v).state1 (pack v).state0 m
    ShaNiState.mk (mmSha256rnds2Epu32 (pack v).state0 state1 (mmShuffleEpi32 m 0x0E)) state1 =
      pack (roundStep (roundStep (roundStep (roundStep v m.lane0) m.lane1) m.lane2) m.lane3) := by
  obtain ⟨hfirst, hfirst'⟩ := mmSha256rnds2_pack v m
  obtain ⟨hsecond, hsecond'⟩ :=
    mmSha256rnds2_pack (roundStep (roundStep v m.lane0) m.lane1) (mmShuffleEpi32 m 0x0E)
  dsimp only
  rw [hfirst, hfirst', hsecond, hsecond']
  rfl

def KQuad (q : Nat) : M128 := ⟨K (4 * q), K (4 * q + 1), K (4 * q + 2), K (4 * q + 3)⟩

section Rounds

variable {state : HashState} {block : Bytes} {q : Nat} {kHi kLo : UInt64}

theorem roundsOnly_pack (hk : mmSetEpi64x kHi kLo = KQuad q) :
    roundsOnly (pack (working state block (4 * q))) (quad block q) kHi kLo =
      pack (working state block (4 * (q + 1))) := by
  rw [show 4 * (q + 1) = 4 * q + 1 + 1 + 1 + 1 by omega, working_succ, working_succ,
    working_succ, working_succ, roundsOnly, hk]
  exact fourRounds_pack _ _

theorem round4NoMsg1_pack (hk : mmSetEpi64x kHi kLo = KQuad (q + 3)) :
    round4NoMsg1 (pack (working state block (4 * (q + 3)))) (quad block (q + 3))
        (halfQuad block q) (quad block (q + 2)) kHi kLo =
      (pack (working state block (4 * (q + 4))), quad block (q + 4)) :=
  Prod.ext (roundsOnly_pack hk) (nextQuad block q)

theorem round4_pack (hk : mmSetEpi64x kHi kLo = KQuad (q + 3)) :
    round4 (pack (working state block (4 * (q + 3)))) (quad block (q + 3))
        (halfQuad block q) (quad block (q + 2)) kHi kLo =
      (pack (working state block (4 * (q + 4))), quad block (q + 4),
        halfQuad block (q + 2)) := by
  rw [round4, round4NoMsg1_pack hk]
  rfl

end Rounds

theorem loadState_eq (state : HashState) : loadState state = pack state := by
  simp only [loadState, mmAlignrEpi8_eight, mmBlendEpi16_high]
  simp [mmShuffleEpi32, M128.lane, mmLoaduState, pack, varA, varB, varC, varD, varE, varF, varG,
    varH]

theorem storeState_add (v w : HashState) :
    storeState ⟨mmAddEpi32 (pack v).state0 (pack w).state0,
      mmAddEpi32 (pack v).state1 (pack w).state1⟩ = Fips.addWords v w := by
  simp only [storeState, mmAlignrEpi8_eight, mmBlendEpi16_high]
  rfl

theorem sha256CompressShani_of_length (state : HashState) {block : Bytes}
    (hlen : block.length = 64) :
    sha256CompressShani state block = sha256CompressC state block := by
  have hload0 : mmShuffleEpi8 (mmLoaduBytes block 0) bswapMask = quad block 0 :=
    loadWords hlen (q := 0) (by decide)
  have hload1 : mmShuffleEpi8 (mmLoaduBytes block 16) bswapMask = quad block 1 :=
    loadWords hlen (q := 1) (by decide)
  have hload2 : mmShuffleEpi8 (mmLoaduBytes block 32) bswapMask = quad block 2 :=
    loadWords hlen (q := 2) (by decide)
  have hload3 : mmShuffleEpi8 (mmLoaduBytes block 48) bswapMask = quad block 3 :=
    loadWords hlen (q := 3) (by decide)
  have hmsg0 : mmSha256msg1Epu32 (quad block 0) (quad block 1) = halfQuad block 0 := rfl
  have hmsg1 : mmSha256msg1Epu32 (quad block 1) (quad block 2) = halfQuad block 1 := rfl
  -- The constants in the immediates are those of the rounds, four at a time.
  have hk (q : Nat) (kHi kLo : UInt64) (h : mmSetEpi64x kHi kLo =
      ⟨roundConstants.getD (4 * q) 0, roundConstants.getD (4 * q + 1) 0,
        roundConstants.getD (4 * q + 2) 0, roundConstants.getD (4 * q + 3) 0⟩) :
      mmSetEpi64x kHi kLo = KQuad q := by
    rw [h, KQuad]
    simp only [roundConstants_getD]
  have h0 : roundsOnly (pack state) (quad block 0) 0xE9B5DBA5B5C0FBCF 0x71374491428A2F98 =
      pack (working state block 4) :=
    roundsOnly_pack (q := 0) (hk 0 _ _ (by decide +kernel))
  have h1 := @roundsOnly_pack state block 1 _ _
    (hk 1 0xAB1C5ED5923F82A4 0x59F111F13956C25B (by decide +kernel))
  have h2 := @roundsOnly_pack state block 2 _ _
    (hk 2 0x550C7DC3243185BE 0x12835B01D807AA98 (by decide +kernel))
  have h3 := @round4_pack state block 0 _ _
    (hk 3 0xC19BF1749BDC06A7 0x80DEB1FE72BE5D74 (by decide +kernel))
  have h4 := @round4_pack state block 1 _ _
    (hk 4 0x240CA1CC0FC19DC6 0xEFBE4786E49B69C1 (by decide +kernel))
  have h5 := @round4_pack state block 2 _ _
    (hk 5 0x76F988DA5CB0A9DC 0x4A7484AA2DE92C6F (by decide +kernel))
  have h6 := @round4_pack state block 3 _ _
    (hk 6 0xBF597FC7B00327C8 0xA831C66D983E5152 (by decide +kernel))
  have h7 := @round4_pack state block 4 _ _
    (hk 7 0x1429296706CA6351 0xD5A79147C6E00BF3 (by decide +kernel))
  have h8 := @round4_pack state block 5 _ _
    (hk 8 0x53380D134D2C6DFC 0x2E1B213827B70A85 (by decide +kernel))
  have h9 := @round4_pack state block 6 _ _
    (hk 9 0x92722C8581C2C92E 0x766A0ABB650A7354 (by decide +kernel))
  have h10 := @round4_pack state block 7 _ _
    (hk 10 0xC76C51A3C24B8B70 0xA81A664BA2BFE8A1 (by decide +kernel))
  have h11 := @round4_pack state block 8 _ _
    (hk 11 0x106AA070F40E3585 0xD6990624D192E819 (by decide +kernel))
  have h12 := @round4_pack state block 9 _ _
    (hk 12 0x34B0BCB52748774C 0x1E376C0819A4C116 (by decide +kernel))
  have h13 := @round4NoMsg1_pack state block 10 _ _
    (hk 13 0x682E6FF35B9CCA4F 0x4ED8AA4A391C0CB3 (by decide +kernel))
  have h14 := @round4NoMsg1_pack state block 11 _ _
    (hk 14 0x8CC7020884C87814 0x78A5636F748F82EE (by decide +kernel))
  have h15 := @roundsOnly_pack state block 15 _ _
    (hk 15 0xC67178F2BEF9A3F7 0xA4506CEB90BEFFFA (by decide +kernel))
  simp only [Nat.reduceAdd, Nat.reduceMul] at h1 h2 h3 h4 h5 h6 h7 h8 h9 h10 h11 h12 h13 h14 h15
  rw [sha256CompressC_eq _ hlen, hashBlock, sha256CompressShani]
  simp only [loadState_eq, hload0, hload1, hload2, hload3, hmsg0, hmsg1, h0, h1, h2, h3, h4, h5,
    h6, h7, h8, h9, h10, h11, h12, h13, h14, h15]
  exact storeState_add _ _

/-- The accelerated block function computes the same new state as the portable one, for
every state and every block. -/
theorem sha256CompressShani_eq (state : HashState) (block : Vector UInt8 64) :
    sha256CompressShani state block.toList = sha256CompressC state block.toList :=
  sha256CompressShani_of_length state (by simp)

end Uros.Cap
