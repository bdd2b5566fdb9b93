import Uros.Cap.Sha256

/-!
Hashing a message in pieces.

A context has absorbed a message when its state covers the whole blocks of it, its
buffer holds the rest and its counter the length in bits.  `sha256_update` keeps this
exactly when the buffer is empty or the piece completes the block in it: otherwise the
assignment to `buflen` after the loop forgets the pending bytes.
-/

namespace Uros.Cap

open Uros.Foundation

variable {compress : Compress} {ctx : Sha256Ctx} {total data : Bytes}

theorem compressBlocks_add (m n : Nat) (state : HashState) (data : Bytes) :
    compressBlocks compress (m + n) state data =
      compressBlocks compress n (compressBlocks compress m state data)
        (data.drop (64 * m)) := by
  induction m generalizing state data with
  | zero => simp [compressBlocks]
  | succ m ih =>
    rw [show m + 1 + n = m + n + 1 by omega, compressBlocks, ih, compressBlocks,
      List.drop_drop, show 64 * (m + 1) = 64 + 64 * m by omega]

theorem compressBlocks_append {m : Nat} {front : Bytes} (state : HashState) (back : Bytes)
    (h : 64 * m ≤ front.length) :
    compressBlocks compress m state (front ++ back) =
      compressBlocks compress m state front := by
  induction m generalizing state front with
  | zero => rfl
  | succ m ih =>
    rw [compressBlocks, compressBlocks, List.take_append_of_le_length (by omega),
      List.drop_append_of_le_length (by omega), ih _ (by simp; omega)]

theorem compressBlocks_succ (m : Nat) (state : HashState) (data : Bytes) :
    compressBlocks compress (m + 1) state data =
      compress (compressBlocks compress m state data) ((data.drop (64 * m)).take 64) := by
  rw [compressBlocks_add]
  rfl

def pendingOf (total : Bytes) : Bytes := total.drop (64 * (total.length / 64))

structure Absorbed (compress : Compress) (ctx : Sha256Ctx) (total : Bytes) : Prop where
  state : ctx.state = compressBlocks compress (total.length / 64) sha256Init.state total
  bitcount : ctx.bitcount = UInt64.ofNat (8 * total.length)
  buf : ctx.buf = pendingOf total

theorem length_pendingOf (total : Bytes) : (pendingOf total).length = total.length % 64 := by
  simp only [pendingOf, List.length_drop]
  omega

theorem Absorbed.length_buf (h : Absorbed compress ctx total) :
    ctx.buf.length = total.length % 64 := by
  rw [h.buf, length_pendingOf]

theorem Absorbed.ext {ctx' : Sha256Ctx} (h : Absorbed compress ctx total)
    (h' : Absorbed compress ctx' total) : ctx = ctx' := by
  cases ctx
  cases ctx'
  simp only [Sha256Ctx.mk.injEq]
  exact ⟨h.state.trans h'.state.symm, h.bitcount.trans h'.bitcount.symm,
    h.buf.trans h'.buf.symm⟩

theorem absorbed_sha256Init : Absorbed compress sha256Init [] where
  state := rfl
  bitcount := rfl
  buf := rfl

def Completes (pending : Nat) (data : Bytes) : Prop :=
  pending = 0 ∨ 64 ≤ pending + data.length

instance Completes.decidable (pending : Nat) (data : Bytes) :
    Decidable (Completes pending data) :=
  inferInstanceAs (Decidable (_ ∨ _))

theorem bitcount_append (total data : Bytes) :
    UInt64.ofNat (8 * total.length) + UInt64.ofNat data.length * 8 =
      UInt64.ofNat (8 * (total ++ data).length) := by
  rw [List.length_append, Nat.mul_add, UInt64.ofNat_add, Nat.mul_comm 8 data.length,
    UInt64.ofNat_mul data.length]
  rfl

theorem Absorbed.update_of_empty (h : Absorbed compress ctx total) (hbuf : ctx.buf = []) :
    Absorbed compress (sha256Update compress ctx data) (total ++ data) := by
  have hlen : total.length % 64 = 0 := by
    rw [← h.length_buf, hbuf]
    rfl
  have hblocks : (total ++ data).length / 64 = total.length / 64 + data.length / 64 := by
    rw [List.length_append]
    omega
  have hall : 64 * (total.length / 64) = total.length := by omega
  refine ⟨?_, ?_, ?_⟩
  · rw [hblocks, compressBlocks_add, compressBlocks_append _ _ (by omega), hall,
      List.drop_left, ← h.state]
    simp [sha256Update, hbuf]
  · rw [← bitcount_append, ← h.bitcount]
    rfl
  · rw [pendingOf, hblocks, Nat.mul_add, hall, ← List.drop_drop, List.drop_left]
    simp [sha256Update, hbuf]

theorem Absorbed.update_of_full (h : Absorbed compress ctx total) (hbuf : ctx.buf ≠ [])
    (hfull : 64 ≤ ctx.buf.length + data.length) :
    Absorbed compress (sha256Update compress ctx data) (total ++ data) := by
  have hbuflen := h.length_buf
  have hpos : 0 < ctx.buf.length := List.length_pos_iff.mpr hbuf
  -- The piece falls into the bytes that complete the pending block and the rest.
  obtain ⟨n, hn⟩ : ∃ n, n = 64 - ctx.buf.length := ⟨_, rfl⟩
  have hmin : min (64 - ctx.buf.length) data.length = n := by omega
  have hfilled : (ctx.buf ++ data.take n).length = 64 := by
    rw [List.length_append, List.length_take]
    omega
  have hblocks : (total ++ data).length / 64 =
      total.length / 64 + 1 + (data.length - n) / 64 := by
    rw [List.length_append]
    omega
  have hle : 64 * (total.length / 64) ≤ total.length := by omega
  have hskip : (total ++ data).drop (64 * (total.length / 64 + 1)) = data.drop n := by
    rw [List.drop_append, List.drop_eq_nil_of_le (by omega), List.nil_append]
    congr 1
    omega
  have hblock : ((total ++ data).drop (64 * (total.length / 64))).take 64 =
      ctx.buf ++ data.take n := by
    rw [List.drop_append_of_le_length hle, ← pendingOf, ← h.buf, List.take_append,
      List.take_of_length_le (by omega), ← hn]
  refine ⟨?_, ?_, ?_⟩
  · rw [hblocks, compressBlocks_add, compressBlocks_succ, hblock, hskip,
      compressBlocks_append _ _ hle, ← h.state]
    simp [sha256Update, hbuf, hmin, hfilled]
  · rw [← bitcount_append, ← h.bitcount]
    rfl
  · rw [pendingOf, hblocks, Nat.mul_add, ← List.drop_drop, hskip]
    simp [sha256Update, hbuf, hmin]

theorem Absorbed.update_iff (h : Absorbed compress ctx total) :
    Absorbed compress (sha256Update compress ctx data) (total ++ data) ↔
      Completes ctx.buf.length data := by
  have hbuflen := h.length_buf
  constructor
  · intro hafter
    by_contra hnot
    simp only [Completes, not_or, not_le] at hnot
    have hne : ctx.buf ≠ [] := by simpa using hnot.1
    have hmin : min (64 - ctx.buf.length) data.length = data.length := by omega
    have hlost : (sha256Update compress ctx data).buf = [] := by
      simp [sha256Update, hne, hmin]
    have hlen := hafter.length_buf
    rw [hlost, List.length_append, List.length_nil] at hlen
    omega
  · intro hcompletes
    by_cases hbuf : ctx.buf = []
    · exact h.update_of_empty hbuf
    · exact h.update_of_full hbuf (hcompletes.resolve_left (by simpa using hbuf))

def sha256Absorb (compress : Compress) (chunks : List Bytes) : Sha256Ctx :=
  chunks.foldl (sha256Update compress) sha256Init

/-- Every piece finds an empty buffer or completes the block in it. -/
def ChunksComplete (pending : Nat) : List Bytes → Prop
  | [] => True
  | data :: chunks =>
    Completes pending data ∧ ChunksComplete ((pending + data.length) % 64) chunks

instance ChunksComplete.decidable :
    (pending : Nat) → (chunks : List Bytes) → Decidable (ChunksComplete pending chunks)
  | _, [] => .isTrue trivial
  | pending, data :: chunks =>
    have := ChunksComplete.decidable ((pending + data.length) % 64) chunks
    inferInstanceAs (Decidable (_ ∧ _))

theorem Absorbed.pending_append (h : Absorbed compress ctx total) :
    (ctx.buf.length + data.length) % 64 = (total ++ data).length % 64 := by
  rw [h.length_buf, List.length_append]
  omega

theorem Absorbed.foldl {chunks : List Bytes} (h : Absorbed compress ctx total)
    (hchunks : ChunksComplete ctx.buf.length chunks) :
    Absorbed compress (chunks.foldl (sha256Update compress) ctx)
      (total ++ chunks.flatten) := by
  induction chunks generalizing ctx total with
  | nil => simpa using h
  | cons data chunks ih =>
    have hnext := h.update_iff.mpr hchunks.1
    rw [List.flatten_cons, ← List.append_assoc]
    refine ih hnext ?_
    rw [hnext.length_buf, ← h.pending_append]
    exact hchunks.2

theorem absorbed_one (total : Bytes) :
    Absorbed compress (sha256Update compress sha256Init total) total := by
  simpa using absorbed_sha256Init.update_iff.mpr (.inl rfl)

theorem Absorbed.chunksComplete {chunks : List Bytes} (h : Absorbed compress ctx total)
    (hall : ∀ front, front <+: chunks →
      Absorbed compress (front.foldl (sha256Update compress) ctx)
        (total ++ front.flatten)) :
    ChunksComplete ctx.buf.length chunks := by
  induction chunks generalizing ctx total with
  | nil => trivial
  | cons data chunks ih =>
    have hnext : Absorbed compress (sha256Update compress ctx data) (total ++ data) := by
      simpa using hall [data] (by simp)
    refine ⟨h.update_iff.mp hnext, ?_⟩
    rw [h.pending_append, ← hnext.length_buf]
    refine ih hnext fun front hfront => ?_
    have := hall (data :: front) (by simpa using hfront)
    simpa using this

theorem ChunksComplete.front {pending : Nat} {front chunks : List Bytes}
    (h : ChunksComplete pending chunks) (hfront : front <+: chunks) :
    ChunksComplete pending front := by
  induction chunks generalizing pending front with
  | nil => simpa [List.prefix_nil.mp hfront] using h
  | cons data chunks ih =>
    cases front with
    | nil => trivial
    | cons data' front =>
      obtain ⟨rfl, hrest⟩ := List.cons_prefix_cons.mp hfront
      exact ⟨h.1, ih h.2 hrest⟩

theorem ChunksComplete.absorb {chunks : List Bytes} (h : ChunksComplete 0 chunks) :
    sha256Absorb compress chunks = sha256Update compress sha256Init chunks.flatten := by
  have hchunks : Absorbed compress (sha256Absorb compress chunks) ([] ++ chunks.flatten) :=
    absorbed_sha256Init.foldl h
  exact hchunks.ext (absorbed_one _)

/-- The context is that of one update on the concatenation, at every point of the list,
exactly when every piece completes the pending block or finds none; the digest is then
that of the concatenation. -/
theorem sha256Absorb_flatten_iff (compress : Compress) (chunks : List Bytes) :
    (ChunksComplete 0 chunks ↔
      ∀ front, front <+: chunks →
        sha256Absorb compress front = sha256Update compress sha256Init front.flatten) ∧
    (ChunksComplete 0 chunks →
      sha256Final compress (sha256Absorb compress chunks) =
        sha256 compress chunks.flatten) := by
  refine ⟨⟨fun h front hfront => (h.front hfront).absorb, fun hall => ?_⟩, fun h => ?_⟩
  · have hinit : Absorbed compress sha256Init [] := absorbed_sha256Init
    refine hinit.chunksComplete fun front hfront => ?_
    have hone := hall front hfront
    rw [sha256Absorb] at hone
    rw [hone]
    exact absorbed_one _
  · rw [h.absorb]
    rfl

/-- Three pieces, the second completing a block and the third starting with an empty
buffer. -/
theorem sha256Absorb_flatten_pieces :
    let chunks : List Bytes := [[0x61], List.replicate 63 0x62, [0x63]]
    ChunksComplete 0 chunks ∧
      sha256Final sha256CompressC (sha256Absorb sha256CompressC chunks) =
        sha256 sha256CompressC chunks.flatten :=
  have hchunks : ChunksComplete 0 [[0x61], List.replicate 63 0x62, [0x63]] := by decide
  ⟨hchunks, (sha256Absorb_flatten_iff sha256CompressC _).2 hchunks⟩

/-- Hashing "ab" in two pieces gives another digest than hashing it at once: the first
byte is dropped, and so is the second. -/
theorem sha256Absorb_two_bytes :
    ¬ChunksComplete 0 [[0x61], [0x62]] ∧
      sha256Absorb sha256CompressC [[0x61], [0x62]] =
        { sha256Init with bitcount := 16 } ∧
      sha256Final sha256CompressC (sha256Absorb sha256CompressC [[0x61], [0x62]]) ≠
        sha256 sha256CompressC [0x61, 0x62] := by
  refine ⟨by decide, rfl, ?_⟩
  decide +kernel

end Uros.Cap
