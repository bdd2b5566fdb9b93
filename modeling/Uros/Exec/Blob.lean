import Uros.Foundation.Bytes

/-!
The wire format of argument vectors between the client library and exec_server.

The client writes the strings of a vector with their terminators, one after the other,
and a last NUL.  The server counts strings until the first empty one.
-/

namespace Uros.Exec

open Uros.Foundation

def blobMax : Nat := 4096

def strings (vec : List CString) : Bytes := vec.flatMap fun s => s.1 ++ [0]

@[simp] theorem strings_nil : strings [] = [] := rfl

@[simp] theorem strings_cons (s : CString) (vec : List CString) :
    strings (s :: vec) = s.1 ++ [0] ++ strings vec := rfl

/-- The loop of `serialise_blob` over the rest of the vector; `acc` is what it has written.
Without a buffer the call only measures. -/
def serialiseFrom (bufSize : Option Nat) : List CString → Bytes → Option Bytes
  | [], acc => if bufSize.any (· ≤ acc.length) then none else some (acc ++ [0])
  | s :: vec, acc =>
    let n := s.1.length + 1
    if blobMax < acc.length + n + 1 then none
    else if bufSize.any (· < acc.length + n) then none
    else serialiseFrom bufSize vec (acc ++ (s.1 ++ [0]))

def serialiseBlob (vec : List CString) (bufSize : Option Nat) : Option Bytes :=
  serialiseFrom bufSize vec []

theorem serialiseFrom_eq {bufSize : Option Nat} (hsize : ∀ n ∈ bufSize, n = blobMax)
    (vec : List CString) (acc : Bytes) (hacc : acc.length < blobMax) :
    serialiseFrom bufSize vec acc =
      if acc.length + (strings vec).length + 1 ≤ blobMax
      then some (acc ++ strings vec ++ [0]) else none := by
  induction vec generalizing acc with
  | nil =>
    have hroom : bufSize.any (fun n => decide (n ≤ acc.length)) = false := by
      cases bufSize with
      | none => rfl
      | some n => simpa [hsize n rfl] using Nat.not_le.mpr hacc
    rw [serialiseFrom, hroom, if_neg Bool.false_ne_true, strings_nil, List.length_nil,
      Nat.add_zero, if_pos (Nat.add_one_le_iff.mpr hacc), List.append_nil]
  | cons s vec ih =>
    have hlen : (strings (s :: vec)).length = s.1.length + 1 + (strings vec).length := by
      simp
      omega
    unfold serialiseFrom
    by_cases hbig : blobMax < acc.length + (s.1.length + 1) + 1
    · rw [if_pos hbig, if_neg (by omega)]
    · have hroom : bufSize.any (fun n => decide (n < acc.length + (s.1.length + 1))) = false := by
        cases bufSize with
        | none => rfl
        | some n => simp [hsize n rfl]; omega
      have hacc' : (acc ++ (s.1 ++ [0])).length = acc.length + (s.1.length + 1) := by simp
      rw [if_neg hbig, hroom, if_neg (by simp), ih _ (by omega), hacc']
      rw [hlen, strings_cons]
      simp only [List.append_assoc, Nat.add_assoc]

theorem serialiseBlob_eq {bufSize : Option Nat} (hsize : ∀ n ∈ bufSize, n = blobMax)
    (vec : List CString) :
    serialiseBlob vec bufSize =
      if (strings vec).length + 1 ≤ blobMax then some (strings vec ++ [0]) else none := by
  have h := serialiseFrom_eq hsize vec [] (by decide)
  simpa [serialiseBlob] using h

/-- The loop of `blob_count` over the rest of the blob: the length of the string it is in,
the strings so far and their bytes. -/
def blobCountFrom : Bytes → Nat → Nat → Nat → Option (Nat × Nat)
  | [], _, _, _ => none
  | b :: rest, thisLen, n, strBytes =>
    if b = 0 then
      if thisLen = 0 then some (n, strBytes)
      else blobCountFrom rest 0 (n + 1) (strBytes + (thisLen + 1))
    else blobCountFrom rest (thisLen + 1) n strBytes

def blobCount (buf : Bytes) : Option (Nat × Nat) := blobCountFrom buf 0 0 0

theorem blobCountFrom_string {s : Bytes} (hs : (0 : UInt8) ∉ s) (rest : Bytes)
    (thisLen n strBytes : Nat) :
    blobCountFrom (s ++ rest) thisLen n strBytes =
      blobCountFrom rest (thisLen + s.length) n strBytes := by
  induction s generalizing thisLen with
  | nil => rfl
  | cons b s ih =>
    have hb : b ≠ 0 := fun h => hs (h ▸ List.mem_cons_self)
    rw [List.cons_append, blobCountFrom, if_neg hb,
      ih (fun h => hs (List.mem_cons_of_mem _ h)), List.length_cons, Nat.add_assoc,
      Nat.add_comm 1]

theorem blobCountFrom_strings {vec : List CString} (hvec : ∀ s ∈ vec, s.1 ≠ []) (rest : Bytes)
    (n strBytes : Nat) :
    blobCountFrom (strings vec ++ 0 :: rest) 0 n strBytes =
      some (n + vec.length, strBytes + (strings vec).length) := by
  induction vec generalizing n strBytes with
  | nil => simp [blobCountFrom]
  | cons s vec ih =>
    have hs : s.1.length ≠ 0 := by simpa using hvec s (by simp)
    rw [strings_cons, List.append_assoc, List.append_assoc, blobCountFrom_string s.2,
      List.singleton_append, blobCountFrom, if_pos rfl, Nat.zero_add, if_neg hs,
      ih fun t ht => hvec t (by simp [ht])]
    simp only [List.length_append, List.length_cons, List.length_nil, Option.some.injEq,
      Prod.mk.injEq]
    omega

def leading (vec : List CString) : List CString := vec.takeWhile fun s => s.1 ≠ []

theorem ne_nil_of_mem_leading {vec : List CString} {s : CString} (h : s ∈ leading vec) :
    s.1 ≠ [] := by
  simpa using List.mem_takeWhile_imp h

theorem leading_eq_self {vec : List CString} (h : ∀ s ∈ vec, s.1 ≠ []) : leading vec = vec :=
  List.takeWhile_eq_self_iff.mpr fun s hs => by simpa using h s hs

theorem leading_length_le (vec : List CString) : (leading vec).length ≤ vec.length :=
  (List.takeWhile_prefix _).length_le

theorem ne_nil_of_leading_length {vec : List CString}
    (h : (leading vec).length = vec.length) : ∀ s ∈ vec, s.1 ≠ [] := by
  have hself : leading vec = vec := (List.takeWhile_prefix _).eq_of_length h
  intro s hs
  exact ne_nil_of_mem_leading (hself.symm ▸ hs)

theorem serialised_eq (vec : List CString) :
    ∃ rest, strings vec ++ [0] = strings (leading vec) ++ 0 :: rest := by
  induction vec with
  | nil => exact ⟨[], rfl⟩
  | cons s vec ih =>
    by_cases hs : s.1 = []
    · refine ⟨strings vec ++ [0], ?_⟩
      simp [leading, hs]
    · obtain ⟨rest, hrest⟩ := ih
      refine ⟨rest, ?_⟩
      have hlead : leading (s :: vec) = s :: leading vec := by simp [leading, hs]
      rw [hlead, strings_cons, strings_cons, List.append_assoc _ (strings vec), hrest,
        ← List.append_assoc]

theorem blobCount_strings (vec : List CString) :
    blobCount (strings vec ++ [0]) =
      some ((leading vec).length, (strings (leading vec)).length) := by
  obtain ⟨rest, hrest⟩ := serialised_eq vec
  rw [hrest, blobCount, blobCountFrom_strings fun s hs => ne_nil_of_mem_leading hs]
  simp

end Uros.Exec
