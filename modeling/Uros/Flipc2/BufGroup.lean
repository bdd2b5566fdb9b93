import Mathlib.Data.Nat.Basic
import Uros.Flipc2.Channel

/-!
Buffer groups (`libflipc2/flipc2_bufgroup.c`): a pool of slots in memory that several
channels share.  The payload of a descriptor is an offset into the slots.  Pointers
have 32 bits and the null pointer is `0`.
-/

namespace Uros.Flipc2

open Uros.Foundation

structure BufgroupHeader where
  magic : UInt32
  version : UInt32
  poolSize : UInt32
  slotSize : UInt32
  slotCount : UInt32
  nextOffset : UInt32
  dataOffset : UInt32
  slotStride : UInt32
  deriving DecidableEq, Repr

structure Bufgroup where
  next : UInt32
  data : UInt32
  deriving DecidableEq, Repr

def bufgroupMagic : UInt32 := 0x46425032
def bufgroupVersion : UInt32 := 1
def bufgroupHeaderSize : UInt32 := 64

def bufgroupInitHandle (base : UInt32) (hdr : BufgroupHeader) : Bufgroup :=
  ⟨base + hdr.nextOffset, base + hdr.dataOffset⟩

def bufgroupAttach (base : UInt32) (hdr : BufgroupHeader) (handle : Bool) :
    Except Flipc2Error Bufgroup :=
  if base = 0 then .error .invalidArgument
  else if hdr.magic ≠ bufgroupMagic ∨ hdr.version ≠ bufgroupVersion then .error .notConnected
  else if hdr.slotCount = 0 ∨ hdr.slotStride = 0 then .error .invalidArgument
  else if hdr.nextOffset ≠ bufgroupHeaderSize then .error .invalidArgument
  else if handle = false then .error .resourceShortage
  else .ok (bufgroupInitHandle base hdr)

def bufgroupDataSafe (bg : Bufgroup) (hdr : BufgroupHeader) (offset length : UInt64) :
    UInt32 :=
  let slot := offset.toUInt32 / hdr.slotStride
  if slot ≥ hdr.slotCount then 0
  else if length > hdr.slotSize.toUInt64 then 0
  else if offset + length < offset then 0
  else bg.data + offset.toUInt32

variable {base : UInt32} {hdr : BufgroupHeader} {handle : Bool} {bg : Bufgroup}
  {offset length : UInt64}

theorem bufgroupAttach_eq_ok : bufgroupAttach base hdr handle = .ok bg ↔
    base ≠ 0 ∧ (hdr.magic = bufgroupMagic ∧ hdr.version = bufgroupVersion) ∧
      (hdr.slotCount ≠ 0 ∧ hdr.slotStride ≠ 0) ∧ hdr.nextOffset = bufgroupHeaderSize ∧
      handle = true ∧ bg = bufgroupInitHandle base hdr := by
  simp only [bufgroupAttach, ite_error_eq_ok, Except.ok.injEq, not_or, ne_eq, not_not,
    Bool.not_eq_false, @eq_comm _ _ bg]

theorem bufgroupDataSafe_ne_null : bufgroupDataSafe bg hdr offset length ≠ 0 ↔
    (offset.toNat % 2 ^ 32) / hdr.slotStride.toNat < hdr.slotCount.toNat ∧
      length.toNat ≤ hdr.slotSize.toNat ∧ offset.toNat + length.toNat < 2 ^ 64 ∧
      bg.data + offset.toUInt32 ≠ 0 := by
  have hoffset := offset.toNat_lt
  have hlength := length.toNat_lt
  simp only [bufgroupDataSafe, ne_eq, ite_eq_left_iff, not_forall, exists_prop, ge_iff_le,
    gt_iff_lt, UInt32.le_iff_toNat_le, UInt64.lt_iff_toNat_lt, UInt64.toNat_add,
    UInt32.toNat_toUInt64, UInt32.toNat_div, UInt64.toNat_toUInt32]
  by_cases hnull : bg.data + offset.toUInt32 = 0
  · simp [hnull]
  · simp only [hnull, not_false_eq_true, and_true]
    omega

def InOneSlot (hdr : BufgroupHeader) (offset length : Nat) : Prop :=
  ∃ slot < hdr.slotCount.toNat, ∀ i < length,
    slot * hdr.slotStride.toNat ≤ offset + i ∧
      offset + i < (slot + 1) * hdr.slotStride.toNat ∧
      hdr.dataOffset.toNat + offset + i < hdr.poolSize.toNat

def DataSafeSound (bg : Bufgroup) (hdr : BufgroupHeader) (offset length : UInt64) : Prop :=
  bufgroupDataSafe bg hdr offset length ≠ 0 → InOneSlot hdr offset.toNat length.toNat

theorem inOneSlot_iff (hcount : 0 < hdr.slotCount.toNat) (hstride : 0 < hdr.slotStride.toNat)
    {offset length : Nat}
    (hslot : (offset % 2 ^ 32) / hdr.slotStride.toNat < hdr.slotCount.toNat) :
    InOneSlot hdr offset length ↔ length = 0 ∨
      (offset % hdr.slotStride.toNat + length ≤ hdr.slotStride.toNat ∧
        hdr.dataOffset.toNat + offset + length ≤ hdr.poolSize.toNat) := by
  have hdiv := Nat.div_add_mod offset hdr.slotStride.toNat
  have hpool := hdr.poolSize.toNat_lt
  constructor
  · rintro ⟨slot, -, hin⟩
    by_cases hzero : length = 0
    · exact .inl hzero
    -- the first byte tells which slot it is, the last one that it fits
    obtain ⟨hfirst, hfirst', -⟩ := hin 0 (Nat.pos_of_ne_zero hzero)
    obtain ⟨-, hlast, hend⟩ := hin (length - 1) (by omega)
    have hnumber : offset / hdr.slotStride.toNat = slot :=
      (Nat.div_eq_iff hstride).mpr ⟨hfirst, by rw [Nat.succ_mul] at hfirst'; omega⟩
    rw [hnumber, Nat.mul_comm] at hdiv
    rw [Nat.succ_mul] at hlast
    exact .inr ⟨by omega, by omega⟩
  · rintro (rfl | ⟨hfits, hend⟩)
    · exact ⟨0, hcount, nofun⟩
    · rw [Nat.mod_eq_of_lt (by omega)] at hslot
      refine ⟨_, hslot, ?_⟩
      intro i hi
      rw [Nat.succ_mul, Nat.mul_comm]
      exact ⟨by omega, by omega, by omega⟩

def fourSlots : BufgroupHeader where
  magic := bufgroupMagic
  version := bufgroupVersion
  poolSize := 336
  slotSize := 64
  slotCount := 4
  nextOffset := 64
  dataOffset := 80
  slotStride := 64

/-- An offset inside a slot passes with the length of a whole slot, also in the last
slot, and an offset beyond 32 bits passes for its low half. -/
theorem unaligned_offset_accepted :
    bufgroupAttach 4096 fourSlots true = .ok ⟨4160, 4176⟩ ∧
    (bufgroupDataSafe ⟨4160, 4176⟩ fourSlots 8 64 = 4184 ∧ ¬InOneSlot fourSlots 8 64) ∧
    (bufgroupDataSafe ⟨4160, 4176⟩ fourSlots 255 64 = 4431 ∧ ¬InOneSlot fourSlots 255 64) ∧
    bufgroupDataSafe ⟨4160, 4176⟩ fourSlots 4294967296 64 = 4176 ∧
      ¬InOneSlot fourSlots 4294967296 64 := by
  have hslot : ∀ offset length, (offset % 2 ^ 32) / 64 < 4 → length ≠ 0 →
      ¬(offset % 64 + length ≤ 64 ∧ 80 + offset + length ≤ 336) →
      ¬InOneSlot fourSlots offset length := by
    intro offset length hlt hne hbad hin
    exact hbad (((inOneSlot_iff (by decide) (by decide) hlt).mp hin).resolve_left hne)
  refine ⟨rfl, ⟨rfl, ?_⟩, ⟨rfl, ?_⟩, rfl, ?_⟩
  · exact hslot 8 64 (by decide) (by decide) (by decide)
  · exact hslot 255 64 (by decide) (by decide) (by decide)
  · exact hslot 4294967296 64 (by decide) (by decide) (by decide)

/-- The check is sound just for offsets and lengths that stay in the slot and the pool,
apart from those it rejects. -/
theorem dataSafeSound_iff (hattach : bufgroupAttach base hdr handle = .ok bg)
    (offset length : UInt64) : DataSafeSound bg hdr offset length ↔
      (hdr.slotCount.toNat ≤ (offset.toNat % 2 ^ 32) / hdr.slotStride.toNat ∨
        hdr.slotSize.toNat < length.toNat ∨ 2 ^ 64 ≤ offset.toNat + length.toNat ∨
        base + hdr.dataOffset + offset.toUInt32 = 0 ∨ length = 0 ∨
        (offset.toNat % hdr.slotStride.toNat + length.toNat ≤ hdr.slotStride.toNat ∧
          hdr.dataOffset.toNat + offset.toNat + length.toNat ≤ hdr.poolSize.toNat)) := by
  obtain ⟨-, -, ⟨hcount, hstride⟩, -, -, rfl⟩ := bufgroupAttach_eq_ok.mp hattach
  have hcount' : 0 < hdr.slotCount.toNat :=
    Nat.pos_of_ne_zero fun h => hcount (UInt32.toNat_inj.mp h)
  have hstride' : 0 < hdr.slotStride.toNat :=
    Nat.pos_of_ne_zero fun h => hstride (UInt32.toNat_inj.mp h)
  have hzero : length = 0 ↔ length.toNat = 0 := UInt64.toNat_inj.symm
  rw [DataSafeSound, bufgroupDataSafe_ne_null, hzero]
  constructor
  · intro hsound
    by_contra hbad
    simp only [not_or, Nat.not_le, Nat.not_lt] at hbad
    obtain ⟨hslot, hsize, hsum, hnull, hne, hout⟩ := hbad
    have hin := (inOneSlot_iff hcount' hstride' hslot).mp (hsound ⟨hslot, hsize, hsum, hnull⟩)
    exact hout (hin.resolve_left hne)
  · rintro hok ⟨hslot, hsize, hsum, hnull⟩
    rw [inOneSlot_iff hcount' hstride' hslot]
    rcases hok with h | h | h | h | h
    · exact absurd hslot (Nat.not_lt.mpr h)
    · exact absurd hsize (Nat.not_le.mpr h)
    · exact absurd hsum (Nat.not_lt.mpr h)
    · exact absurd h hnull
    · exact h

theorem dataSafeSound_iff_slot :
    bufgroupDataSafe ⟨4160, 4176⟩ fourSlots 192 64 = 4368 ∧
      DataSafeSound ⟨4160, 4176⟩ fourSlots 192 64 :=
  ⟨rfl, (dataSafeSound_iff (rfl : bufgroupAttach 4096 fourSlots true = _) 192 64).mpr (by decide)⟩

end Uros.Flipc2
