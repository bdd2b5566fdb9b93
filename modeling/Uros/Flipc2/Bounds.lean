import Uros.Flipc2.Attach

/-!
What a handle can reach with a header that the peer may have written.
-/

namespace Uros.Flipc2

open Uros.Foundation

variable {ch : Channel} {hdr : ChannelHeader}

/-- Every descriptor of the ring, and every range that `flipc2_data_ptr_safe` lets pass,
lies in the first `mapped` bytes. -/
structure Contained (ch : Channel) (hdr : ChannelHeader) (mapped : Nat) : Prop where
  ring : ∀ ptr, ch.ring + ch.slot ptr * 64 + 64 ≤ mapped
  data : ∀ offset length p, dataPtrSafe ch hdr offset length = some p →
    p + length.toNat ≤ mapped

theorem dataPtrSafe_eq_some {offset length : UInt64} {p : Nat} :
    dataPtrSafe ch hdr offset length = some p ↔
      offset.toNat + length.toNat ≤ hdr.dataSize.toNat ∧ p = ch.data + offset.toNat := by
  have hoffset := offset.toNat_lt
  have hlength := length.toNat_lt
  have hsize := hdr.dataSize.toNat_lt
  simp only [dataPtrSafe, Option.ite_none_left_eq_some, gt_iff_lt, UInt64.lt_iff_toNat_lt,
    UInt64.toNat_add, UInt32.toNat_toUInt64, Option.some.injEq, @eq_comm _ _ p]
  omega

theorem AttachedTo.layout (h : AttachedTo hdr ch) :
    ch.data = hdr.dataOffset.toNat ∧
      ch.ring + hdr.ringEntries.toNat * 64 = hdr.dataOffset.toNat := by
  obtain ⟨⟨base, hattach⟩, mappedSize, rfl⟩ := h.eq_initHandle
  obtain ⟨-, -, hentries, -, hlayout, -⟩ := channelAttach_eq_ok.mp hattach
  obtain ⟨-, -, hmax⟩ := ringEntriesOk_iff.mp hentries
  have hoffset : ∀ start : UInt32, start.toNat ≤ 12288 → hdr.ringOffset = start →
      hdr.dataOffset = start + hdr.ringEntries * flipc2DescSize →
      hdr.ringOffset.toNat + hdr.ringEntries.toNat * 64 = hdr.dataOffset.toNat := by
    intro start hstart hring hdata
    rw [hring, hdata, UInt32.toNat_add, UInt32.toNat_mul]
    have hdesc : flipc2DescSize.toNat = 64 := rfl
    rw [hdesc]
    omega
  refine ⟨rfl, ?_⟩
  unfold layoutOk at hlayout
  split at hlayout
  · obtain ⟨hring, hdata, -⟩ := of_decide_eq_true hlayout
    exact hoffset isoRingOffset (by decide) hring hdata
  · obtain ⟨hring, hdata⟩ := of_decide_eq_true hlayout
    exact hoffset headerSize (by decide) hring hdata

theorem Channel.RingOk.slot_lt {k : Nat} (hch : ch.RingOk k) (ptr : UInt32) :
    ch.slot ptr < 2 ^ k := by
  have hslot := hch.slot_ofNat ptr.toNat
  rw [UInt32.ofNat_toNat] at hslot
  rw [hslot]
  exact Nat.mod_lt _ (Nat.two_pow_pos k)

/-- `flipc2_channel_attach` looks neither at `data_size` nor at the size of the mapping. -/
theorem huge_data_size_accepted :
    AttachedTo { initHeader 16384 16 1 with dataSize := 4294967295 }
        (initHandle (initHeader 16384 16 1)) ∧
      dataPtrSafe (initHandle (initHeader 16384 16 1))
        { initHeader 16384 16 1 with dataSize := 4294967295 } 16384 1 = some 29696 ∧
      ¬Contained (initHandle (initHeader 16384 16 1))
        { initHeader 16384 16 1 with dataSize := 4294967295 } 16384 := by
  refine ⟨⟨1, true, .inr ⟨0, rfl⟩⟩, rfl, ?_⟩
  intro h
  exact absurd (h.data 16384 1 29696 rfl) (by decide)

/-- Nothing outside the mapping is reached just when the data region that the header
describes ends inside it. -/
theorem contained_iff (hattach : AttachedTo hdr ch) (mapped : Nat) :
    Contained ch hdr mapped ↔ hdr.dataOffset.toNat + hdr.dataSize.toNat ≤ mapped := by
  obtain ⟨hdata, hring⟩ := hattach.layout
  obtain ⟨k, hk, hentries⟩ := hattach.ringOk
  constructor
  · intro h
    have hsize : dataPtrSafe ch hdr 0 hdr.dataSize.toUInt64 = some ch.data :=
      dataPtrSafe_eq_some.mpr ⟨by simp, by simp⟩
    have hend := h.data _ _ _ hsize
    rwa [UInt32.toNat_toUInt64, hdata] at hend
  · intro hend
    constructor
    · intro ptr
      have hslot := hk.slot_lt ptr
      omega
    · intro offset length p hp
      obtain ⟨hle, rfl⟩ := dataPtrSafe_eq_some.mp hp
      omega

theorem contained_iff_new :
    Contained (initHandle (initHeader 16384 16 1)) (initHeader 16384 16 1) 16384 :=
  (contained_iff ⟨1, true, .inl rfl⟩ 16384).mpr (by decide)

end Uros.Flipc2
