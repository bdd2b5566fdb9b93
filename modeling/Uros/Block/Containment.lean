import Uros.Block.Transfer

/-!
Which sectors a request can reach.

`BlkIo.extents` lists, for a request on a partition, the ranges of sectors it asks
for: its own, extended by the read-ahead, or one for each block of a batch.  The
driver is asked for these sectors and no others, so a request stays inside its
partition exactly when each of its extents does.
-/

namespace Uros.Block

open Uros.Foundation Uros.Cap

structure Extent where
  recnum : UInt32
  count : UInt32
  deriving DecidableEq, Repr

def Extent.sectors (part : BlkPartition) (e : Extent) : List UInt32 :=
  wrapRange (part.startLba + e.recnum) e.count.toNat

def batchExtents (dataCount : UInt32) : List (UInt32 × UInt32) → UInt32 → List Extent
  | [], _ => []
  | (recnum, size) :: blocks, dataOff =>
    if size = 0 then batchExtents dataCount blocks dataOff
    else if dataOff + size > dataCount then []
    else
      ⟨recnum, roundUp size / sectorSize⟩ :: batchExtents dataCount blocks (dataOff + size)

def physExtents (part : BlkPartition) (supported : Bool) (recnum : UInt32) (bytes : Int32)
    (physAddrsCnt : Nat) : List Extent :=
  let nsectors := roundUp bytes.toUInt32 / sectorSize
  if !supported then []
  else if bytes = 0 ∨ physAddrsCnt = 0 then []
  else if outOfBounds part recnum nsectors then []
  else [⟨recnum, nsectors⟩]

def BlkIo.extents (ra : RaCache) (part : BlkPartition) : BlkIo → List Extent
  | .read recnum bytesWanted =>
    let nsectors := roundUpIfNeeded bytesWanted.toUInt32 / sectorSize
    if bytesWanted ≤ 0 then []
    else if outOfBounds part recnum nsectors then []
    else if cacheHit ra part recnum nsectors then []
    else [⟨recnum, readSects ra part recnum nsectors⟩]
  | .write recnum dataCount =>
    let nsectors := roundUpIfNeeded dataCount / sectorSize
    if dataCount = 0 then []
    else if outOfBounds part recnum nsectors then []
    else [⟨recnum, nsectors⟩]
  | .writeBatch args =>
    let blocks := args.recnums.zip args.sizes
    if args.recnums.length ≠ args.sizes.length ∨ args.recnums.length = 0 then []
    else if part.ctrl.writeBatch then
      blocks.map fun (recnum, size) => ⟨recnum, roundUp size / sectorSize⟩
    else batchExtents args.dataCount blocks 0
  | .readPhys recnum bytesWanted cnt =>
    physExtents part part.ctrl.readSectorsPhys recnum bytesWanted cnt
  | .writePhys recnum bytesToWrite cnt =>
    physExtents part part.ctrl.writeSectorsPhys recnum bytesToWrite cnt

def IoAnswers.success : IoAnswers := ⟨true, true, fun _ => true⟩

structure AsksFor (part : BlkPartition) (f : IoAnswers → IoResult) (extents : List Extent) :
    Prop where
  within : ∀ ans, (f ans).sectors ⊆ extents.flatMap (Extent.sectors part)
  all : (f .success).sectors = extents.flatMap (Extent.sectors part)

variable {ra : RaCache} {part : BlkPartition} {recnum total : UInt32} {ans : IoAnswers}
  {f : IoAnswers → IoResult} {extents : List Extent}

theorem AsksFor.extents_contained_iff (h : AsksFor part f extents) :
    (∀ ans, ∀ x ∈ (f ans).sectors, InWindow part.startLba part.numSectors x) ↔
      ∀ e ∈ extents,
        FitsWindow part.startLba part.numSectors e.recnum.toNat e.count.toNat := by
  have hext : (∀ e ∈ extents,
      FitsWindow part.startLba part.numSectors e.recnum.toNat e.count.toNat) ↔
      ∀ x ∈ extents.flatMap (Extent.sectors part),
        InWindow part.startLba part.numSectors x := by
    simp only [List.mem_flatMap, ← forall_wrapRange_inWindow_iff, Extent.sectors]
    constructor
    · rintro h x ⟨e, he, hx⟩
      exact h e he x hx
    · intro h e he x hx
      exact h x ⟨e, he, hx⟩
  rw [hext]
  constructor
  · intro hin
    exact h.all ▸ hin .success
  · intro hin ans x hx
    exact hin x (h.within ans hx)

theorem AsksFor.of_refused (h : ∀ ans, (f ans).calls = []) : AsksFor part f [] where
  within ans := by simp [IoResult.sectors, h ans]
  all := by simp [IoResult.sectors, h]

theorem AsksFor.of_buf (h : AsksFor part f extents) {kr : IoReturn} :
    AsksFor part (fun ans => if !ans.buf then .refused kr ra else f ans) extents where
  within ans := by
    split
    · simp [IoResult.sectors]
    · exact h.within ans
  all := h.all

theorem roundUp_aligned (x : UInt32) : 512 ∣ (roundUp x).toNat := by
  have hmask : (~~~(sectorSize - 1)).toNat % 2 ^ 9 = 0 := by decide
  apply Nat.dvd_of_mod_eq_zero
  rw [roundUp, UInt32.toNat_and, show 512 = 2 ^ 9 from rfl, Nat.and_mod_two_pow, hmask,
    Nat.and_zero]

theorem roundUpIfNeeded_aligned (x : UInt32) : 512 ∣ (roundUpIfNeeded x).toNat := by
  unfold roundUpIfNeeded
  split
  · exact roundUp_aligned x
  · rename_i hmod
    have hzero : (x % sectorSize).toNat = 0 := by
      rw [not_not.mp hmod]
      rfl
    rw [UInt32.toNat_mod] at hzero
    exact Nat.dvd_of_mod_eq_zero hzero

theorem div_mul_sectorSize {x : UInt32} (h : 512 ∣ x.toNat) : x / sectorSize * sectorSize = x := by
  apply UInt32.toNat_inj.mp
  rw [UInt32.toNat_mul, UInt32.toNat_div]
  have hlit : sectorSize.toNat = 512 := rfl
  have hlt := x.toNat_lt
  rw [hlit]
  omega

theorem mem_of_transfer {io : Nat → Bool} {op : DriverOp} {lba x : UInt32}
    (htotal : 512 ∣ total.toNat)
    (hx : x ∈ (transfer io op part total lba []).2.flatMap DriverCall.sectors) :
    x ∈ wrapRange lba (total / sectorSize).toNat := by
  obtain ⟨⟨done, hpre, heq⟩, -⟩ := @transfer_sectors io op part total lba [] htotal
  rw [heq, List.flatMap_nil, List.nil_append] at hx
  exact hpre.subset hx

theorem transfer_all {op : DriverOp} {lba : UInt32} (htotal : 512 ∣ total.toNat) :
    (transfer IoAnswers.success.io op part total lba []).2.flatMap DriverCall.sectors =
      wrapRange lba (total / sectorSize).toNat := by
  have hok := (@transfer_sectors IoAnswers.success.io op part total lba [] htotal).2
    (transfer_ok fun _ => rfl)
  simpa using hok

theorem writePart_asksFor {dataCount : UInt32} :
    AsksFor part (writePart ra part recnum dataCount)
      ((BlkIo.write recnum dataCount).extents ra part) := by
  have halign := roundUpIfNeeded_aligned dataCount
  unfold writePart BlkIo.extents
  dsimp only
  split_ifs with hzero hout
  · exact .of_refused fun _ => rfl
  · exact .of_refused fun _ => rfl
  · constructor
    · intro ans x hx
      simp only [IoResult.sectors, IoResult.ofDriver_calls] at hx
      simpa [Extent.sectors] using mem_of_transfer halign hx
    · simp only [IoResult.sectors, IoResult.ofDriver_calls, transfer_all halign]
      simp [Extent.sectors]

theorem readSects_aligned (halign : 512 ∣ total.toNat) :
    ∃ bytes : UInt32, 512 ∣ bytes.toNat ∧
      readSects ra part recnum (total / sectorSize) * sectorSize = bytes ∧
      readSects ra part recnum (total / sectorSize) = bytes / sectorSize := by
  unfold readSects
  split
  · have hmax : 512 ∣ part.maxXfer.toNat := (maxXfer_aligned part).1
    exact ⟨part.maxXfer, hmax, div_mul_sectorSize hmax, rfl⟩
  · exact ⟨total, halign, div_mul_sectorSize halign, rfl⟩

theorem le_readSects (nsectors : UInt32) :
    nsectors.toNat ≤ (readSects ra part recnum nsectors).toNat := by
  unfold readSects
  split
  · rename_i hahead
    simp only [readsAhead, decide_eq_true_eq] at hahead
    have hhalf : nsectors.toNat ≤ (raMaxSectors part / 2).toNat := hahead.2.2.2.1
    rw [UInt32.toNat_div] at hhalf
    exact hhalf.trans (Nat.div_le_self _ _)
  · exact Nat.le_refl _

theorem readMiss_asksFor {bytesWanted : UInt32} (halign : 512 ∣ total.toNat) :
    AsksFor part (readMiss ra part recnum bytesWanted total)
      [⟨recnum, readSects ra part recnum (total / sectorSize)⟩] := by
  obtain ⟨bytes, hbytes, hmul, hdiv⟩ :=
    @readSects_aligned ra part recnum total halign
  have hle := @le_readSects ra part recnum (total / sectorSize)
  have hin : ∀ (dropped : Prop) [Decidable dropped] (io : Nat → Bool) (x : UInt32),
      x ∈ (transfer io .readSectors part (if dropped then total else bytes)
        (part.startLba + recnum) []).2.flatMap DriverCall.sectors →
      x ∈ wrapRange (part.startLba + recnum) (bytes / sectorSize).toNat := by
    intro dropped _ io x hx
    split at hx
    · rw [← hdiv]
      exact wrapRange_subset hle (mem_of_transfer halign hx)
    · exact mem_of_transfer hbytes hx
  unfold readMiss
  dsimp only
  rw [hmul]
  constructor
  · intro ans x hx
    simp only [IoResult.sectors, IoResult.ofDriver_calls] at hx
    simp only [List.flatMap_cons, List.flatMap_nil, List.append_nil, Extent.sectors, hdiv]
    exact hin _ _ _ hx
  · simp only [IoResult.sectors, IoResult.ofDriver_calls, List.flatMap_cons, List.flatMap_nil,
      List.append_nil, Extent.sectors, hdiv]
    rw [if_neg (by simp [IoAnswers.success])]
    exact transfer_all hbytes

theorem readPart_asksFor {bytesWanted : Int32} :
    AsksFor part (readPart ra part recnum bytesWanted)
      ((BlkIo.read recnum bytesWanted).extents ra part) := by
  have halign := roundUpIfNeeded_aligned bytesWanted.toUInt32
  unfold readPart BlkIo.extents
  dsimp only
  split_ifs with hzero hout hhit
  · exact .of_refused fun _ => rfl
  · exact .of_refused fun _ => rfl
  · exact .of_buf (.of_refused fun _ => rfl)
  · exact .of_buf (readMiss_asksFor halign)

theorem physPart_asksFor {op : DriverOp} {supported : Bool} {bytes : Int32} {cnt : Nat}
    {ra' : RaCache} :
    AsksFor part (physPart ra part recnum op supported bytes cnt ra')
      (physExtents part supported recnum bytes cnt) := by
  unfold physPart physExtents
  dsimp only
  split_ifs with hsup hzero hout
  · exact .of_refused fun _ => rfl
  · exact .of_refused fun _ => rfl
  · exact .of_refused fun _ => rfl
  · constructor
    · intro ans
      simp [IoResult.sectors, DriverCall.sectors, Extent.sectors]
    · simp [IoResult.sectors, DriverCall.sectors, Extent.sectors]

theorem batchLoop_within {io : Nat → Bool} {dataCount : UInt32}
    (blocks : List (UInt32 × UInt32)) (dataOff : UInt32) (calls : List DriverCall) :
    (batchLoop io part dataCount blocks dataOff calls).2.2.flatMap DriverCall.sectors ⊆
      calls.flatMap DriverCall.sectors ++
        (batchExtents dataCount blocks dataOff).flatMap (Extent.sectors part) := by
  induction blocks generalizing dataOff calls with
  | nil => simp [batchLoop]
  | cons block blocks ih =>
    obtain ⟨recnum, size⟩ := block
    simp only [batchLoop, batchExtents]
    split_ifs with hzero hover
    · exact ih dataOff calls
    · simp
    · obtain ⟨⟨done, hpre, heq⟩, hok⟩ := @transfer_sectors io .writeSectors part (roundUp size)
        (part.startLba + recnum) calls (roundUp_aligned size)
      rw [List.flatMap_cons, ← List.append_assoc]
      revert heq hok
      rcases transfer io .writeSectors part (roundUp size) (part.startLba + recnum) calls
        with ⟨_ | _, calls'⟩
      · -- the driver failed on this block
        intro _ heq
        simp only at heq ⊢
        rw [heq]
        refine List.append_subset.mpr ⟨?_, ?_⟩
        · simp
        · intro x hx
          exact List.mem_append_left _ (List.mem_append_right _ (hpre.subset hx))
      · intro hok _
        have hdone := hok rfl
        simp only at hdone ⊢
        rw [Extent.sectors, ← hdone]
        exact ih (dataOff + size) calls'

theorem batchLoop_all {dataCount : UInt32} (blocks : List (UInt32 × UInt32)) (dataOff : UInt32)
    (calls : List DriverCall) :
    (batchLoop IoAnswers.success.io part dataCount blocks dataOff calls).2.2.flatMap
        DriverCall.sectors =
      calls.flatMap DriverCall.sectors ++
        (batchExtents dataCount blocks dataOff).flatMap (Extent.sectors part) := by
  induction blocks generalizing dataOff calls with
  | nil => simp [batchLoop, batchExtents]
  | cons block blocks ih =>
    obtain ⟨recnum, size⟩ := block
    simp only [batchLoop, batchExtents]
    split_ifs with hzero hover
    · exact ih dataOff calls
    · simp
    · have hsucc : (transfer IoAnswers.success.io .writeSectors part (roundUp size)
          (part.startLba + recnum) calls).1 = true := transfer_ok fun _ => rfl
      have hdone := (transfer_sectors (roundUp_aligned size)).2 hsucc
      revert hsucc hdone
      rcases transfer IoAnswers.success.io .writeSectors part (roundUp size)
        (part.startLba + recnum) calls with ⟨_ | _, calls'⟩
      · exact nofun
      · intro _ hdone
        simp only at hdone ⊢
        rw [ih, hdone, List.flatMap_cons, Extent.sectors, List.append_assoc]

theorem writeBatchPart_asksFor {args : BatchArgs} :
    AsksFor part (writeBatchPart ra part args) ((BlkIo.writeBatch args).extents ra part) := by
  unfold writeBatchPart BlkIo.extents
  dsimp only
  split_ifs with hlen hdelegate
  · exact .of_refused fun _ => rfl
  · -- one extent for each call
    have hsectors : ∀ blocks : List (UInt32 × UInt32),
        (blocks.map fun (recnum, size) =>
          ({ op := .writeBatch
             disk := part.diskIndex
             lba := part.startLba + recnum
             count := roundUp size / sectorSize } : DriverCall)).flatMap DriverCall.sectors =
        (blocks.map fun (recnum, size) =>
          (⟨recnum, roundUp size / sectorSize⟩ : Extent)).flatMap (Extent.sectors part) := by
      intro blocks
      simp [List.flatMap_map, DriverCall.sectors, Extent.sectors]
    constructor
    · intro ans
      simp only [IoResult.sectors, IoResult.ofDriver_calls, hsectors]
      exact fun _ hx => hx
    · simp only [IoResult.sectors, IoResult.ofDriver_calls, hsectors]
  · constructor
    · intro ans
      simpa [IoResult.sectors] using batchLoop_within (args.recnums.zip args.sizes) 0 []
    · simpa [IoResult.sectors] using batchLoop_all (args.recnums.zip args.sizes) 0 []

theorem run_asksFor (req : BlkIo) : AsksFor part (fun ans => req.run ra part ans)
    (req.extents ra part) := by
  cases req with
  | read recnum bytesWanted => exact readPart_asksFor
  | write recnum dataCount => exact writePart_asksFor
  | writeBatch args => exact writeBatchPart_asksFor
  | readPhys recnum bytesWanted cnt => exact physPart_asksFor
  | writePhys recnum bytesToWrite cnt => exact physPart_asksFor

/-- On an authorised handle, a request stays inside the partition whatever the
environment answers exactly when each of its extents fits, without wrapping. -/
theorem dsDeviceIo_contained_iff (s : BlkServer) (device : Device) (part : BlkPartition)
    (hauth : s.blkPartFromAuthedHandle device = some part) (req : BlkIo) :
    (∀ ans, ∀ x ∈ (s.dsDeviceIo device req ans).sectors,
        InWindow part.startLba part.numSectors x) ↔
      ∀ e ∈ req.extents s.ra part,
        FitsWindow part.startLba part.numSectors e.recnum.toNat e.count.toNat := by
  have hrun : ∀ ans, s.dsDeviceIo device req ans = req.run s.ra part ans := by
    intro ans
    simp only [BlkServer.dsDeviceIo, hauth]
  simp only [hrun]
  exact (run_asksFor req).extents_contained_iff

/-- `recnum + nsectors` wraps to zero, so the last sector before the partition is
written. -/
theorem dsDeviceIo_writes_before_partition :
    smallServer.blkPartFromAuthedHandle (.handle 11) = some smallPartition ∧
      (smallServer.dsDeviceIo (.handle 11) (.write 0xffffffff 512) .success).kr = .success ∧
      2047 ∈ (smallServer.dsDeviceIo (.handle 11) (.write 0xffffffff 512) .success).sectors ∧
      ¬InWindow smallPartition.startLba smallPartition.numSectors 2047 := by
  refine ⟨rfl, ?_, ?_, ?_⟩ <;> decide +kernel

theorem dsDeviceIo_contained_iff_small :
    (∀ ans, ∀ x ∈ (smallServer.dsDeviceIo (.handle 11) (.write 0 512) ans).sectors,
        InWindow smallPartition.startLba smallPartition.numSectors x) ↔
      ∀ e ∈ (BlkIo.write 0 512).extents smallServer.ra smallPartition,
        FitsWindow smallPartition.startLba smallPartition.numSectors e.recnum.toNat
          e.count.toNat :=
  dsDeviceIo_contained_iff smallServer (.handle 11) smallPartition rfl (.write 0 512)

end Uros.Block
