import Mathlib.Data.UInt
import Uros.Foundation.WrapRange
import Uros.Block.Server

/-!
Reads and writes of the block device server, up to the calls they make to the
driver.  Buffers are not modelled, only which sectors the driver is asked for.

All arithmetic is that of 32-bit unsigned machine words.  `IoAnswers` collects
what the environment answers: `vm_allocate` and the driver's success.
-/

namespace Uros.Block

open Uros.Foundation Uros.Cap

inductive DriverOp where
  | readSectors
  | writeSectors
  | readSectorsPhys
  | writeSectorsPhys
  | writeBatch
  deriving DecidableEq, Repr

structure DriverCall where
  op : DriverOp
  disk : Fin 4
  lba : UInt32
  count : UInt32
  deriving DecidableEq, Repr

def DriverCall.sectors (c : DriverCall) : List UInt32 := wrapRange c.lba c.count.toNat

structure IoAnswers where
  buf : Bool
  raBuf : Bool
  io : Nat → Bool

structure IoResult where
  kr : IoReturn
  bytes : UInt32
  calls : List DriverCall
  ra : RaCache

def IoResult.sectors (r : IoResult) : List UInt32 := r.calls.flatMap DriverCall.sectors

def IoResult.refused (kr : IoReturn) (ra : RaCache) : IoResult := ⟨kr, 0, [], ra⟩

/-- The result once the driver was called: `done` says whether it succeeded and
what it was asked, `ok` is the cache after success and `err` after failure. -/
def IoResult.ofDriver (bytes : UInt32) (ok err : RaCache) (done : Bool × List DriverCall) :
    IoResult :=
  if done.1 then ⟨.success, bytes, done.2, ok⟩ else ⟨.ioError, 0, done.2, err⟩

@[simp] theorem IoResult.refused_calls {kr : IoReturn} {ra : RaCache} :
    (IoResult.refused kr ra).calls = [] := rfl

@[simp] theorem IoResult.ofDriver_calls {bytes : UInt32} {ok err : RaCache}
    {done : Bool × List DriverCall} : (IoResult.ofDriver bytes ok err done).calls = done.2 := by
  unfold IoResult.ofDriver
  split <;> rfl

def roundUp (x : UInt32) : UInt32 := (x + sectorSize - 1) &&& ~~~(sectorSize - 1)

def roundUpIfNeeded (x : UInt32) : UInt32 := if x % sectorSize ≠ 0 then roundUp x else x

def BlkPartition.maxXfer (part : BlkPartition) : UInt32 :=
  let m := (part.ctrl.disks part.diskIndex).maxTransferBytes
  if m = 0 then 128 * 1024 else m

def raInvalidate (ra : RaCache) (part : BlkPartition) : RaCache :=
  if ra.buf ∧ ra.part = some part.index then { ra with buf := false, lbaCount := 0 } else ra

/-- The loop that cuts a transfer of `total` bytes at `lba` into chunks of at most
`max_xfer` bytes, from `offset` on; `calls` are the calls made so far. -/
def chunkLoop (io : Nat → Bool) (op : DriverOp) (part : BlkPartition) (total lba : UInt32) :
    Nat → UInt32 → List DriverCall → Bool × List DriverCall
  | 0, _, calls => (true, calls)
  | fuel + 1, offset, calls =>
    if offset < total then
      let chunk := if total - offset > part.maxXfer then part.maxXfer else total - offset
      let call : DriverCall :=
        { op
          disk := part.diskIndex
          lba := lba + offset / sectorSize
          count := chunk / sectorSize }
      if io calls.length then
        chunkLoop io op part total lba fuel (offset + chunk) (calls ++ [call])
      else (false, calls ++ [call])
    else (true, calls)

def transfer (io : Nat → Bool) (op : DriverOp) (part : BlkPartition) (total lba : UInt32)
    (calls : List DriverCall) : Bool × List DriverCall :=
  chunkLoop io op part total lba total.toNat 0 calls

section Read

variable (ra : RaCache) (part : BlkPartition) (recnum : UInt32)

def outOfBounds (nsectors : UInt32) : Bool := recnum + nsectors > part.numSectors

def cacheHit (nsectors : UInt32) : Bool :=
  let lba := part.startLba + recnum
  ra.buf ∧ ra.part = some part.index ∧ lba ≥ ra.lbaStart ∧
    lba + nsectors ≤ ra.lbaStart + ra.lbaCount

def raMaxSectors : UInt32 := part.maxXfer / sectorSize

def readsAhead (nsectors : UInt32) : Bool :=
  let lba := part.startLba + recnum
  let partEnd := part.startLba + part.numSectors
  ra.lbaCount ≠ 0 ∧ ra.part = some part.index ∧ lba = ra.lbaStart + ra.lbaCount ∧
    nsectors ≤ raMaxSectors part / 2 ∧ lba + raMaxSectors part ≤ partEnd

def readSects (nsectors : UInt32) : UInt32 :=
  if readsAhead ra part recnum nsectors then raMaxSectors part else nsectors

def readMiss (bytesWanted total : UInt32) (ans : IoAnswers) : IoResult :=
  let nsectors := total / sectorSize
  let lba := part.startLba + recnum
  let raExtra := if readsAhead ra part recnum nsectors then raMaxSectors part - nsectors else 0
  -- without a buffer for the extra sectors only the request itself is read
  let noRaBuf := raExtra > 0 ∧ !ans.raBuf
  let readBytes :=
    if noRaBuf then total else readSects ra part recnum nsectors * sectorSize
  let raExtra := if noRaBuf then 0 else raExtra
  let ra' : RaCache :=
    if raExtra > 0 then ⟨lba + nsectors, raExtra, true, some part.index⟩
    else ⟨lba, nsectors, false, some part.index⟩
  .ofDriver bytesWanted ra' ra (transfer ans.io .readSectors part readBytes lba [])

def readPart (bytesWanted : Int32) (ans : IoAnswers) : IoResult :=
  if bytesWanted ≤ 0 then .refused .invalidSize ra
  else
    let total := roundUpIfNeeded bytesWanted.toUInt32
    let nsectors := total / sectorSize
    if outOfBounds part recnum nsectors then .refused .invalidSize ra
    else if !ans.buf then .refused .noMemory ra
    else if cacheHit ra part recnum nsectors then ⟨.success, bytesWanted.toUInt32, [], ra⟩
    else readMiss ra part recnum bytesWanted.toUInt32 total ans

def writePart (dataCount : UInt32) (ans : IoAnswers) : IoResult :=
  if dataCount = 0 then .refused .invalidSize ra
  else
    let total := roundUpIfNeeded dataCount
    if outOfBounds part recnum (total / sectorSize) then .refused .invalidSize ra
    else
      let ra := raInvalidate ra part
      .ofDriver dataCount ra ra
        (transfer ans.io .writeSectors part total (part.startLba + recnum) [])

def physPart (op : DriverOp) (supported : Bool) (bytes : Int32) (physAddrsCnt : Nat)
    (ra' : RaCache) (ans : IoAnswers) : IoResult :=
  if !supported then .refused .invalidOperation ra
  else if bytes = 0 ∨ physAddrsCnt = 0 then .refused .invalidSize ra
  else
    let nsectors := roundUp bytes.toUInt32 / sectorSize
    if outOfBounds part recnum nsectors then .refused .invalidSize ra
    else
      let call : DriverCall :=
        { op, disk := part.diskIndex, lba := part.startLba + recnum, count := nsectors }
      .ofDriver bytes.toUInt32 ra' ra' (ans.io 0, [call])

def readPhysPart (bytesWanted : Int32) (physAddrsCnt : Nat) (ans : IoAnswers) : IoResult :=
  physPart ra part recnum .readSectorsPhys part.ctrl.readSectorsPhys bytesWanted physAddrsCnt
    ra ans

def writePhysPart (bytesToWrite : Int32) (physAddrsCnt : Nat) (ans : IoAnswers) : IoResult :=
  physPart ra part recnum .writeSectorsPhys part.ctrl.writeSectorsPhys bytesToWrite physAddrsCnt
    (raInvalidate ra part) ans

end Read

structure BatchArgs where
  recnums : List UInt32
  sizes : List UInt32
  dataCount : UInt32
  recnums_le : recnums.length ≤ 16
  sizes_le : sizes.length ≤ 16

def batchLoop (io : Nat → Bool) (part : BlkPartition) (dataCount : UInt32) :
    List (UInt32 × UInt32) → UInt32 → List DriverCall → IoReturn × UInt32 × List DriverCall
  | [], dataOff, calls => (.success, dataOff, calls)
  | (recnum, size) :: blocks, dataOff, calls =>
    if size = 0 then batchLoop io part dataCount blocks dataOff calls
    else if dataOff + size > dataCount then (.invalidSize, 0, calls)
    else
      match transfer io .writeSectors part (roundUp size) (part.startLba + recnum) calls with
      | (false, calls) => (.ioError, 0, calls)
      | (true, calls) => batchLoop io part dataCount blocks (dataOff + size) calls

def writeBatchPart (ra : RaCache) (part : BlkPartition) (args : BatchArgs) (ans : IoAnswers) :
    IoResult :=
  if args.recnums.length ≠ args.sizes.length ∨ args.recnums.length = 0 then
    .refused .invalidSize ra
  else
    let ra := raInvalidate ra part
    let blocks := args.recnums.zip args.sizes
    if part.ctrl.writeBatch then
      -- the module gets all blocks in one call
      let calls := blocks.map fun (recnum, size) =>
        ({ op := .writeBatch
           disk := part.diskIndex
           lba := part.startLba + recnum
           count := roundUp size / sectorSize } : DriverCall)
      .ofDriver args.sizes.sum ra ra (ans.io 0, calls)
    else
      let (kr, bytes, calls) := batchLoop ans.io part args.dataCount blocks 0 []
      ⟨kr, bytes, calls, ra⟩

inductive BlkIo where
  | read (recnum : UInt32) (bytesWanted : Int32)
  | write (recnum dataCount : UInt32)
  | writeBatch (args : BatchArgs)
  | readPhys (recnum : UInt32) (bytesWanted : Int32) (physAddrsCnt : Nat)
  | writePhys (recnum : UInt32) (bytesToWrite : Int32) (physAddrsCnt : Nat)

def BlkIo.run (ra : RaCache) (part : BlkPartition) (ans : IoAnswers) : BlkIo → IoResult
  | .read recnum bytesWanted => readPart ra part recnum bytesWanted ans
  | .write recnum dataCount => writePart ra part recnum dataCount ans
  | .writeBatch args => writeBatchPart ra part args ans
  | .readPhys recnum bytesWanted cnt => readPhysPart ra part recnum bytesWanted cnt ans
  | .writePhys recnum bytesToWrite cnt => writePhysPart ra part recnum bytesToWrite cnt ans

/-- `ds_device_read`, `ds_device_write`, `ds_device_write_batch`,
`ds_device_read_phys` and `ds_device_write_phys`. -/
def BlkServer.dsDeviceIo (s : BlkServer) (device : Device) (req : BlkIo) (ans : IoAnswers) :
    IoResult :=
  match s.blkPartFromAuthedHandle device with
  | none => .refused .noAccess s.ra
  | some part => req.run s.ra part ans

variable {io : Nat → Bool} {op : DriverOp} {part : BlkPartition} {total lba offset : UInt32}
  {calls : List DriverCall} {fuel : Nat}

theorem maxXfer_aligned (part : BlkPartition) :
    512 ∣ part.maxXfer.toNat ∧ 0 < part.maxXfer.toNat := by
  unfold BlkPartition.maxXfer
  dsimp only
  split
  · decide
  · rename_i hne
    refine ⟨(part.ctrl.disks part.diskIndex).aligned, Nat.pos_of_ne_zero fun hz => hne ?_⟩
    exact UInt32.toNat_inj.mp hz

def restSectors (total lba offset : UInt32) : List UInt32 :=
  wrapRange (lba + offset / sectorSize) (total.toNat / 512 - offset.toNat / 512)

theorem restSectors_done (h : ¬offset < total) : restSectors total lba offset = [] := by
  have hle : total.toNat ≤ offset.toNat := Nat.le_of_not_lt h
  have : total.toNat / 512 - offset.toNat / 512 = 0 := by omega
  rw [restSectors, this, wrapRange_zero]

theorem restSectors_step {chunk : UInt32} (hlt : offset < total)
    (hchunk : chunk = if total - offset > part.maxXfer then part.maxXfer else total - offset)
    (htotal : 512 ∣ total.toNat) (hoffset : 512 ∣ offset.toNat) :
    0 < chunk.toNat ∧ (offset + chunk).toNat = offset.toNat + chunk.toNat ∧
      offset.toNat + chunk.toNat ≤ total.toNat ∧ 512 ∣ (offset + chunk).toNat ∧
      restSectors total lba offset =
        wrapRange (lba + offset / sectorSize) (chunk / sectorSize).toNat ++
          restSectors total lba (offset + chunk) := by
  obtain ⟨hmax, hpos⟩ := maxXfer_aligned part
  have hlt' : offset.toNat < total.toNat := hlt
  have htop := total.toNat_lt
  have hsub : (total - offset).toNat = total.toNat - offset.toNat :=
    UInt32.toNat_sub_of_le _ _ (Nat.le_of_lt hlt')
  have hval : chunk.toNat = min part.maxXfer.toNat (total.toNat - offset.toNat) := by
    rw [hchunk]
    split
    · rename_i hgt
      have : part.maxXfer.toNat < (total - offset).toNat := hgt
      omega
    · rename_i hle
      have : ¬part.maxXfer.toNat < (total - offset).toNat := hle
      omega
  have hadd : (offset + chunk).toNat = offset.toNat + chunk.toNat := by
    rw [UInt32.toNat_add]
    omega
  have hdvd : 512 ∣ chunk.toNat := by omega
  refine ⟨by omega, hadd, by omega, by omega, ?_⟩
  have hdiv : (chunk / sectorSize).toNat = chunk.toNat / 512 := UInt32.toNat_div _ _
  have hcount : total.toNat / 512 - offset.toNat / 512 =
      chunk.toNat / 512 + (total.toNat / 512 - (offset + chunk).toNat / 512) := by omega
  have hbase : (offset + chunk) / sectorSize =
      offset / sectorSize + UInt32.ofNat (chunk.toNat / 512) := by
    apply UInt32.toNat_inj.mp
    simp only [UInt32.toNat_add, UInt32.toNat_div, UInt32.toNat_ofNat', sectorSize]
    have : chunk.toNat < 2 ^ 32 := chunk.toNat_lt
    have hlit : (512 : UInt32).toNat = 512 := rfl
    rw [hlit]
    omega
  rw [restSectors, hcount, wrapRange_add, hdiv, restSectors, hbase, UInt32.add_assoc]

theorem chunkLoop_sectors (htotal : 512 ∣ total.toNat) (hoffset : 512 ∣ offset.toNat)
    (hfuel : total.toNat - offset.toNat ≤ fuel) :
    (∃ done, done <+: restSectors total lba offset ∧
      (chunkLoop io op part total lba fuel offset calls).2.flatMap DriverCall.sectors =
        calls.flatMap DriverCall.sectors ++ done) ∧
    ((chunkLoop io op part total lba fuel offset calls).1 = true →
      (chunkLoop io op part total lba fuel offset calls).2.flatMap DriverCall.sectors =
        calls.flatMap DriverCall.sectors ++ restSectors total lba offset) := by
  induction fuel generalizing offset calls with
  | zero =>
    have hdone : restSectors total lba offset = [] := restSectors_done (by
      intro hlt
      have : offset.toNat < total.toNat := hlt
      omega)
    simp [chunkLoop, hdone]
  | succ fuel ih =>
    rw [chunkLoop]
    by_cases hlt : offset < total
    · rw [if_pos hlt]
      dsimp only
      generalize hchunk :
        (if total - offset > part.maxXfer then part.maxXfer else total - offset) = chunk
      obtain ⟨hpos, hadd, hle, hdvd, hrest⟩ :=
        @restSectors_step part total lba offset chunk hlt hchunk.symm htotal hoffset
      split
      · obtain ⟨⟨done, hpre, heq⟩, hall⟩ := @ih (offset + chunk) (calls ++ [_]) hdvd (by omega)
        rw [hrest]
        refine ⟨⟨_, (List.prefix_append_right_inj _).mpr hpre, ?_⟩, fun hok => ?_⟩
        · rw [heq]
          simp [DriverCall.sectors]
        · rw [hall hok]
          simp [DriverCall.sectors]
      · rw [hrest]
        refine ⟨⟨_, List.prefix_append _ _, ?_⟩, nofun⟩
        simp [DriverCall.sectors]
    · rw [if_neg hlt]
      simp [restSectors_done hlt]

theorem chunkLoop_ok (hio : ∀ n, io n = true) :
    (chunkLoop io op part total lba fuel offset calls).1 = true := by
  induction fuel generalizing offset calls with
  | zero => rfl
  | succ fuel ih =>
    rw [chunkLoop]
    split
    · dsimp only
      rw [if_pos (hio _)]
      exact ih
    · rfl

theorem transfer_ok (hio : ∀ n, io n = true) : (transfer io op part total lba calls).1 = true :=
  chunkLoop_ok hio

theorem transfer_sectors (htotal : 512 ∣ total.toNat) :
    (∃ done, done <+: wrapRange lba (total / sectorSize).toNat ∧
      (transfer io op part total lba calls).2.flatMap DriverCall.sectors =
        calls.flatMap DriverCall.sectors ++ done) ∧
    ((transfer io op part total lba calls).1 = true →
      (transfer io op part total lba calls).2.flatMap DriverCall.sectors =
        calls.flatMap DriverCall.sectors ++ wrapRange lba (total / sectorSize).toNat) := by
  have hrest : restSectors total lba 0 = wrapRange lba (total / sectorSize).toNat := by
    have hdiv : (total / sectorSize).toNat = total.toNat / 512 := UInt32.toNat_div _ _
    simp [restSectors, hdiv]
  rw [← hrest]
  exact chunkLoop_sectors htotal (by simp) (by simp)

end Uros.Block
