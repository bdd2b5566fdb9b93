import Uros.Foundation.RingCounter
import Uros.Foundation.StateProg

/-!
Channels of FLIPC v2 (`include/flipc2.h`, `libflipc2/flipc2_channel.c`).

A channel is a region of memory that two tasks share: a header, a ring of
descriptors and a data region.  Each side works with a handle of its own, which caches
the constants of the header and the last value it saw of the other side's counter.
-/

namespace Uros.Flipc2

open Uros.Foundation

structure ChannelHeader where
  magic : UInt32
  version : UInt32
  channelSize : UInt32
  ringOffset : UInt32
  ringEntries : UInt32
  ringMask : UInt32
  dataOffset : UInt32
  dataSize : UInt32
  descSize : UInt32
  layoutFlags : UInt32
  deriving DecidableEq, Repr

structure Channel where
  ring : Nat
  data : Nat
  ringEntries : UInt32
  ringMask : UInt32
  cachedConsHead : UInt32
  cachedProdTail : UInt32
  mappedSize : UInt32
  deriving DecidableEq, Repr

inductive Flipc2Error where
  | invalidArgument
  | resourceShortage
  | notConnected
  | sizeAlignment
  deriving DecidableEq, Repr

def magic : UInt32 := 0x464C5032
def version : UInt32 := 1
def channelSizeMin : UInt32 := 4096
def channelSizeMax : UInt32 := 16 * 1024 * 1024
def channelSizeMinIsolated : UInt32 := 16384
def ringEntriesMin : UInt32 := 16
def ringEntriesMax : UInt32 := 16384
def headerSize : UInt32 := 256
def isoRingOffset : UInt32 := 12288
def flipc2DescSize : UInt32 := 64
def layoutFlat : UInt32 := 0
def layoutIsolated : UInt32 := 1
def createIsolated : UInt32 := 1

def isPowerOf2 (n : UInt32) : Bool := n ≠ 0 ∧ n &&& (n - 1) = 0

def ringEntriesOk (n : UInt32) : Bool :=
  isPowerOf2 n ∧ ¬n < ringEntriesMin ∧ ¬n > ringEntriesMax

def initHeader (channelSize ringEntries flags : UInt32) : ChannelHeader :=
  let isolated := flags &&& createIsolated ≠ 0
  let ringOffset := if isolated then isoRingOffset else headerSize
  let dataOffset := ringOffset + ringEntries * flipc2DescSize
  { magic, version, channelSize, ringOffset, ringEntries
    ringMask := ringEntries - 1
    dataOffset
    dataSize := channelSize - dataOffset
    descSize := flipc2DescSize
    layoutFlags := if isolated then layoutIsolated else layoutFlat }

def initHandle (hdr : ChannelHeader) : Channel where
  ring := hdr.ringOffset.toNat
  data := hdr.dataOffset.toNat
  ringEntries := hdr.ringEntries
  ringMask := hdr.ringMask
  cachedConsHead := 0
  cachedProdTail := 0
  mappedSize := 0

structure CreateAnswers where
  region : Bool
  handle : Bool

def channelCreateEx (channelSize ringEntries flags : UInt32) (ans : CreateAnswers) :
    Except Flipc2Error (ChannelHeader × Channel) :=
  if channelSize < channelSizeMin ∨ channelSize > channelSizeMax then .error .invalidArgument
  else if ringEntriesOk ringEntries = false then .error .invalidArgument
  else if flags &&& createIsolated ≠ 0 ∧ channelSize < channelSizeMinIsolated then
    .error .sizeAlignment
  else if channelSize < (if flags &&& createIsolated ≠ 0 then isoRingOffset else headerSize) +
      ringEntries * flipc2DescSize then .error .sizeAlignment
  else if ans.region = false then .error .resourceShortage
  else if ans.handle = false then .error .resourceShortage
  else
    let hdr := initHeader channelSize ringEntries flags
    .ok (hdr, initHandle hdr)

def channelCreate (channelSize ringEntries : UInt32) (ans : CreateAnswers) :
    Except Flipc2Error (ChannelHeader × Channel) :=
  channelCreateEx (if channelSize < channelSizeMinIsolated then channelSizeMinIsolated
    else channelSize) ringEntries createIsolated ans

def layoutOk (hdr : ChannelHeader) : Bool :=
  if hdr.layoutFlags &&& layoutIsolated ≠ 0 then
    hdr.ringOffset = isoRingOffset ∧
      hdr.dataOffset = isoRingOffset + hdr.ringEntries * flipc2DescSize ∧
      ¬hdr.channelSize < channelSizeMinIsolated
  else
    hdr.ringOffset = headerSize ∧
      hdr.dataOffset = headerSize + hdr.ringEntries * flipc2DescSize

/-- `flipc2_channel_attach` to the header at `base`; `handle` says whether the handle can
be allocated. -/
def channelAttach (base : Nat) (hdr : ChannelHeader) (handle : Bool) :
    Except Flipc2Error Channel :=
  if base = 0 then .error .invalidArgument
  else if hdr.magic ≠ magic ∨ hdr.version ≠ version then .error .notConnected
  else if ringEntriesOk hdr.ringEntries = false then .error .invalidArgument
  else if hdr.ringMask ≠ hdr.ringEntries - 1 then .error .invalidArgument
  else if layoutOk hdr = false then .error .invalidArgument
  else if hdr.channelSize < hdr.dataOffset then .error .invalidArgument
  else if handle = false then .error .resourceShortage
  else .ok (initHandle hdr)

def channelAttachRemote (base : Nat) (mappedSize : UInt32) (hdr : ChannelHeader)
    (handle : Bool) : Except Flipc2Error Channel :=
  (channelAttach base hdr handle).map fun ch => { ch with mappedSize }

theorem channelCreateEx_eq_ok {channelSize ringEntries flags : UInt32} {ans : CreateAnswers}
    {hdr : ChannelHeader} {ch : Channel}
    (h : channelCreateEx channelSize ringEntries flags ans = .ok (hdr, ch)) :
    ringEntriesOk ringEntries = true ∧ hdr = initHeader channelSize ringEntries flags ∧
      ch = initHandle hdr := by
  simp only [channelCreateEx, ite_error_eq_ok, Except.ok.injEq, Prod.mk.injEq] at h
  obtain ⟨-, hentries, -, -, -, -, rfl, rfl⟩ := h
  exact ⟨Bool.not_eq_false _ ▸ hentries, rfl, rfl⟩

theorem channelAttach_eq_ok {base : Nat} {hdr : ChannelHeader} {handle : Bool} {ch : Channel} :
    channelAttach base hdr handle = .ok ch ↔
      base ≠ 0 ∧ (hdr.magic = magic ∧ hdr.version = version) ∧
        ringEntriesOk hdr.ringEntries = true ∧ hdr.ringMask = hdr.ringEntries - 1 ∧
        layoutOk hdr = true ∧ hdr.dataOffset ≤ hdr.channelSize ∧ handle = true ∧
        ch = initHandle hdr := by
  simp only [channelAttach, ite_error_eq_ok, Except.ok.injEq, not_or, ne_eq, not_not,
    Bool.not_eq_false, UInt32.not_lt, @eq_comm _ _ ch]

structure Counters where
  prodTail : UInt32
  consHead : UInt32
  deriving DecidableEq, Repr

def Channel.slot (ch : Channel) (ptr : UInt32) : Nat := (ptr &&& ch.ringMask).toNat

def produceReserve (c : Counters) (ch : Channel) : Option Nat × Channel :=
  let space := ch.ringEntries - (c.prodTail - ch.cachedConsHead)
  if space = 0 ∨ space > ch.ringEntries then
    let ch := { ch with cachedConsHead := c.consHead }
    let space := ch.ringEntries - (c.prodTail - ch.cachedConsHead)
    if space = 0 then (none, ch)
    -- `cons_head` was pushed past `prod_tail`
    else if space > ch.ringEntries then (none, ch)
    else (some (ch.slot c.prodTail), ch)
  else (some (ch.slot c.prodTail), ch)

def produceCommit (c : Counters) : Counters := { c with prodTail := c.prodTail + 1 }

def consumePeek (c : Counters) (ch : Channel) : Option Nat × Channel :=
  let avail := ch.cachedProdTail - c.consHead
  if avail = 0 ∨ avail > ch.ringEntries then
    let ch := { ch with cachedProdTail := c.prodTail }
    let avail := ch.cachedProdTail - c.consHead
    if avail = 0 then (none, ch)
    -- `prod_tail` jumped past the ring capacity
    else if avail > ch.ringEntries then (none, ch)
    else (some (ch.slot c.consHead), ch)
  else (some (ch.slot c.consHead), ch)

def consumeRelease (c : Counters) : Counters := { c with consHead := c.consHead + 1 }

/-- `flipc2_data_ptr_safe` with the header it reads the size from; the result is an
offset from the start of the mapping. -/
def dataPtrSafe (ch : Channel) (hdr : ChannelHeader) (offset length : UInt64) : Option Nat :=
  if offset + length > hdr.dataSize.toUInt64 then none
  else if offset + length < offset then none
  else some (ch.data + offset.toNat)

end Uros.Flipc2
