import Mathlib.Algebra.Ring.Nat
import Mathlib.Data.Finset.Card
import Mathlib.Algebra.BigOperators.Group.List.Basic
import Uros.Foundation.Transition

/-!
The memory that AHCI commands point to: the buffers of `ahci_probe` and
`ahci_realloc_batch_buffers`, and the commands of `ahci_submit_batch` and `ahci_submit_phys`.
-/

namespace Uros.Block.Ahci

open Foundation

structure Region where
  pa : ℕ
  size : ℕ
  deriving DecidableEq

def Inside (live : List Region) (pa n : ℕ) : Prop :=
  ∃ r ∈ live, r.pa ≤ pa ∧ pa + n ≤ r.pa + r.size

instance decidableInside (live : List Region) (pa n : ℕ) : Decidable (Inside live pa n) :=
  inferInstanceAs (Decidable (∃ r ∈ live, r.pa ≤ pa ∧ pa + n ≤ r.pa + r.size))

def prdtPerSlot : ℕ := 32
def ctStride : ℕ := 640
def slotDataSize : ℕ := prdtPerSlot * 4096
def sectorsPerSlot : ℕ := slotDataSize / 512

structure State where
  live : List Region
  ctPa : ℕ
  ctMapped : Bool
  dataPaList : ℕ → ℕ
  batchSlots : ℕ
  batchDataSize : ℕ

def initial (ct data : ℕ) : State where
  live := [⟨ct, 4096⟩, ⟨data, 4096⟩]
  ctPa := ct
  ctMapped := true
  dataPaList i := if i = 0 then data else 0
  batchSlots := 1
  batchDataSize := 0

structure Luck where
  ct : Option ℕ
  ctMap : Bool
  sg : Option (ℕ → ℕ)

def reallocData (s : State) (sg : Option (ℕ → ℕ)) : State × Bool :=
  let s := { s with live := s.live.erase ⟨s.dataPaList 0, 4096⟩ }
  let n := min (s.batchSlots * prdtPerSlot) 1024
  match sg with
  | none => (s, false)
  | some pages =>
    ({ s with
      live := s.live ++ (List.range n).map fun i => ⟨pages i, 4096⟩
      dataPaList := fun i => if i < n then pages i else s.dataPaList i
      batchDataSize := s.batchSlots * slotDataSize }, true)

def tableSize (slots : ℕ) : ℕ := (slots * ctStride + 4095) / 4096 * 4096

def reallocBatchBuffers (s : State) (luck : Luck) : State × Bool :=
  if s.batchSlots ≤ 1 then (s, true)
  else
    let size := tableSize s.batchSlots
    let s := { s with live := s.live.erase ⟨s.ctPa, 4096⟩, ctMapped := false }
    match luck.ct with
    | none => (s, false)
    | some pa =>
      let s := { s with live := s.live ++ [⟨pa, size⟩], ctPa := pa }
      if luck.ctMap then reallocData { s with ctMapped := true } luck.sg else (s, false)

structure Disk where
  identified : Bool
  ncq : Bool
  queueDepth : ℕ

def hbaSlots (cap : ℕ) : ℕ := cap / 256 % 32 + 1

def devQdepth (d : Disk) : ℕ := d.queueDepth % 32 + 1

def ncqSupported (d : Disk) : Bool := d.identified && d.ncq

def ncqDepth (cap : ℕ) (d : Disk) : ℕ := min (hbaSlots cap) (devQdepth d)

def slotsAtProbe (cap : ℕ) (disks : List Disk) : ℕ :=
  if disks.any (·.identified) then max 1 (hbaSlots cap) else 1

/-- The end of `ahci_probe`, once the first pages are there and the disks have been identified. -/
def probe (ct data cap : ℕ) (disks : List Disk) (luck : Luck) : State :=
  let slots := slotsAtProbe cap disks
  let s := { initial ct data with batchSlots := slots, batchDataSize := slots * slotDataSize }
  match reallocBatchBuffers s luck with
  | (s, true) => s
  | (s, false) => { s with batchSlots := 1, batchDataSize := slotDataSize }

structure Command where
  ctba : ℕ
  prdt : List (ℕ × ℕ)

def prdtBytes (n : ℕ) : ℕ := (n + 4194303) % 4194304 + 1

def pageBytes (slotBytes n p : ℕ) : ℕ :=
  if p = n - 1 ∧ slotBytes - p * 4096 < 4096 then slotBytes - p * 4096 else 4096

def slotCommand (s : State) (slot sectors : ℕ) : Command :=
  let n := min ((sectors * 512 + 4095) / 4096) prdtPerSlot
  { ctba := s.ctPa + slot * ctStride
    prdt := (List.range n).map fun p =>
      (s.dataPaList (slot * prdtPerSlot + p), prdtBytes (pageBytes (sectors * 512) n p)) }

def batchLoop (s : State) : ℕ → ℕ → ℕ → List Command
  | 0, _, _ => []
  | n + 1, slot, nsectors =>
    let sectors := if sectorsPerSlot < nsectors then sectorsPerSlot else nsectors
    slotCommand s slot sectors :: batchLoop s n (slot + 1) (nsectors - sectors)

def batchSlotsFor (s : State) (nsectors : ℕ) : ℕ :=
  min ((nsectors + sectorsPerSlot - 1) / sectorsPerSlot) s.batchSlots

def submitBatch (s : State) (nsectors : ℕ) : List Command :=
  batchLoop s (batchSlotsFor s nsectors) 0 nsectors

def physLoop : ℕ → List ℕ → List (ℕ × ℕ)
  | _, [] => []
  | bytesLeft, pa :: pages =>
    let chunk := if 4096 < bytesLeft then 4096 else bytesLeft
    (pa, prdtBytes chunk) :: physLoop (bytesLeft - chunk) pages

def submitPhys (s : State) (nsectors : ℕ) (pages : List ℕ) (totalBytes : ℕ) : List Command :=
  if nsectors = 0 ∨ pages.length = 0 then []
  else [⟨s.ctPa, physLoop totalBytes (pages.take prdtPerSlot)⟩]

inductive Request where
  | batch (nsectors : ℕ)
  | phys (nsectors : ℕ) (pages : List ℕ) (totalBytes : ℕ)

/-- A request to a disk, and the queued commands that are still there when it returns. -/
structure Event where
  disk : Disk
  id : ℕ
  request : Request
  kept : Finset ℕ

def issued (s : State) (d : Disk) : Request → Finset ℕ
  | .batch nsectors => if ncqSupported d then Finset.range (batchSlotsFor s nsectors) else ∅
  | .phys _ _ _ => ∅

abbrev Queues := ℕ → Finset ℕ

def step (s : State) (q : Queues) (e : Event) : Option Queues :=
  some (Function.update q e.id ((q e.id ∪ issued s e.disk e.request) ∩ e.kept))

def bytes (cmds : List Command) : ℕ := (cmds.map fun c => (c.prdt.map Prod.snd).sum).sum

def TableOk (s : State) (c : Command) : Prop := s.ctMapped = true ∧ Inside s.live c.ctba ctStride

/-- What a request may do; one beyond the reported maximum is never made. -/
def RequestOk (s : State) : Request → Prop
  | .batch nsectors => nsectors * 512 ≤ s.batchDataSize →
      (∀ c ∈ submitBatch s nsectors, TableOk s c ∧ ∀ e ∈ c.prdt, Inside s.live e.1 e.2) ∧
      bytes (submitBatch s nsectors) = nsectors * 512
  | .phys nsectors pages totalBytes => nsectors * 512 ≤ s.batchDataSize →
      (∀ c ∈ submitPhys s nsectors pages totalBytes,
        TableOk s c ∧ ∀ e ∈ c.prdt, e.1 ∈ pages ∧ e.2 ≤ 4096) ∧
      (nsectors ≠ 0 → pages.length ≠ 0 →
        bytes (submitPhys s nsectors pages totalBytes) = nsectors * 512)

def Good (cap : ℕ) (s : State) (q : Queues) (e : Event) : Prop :=
  RequestOk s e.request ∧
    (ncqSupported e.disk = true →
      (q e.id ∪ issued s e.disk e.request).card ≤ ncqDepth cap e.disk)

structure Ready (s : State) (n : ℕ) : Prop where
  mapped : s.ctMapped = true
  table : ∀ slot < s.batchSlots, Inside s.live (s.ctPa + slot * ctStride) ctStride
  data : ∀ i < n, ∀ k ≤ 4096, Inside s.live (s.dataPaList i) k
  size : s.batchDataSize = s.batchSlots * slotDataSize
  slots : 1 ≤ s.batchSlots

def TablesLucky (luck : Luck) : Prop := luck.ct.isSome = true ∧ luck.ctMap = true

def Lucky (luck : Luck) : Prop := TablesLucky luck ∧ luck.sg.isSome = true

def dataPages (s : State) : ℕ := if s.batchSlots = 1 then 1 else s.batchSlots * prdtPerSlot

def oneSlot (ct data : ℕ) : State :=
  { initial ct data with batchSlots := 1, batchDataSize := 1 * slotDataSize }

def unpaged (ct data slots pa : ℕ) : State :=
  { initial ct data with
    live := [⟨pa, tableSize slots⟩], ctPa := pa, batchSlots := 1, batchDataSize := slotDataSize }

theorem ready_oneSlot (ct data : ℕ) : Ready (oneSlot ct data) 1 where
  mapped := rfl
  table slot hslot := ⟨⟨ct, 4096⟩, by simp [oneSlot, initial], by
    obtain rfl : slot = 0 := Nat.lt_one_iff.mp hslot
    simp [oneSlot, initial, ctStride]⟩
  data i hi k hk := ⟨⟨data, 4096⟩, by simp [oneSlot, initial], by
    obtain rfl : i = 0 := Nat.lt_one_iff.mp hi
    simpa [oneSlot, initial] using hk⟩
  size := rfl
  slots := Nat.le_refl 1

theorem hbaSlots_le (cap : ℕ) : hbaSlots cap ≤ 32 := by
  unfold hbaSlots
  omega

def reallocated (data slots pa : ℕ) (pages : ℕ → ℕ) : State where
  live := ⟨pa, tableSize slots⟩ ::
    (List.range (slots * prdtPerSlot)).map fun i => ⟨pages i, 4096⟩
  ctPa := pa
  ctMapped := true
  dataPaList i := if i < slots * prdtPerSlot then pages i else if i = 0 then data else 0
  batchSlots := slots
  batchDataSize := slots * slotDataSize

theorem realloc_eq {ct data slots size pa : ℕ} {luck : Luck} {pages : ℕ → ℕ} (hone : 1 < slots)
    (hmax : slots ≤ 32) (hct : luck.ct = some pa) (hmap : luck.ctMap = true)
    (hsg : luck.sg = some pages) :
    reallocBatchBuffers { initial ct data with batchSlots := slots, batchDataSize := size } luck =
      (reallocated data slots pa pages, true) := by
  have hn : min (slots * prdtPerSlot) 1024 = slots * prdtPerSlot :=
    Nat.min_eq_left (by simp only [prdtPerSlot]; omega)
  have hlive : ([⟨ct, 4096⟩, ⟨data, 4096⟩] : List Region).erase ⟨ct, 4096⟩ = [⟨data, 4096⟩] :=
    List.erase_cons_head ..
  rw [reallocBatchBuffers, if_neg (Nat.not_le.mpr hone)]
  simp only [hct, hmap, hsg, reallocData, hn, initial, hlive, if_true, List.cons_append,
    List.nil_append, List.erase_cons_head, reallocated]

theorem ready_reallocated {data slots pa : ℕ} {pages : ℕ → ℕ} (hone : 1 < slots) :
    Ready (reallocated data slots pa pages) (slots * prdtPerSlot) where
  mapped := rfl
  table slot hslot := ⟨_, List.mem_cons_self, by
    have hslot : slot < slots := hslot
    simp only [reallocated, tableSize, ctStride]
    omega⟩
  data i hi k hk := by
    refine ⟨⟨pages i, 4096⟩,
      List.mem_cons_of_mem _ (List.mem_map.mpr ⟨i, List.mem_range.mpr hi, rfl⟩), ?_⟩
    simp only [reallocated, if_pos hi]
    omega
  size := rfl
  slots := Nat.le_of_lt hone

theorem slotsAtProbe_bounds (cap : ℕ) (disks : List Disk) :
    1 ≤ slotsAtProbe cap disks ∧ slotsAtProbe cap disks ≤ 32 := by
  have := hbaSlots_le cap
  unfold slotsAtProbe
  split <;> omega

section Probe

variable {ct data cap : ℕ} {disks : List Disk} {luck : Luck}

theorem probe_one (hone : slotsAtProbe cap disks = 1) :
    probe ct data cap disks luck = oneSlot ct data := by
  simp [probe, hone, reallocBatchBuffers, oneSlot]

theorem probe_lucky {pa : ℕ} {pages : ℕ → ℕ} (hone : 1 < slotsAtProbe cap disks)
    (hct : luck.ct = some pa) (hmap : luck.ctMap = true) (hsg : luck.sg = some pages) :
    probe ct data cap disks luck = reallocated data (slotsAtProbe cap disks) pa pages := by
  rw [probe]
  simp only [realloc_eq hone (slotsAtProbe_bounds cap disks).2 hct hmap hsg]

/-- Without new tables nothing is mapped where the commands are written. -/
theorem probe_unmapped (hone : 1 < slotsAtProbe cap disks) (hno : ¬TablesLucky luck) :
    (probe ct data cap disks luck).ctMapped = false ∧
      (probe ct data cap disks luck).batchSlots = 1 ∧
      (probe ct data cap disks luck).batchDataSize = slotDataSize := by
  unfold TablesLucky at hno
  simp only [probe, reallocBatchBuffers, if_neg (Nat.not_le.mpr hone)]
  cases hct : luck.ct with
  | none => exact ⟨rfl, rfl, rfl⟩
  | some pa =>
    have hmap : luck.ctMap = false := by simpa [hct] using hno
    simp [hmap]

/-- Without new pages the old one is freed all the same. -/
theorem probe_unpaged {pa : ℕ} (hone : 1 < slotsAtProbe cap disks) (hct : luck.ct = some pa)
    (hmap : luck.ctMap = true) (hsg : luck.sg = none) :
    probe ct data cap disks luck = unpaged ct data (slotsAtProbe cap disks) pa := by
  have hlive : ([⟨ct, 4096⟩, ⟨data, 4096⟩] : List Region).erase ⟨ct, 4096⟩ = [⟨data, 4096⟩] :=
    List.erase_cons_head ..
  simp only [probe, reallocBatchBuffers, if_neg (Nat.not_le.mpr hone), hct, hmap, hsg, reallocData,
    unpaged, initial, hlive, if_true, List.cons_append, List.nil_append, List.erase_cons_head]

end Probe

theorem sectorsPerSlot_eq : sectorsPerSlot = 256 := rfl

theorem prdtPerSlot_eq : prdtPerSlot = 32 := rfl

theorem prdtBytes_eq {n : ℕ} (hpos : 0 < n) (hle : n ≤ 4096) : prdtBytes n = n := by
  unfold prdtBytes
  omega

theorem pageBytes_bounds {sectors p : ℕ} (hp : p < (sectors * 512 + 4095) / 4096) :
    0 < pageBytes (sectors * 512) ((sectors * 512 + 4095) / 4096) p ∧
      pageBytes (sectors * 512) ((sectors * 512 + 4095) / 4096) p ≤ 4096 := by
  unfold pageBytes
  split <;> omega

theorem min_prdt {sectors : ℕ} (h : sectors ≤ sectorsPerSlot) :
    min ((sectors * 512 + 4095) / 4096) prdtPerSlot = (sectors * 512 + 4095) / 4096 := by
  rw [sectorsPerSlot_eq] at h
  rw [prdtPerSlot_eq]
  omega

theorem slotCommand_bytes {s : State} {slot sectors : ℕ} (h : sectors ≤ sectorsPerSlot) :
    ((slotCommand s slot sectors).prdt.map Prod.snd).sum = sectors * 512 := by
  simp only [slotCommand, List.map_map, min_prdt h]
  rcases Nat.eq_zero_or_pos sectors with rfl | hpos
  · rfl
  · obtain ⟨m, hm⟩ : ∃ m, (sectors * 512 + 4095) / 4096 = m + 1 := ⟨(sectors * 512 + 4095) / 4096 - 1, by omega⟩
    have hfull : (List.range m).map (Prod.snd ∘ fun p => (s.dataPaList (slot * prdtPerSlot + p),
        prdtBytes (pageBytes (sectors * 512) (m + 1) p))) = (List.range m).map fun _ => 4096 := by
      refine List.map_congr_left fun p hp => ?_
      have hp := List.mem_range.mp hp
      simp only [Function.comp_apply, pageBytes, Nat.add_sub_cancel]
      rw [if_neg (by omega)]
      rfl
    have hlast : prdtBytes (pageBytes (sectors * 512) (m + 1) m) = sectors * 512 - m * 4096 := by
      have hpage : pageBytes (sectors * 512) (m + 1) m = sectors * 512 - m * 4096 := by
        unfold pageBytes
        rw [Nat.add_sub_cancel]
        by_cases hfull : sectors * 512 - m * 4096 < 4096
        · rw [if_pos ⟨rfl, hfull⟩]
        · rw [if_neg fun h => hfull h.2]
          omega
      rw [hpage, prdtBytes_eq (by omega) (by omega)]
    rw [hm, List.range_succ, List.map_append, List.sum_append, hfull, List.map_const',
      List.length_range, List.sum_replicate_nat]
    simp only [List.map_cons, List.map_nil, List.sum_cons, List.sum_nil, Function.comp_apply, hlast]
    omega

theorem slotCommand_ok {s : State} {slot sectors n : ℕ} (hready : Ready s n)
    (hslot : slot < s.batchSlots) (hle : sectors ≤ sectorsPerSlot)
    (hpages : 0 < sectors → slot * prdtPerSlot + (sectors * 512 + 4095) / 4096 ≤ n) :
    TableOk s (slotCommand s slot sectors) ∧
      ∀ e ∈ (slotCommand s slot sectors).prdt, Inside s.live e.1 e.2 := by
  refine ⟨⟨hready.mapped, hready.table slot hslot⟩, fun e he => ?_⟩
  simp only [slotCommand, min_prdt hle, List.mem_map, List.mem_range] at he
  obtain ⟨p, hp, rfl⟩ := he
  obtain ⟨hpos, hmax⟩ := pageBytes_bounds hp
  have hpages := hpages (by omega)
  exact hready.data _ (by omega) _ (by rwa [prdtBytes_eq hpos hmax])

theorem batchLoop_ok {s : State} {n : ℕ} (hready : Ready s n) (k : ℕ) {slot nsectors : ℕ}
    (hslot : slot + k ≤ s.batchSlots) (hcover : nsectors ≤ k * sectorsPerSlot)
    (hpages : 0 < nsectors → slot * prdtPerSlot + (nsectors * 512 + 4095) / 4096 ≤ n) :
    (∀ c ∈ batchLoop s k slot nsectors, TableOk s c ∧ ∀ e ∈ c.prdt, Inside s.live e.1 e.2) ∧
      bytes (batchLoop s k slot nsectors) = nsectors * 512 := by
  induction k generalizing slot nsectors with
  | zero =>
    obtain rfl : nsectors = 0 := by omega
    exact ⟨fun c hc => absurd hc List.not_mem_nil, rfl⟩
  | succ k ih =>
    rw [batchLoop]
    generalize hsect : (if sectorsPerSlot < nsectors then sectorsPerSlot else nsectors) = sectors
    rw [sectorsPerSlot_eq] at hsect hcover
    rw [prdtPerSlot_eq] at hpages
    have hle : sectors ≤ 256 ∧ sectors ≤ nsectors ∧ (sectors = 256 ∨ nsectors = sectors) := by
      split at hsect <;> omega
    have hrest : nsectors - sectors ≤ k * sectorsPerSlot := by
      rw [sectorsPerSlot_eq]
      omega
    have hpages' : 0 < nsectors - sectors →
        (slot + 1) * prdtPerSlot + ((nsectors - sectors) * 512 + 4095) / 4096 ≤ n := by
      rw [prdtPerSlot_eq]
      omega
    obtain ⟨hok, hbytes⟩ := ih (by omega) hrest hpages'
    have hfirst : 0 < sectors → slot * prdtPerSlot + (sectors * 512 + 4095) / 4096 ≤ n := by
      rw [prdtPerSlot_eq]
      omega
    refine ⟨List.forall_mem_cons.mpr ⟨slotCommand_ok hready (by omega) hle.1 hfirst, hok⟩, ?_⟩
    rw [bytes] at hbytes ⊢
    rw [List.map_cons, List.sum_cons, slotCommand_bytes hle.1, hbytes]
    omega

theorem slotDataSize_eq : slotDataSize = 131072 := rfl

theorem submitBatch_ok {s : State} {nsectors : ℕ} (hready : Ready s (dataPages s))
    (hsmall : s.batchSlots = 1 → nsectors ≤ 8) (hmax : nsectors * 512 ≤ s.batchDataSize) :
    (∀ c ∈ submitBatch s nsectors, TableOk s c ∧ ∀ e ∈ c.prdt, Inside s.live e.1 e.2) ∧
      bytes (submitBatch s nsectors) = nsectors * 512 := by
  rw [hready.size, slotDataSize_eq] at hmax
  have hslots : batchSlotsFor s nsectors = (nsectors + 255) / 256 := by
    rw [batchSlotsFor, sectorsPerSlot_eq]
    omega
  have hslot : 0 + (nsectors + 255) / 256 ≤ s.batchSlots := by omega
  have hcover : nsectors ≤ (nsectors + 255) / 256 * sectorsPerSlot := by
    rw [sectorsPerSlot_eq]
    omega
  have hpages : 0 * prdtPerSlot + (nsectors * 512 + 4095) / 4096 ≤ dataPages s := by
    rw [dataPages, prdtPerSlot_eq]
    split <;> omega
  rw [submitBatch, hslots]
  exact batchLoop_ok hready _ hslot hcover fun _ => hpages

theorem physLoop_fst {bytesLeft : ℕ} {pages : List ℕ} {e : ℕ × ℕ}
    (he : e ∈ physLoop bytesLeft pages) : e.1 ∈ pages := by
  induction pages generalizing bytesLeft with
  | nil => cases he
  | cons pa pages ih =>
    rcases List.mem_cons.mp he with rfl | he
    · exact List.mem_cons_self
    · exact List.mem_cons_of_mem _ (ih he)

theorem physLoop_sum_le {bytesLeft : ℕ} {pages : List ℕ}
    (hpos : (pages.length - 1) * 4096 < bytesLeft) :
    (∀ e ∈ physLoop bytesLeft pages, e.1 ∈ pages ∧ e.2 ≤ 4096) ∧
      ((physLoop bytesLeft pages).map Prod.snd).sum = min bytesLeft (pages.length * 4096) := by
  induction pages generalizing bytesLeft with
  | nil => simp [physLoop]
  | cons pa pages ih =>
    simp only [List.length_cons, Nat.add_sub_cancel] at hpos
    have hchunk : 0 < (if 4096 < bytesLeft then 4096 else bytesLeft) ∧
        (if 4096 < bytesLeft then 4096 else bytesLeft) = min bytesLeft 4096 := by
      split <;> omega
    rw [physLoop, prdtBytes_eq hchunk.1 (by omega), hchunk.2]
    by_cases hlast : pages = []
    · subst hlast
      simp [physLoop]
    · obtain ⟨m, hm⟩ := Nat.exists_eq_succ_of_ne_zero (mt List.length_eq_zero_iff.mp hlast)
      rw [hm, Nat.succ_eq_add_one, Nat.add_mul] at hpos
      have hmin : min bytesLeft 4096 = 4096 := Nat.min_eq_right (by omega)
      have hpos' : (pages.length - 1) * 4096 < bytesLeft - 4096 := by
        rw [hm, Nat.succ_sub_one]
        exact Nat.lt_sub_of_add_lt hpos
      rw [hmin]
      obtain ⟨hok, hsum⟩ := ih hpos'
      refine ⟨List.forall_mem_cons.mpr ⟨⟨List.mem_cons_self, Nat.le_refl _⟩, fun e he =>
        ⟨List.mem_cons_of_mem _ (hok e he).1, (hok e he).2⟩⟩, ?_⟩
      rw [List.map_cons, List.sum_cons, hsum, List.length_cons]
      omega

/-- An entry for no bytes left stands for 4 MiB. -/
theorem physLoop_long {bytesLeft : ℕ} {pages : List ℕ} (hne : pages ≠ [])
    (hle : bytesLeft ≤ (pages.length - 1) * 4096) :
    ∃ e ∈ physLoop bytesLeft pages, 4096 < e.2 := by
  induction pages generalizing bytesLeft with
  | nil => exact absurd rfl hne
  | cons pa pages ih =>
    rw [physLoop]
    simp only [List.length_cons, Nat.add_sub_cancel] at hle
    by_cases hlast : pages = []
    · subst hlast
      obtain rfl : bytesLeft = 0 := by simpa using hle
      exact ⟨_, List.mem_cons_self, (by decide : 4096 < prdtBytes 0)⟩
    · have hlen := List.length_pos_iff.mpr hlast
      have hle' : bytesLeft - (if 4096 < bytesLeft then 4096 else bytesLeft) ≤
          (pages.length - 1) * 4096 := by
        split <;> omega
      obtain ⟨e, he, hbig⟩ := ih hlast hle'
      exact ⟨e, List.mem_cons_of_mem _ he, hbig⟩

theorem physLoop_iff {bytesLeft n : ℕ} {pages : List ℕ} (hne : pages ≠ []) :
    ((∀ e ∈ physLoop bytesLeft pages, e.1 ∈ pages ∧ e.2 ≤ 4096) ∧
      ((physLoop bytesLeft pages).map Prod.snd).sum = n) ↔
    (pages.length - 1) * 4096 < bytesLeft ∧ min bytesLeft (pages.length * 4096) = n := by
  by_cases hpos : (pages.length - 1) * 4096 < bytesLeft
  · obtain ⟨hok, hsum⟩ := physLoop_sum_le hpos
    rw [hsum]
    exact and_congr_left fun _ => iff_of_true hok hpos
  · obtain ⟨e, he, hbig⟩ := physLoop_long hne (Nat.not_lt.mp hpos)
    exact iff_of_false (fun h => absurd (h.1 e he).2 (Nat.not_le.mpr hbig)) fun h => hpos h.1

/-- What is known of the addresses that the probe gets: none is 0, and the new tables do not overlap
the page of data, which is in use when they are allocated. -/
structure Allocated (ct data slots : ℕ) (luck : Luck) : Prop where
  ct_pos : 0 < ct
  data_pos : 0 < data
  apart : ∀ pa, luck.ct = some pa → pa + tableSize slots ≤ data ∨ data + 4096 ≤ pa

/-- What callers have to see to.  With one slot there is one page of data; after a failed
reallocation no batch can be made, and without tables no physical request either.  A batch may not
need more slots than the disk queues, and of a page list every entry is used and none is missing. -/
def Careful (cap : ℕ) (found : List Disk) (luck : Luck) (s : State) (e : Event) : Prop :=
  match e.request with
  | .batch nsectors =>
      (nsectors * 512 ≤ s.batchDataSize → nsectors = 0 ∨
        (slotsAtProbe cap found = 1 ∧ nsectors ≤ 8) ∨
        (1 < slotsAtProbe cap found ∧ Lucky luck)) ∧
      (ncqSupported e.disk = true → batchSlotsFor s nsectors ≤ ncqDepth cap e.disk)
  | .phys nsectors pages totalBytes =>
      nsectors * 512 ≤ s.batchDataSize → nsectors ≠ 0 → pages ≠ [] →
        (slotsAtProbe cap found = 1 ∨ TablesLucky luck) ∧
        ((pages.take prdtPerSlot).length - 1) * 4096 < totalBytes ∧
        min totalBytes ((pages.take prdtPerSlot).length * 4096) = nsectors * 512

section Requests

variable {ct data cap : ℕ} {found : List Disk} {luck : Luck}

theorem submitBatch_zero (s : State) : submitBatch s 0 = [] := by
  have : batchSlotsFor s 0 = 0 := by
    rw [batchSlotsFor, sectorsPerSlot_eq]
    simp
  rw [submitBatch, this, batchLoop]

/-- The command for the first slot. -/
theorem first_mem_submitBatch {s : State} {nsectors : ℕ} (hslots : 1 ≤ s.batchSlots)
    (hpos : 0 < nsectors) : ∃ sectors, slotCommand s 0 sectors ∈ submitBatch s nsectors ∧
      0 < sectors ∧ sectors = min nsectors 256 := by
  have hn : ∃ n, batchSlotsFor s nsectors = n + 1 :=
    ⟨batchSlotsFor s nsectors - 1, by rw [batchSlotsFor, sectorsPerSlot_eq]; omega⟩
  obtain ⟨n, hn⟩ := hn
  rw [submitBatch, hn, batchLoop]
  refine ⟨_, List.mem_cons_self, ?_⟩
  rw [sectorsPerSlot_eq]
  split <;> omega

/-- Its pages are the first ones of the list. -/
theorem page_mem_slotCommand {s : State} {sectors p : ℕ} (hle : sectors ≤ 256)
    (hp : p < (sectors * 512 + 4095) / 4096) :
    ∃ n, 0 < n ∧ (s.dataPaList p, n) ∈ (slotCommand s 0 sectors).prdt := by
  obtain ⟨hpos, hmax⟩ := pageBytes_bounds hp
  refine ⟨_, ?_, List.mem_map.mpr ⟨p, ?_, Prod.ext (by simp) rfl⟩⟩
  · rw [min_prdt (by rw [sectorsPerSlot_eq]; exact hle), prdtBytes_eq hpos hmax]
    exact hpos
  · rw [min_prdt (by rw [sectorsPerSlot_eq]; exact hle)]
    exact List.mem_range.mpr hp

theorem batch_one (halloc : Allocated ct data (slotsAtProbe cap found) luck)
    (hone : slotsAtProbe cap found = 1) (nsectors : ℕ) :
    RequestOk (probe ct data cap found luck) (.batch nsectors) ↔
      (nsectors * 512 ≤ (probe ct data cap found luck).batchDataSize → nsectors ≤ 8) := by
  rw [probe_one hone]
  have hready := ready_oneSlot ct data
  refine forall_congr' fun hmax => ⟨fun hok => ?_, fun hle => ?_⟩
  · -- the second page has address 0
    by_contra hlt
    have hnsectors : 0 < nsectors := by omega
    obtain ⟨sectors, hmem, hpos, heq⟩ := first_mem_submitBatch hready.slots hnsectors
    obtain ⟨n, hn, he⟩ :=
      @page_mem_slotCommand (oneSlot ct data) sectors 1 (by omega) (by omega)
    obtain ⟨r, hr, hlow, -⟩ := (hok.1 _ hmem).2 _ he
    have hr : r = ⟨ct, 4096⟩ ∨ r = ⟨data, 4096⟩ := by simpa [oneSlot, initial] using hr
    have hlow : r.pa ≤ 0 := hlow
    have hct := halloc.ct_pos
    have hdata := halloc.data_pos
    rcases hr with rfl | rfl <;> dsimp only at hlow <;> omega
  · exact submitBatch_ok hready (fun _ => hle) hmax

theorem batch_unmapped {s : State} (hmap : s.ctMapped = false) (hslots : s.batchSlots = 1)
    (nsectors : ℕ) :
    RequestOk s (.batch nsectors) ↔ (nsectors * 512 ≤ s.batchDataSize → nsectors = 0) := by
  refine forall_congr' fun _ => ⟨fun hok => ?_, ?_⟩
  · by_contra hne
    obtain ⟨sectors, hmem, -⟩ := first_mem_submitBatch hslots.ge (Nat.pos_of_ne_zero hne)
    have := (hok.1 _ hmem).1.1
    rw [hmap] at this
    cases this
  · rintro rfl
    simp [submitBatch_zero, bytes]

theorem batch_unpaged {pa : ℕ} (halloc : Allocated ct data (slotsAtProbe cap found) luck)
    (hone : 1 < slotsAtProbe cap found) (hct : luck.ct = some pa) (hmap : luck.ctMap = true)
    (hsg : luck.sg = none) (nsectors : ℕ) :
    RequestOk (probe ct data cap found luck) (.batch nsectors) ↔
      (nsectors * 512 ≤ (probe ct data cap found luck).batchDataSize → nsectors = 0) := by
  rw [probe_unpaged hone hct hmap hsg]
  refine forall_congr' fun _ => ⟨fun hok => ?_, ?_⟩
  · -- the page of data was freed, and the tables are elsewhere
    by_contra hne
    obtain ⟨sectors, hmem, hpos, heq⟩ :=
      first_mem_submitBatch (s := unpaged ct data (slotsAtProbe cap found) pa) (Nat.le_refl 1)
        (Nat.pos_of_ne_zero hne)
    obtain ⟨n, hn, he⟩ := @page_mem_slotCommand (unpaged ct data (slotsAtProbe cap found) pa)
      sectors 0 (by omega) (by omega)
    obtain ⟨r, hr, hlow, hhigh⟩ := (hok.1 _ hmem).2 _ he
    obtain rfl := List.mem_singleton.mp hr
    have hlow : pa ≤ data := hlow
    have hhigh : data + n ≤ pa + tableSize (slotsAtProbe cap found) := hhigh
    have happart := halloc.apart pa hct
    omega
  · rintro rfl
    simp [submitBatch_zero, bytes]

theorem batch_iff (halloc : Allocated ct data (slotsAtProbe cap found) luck) (nsectors : ℕ) :
    RequestOk (probe ct data cap found luck) (.batch nsectors) ↔
      (nsectors * 512 ≤ (probe ct data cap found luck).batchDataSize → nsectors = 0 ∨
        (slotsAtProbe cap found = 1 ∧ nsectors ≤ 8) ∨
        (1 < slotsAtProbe cap found ∧ Lucky luck)) := by
  rcases Nat.eq_or_lt_of_le (slotsAtProbe_bounds cap found).1 with hone | hone
  · rw [batch_one halloc hone.symm]
    refine forall_congr' fun _ => ?_
    simp only [hone.symm, Nat.lt_irrefl, false_and, or_false, true_and]
    omega
  · simp only [Nat.ne_of_gt hone, false_and, false_or, hone, true_and]
    by_cases htables : TablesLucky luck
    · obtain ⟨pa, hct⟩ := Option.isSome_iff_exists.mp htables.1
      cases hsg : luck.sg with
      | none =>
        rw [batch_unpaged halloc hone hct htables.2 hsg]
        simp [Lucky, hsg]
      | some pages =>
        have hlucky : Lucky luck := ⟨htables, by rw [hsg]; rfl⟩
        simp only [hlucky, or_true, implies_true, iff_true]
        rw [probe_lucky hone hct htables.2 hsg]
        have hpages : dataPages (reallocated data (slotsAtProbe cap found) pa pages) =
            slotsAtProbe cap found * prdtPerSlot := if_neg (Nat.ne_of_gt hone)
        exact submitBatch_ok (hpages ▸ ready_reallocated hone)
          fun hslots => absurd hslots (Nat.ne_of_gt hone)
    · obtain ⟨hmap, hslots, -⟩ := @probe_unmapped ct data cap found luck hone htables
      rw [batch_unmapped hmap hslots]
      simp [Lucky, htables]

theorem table_iff (prdt : List (ℕ × ℕ)) :
    TableOk (probe ct data cap found luck) ⟨(probe ct data cap found luck).ctPa, prdt⟩ ↔
      slotsAtProbe cap found = 1 ∨ TablesLucky luck := by
  rcases Nat.eq_or_lt_of_le (slotsAtProbe_bounds cap found).1 with hone | hone
  · rw [probe_one hone.symm]
    have hready := ready_oneSlot ct data
    exact iff_of_true ⟨hready.mapped, by simpa using hready.table 0 Nat.one_pos⟩ (.inl hone.symm)
  · by_cases htables : TablesLucky luck
    · refine iff_of_true ?_ (.inr htables)
      obtain ⟨pa, hct⟩ := Option.isSome_iff_exists.mp htables.1
      cases hsg : luck.sg with
      | none =>
        rw [probe_unpaged hone hct htables.2 hsg]
        refine ⟨rfl, ⟨pa, _⟩, List.mem_singleton.mpr rfl, Nat.le_refl _, ?_⟩
        show pa + ctStride ≤ pa + tableSize (slotsAtProbe cap found)
        simp only [tableSize, ctStride]
        omega
      | some pages =>
        rw [probe_lucky hone hct htables.2 hsg]
        have hready := @ready_reallocated data _ pa pages hone
        exact ⟨hready.mapped, by simpa using hready.table 0 (Nat.zero_lt_of_lt hone)⟩
    · refine iff_of_false (fun h => ?_) fun h => h.elim (Nat.ne_of_gt hone) htables
      rw [TableOk, (@probe_unmapped ct data cap found luck hone htables).1] at h
      exact absurd h.1 Bool.false_ne_true

theorem phys_iff (nsectors : ℕ) (pages : List ℕ) (totalBytes : ℕ) :
    RequestOk (probe ct data cap found luck) (.phys nsectors pages totalBytes) ↔
      (nsectors * 512 ≤ (probe ct data cap found luck).batchDataSize → nsectors ≠ 0 → pages ≠ [] →
        (slotsAtProbe cap found = 1 ∨ TablesLucky luck) ∧
        ((pages.take prdtPerSlot).length - 1) * 4096 < totalBytes ∧
        min totalBytes ((pages.take prdtPerSlot).length * 4096) = nsectors * 512) := by
  refine forall_congr' fun _ => ?_
  by_cases hnone : nsectors = 0 ∨ pages.length = 0
  · rw [submitPhys, if_pos hnone]
    rcases hnone with hnone | hnone
    · simp [hnone]
    · simp [List.length_eq_zero_iff.mp hnone]
  · obtain ⟨hsect, hlen⟩ := not_or.mp hnone
    have hne : pages ≠ [] := fun h => hlen (by rw [h]; rfl)
    have htake : pages.take prdtPerSlot ≠ [] := by simp [hne, prdtPerSlot_eq]
    rw [submitPhys, if_neg hnone]
    simp only [List.mem_singleton, forall_eq, hsect, hlen, hne, ne_eq, not_false_eq_true,
      true_implies, table_iff, bytes, List.map_cons, List.map_nil, List.sum_cons, List.sum_nil,
      Nat.add_zero, ← physLoop_iff htake, and_assoc]
    refine and_congr_right fun _ => and_congr_left fun _ => forall₂_congr fun e he => ?_
    exact and_congr_left fun _ => ⟨fun _ => physLoop_fst he, List.mem_of_mem_take⟩

end Requests

def Queued (cap : ℕ) (disks : ℕ → Disk) (q : Queues) : Prop :=
  ∀ i, ncqSupported (disks i) = true → q i ⊆ Finset.range (ncqDepth cap (disks i))

theorem queue_iff {cap : ℕ} {s : State} {q : Queues} {e : Event}
    (hq : ncqSupported e.disk = true → q e.id ⊆ Finset.range (ncqDepth cap e.disk)) :
    (ncqSupported e.disk = true →
        (q e.id ∪ issued s e.disk e.request).card ≤ ncqDepth cap e.disk) ↔
      (ncqSupported e.disk = true →
        issued s e.disk e.request ⊆ Finset.range (ncqDepth cap e.disk)) := by
  refine forall_congr' fun hncq => ⟨fun hcard => ?_, fun hsub => ?_⟩
  · cases hr : e.request with
    | batch nsectors =>
      rw [hr, issued, if_pos hncq] at hcard
      rw [issued, if_pos hncq]
      refine Finset.range_subset_range.mpr (le_trans ?_ hcard)
      exact (Finset.card_range _).ge.trans (Finset.card_le_card Finset.subset_union_right)
    | phys _ _ _ => exact Finset.empty_subset _
  · exact (Finset.card_le_card (Finset.union_subset (hq hncq) hsub)).trans (Finset.card_range _).le

theorem good_iff {ct data cap : ℕ} {found : List Disk} {luck : Luck} {q : Queues} {e : Event}
    (halloc : Allocated ct data (slotsAtProbe cap found) luck)
    (hq : ncqSupported e.disk = true → q e.id ⊆ Finset.range (ncqDepth cap e.disk)) :
    Good cap (probe ct data cap found luck) q e ↔
      Careful cap found luck (probe ct data cap found luck) e := by
  rw [Good, queue_iff hq, Careful]
  cases hr : e.request with
  | batch nsectors =>
    refine and_congr (batch_iff halloc nsectors) (forall_congr' fun hncq => ?_)
    rw [issued, if_pos hncq, Finset.range_subset_range]
  | phys nsectors pages totalBytes =>
    rw [phys_iff]
    simp [issued]

/-- For every answer to the allocations of the probe: the commands point to memory that the driver
holds or to the pages of the caller, their bytes are those of the requests, and no disk has more
commands queued than it takes, exactly if every request is careful. -/
theorem commands_contained {ct data cap : ℕ} {found : List Disk} {luck : Luck} {disks : ℕ → Disk}
    {events : List Event} (halloc : Allocated ct data (slotsAtProbe cap found) luck)
    (hdisk : ∀ e ∈ events, e.disk = disks e.id) :
    StepsMeet (step (probe ct data cap found luck)) (Good cap (probe ct data cap found luck))
        (fun _ => ∅) events ↔
      ∀ e ∈ events, Careful cap found luck (probe ct data cap found luck) e := by
  generalize hs : probe ct data cap found luck = s
  suffices h : ∀ q, Queued cap disks q →
      (StepsMeet (step s) (Good cap s) q events ↔ ∀ e ∈ events, Careful cap found luck s e) from
    h _ fun i _ => Finset.empty_subset _
  induction events with
  | nil => simp [StepsMeet]
  | cons e events ih =>
    intro q hqueued
    have he := hdisk e List.mem_cons_self
    have hq : ncqSupported e.disk = true → q e.id ⊆ Finset.range (ncqDepth cap e.disk) :=
      fun hncq => he ▸ hqueued e.id (he ▸ hncq)
    have hgood : Good cap s q e ↔ Careful cap found luck s e := hs ▸ good_iff halloc hq
    rw [StepsMeet, List.forall_mem_cons, ← hgood]
    refine and_congr_right fun hg => ?_
    have hqueued' : Queued cap disks
        (Function.update q e.id ((q e.id ∪ issued s e.disk e.request) ∩ e.kept)) := by
      intro i hi
      by_cases hid : i = e.id
      · subst hid
        rw [Function.update_self, ← he]
        rw [← he] at hi
        exact Finset.inter_subset_left.trans
          (Finset.union_subset (hq hi) ((queue_iff hq).mp hg.2 hi))
      · rw [Function.update_of_ne hid]
        exact hqueued i hi
    rw [← ih (fun e' h' => hdisk e' (List.mem_cons_of_mem _ h')) _ hqueued']
    simp [step]

def queueing (word : ℕ) : Disk := ⟨true, true, word⟩

def roomy : Luck := ⟨some 65536, true, some fun i => 1048576 + 4096 * i⟩

/-- A full batch on an HBA with 32 slots, and a page list with more bytes than the page has. -/
theorem commands_contained_full :
    StepsMeet (step (probe 4096 8192 7936 [queueing 31] roomy))
      (Good 7936 (probe 4096 8192 7936 [queueing 31] roomy)) (fun _ => ∅)
      [⟨queueing 31, 0, .batch 8192, ∅⟩, ⟨queueing 31, 0, .phys 8 [4096] 8192, ∅⟩] := by
  refine (@commands_contained 4096 8192 7936 [queueing 31] roomy (fun _ => queueing 31) _
    ⟨by decide, by decide, ?_⟩ ?_).mpr ?_
  · rintro _ ⟨⟩
    exact .inr (by decide)
  · simp
  · rintro e he
    simp only [List.mem_cons, List.not_mem_nil, or_false] at he
    rcases he with rfl | rfl
    · exact ⟨fun _ => .inr (.inr ⟨by decide, ⟨rfl, rfl⟩, rfl⟩), fun _ => by decide⟩
    · exact fun _ _ _ => ⟨.inr ⟨rfl, rfl⟩, by decide, by decide⟩

instance decidableTableOk (s : State) (c : Command) : Decidable (TableOk s c) :=
  inferInstanceAs (Decidable (_ ∧ _))

instance decidableRequestOk (s : State) (r : Request) : Decidable (RequestOk s r) := by
  cases r <;> unfold RequestOk <;> infer_instance

/-- The tables are used after they were freed, if no new ones could be allocated, and so is the page of
data; with one slot there is one page, but 128 KiB are accepted; an entry for no bytes left means
4 MiB; of 33 pages the last is not transferred; and a disk that queues one command gets 32. -/
theorem commands_stray :
    ¬RequestOk (probe 4096 8192 7936 [queueing 31] ⟨none, true, none⟩) (.batch 8) ∧
    ¬RequestOk (probe 4096 8192 7936 [queueing 31] ⟨some 65536, true, none⟩) (.batch 8) ∧
    ¬RequestOk (probe 4096 8192 0 [queueing 31] roomy) (.batch 256) ∧
    ¬RequestOk (probe 4096 8192 7936 [queueing 31] roomy) (.phys 8 [4096, 8192] 4096) ∧
    ¬RequestOk (probe 4096 8192 7936 [queueing 31] roomy)
      (.phys 264 (List.replicate 33 4096) 135168) ∧
    ¬Good 7936 (probe 4096 8192 7936 [queueing 0] roomy) (fun _ => ∅)
      ⟨queueing 0, 0, .batch 8192, ∅⟩ := by
  refine ⟨?_, ?_, ?_, ?_, ?_, fun h => absurd (h.2 rfl) (by decide +kernel)⟩
  all_goals decide +kernel

end Uros.Block.Ahci
