import Mathlib.Data.List.Nodup
import Mathlib.Data.List.Perm.Basic
import Mathlib.Data.List.Sort
import Mathlib.Data.UInt
import Mathlib.Logic.Function.Basic
import Mathlib.Tactic.Common
import Uros.Foundation.Transition

/-!
The lists of the page cache (`page_cache.c`): the free list, the LRU list and the hash chains over
one pool of entries, and the progress of `page_cache_sync`.

An entry is known by its place in the pool.  One thread uses the cache; how the writeback callback
and `vm_allocate` answer is part of each call.  Of the data only the buffer and its size are kept.
-/

namespace Uros.PageCache.Structure

open Uros.Foundation

structure PcEntry where
  block : UInt32
  data : ℕ
  size : ℕ
  dirty : Bool
  busy : Bool
  deriving DecidableEq, Repr

/-- `struct page_cache`: the lists hold places in the pool, the LRU list from the most recently
used on. -/
structure Cache where
  maxEntries : UInt32
  dma : Bool
  callback : Bool
  ent : ℕ → PcEntry
  free : List ℕ
  lru : List ℕ
  hash : ℕ → List ℕ
  count : UInt32

def pcHash (block : UInt32) : ℕ := block.toNat % 4096

namespace Cache

def create (maxEntries : UInt32) (callback : Bool) (pool : Option (ℕ → ℕ × ℕ)) : Cache where
  maxEntries := maxEntries
  dma := pool.isSome
  callback := callback
  ent := fun i => ⟨-1, ((pool.map (· i)).getD (0, 0)).1, ((pool.map (· i)).getD (0, 0)).2,
    false, false⟩
  free := (List.range maxEntries.toNat).reverse
  lru := []
  hash := fun _ => []
  count := 0

variable (c : Cache)

def find (b : UInt32) : Option ℕ := (c.hash (pcHash b)).find? fun i => (c.ent i).block = b

def setEnt (i : ℕ) (e : PcEntry) : Cache := { c with ent := Function.update c.ent i e }

def touch (i : ℕ) : Cache := { c with lru := i :: c.lru.erase i }

def entryWriteback (i : ℕ) (ok : Bool) : Cache :=
  if (c.ent i).dirty && (!c.callback || ok) then c.setEnt i { c.ent i with dirty := false } else c

def entryFreeData (i : ℕ) : Cache :=
  if (c.ent i).data = 0 ∨ c.dma then c else c.setEnt i { c.ent i with data := 0, size := 0 }

def unlink (i : ℕ) : Cache :=
  { c with
    lru := c.lru.erase i
    hash := Function.update c.hash (pcHash (c.ent i).block)
      ((c.hash (pcHash (c.ent i).block)).erase i) }

def remove (i : ℕ) (ok : Bool) : Cache := ((c.entryWriteback i ok).unlink i).entryFreeData i

def evictLru (ok : Bool) : Option (ℕ × Cache) :=
  (c.lru.reverse.find? fun i => !(c.ent i).busy).map fun v =>
    (v, { c.remove v ok with count := (c.remove v ok).count - 1 })

def takeEntry (ok : Bool) : Option (ℕ × Cache) :=
  match c.free with
  | i :: rest => some (i, { c with free := rest })
  | [] => c.evictLru ok

def link (i : ℕ) (b : UInt32) : Cache :=
  { c with
    ent := Function.update c.ent i { c.ent i with block := b, dirty := false, busy := false }
    hash := Function.update c.hash (pcHash b) (i :: c.hash (pcHash b))
    lru := i :: c.lru
    count := c.count + 1 }

def release (i : ℕ) : Cache := { c with free := i :: c.free }

def pageCacheLookup (b : UInt32) : Cache :=
  match c.find b with
  | some i => c.touch i
  | none => c

def pageCacheInsert (b : UInt32) (size : ℕ) (ok : Bool) (addr : Option ℕ) : Cache :=
  match c.find b with
  | some i => c.touch i
  | none =>
    match c.takeEntry ok with
    | none => c
    | some (i, c) =>
      if c.dma then c.link i b
      else
        match addr with
        | none => c.release i
        | some a => (c.setEnt i { c.ent i with data := a, size := size }).link i b

def pageCacheInvalidate (b : UInt32) (ok : Bool) : Cache :=
  match c.find b with
  | none => c
  | some i =>
    let c := c.remove i ok
    let c := (c.setEnt i { c.ent i with block := -1 }).release i
    { c with count := c.count - 1 }

def flushOne (ok : ℕ → Bool) (c : Cache) (i : ℕ) : Cache :=
  if (c.ent i).data ≠ 0 ∧ (c.ent i).block ≠ -1 then
    let c := c.remove i (ok i)
    (c.setEnt i { c.ent i with block := -1 }).release i
  else c

def pageCacheFlush (ok : ℕ → Bool) : Cache :=
  { (List.range c.maxEntries.toNat).foldl (flushOne ok) c with count := 0 }

def pageCacheMarkDirty (b : UInt32) : Cache :=
  match c.find b with
  | some i => c.setEnt i { c.ent i with dirty := true }
  | none => c

def updateCached (i : ℕ) (size : ℕ) (addr : Option ℕ) : Cache :=
  if c.dma || (c.ent i).size = size then
    (c.setEnt i { c.ent i with dirty := true }).touch i
  else
    let c := c.entryFreeData i
    match addr with
    | none => c
    | some a => (c.setEnt i { c.ent i with data := a, size := size, dirty := true }).touch i

def pageCacheUpdate (b : UInt32) (size : ℕ) (ok : Bool) (addr : Option ℕ) : Cache :=
  if b < 0 then c
  else
    match c.find b with
    | some i => c.updateCached i size addr
    | none => (c.pageCacheInsert b size ok addr).pageCacheMarkDirty b

def pageCacheAllocEntry (b : UInt32) (ok : Bool) : Cache :=
  if !c.dma || b < 0 then c
  else
    match c.find b with
    | some i => c.touch i
    | none =>
      match c.takeEntry ok with
      | none => c
      | some (i, c) => c.link i b

/-! ### Sync -/

def syncBatch : ℕ := 64

/-- Phase 1 from the LRU tail: the entries of a batch are pinned, the first `skip` dirty ones
passed over. -/
def collect : ℕ → ℕ → List ℕ → (ℕ → PcEntry) → (ℕ → PcEntry) × List (UInt32 × ℕ)
  | _, _, [], ent => (ent, [])
  | skip, room, i :: rest, ent =>
    if room = 0 then (ent, [])
    else if (ent i).dirty && !(ent i).busy then
      if 0 < skip then collect (skip - 1) room rest ent
      else
        let r := collect skip (room - 1) rest
          (Function.update ent i { ent i with busy := true })
        (r.1, ((ent i).block, (ent i).size) :: r.2)
    else collect skip room rest ent

def markDone (ok : Bool) (c : Cache) (b : UInt32) : Cache :=
  match c.find b with
  | some i => c.setEnt i { c.ent i with busy := false, dirty := (c.ent i).dirty && !ok }
  | none => c

def range : UInt32 → ℕ → List UInt32
  | _, 0 => []
  | first, count + 1 => first :: range (first + 1) count

def markRangeDone (first : UInt32) (count : ℕ) (ok : Bool) : Cache :=
  (range first count).foldl (markDone ok) c

structure Answers where
  write : ℕ → Bool
  alloc : ℕ → Bool

structure Sync where
  cache : Cache
  allocs : ℕ
  failures : ℕ
  calls : List (List UInt32)

variable (u : Answers)

def callWriteback (s : Sync) (first : UInt32) (count : ℕ) : Sync :=
  { s with
    cache := s.cache.markRangeDone first count (u.write s.calls.length)
    failures := if u.write s.calls.length then s.failures else s.failures + count
    calls := s.calls ++ [range first count] }

def runLength (next : UInt32) (size : ℕ) : List (UInt32 × ℕ) → ℕ
  | [] => 0
  | p :: rest => if p.1 = next ∧ p.2 = size then runLength (next + 1) size rest + 1 else 0

def writeRun (s : Sync) (first : UInt32) (count : ℕ) : Sync :=
  if count = 1 then callWriteback u s first 1
  else if u.alloc s.allocs then callWriteback u { s with allocs := s.allocs + 1 } first count
  else (range first count).foldl (fun s b => callWriteback u s b 1) { s with allocs := s.allocs + 1 }

def writeRuns : ℕ → Sync → List (UInt32 × ℕ) → Sync
  | _, s, [] => s
  | 0, s, _ => s
  | fuel + 1, s, p :: rest =>
    let count := runLength (p.1 + 1) p.2 rest + 1
    writeRuns fuel (writeRun u s p.1 count) ((p :: rest).drop count)

def syncLoop : ℕ → ℕ → Sync → Option Sync
  | 0, _, _ => none
  | fuel + 1, skip, s =>
    let r := collect skip syncBatch s.cache.lru.reverse s.cache.ent
    let s := { s with cache := { s.cache with ent := r.1 } }
    if r.2 = [] then some s
    else if !s.cache.callback then
      syncLoop fuel skip { s with cache := r.2.foldl (fun c p => c.markRangeDone p.1 1 true) s.cache }
    else
      let s := writeRuns u r.2.length s (r.2.insertionSort fun p q => p.1 ≤ q.1)
      syncLoop fuel s.failures s

def pageCacheSync : Option Sync := syncLoop u (c.lru.length + 1) 0 ⟨c, 0, 0, []⟩

/-! ### The lists of a cache -/

structure Inv (p : Prop) (c : Cache) : Prop where
  pool : (c.free ++ c.lru).Perm (List.range c.maxEntries.toNat)
  hash_nodup : ∀ h, (c.hash h).Nodup
  mem_hash : ∀ h i, i ∈ c.hash h ↔ i ∈ c.lru ∧ pcHash (c.ent i).block = h
  once : ∀ i ∈ c.lru, ∀ j ∈ c.lru, (c.ent i).block = (c.ent j).block → i = j
  blank : ∀ i ∈ c.free, (c.ent i).data = 0 ∨ (c.ent i).block = -1
  calm : ∀ i ∈ c.lru, (c.ent i).busy = false
  count_eq : p → c.count = UInt32.ofNat c.lru.length

/-- The same with one place taken from the lists; `n` is what `pc_count` has to be corrected by. -/
structure Taken (p : Prop) (c : Cache) (i n : ℕ) : Prop where
  pool : (i :: (c.free ++ c.lru)).Perm (List.range c.maxEntries.toNat)
  hash_nodup : ∀ h, (c.hash h).Nodup
  mem_hash : ∀ h j, j ∈ c.hash h ↔ j ∈ c.lru ∧ pcHash (c.ent j).block = h
  once : ∀ j ∈ c.lru, ∀ k ∈ c.lru, (c.ent j).block = (c.ent k).block → j = k
  blank : ∀ j ∈ c.free, (c.ent j).data = 0 ∨ (c.ent j).block = -1
  calm : ∀ j ∈ c.lru, (c.ent j).busy = false
  count_eq : p → c.count = UInt32.ofNat (c.lru.length + n)

variable {p : Prop} {c : Cache} {i n : ℕ} {b : UInt32} {e : PcEntry}

namespace Inv

theorem nodup (h : Inv p c) : (c.free ++ c.lru).Nodup := h.pool.nodup_iff.mpr List.nodup_range

theorem lru_nodup (h : Inv p c) : c.lru.Nodup := h.nodup.of_append_right

theorem not_free (h : Inv p c) (hi : i ∈ c.lru) : i ∉ c.free := fun hf =>
  (List.nodup_append.mp h.nodup).2.2 i hf i hi rfl

theorem find_eq_some (h : Inv p c) : c.find b = some i ↔ i ∈ c.lru ∧ (c.ent i).block = b := by
  constructor
  · intro hfind
    have hmem := List.mem_of_find?_eq_some hfind
    have hblock := List.find?_some hfind
    exact ⟨((h.mem_hash _ i).mp hmem).1, by simpa using hblock⟩
  · rintro ⟨hi, rfl⟩
    cases hfind : c.find (c.ent i).block with
    | none =>
      have := List.find?_eq_none.mp hfind i ((h.mem_hash _ i).mpr ⟨hi, rfl⟩)
      simp at this
    | some j =>
      have hmem := List.mem_of_find?_eq_some hfind
      have hblock := List.find?_some hfind
      rw [h.once j ((h.mem_hash _ j).mp hmem).1 i hi (by simpa using hblock)]

theorem find_eq_none (h : Inv p c) : c.find b = none ↔ ∀ i ∈ c.lru, (c.ent i).block ≠ b := by
  rw [Option.eq_none_iff_forall_ne_some]
  exact ⟨fun hno i hi hb => hno i (h.find_eq_some.mpr ⟨hi, hb⟩),
    fun hno i hfind => hno i (h.find_eq_some.mp hfind).1 (h.find_eq_some.mp hfind).2⟩

theorem setEnt (h : Inv p c) (hi : i ∈ c.lru) (hblock : e.block = (c.ent i).block)
    (hbusy : e.busy = false) : Inv p (c.setEnt i e) := by
  have hb : ∀ j, (Function.update c.ent i e j).block = (c.ent j).block := fun j => by
    by_cases hji : j = i
    · rw [hji, Function.update_self, hblock]
    · rw [Function.update_of_ne hji]
  refine ⟨h.pool, h.hash_nodup, fun k j => ?_, fun j hj k hk => ?_, fun j hj => ?_, fun j hj => ?_,
    h.count_eq⟩
  · simp only [Cache.setEnt, hb]
    exact h.mem_hash k j
  · simp only [Cache.setEnt, hb]
    exact h.once j hj k hk
  · have hji : j ≠ i := fun heq => h.not_free hi (heq ▸ hj)
    simp only [Cache.setEnt, Function.update_of_ne hji]
    exact h.blank j hj
  · by_cases hji : j = i
    · simp only [Cache.setEnt, hji, Function.update_self, hbusy]
    · simp only [Cache.setEnt, Function.update_of_ne hji]
      exact h.calm j hj

theorem touch (h : Inv p c) (hi : i ∈ c.lru) : Inv p (c.touch i) := by
  have hperm := List.perm_cons_erase hi
  have hmem : ∀ j, j ∈ i :: c.lru.erase i ↔ j ∈ c.lru := fun j => hperm.mem_iff.symm
  refine ⟨(hperm.symm.append_left _).trans h.pool, h.hash_nodup, fun k j => ?_, fun j hj k hk => ?_,
    h.blank, fun j hj => h.calm j ((hmem j).mp hj), fun hp => ?_⟩
  · simp only [Cache.touch, hmem]
    exact h.mem_hash k j
  · exact h.once j ((hmem j).mp hj) k ((hmem k).mp hk)
  · rw [Cache.touch, hperm.symm.length_eq]
    exact h.count_eq hp

theorem entryWriteback (h : Inv p c) (hi : i ∈ c.lru) (ok : Bool) :
    Inv p (c.entryWriteback i ok) := by
  unfold Cache.entryWriteback
  split
  · exact h.setEnt hi rfl (h.calm i hi)
  · exact h

theorem unlink (h : Inv p c) (hi : i ∈ c.lru) : Taken p (c.unlink i) i 1 := by
  have hperm := List.perm_cons_erase hi
  have hmem : ∀ j, j ∈ c.lru.erase i ↔ j ≠ i ∧ j ∈ c.lru := fun j => h.lru_nodup.mem_erase_iff
  refine ⟨?_, fun k => ?_, fun k j => ?_, fun j hj k hk => ?_, h.blank, fun j hj => ?_, fun hp => ?_⟩
  · exact List.perm_middle.symm.trans ((hperm.symm.append_left _).trans h.pool)
  · by_cases hk : k = pcHash (c.ent i).block
    · simp only [Cache.unlink, hk, Function.update_self]
      exact (h.hash_nodup _).erase i
    · simp only [Cache.unlink, Function.update_of_ne hk]
      exact h.hash_nodup k
  · by_cases hk : k = pcHash (c.ent i).block
    · simp only [Cache.unlink, hk, Function.update_self, (h.hash_nodup _).mem_erase_iff, hmem,
        h.mem_hash]
      exact and_assoc.symm
    · simp only [Cache.unlink, Function.update_of_ne hk, hmem, h.mem_hash]
      refine ⟨fun ⟨hj, hb⟩ => ⟨⟨?_, hj⟩, hb⟩, fun ⟨⟨_, hj⟩, hb⟩ => ⟨hj, hb⟩⟩
      rintro rfl
      exact hk hb.symm
  · exact h.once j ((hmem j).mp hj).2 k ((hmem k).mp hk).2
  · exact h.calm j ((hmem j).mp hj).2
  · have := hperm.length_eq
    rw [List.length_cons] at this
    exact (h.count_eq hp).trans (congrArg UInt32.ofNat this)

end Inv

namespace Taken

theorem not_mem (h : Taken p c i n) : i ∉ c.free ∧ i ∉ c.lru := by
  have hnodup := h.pool.nodup_iff.mpr List.nodup_range
  rw [List.nodup_cons, List.mem_append, not_or] at hnodup
  exact hnodup.1

theorem update_of_mem {j : ℕ} (h : Taken p c i n) (hj : j ∈ c.lru) :
    Function.update c.ent i e j = c.ent j := by
  have hji : j ≠ i := fun heq => h.not_mem.2 (heq ▸ hj)
  exact Function.update_of_ne hji ..

theorem setEnt (h : Taken p c i n) : Taken p (c.setEnt i e) i n := by
  have hl : ∀ j ∈ c.lru, Function.update c.ent i e j = c.ent j := fun j => h.update_of_mem
  refine ⟨h.pool, h.hash_nodup, fun k j => ?_, fun j hj k hk => ?_, fun j hj => ?_, fun j hj => ?_,
    h.count_eq⟩
  · refine (h.mem_hash k j).trans (and_congr_right fun hj => ?_)
    simp only [Cache.setEnt, hl j hj]
  · simp only [Cache.setEnt, hl j hj, hl k hk]
    exact h.once j hj k hk
  · have hji : j ≠ i := fun heq => h.not_mem.1 (heq ▸ hj)
    simp only [Cache.setEnt, Function.update_of_ne hji]
    exact h.blank j hj
  · simp only [Cache.setEnt, hl j hj]
    exact h.calm j hj

theorem entryFreeData (h : Taken p c i n) : Taken p (c.entryFreeData i) i n := by
  unfold Cache.entryFreeData
  split
  · exact h
  · exact h.setEnt

theorem release (h : Taken p c i 0) (hblank : (c.ent i).data = 0 ∨ (c.ent i).block = -1) :
    Inv p (c.release i) := by
  refine ⟨h.pool, h.hash_nodup, h.mem_hash, h.once, fun j hj => ?_, h.calm, h.count_eq⟩
  rcases List.mem_cons.mp hj with rfl | hj
  · exact hblank
  · exact h.blank j hj

theorem recount (h : Taken p c i 1) : Taken p { c with count := c.count - 1 } i 0 :=
  ⟨h.pool, h.hash_nodup, h.mem_hash, h.once, h.blank, h.calm, fun hp => by
    simp only [h.count_eq hp, UInt32.ofNat_add, Nat.add_zero]
    exact UInt32.add_sub_cancel _ _⟩

theorem link (h : Taken p c i 0) (hnew : ∀ j ∈ c.lru, (c.ent j).block ≠ b) :
    Inv p (c.link i b) := by
  have hl : ∀ e, ∀ j ∈ c.lru, Function.update c.ent i e j = c.ent j := fun e j => h.update_of_mem
  have hi : ∀ k, i ∉ c.hash k := fun k hk => h.not_mem.2 ((h.mem_hash k i).mp hk).1
  refine ⟨List.perm_middle.trans h.pool, fun k => ?_, fun k j => ?_, fun j hj k hk => ?_,
    fun j hj => ?_, fun j hj => ?_, fun hp => ?_⟩
  · by_cases hk : k = pcHash b
    · simp only [Cache.link, hk, Function.update_self]
      exact List.nodup_cons.mpr ⟨hi _, h.hash_nodup _⟩
    · simp only [Cache.link, Function.update_of_ne hk]
      exact h.hash_nodup k
  · by_cases hji : j = i
    · subst hji
      by_cases hk : k = pcHash b
      · simp [Cache.link, hk]
      · simp [Cache.link, Function.update_of_ne hk, hi k, Ne.symm hk]
    · have hold : j ∈ c.hash k ↔ j ∈ c.lru ∧ pcHash (c.ent j).block = k := h.mem_hash k j
      by_cases hk : k = pcHash b
      · subst hk
        simp [Cache.link, hji, hold]
      · simp [Cache.link, Function.update_of_ne hk, hji, hold]
  · rcases List.mem_cons.mp hj with hji | hj' <;> rcases List.mem_cons.mp hk with hki | hk'
    · exact fun _ => hji.trans hki.symm
    · simp only [Cache.link, hji, Function.update_self, hl _ k hk']
      exact fun heq => absurd heq.symm (hnew k hk')
    · simp only [Cache.link, hki, Function.update_self, hl _ j hj']
      exact fun heq => absurd heq (hnew j hj')
    · simp only [Cache.link, hl _ j hj', hl _ k hk']
      exact h.once j hj' k hk'
  · have hji : j ≠ i := fun heq => h.not_mem.1 (heq ▸ hj)
    simp only [Cache.link, Function.update_of_ne hji]
    exact h.blank j hj
  · rcases List.mem_cons.mp hj with rfl | hj
    · simp only [Cache.link, Function.update_self]
    · simp only [Cache.link, hl _ j hj]
      exact h.calm j hj
  · simp only [Cache.link, List.length_cons, h.count_eq hp, Nat.add_zero, UInt32.ofNat_add]
    rfl

end Taken

theorem lru_entryWriteback {ok : Bool} : (c.entryWriteback i ok).lru = c.lru := by
  unfold entryWriteback
  split <;> rfl

theorem lru_remove (c : Cache) (i : ℕ) (ok : Bool) : (c.remove i ok).lru = c.lru.erase i := by
  unfold remove entryFreeData
  split
  · simp only [unlink, lru_entryWriteback]
  · simp only [setEnt, unlink, lru_entryWriteback]

theorem Inv.remove (h : Inv p c) (hi : i ∈ c.lru) (ok : Bool) :
    Taken p (c.remove i ok) i 1 := by
  have hw := h.entryWriteback hi ok
  exact (hw.unlink (lru_entryWriteback.symm ▸ hi)).entryFreeData

theorem Inv.retire (h : Inv p c) (hi : i ∈ c.lru) (ok : Bool) :
    Inv p { ((c.remove i ok).setEnt i { (c.remove i ok).ent i with block := -1 }).release i with
      count := (c.remove i ok).count - 1 } :=
  ((h.remove hi ok).setEnt.recount).release (.inr (by simp [Cache.setEnt]))

theorem mem_of_victim (h : (c.lru.reverse.find? fun i => !(c.ent i).busy) = some i) :
    i ∈ c.lru := List.mem_reverse.mp (List.mem_of_find?_eq_some h)

theorem Inv.takeEntry {c' : Cache} {ok : Bool} (h : Inv p c) (heq : c.takeEntry ok = some (i, c'))
    (hnew : ∀ j ∈ c.lru, (c.ent j).block ≠ b) :
    Taken p c' i 0 ∧ (∀ j ∈ c'.lru, (c'.ent j).block ≠ b) ∧
      (c'.dma = false → (c'.ent i).data = 0 ∨ (c'.ent i).block = -1) := by
  unfold Cache.takeEntry at heq
  split at heq
  · rename_i i' rest hfree
    obtain ⟨rfl, rfl⟩ := Prod.mk.inj (Option.some.inj heq)
    refine ⟨⟨?_, h.hash_nodup, h.mem_hash, h.once, fun j hj => ?_, h.calm, h.count_eq⟩, hnew,
      fun _ => h.blank _ (hfree ▸ List.mem_cons_self)⟩
    · have := h.pool
      rwa [hfree] at this
    · exact h.blank j (hfree ▸ List.mem_cons_of_mem _ hj)
  · obtain ⟨v, hv, hres⟩ := Option.map_eq_some_iff.mp heq
    obtain ⟨rfl, rfl⟩ := Prod.mk.inj hres
    have hvic := mem_of_victim hv
    have ht := h.remove hvic ok
    have hblock : ∀ j, ((c.remove v ok).ent j).block = (c.ent j).block := by
      intro j
      unfold Cache.remove Cache.entryFreeData Cache.entryWriteback
      by_cases hjv : j = v <;> split <;> split <;> simp [Cache.setEnt, Cache.unlink, hjv]
    refine ⟨ht.recount, fun j hj => ?_, fun hdma => ?_⟩
    · rw [hblock]
      refine hnew j (List.mem_of_mem_erase (?_ : j ∈ c.lru.erase v))
      rw [← lru_remove c v ok]
      exact hj
    · left
      revert hdma
      unfold Cache.remove Cache.entryFreeData
      split
      · rename_i hno
        intro hdma
        rcases hno with h0 | htrue
        · exact h0
        · exact absurd (hdma.symm.trans htrue) Bool.false_ne_true
      · intro _
        simp [Cache.setEnt]

theorem Inv.insert {size : ℕ} {ok : Bool} {addr : Option ℕ} (h : Inv p c) :
    Inv p (c.pageCacheInsert b size ok addr) := by
  unfold pageCacheInsert
  split
  · rename_i i hfind
    exact h.touch (h.find_eq_some.mp hfind).1
  · rename_i hfind
    split
    · exact h
    · rename_i i c' heq
      obtain ⟨ht, hnew, hblank⟩ := h.takeEntry heq (h.find_eq_none.mp hfind)
      split
      · exact ht.link hnew
      · rename_i hdma
        split
        · exact ht.release (hblank (Bool.eq_false_iff.mpr hdma))
        · refine ht.setEnt.link fun j hj => ?_
          simp only [Cache.setEnt, ht.update_of_mem hj]
          exact hnew j hj

theorem Inv.allocEntry {ok : Bool} (h : Inv p c) : Inv p (c.pageCacheAllocEntry b ok) := by
  unfold pageCacheAllocEntry
  split
  · exact h
  · split
    · rename_i i hfind
      exact h.touch (h.find_eq_some.mp hfind).1
    · rename_i hfind
      split
      · exact h
      · rename_i i c' heq
        obtain ⟨ht, hnew, -⟩ := h.takeEntry heq (h.find_eq_none.mp hfind)
        exact ht.link hnew

theorem Inv.lookup (h : Inv p c) : Inv p (c.pageCacheLookup b) := by
  unfold pageCacheLookup
  split
  · rename_i i hfind
    exact h.touch (h.find_eq_some.mp hfind).1
  · exact h

theorem Inv.invalidate {ok : Bool} (h : Inv p c) : Inv p (c.pageCacheInvalidate b ok) := by
  unfold pageCacheInvalidate
  split
  · exact h
  · rename_i i hfind
    exact h.retire (h.find_eq_some.mp hfind).1 ok

theorem Inv.markDirty (h : Inv p c) : Inv p (c.pageCacheMarkDirty b) := by
  unfold pageCacheMarkDirty
  split
  · rename_i i hfind
    have hi := (h.find_eq_some.mp hfind).1
    exact h.setEnt hi rfl (h.calm i hi)
  · exact h

theorem Inv.updateCached {size : ℕ} {addr : Option ℕ} (h : Inv p c) (hi : i ∈ c.lru) :
    Inv p (c.updateCached i size addr) := by
  unfold Cache.updateCached
  split
  · exact (h.setEnt (e := { c.ent i with dirty := true }) hi rfl (h.calm i hi)).touch hi
  · have hfree : Inv p (c.entryFreeData i) ∧ (c.entryFreeData i).lru = c.lru := by
      unfold Cache.entryFreeData
      split
      · exact ⟨h, rfl⟩
      · exact ⟨h.setEnt hi rfl (h.calm i hi), rfl⟩
    have hi' : i ∈ (c.entryFreeData i).lru := hfree.2.symm ▸ hi
    dsimp only
    split
    · exact hfree.1
    · exact (hfree.1.setEnt (e := { (c.entryFreeData i).ent i with
          data := _, size := size, dirty := true }) hi' rfl (hfree.1.calm i hi')).touch hi'

theorem Inv.update {size : ℕ} {ok : Bool} {addr : Option ℕ} (h : Inv p c) :
    Inv p (c.pageCacheUpdate b size ok addr) := by
  unfold pageCacheUpdate
  split
  · exact h
  · split
    · rename_i i hfind
      exact h.updateCached (h.find_eq_some.mp hfind).1
    · exact h.insert.markDirty

theorem Inv.create (maxEntries : UInt32) (callback : Bool) (pool : Option (ℕ → ℕ × ℕ)) :
    Inv p (create maxEntries callback pool) := by
  refine ⟨?_, fun _ => List.nodup_nil, ?_, ?_, fun _ _ => .inr rfl, ?_, fun _ => rfl⟩
  · simp only [Cache.create, List.append_nil]
    exact List.reverse_perm _
  all_goals simp [Cache.create]

theorem Inv.withCount {q : Prop} (h : Inv p c) (n : UInt32)
    (hn : q → n = UInt32.ofNat c.lru.length) :
    Inv q { c with count := n } :=
  ⟨h.pool, h.hash_nodup, h.mem_hash, h.once, h.blank, h.calm, hn⟩

/-- Every cached entry has a buffer and a block other than -1, which is what
`page_cache_flush` goes by. -/
def Backed (c : Cache) : Prop := ∀ i ∈ c.lru, (c.ent i).data ≠ 0 ∧ (c.ent i).block ≠ -1

theorem Inv.flushOne (ok : ℕ → Bool) (h : Inv False c) (hi : i < c.maxEntries.toNat) :
    Inv False (flushOne ok c i) ∧ (flushOne ok c i).maxEntries = c.maxEntries ∧
      (Backed c → (flushOne ok c i).lru = c.lru.erase i ∧ Backed (flushOne ok c i)) := by
  unfold Cache.flushOne
  split
  · rename_i hcond
    have hmem : i ∈ c.lru := by
      have hin := h.pool.mem_iff.mpr (List.mem_range.mpr hi)
      refine (List.mem_append.mp hin).resolve_left fun hfree => ?_
      rcases h.blank i hfree with h0 | h1
      · exact hcond.1 h0
      · exact hcond.2 h1
    have hmax : (c.remove i (ok i)).maxEntries = c.maxEntries := by
      unfold Cache.remove Cache.entryFreeData Cache.entryWriteback
      split <;> split <;> rfl
    have hent : ∀ j, j ≠ i → (c.remove i (ok i)).ent j = c.ent j := by
      intro j hj
      unfold Cache.remove Cache.entryFreeData Cache.entryWriteback
      split <;> split <;> simp [Cache.setEnt, Cache.unlink, hj]
    refine ⟨(h.retire hmem (ok i)).withCount _ False.elim, hmax, fun hb => ?_⟩
    refine ⟨lru_remove c i (ok i), fun j hj => ?_⟩
    have hj' : j ∈ c.lru.erase i := lru_remove c i (ok i) ▸ hj
    obtain ⟨hne, hjl⟩ := h.lru_nodup.mem_erase_iff.mp hj'
    simp only [Cache.release, Cache.setEnt, Function.update_of_ne hne, hent j hne]
    exact hb j hjl
  · rename_i hcond
    refine ⟨h, rfl, fun hb => ⟨(List.erase_of_not_mem fun hi => hcond (hb i hi)).symm, hb⟩⟩

theorem Inv.flushLoop (ok : ℕ → Bool) (h : Inv False c) {k : ℕ} (hk : k ≤ c.maxEntries.toNat) :
    Inv False ((List.range k).foldl (Cache.flushOne ok) c) ∧
      ((List.range k).foldl (Cache.flushOne ok) c).maxEntries = c.maxEntries ∧
      (Backed c → Backed ((List.range k).foldl (Cache.flushOne ok) c) ∧
        ∀ j ∈ ((List.range k).foldl (Cache.flushOne ok) c).lru, k ≤ j) := by
  induction k with
  | zero => exact ⟨h, rfl, fun hb => ⟨hb, fun _ _ => Nat.zero_le _⟩⟩
  | succ k ih =>
    obtain ⟨hinv, hmax, hrest⟩ := ih (by omega)
    rw [List.range_succ, List.foldl_append, List.foldl_cons, List.foldl_nil]
    obtain ⟨hinv', hmax', hback⟩ := hinv.flushOne ok (i := k) (by rw [hmax]; omega)
    refine ⟨hinv', hmax'.trans hmax, fun hb => ?_⟩
    obtain ⟨hb₁, hle⟩ := hrest hb
    obtain ⟨hlru, hb₂⟩ := hback hb₁
    refine ⟨hb₂, fun j hj => ?_⟩
    rw [hlru] at hj
    obtain ⟨hne, hjl⟩ := hinv.lru_nodup.mem_erase_iff.mp hj
    have := hle j hjl
    omega

theorem Inv.flush {ok : ℕ → Bool} (h : Inv p c) (hb : p → Backed c) :
    Inv p (c.pageCacheFlush ok) := by
  obtain ⟨hinv, hmax, hrest⟩ :=
    (h.withCount (q := False) c.count False.elim).flushLoop ok (k := c.maxEntries.toNat) le_rfl
  refine hinv.withCount 0 fun hp => ?_
  obtain ⟨-, hle⟩ := hrest (hb hp)
  refine (congrArg UInt32.ofNat (List.length_eq_zero_iff.mpr
    (List.eq_nil_iff_forall_not_mem.mpr fun j hj => ?_))).symm
  have hlt : j ∈ List.range c.maxEntries.toNat := by
    rw [← hmax]
    exact hinv.pool.mem_iff.mp (List.mem_append_right _ hj)
  have := List.mem_range.mp hlt
  have := hle j hj
  omega

/-! ### The progress of a sync -/

def dirtyBlocks (c : Cache) : List UInt32 :=
  (c.lru.reverse.filter fun i => (c.ent i).dirty).map fun i => (c.ent i).block

def calmed (c : Cache) : Cache := { c with ent := fun i => { c.ent i with busy := false } }

structure SameLists (c c' : Cache) : Prop where
  eq : c' = { c with ent := c'.ent }
  block : ∀ i, (c'.ent i).block = (c.ent i).block

namespace SameLists

variable {c' c'' : Cache}

theorem refl (c : Cache) : SameLists c c := ⟨rfl, fun _ => rfl⟩

theorem trans (h : SameLists c c') (h' : SameLists c' c'') : SameLists c c'' := by
  refine ⟨?_, fun i => (h'.block i).trans (h.block i)⟩
  rw [h'.eq, h.eq]

theorem lru (h : SameLists c c') : c'.lru = c.lru := by rw [h.eq]

theorem callback (h : SameLists c c') : c'.callback = c.callback := by rw [h.eq]

end SameLists

theorem SameLists.setEnt (hblock : e.block = (c.ent i).block) : SameLists c (c.setEnt i e) := by
  refine ⟨rfl, fun j => ?_⟩
  by_cases hji : j = i
  · simp only [hji, Cache.setEnt, Function.update_self, hblock]
  · simp only [Cache.setEnt, Function.update_of_ne hji]

theorem Inv.sameLists {c' : Cache} (h : Inv p c.calmed) (hs : SameLists c c')
    (hfree : ∀ i ∈ c.free, (c'.ent i).data = (c.ent i).data) : Inv p c'.calmed := by
  rw [hs.eq]
  refine ⟨h.pool, h.hash_nodup, fun k j => ?_, fun j hj k hk => ?_, fun j hj => ?_, fun _ _ => rfl,
    h.count_eq⟩
  · simp only [calmed, hs.block]
    exact h.mem_hash k j
  · simp only [calmed, hs.block]
    exact h.once j hj k hk
  · simp only [calmed, hs.block, hfree j hj]
    exact h.blank j hj

theorem filter_map_block (l : List ℕ) (f : UInt32 → Bool) :
    (l.filter fun i => (c.ent i).dirty && f (c.ent i).block).map (fun i => (c.ent i).block) =
      ((l.filter fun i => (c.ent i).dirty).map fun i => (c.ent i).block).filter f := by
  rw [List.filter_map, List.filter_filter]
  congr 1
  refine List.filter_congr fun i _ => ?_
  simp [Bool.and_comm]

theorem dirtyBlocks_filter {c' : Cache} (hs : SameLists c c') (f : UInt32 → Bool)
    (hdirty : ∀ i ∈ c.lru, (c'.ent i).dirty = ((c.ent i).dirty && f (c.ent i).block)) :
    c'.dirtyBlocks = c.dirtyBlocks.filter f := by
  rw [dirtyBlocks, dirtyBlocks, ← filter_map_block, hs.lru]
  have hfilter : (c.lru.reverse.filter fun i => (c'.ent i).dirty) =
      c.lru.reverse.filter fun i => (c.ent i).dirty && f (c.ent i).block :=
    List.filter_congr fun i hi => hdirty i (List.mem_reverse.mp hi)
  rw [hfilter]
  exact List.map_congr_left fun i _ => hs.block i

structure Marked (c : Cache) (blocks : List UInt32) (ok : Bool) (c' : Cache) : Prop where
  lists : SameLists c c'
  data : ∀ i, (c'.ent i).data = (c.ent i).data
  dirty : ∀ i ∈ c.lru, (c'.ent i).dirty =
    ((c.ent i).dirty && !(ok && decide ((c.ent i).block ∈ blocks)))
  busy : ∀ i ∈ c.lru, (c'.ent i).busy = true → (c.ent i).busy = true ∧ (c.ent i).block ∉ blocks

theorem markDone_marked (b : UInt32) (ok : Bool) (h : Inv p c.calmed) :
    Marked c [b] ok (markDone ok c b) := by
  unfold markDone
  have hfind : c.find b = c.calmed.find b := rfl
  cases hf : c.find b with
  | none =>
    rw [hfind, h.find_eq_none] at hf
    refine ⟨.refl c, fun _ => rfl, fun i hi => ?_, fun i hi hb => ⟨hb, ?_⟩⟩
    · have := hf i hi
      simp only [calmed] at this
      simp [this]
    · have := hf i hi
      simpa [calmed] using this
  | some i =>
    rw [hfind, h.find_eq_some] at hf
    obtain ⟨hi, hib⟩ := hf
    have hother : ∀ j ∈ c.lru, j ≠ i → (c.ent j).block ≠ b := fun j hj hji hb =>
      hji (h.once j hj i hi (hb.trans hib.symm))
    refine ⟨.setEnt rfl, fun j => ?_, fun j hj => ?_, fun j hj hbusy => ?_⟩
    · by_cases hji : j = i <;> simp [setEnt, hji]
    · by_cases hji : j = i
      · subst hji
        have hib' : (c.ent j).block = b := hib
        simp [setEnt, hib']
      · simp [setEnt, hji, hother j hj hji]
    · by_cases hji : j = i
      · simp [setEnt, hji] at hbusy
      · simp only [setEnt, Function.update_of_ne hji] at hbusy
        exact ⟨hbusy, by simpa using hother j hj hji⟩

theorem Marked.inv {c' : Cache} {blocks : List UInt32} {ok : Bool} (hm : Marked c blocks ok c')
    (h : Inv p c.calmed) : Inv p c'.calmed :=
  h.sameLists hm.lists fun i _ => hm.data i

theorem markAll_marked (ok : Bool) (blocks : List UInt32) (h : Inv p c.calmed) :
    Marked c blocks ok (blocks.foldl (markDone ok) c) := by
  induction blocks generalizing c with
  | nil => exact ⟨.refl c, fun _ => rfl, by simp, fun i _ hb => ⟨hb, List.not_mem_nil⟩⟩
  | cons b blocks ih =>
    have hone := markDone_marked b ok h
    have hrest := ih (hone.inv h)
    refine ⟨hone.lists.trans hrest.lists, fun i => (hrest.data i).trans (hone.data i),
      fun i hi => ?_, fun i hi hb => ?_⟩
    · rw [List.foldl_cons, hrest.dirty i (hone.lists.lru.symm ▸ hi), hone.dirty i hi,
        hone.lists.block]
      by_cases hib : (c.ent i).block = b <;> cases ok <;> simp [hib]
    · obtain ⟨hb₁, hn₁⟩ := hrest.busy i (hone.lists.lru.symm ▸ hi) hb
      obtain ⟨hb₂, hn₂⟩ := hone.busy i hi hb₁
      rw [hone.lists.block] at hn₁
      exact ⟨hb₂, by simpa [hn₁] using hn₂⟩

structure Wrote (s : Sync) (blocks fail : List UInt32) (s' : Sync) : Prop where
  lists : SameLists s.cache s'.cache
  data : ∀ i, (s'.cache.ent i).data = (s.cache.ent i).data
  dirty : s'.cache.dirtyBlocks =
    s.cache.dirtyBlocks.filter fun b => decide (b ∉ blocks ∨ b ∈ fail)
  busy : ∀ i ∈ s.cache.lru, (s'.cache.ent i).busy = true →
    (s.cache.ent i).busy = true ∧ (s.cache.ent i).block ∉ blocks
  sub : fail.Sublist blocks
  failures : s'.failures = s.failures + fail.length
  calls : ∃ new, s'.calls = s.calls ++ new ∧ new.flatten = blocks ∧
    ∀ call ∈ new, ∃ first, call = range first call.length

variable {u : Answers} {s s' : Sync}

theorem Wrote.inv {blocks fail : List UInt32} (hw : Wrote s blocks fail s')
    (h : Inv p s.cache.calmed) : Inv p s'.cache.calmed :=
  h.sameLists hw.lists fun i _ => hw.data i

theorem Wrote.nil (s : Sync) : Wrote s [] [] s :=
  ⟨.refl _, fun _ => rfl, by simp, fun _ _ hb => ⟨hb, List.not_mem_nil⟩, .refl _, rfl,
    [], by simp, rfl, by simp⟩

theorem Wrote.trans {s'' : Sync} {blocks fail blocks' fail' : List UInt32} (h : Wrote s blocks fail s')
    (h' : Wrote s' blocks' fail' s'') (hdisj : ∀ b ∈ blocks, b ∉ blocks') :
    Wrote s (blocks ++ blocks') (fail ++ fail') s'' := by
  obtain ⟨new, hnew, hflat, hcont⟩ := h.calls
  obtain ⟨new', hnew', hflat', hcont'⟩ := h'.calls
  refine ⟨h.lists.trans h'.lists, fun i => (h'.data i).trans (h.data i), ?_, fun i hi hb => ?_,
    h.sub.append h'.sub, ?_, new ++ new', ?_, ?_, ?_⟩
  · rw [h'.dirty, h.dirty, List.filter_filter]
    refine List.filter_congr fun b _ => ?_
    rw [← Bool.decide_and]
    refine decide_eq_decide.mpr ?_
    have hsub := h.sub.subset (a := b)
    have hsub' := h'.sub.subset (a := b)
    have hd := hdisj b
    simp only [List.mem_append]
    tauto
  · obtain ⟨hb₁, hn₁⟩ := h'.busy i (h.lists.lru.symm ▸ hi) hb
    obtain ⟨hb₂, hn₂⟩ := h.busy i hi hb₁
    rw [h.lists.block] at hn₁
    exact ⟨hb₂, by simp [hn₁, hn₂]⟩
  · rw [h'.failures, h.failures, List.length_append, Nat.add_assoc]
  · rw [hnew', hnew, List.append_assoc]
  · rw [List.flatten_append, hflat, hflat']
  · intro call hcall
    rcases List.mem_append.mp hcall with hc | hc
    · exact hcont call hc
    · exact hcont' call hc

theorem length_range (first : UInt32) (count : ℕ) : (range first count).length = count := by
  induction count generalizing first with
  | zero => rfl
  | succ count ih => rw [range, List.length_cons, ih]

theorem callWriteback_wrote (first : UInt32) (count : ℕ) (h : Inv p s.cache.calmed) :
    ∃ fail, Wrote s (range first count) fail (callWriteback u s first count) := by
  have hm := markAll_marked (u.write s.calls.length) (range first count) h
  have hdirty := dirtyBlocks_filter hm.lists
    (fun b => !(u.write s.calls.length && decide (b ∈ range first count))) hm.dirty
  refine ⟨if u.write s.calls.length then [] else range first count, hm.lists, hm.data, ?_,
    hm.busy, ?_, ?_, [range first count], rfl, by simp, ?_⟩
  · refine hdirty.trans (List.filter_congr fun b _ => ?_)
    cases u.write s.calls.length <;> simp [em']
  · split
    · exact List.nil_sublist _
    · exact .refl _
  · simp only [callWriteback]
    split <;> simp [length_range]
  · intro call hcall
    rw [List.mem_singleton] at hcall
    exact ⟨first, by rw [hcall, length_range]⟩

theorem writeEach_wrote (blocks : List UInt32) (hnodup : blocks.Nodup) (h : Inv p s.cache.calmed) :
    ∃ fail, Wrote s blocks fail (blocks.foldl (fun s b => callWriteback u s b 1) s) := by
  induction blocks generalizing s with
  | nil => exact ⟨[], .nil s⟩
  | cons b blocks ih =>
    obtain ⟨hb, hrest⟩ := List.nodup_cons.mp hnodup
    obtain ⟨fail, hw⟩ := callWriteback_wrote (u := u) b 1 h
    have hw : Wrote s [b] fail (callWriteback u s b 1) := hw
    obtain ⟨fail', hw'⟩ := ih hrest (hw.inv h)
    exact ⟨fail ++ fail', hw.trans hw' (by simpa using hb)⟩

theorem writeRun_wrote (first : UInt32) (count : ℕ) (hnodup : (range first count).Nodup)
    (h : Inv p s.cache.calmed) :
    ∃ fail, Wrote s (range first count) fail (writeRun u s first count) := by
  have hskip : ∀ s', ∀ fail, Wrote { s with allocs := s.allocs + 1 } (range first count) fail s' →
      Wrote s (range first count) fail s' := fun s' fail hw =>
    ⟨hw.lists, hw.data, hw.dirty, hw.busy, hw.sub, hw.failures, hw.calls⟩
  unfold writeRun
  split
  · rename_i hone
    subst hone
    exact callWriteback_wrote first 1 h
  · split
    · obtain ⟨fail, hw⟩ := callWriteback_wrote (u := u) (s := { s with allocs := s.allocs + 1 })
        first count h
      exact ⟨fail, hskip _ _ hw⟩
    · obtain ⟨fail, hw⟩ := writeEach_wrote (u := u) (s := { s with allocs := s.allocs + 1 })
        (range first count) hnodup h
      exact ⟨fail, hskip _ _ hw⟩

theorem take_runLength (next : UInt32) (size : ℕ) (l : List (UInt32 × ℕ)) :
    (l.take (runLength next size l)).map Prod.fst = range next (runLength next size l) := by
  induction l generalizing next with
  | nil => simp [runLength, range]
  | cons q l ih =>
    unfold runLength
    split
    · rename_i hq
      rw [List.take_succ_cons, List.map_cons, ih, range, hq.1]
    · simp [range]

theorem writeRuns_wrote (fuel : ℕ) (l : List (UInt32 × ℕ)) (hnodup : (l.map Prod.fst).Nodup)
    (hfuel : l.length ≤ fuel) (h : Inv p s.cache.calmed) :
    ∃ fail, Wrote s (l.map Prod.fst) fail (writeRuns u fuel s l) := by
  induction fuel generalizing s l with
  | zero =>
    obtain rfl := List.length_eq_zero_iff.mp (Nat.le_zero.mp hfuel)
    exact ⟨[], .nil s⟩
  | succ fuel ih =>
    cases l with
    | nil => exact ⟨[], .nil s⟩
    | cons q rest =>
      unfold writeRuns
      dsimp only
      generalize hn : runLength (q.1 + 1) q.2 rest = n
      have htake : ((q :: rest).take (n + 1)).map Prod.fst = range q.1 (n + 1) := by
        rw [List.take_succ_cons, List.map_cons, range, ← hn, take_runLength]
      have hsplit : (q :: rest).map Prod.fst =
          range q.1 (n + 1) ++ ((q :: rest).drop (n + 1)).map Prod.fst := by
        rw [← htake, ← List.map_append, List.take_append_drop]
      rw [hsplit] at hnodup ⊢
      obtain ⟨hn₁, hn₂, hdisj⟩ := List.nodup_append.mp hnodup
      obtain ⟨fail, hw⟩ := writeRun_wrote (u := u) q.1 (n + 1) hn₁ h
      obtain ⟨fail', hw'⟩ := ih ((q :: rest).drop (n + 1)) hn₂
        (by simp only [List.length_drop, List.length_cons] at hfuel ⊢; omega) (hw.inv h)
      exact ⟨fail ++ fail', hw.trans hw' fun b hb hb' => hdisj b hb b hb' rfl⟩

theorem collect_spec {l : List ℕ} (ent : ℕ → PcEntry) (skip room : ℕ) (hnodup : l.Nodup)
    (hcalm : ∀ i ∈ l, (ent i).busy = false) :
    (collect skip room l ent).2.map Prod.fst =
      (((l.filter fun i => (ent i).dirty).map fun i => (ent i).block).drop skip).take room ∧
    ∀ i, (collect skip room l ent).1 i = ent i ∨
      (i ∈ l ∧ (collect skip room l ent).1 i = { ent i with busy := true } ∧
        (ent i).block ∈ (collect skip room l ent).2.map Prod.fst) := by
  induction l generalizing skip room ent with
  | nil => exact ⟨by simp [collect], fun i => .inl rfl⟩
  | cons i l ih =>
    obtain ⟨hi, hrest⟩ := List.nodup_cons.mp hnodup
    have hcalm' : ∀ j ∈ l, (ent j).busy = false := fun j hj => hcalm j (List.mem_cons_of_mem _ hj)
    have hib := hcalm i List.mem_cons_self
    have hlift : ∀ (r : (ℕ → PcEntry) × List (UInt32 × ℕ)), (∀ j, r.1 j = ent j ∨
        (j ∈ l ∧ r.1 j = { ent j with busy := true } ∧ (ent j).block ∈ r.2.map Prod.fst)) →
        ∀ j, r.1 j = ent j ∨ (j ∈ i :: l ∧ r.1 j = { ent j with busy := true } ∧
          (ent j).block ∈ r.2.map Prod.fst) := fun r hr j =>
      (hr j).imp_right fun ⟨hj, hrest⟩ => ⟨List.mem_cons_of_mem _ hj, hrest⟩
    unfold collect
    split
    · rename_i h0
      exact ⟨by simp [h0], fun j => .inl rfl⟩
    rename_i hroom
    cases hd : (ent i).dirty with
    | false =>
      simp only [Bool.false_and, Bool.false_eq_true, if_false]
      obtain ⟨hblocks, hent⟩ := ih ent skip room hrest hcalm'
      refine ⟨?_, hlift _ hent⟩
      rw [hblocks, List.filter_cons_of_neg (by simp [hd])]
    | true =>
      simp only [hib, Bool.not_false, Bool.and_self, if_true]
      rw [List.filter_cons_of_pos (p := fun i => (ent i).dirty) hd]
      split
      · obtain ⟨hblocks, hent⟩ := ih ent (skip - 1) room hrest hcalm'
        refine ⟨?_, hlift _ hent⟩
        obtain ⟨k, rfl⟩ : ∃ k, skip = k + 1 := ⟨skip - 1, by omega⟩
        rw [hblocks]
        simp
      · obtain rfl : skip = 0 := by omega
        obtain ⟨k, rfl⟩ : ∃ k, room = k + 1 := ⟨room - 1, by omega⟩
        have hsame : ∀ j, j ≠ i →
            Function.update ent i { ent i with busy := true } j = ent j := fun j hj =>
          Function.update_of_ne hj ..
        have hl : ∀ j ∈ l, Function.update ent i { ent i with busy := true } j = ent j :=
          fun j hj => hsame j fun heq => hi (heq ▸ hj)
        obtain ⟨hblocks, hent⟩ := ih (Function.update ent i { ent i with busy := true })
          0 k hrest fun j hj => by rw [hl j hj]; exact hcalm' j hj
        have hfilter : (l.filter fun j =>
            (Function.update ent i { ent i with busy := true } j).dirty) =
              l.filter fun j => (ent j).dirty :=
          List.filter_congr fun j hj => by rw [hl j hj]
        have hmap : ((l.filter fun j => (ent j).dirty).map fun j =>
            (Function.update ent i { ent i with busy := true } j).block) =
              (l.filter fun j => (ent j).dirty).map fun j => (ent j).block :=
          List.map_congr_left fun j hj => by rw [hl j (List.mem_of_mem_filter hj)]
        refine ⟨?_, fun j => ?_⟩
        · rw [hfilter, hmap] at hblocks
          simp only [Nat.add_sub_cancel, List.map_cons, hblocks, List.drop_zero,
            List.take_succ_cons]
        · simp only [Nat.add_sub_cancel, List.map_cons]
          rcases hent j with hj | ⟨hj, hj', hmem⟩
          · by_cases hji : j = i
            · subst hji
              rw [Function.update_self] at hj
              exact .inr ⟨List.mem_cons_self, hj, List.mem_cons_self⟩
            · rw [hsame j hji] at hj
              exact .inl hj
          · rw [hl j hj] at hj' hmem
            exact .inr ⟨List.mem_cons_of_mem _ hj, hj', List.mem_cons_of_mem _ hmem⟩

theorem Inv.calmed (h : Inv p c) : Inv p c.calmed :=
  ⟨h.pool, h.hash_nodup, h.mem_hash, h.once, h.blank, fun _ _ => rfl, h.count_eq⟩

theorem Inv.of_calmed (h : Inv p c.calmed) (hcalm : ∀ i ∈ c.lru, (c.ent i).busy = false) :
    Inv p c :=
  ⟨h.pool, h.hash_nodup, h.mem_hash, h.once, h.blank, hcalm, h.count_eq⟩

theorem Inv.dirtyBlocks_nodup (h : Inv p c) : c.dirtyBlocks.Nodup := by
  refine List.Nodup.map_on (fun i hi j hj heq => ?_) ((List.nodup_reverse.mpr h.lru_nodup).filter _)
  exact h.once i (List.mem_reverse.mp (List.mem_of_mem_filter hi)) j
    (List.mem_reverse.mp (List.mem_of_mem_filter hj)) heq

def pinned (skip : ℕ) (c : Cache) : Cache :=
  { c with ent := (collect skip syncBatch c.lru.reverse c.ent).1 }

def batchBlocks (skip : ℕ) (c : Cache) : List UInt32 :=
  (collect skip syncBatch c.lru.reverse c.ent).2.map Prod.fst

theorem Inv.pinned (h : Inv p c) (skip : ℕ) :
    batchBlocks skip c = (c.dirtyBlocks.drop skip).take syncBatch ∧
      SameLists c (c.pinned skip) ∧ (c.pinned skip).dirtyBlocks = c.dirtyBlocks ∧
      (∀ i, ((c.pinned skip).ent i).data = (c.ent i).data) ∧
      ∀ i ∈ c.lru, ((c.pinned skip).ent i).busy = true → (c.ent i).block ∈ batchBlocks skip c := by
  obtain ⟨hblocks, hent⟩ := collect_spec (l := c.lru.reverse) c.ent skip syncBatch
    (List.nodup_reverse.mpr h.lru_nodup) fun i hi => h.calm i (List.mem_reverse.mp hi)
  have hkeep : ∀ i, ((c.pinned skip).ent i).block = (c.ent i).block ∧
      ((c.pinned skip).ent i).dirty = (c.ent i).dirty ∧
      ((c.pinned skip).ent i).data = (c.ent i).data := fun i => by
    rcases hent i with heq | ⟨-, heq, -⟩ <;> simp [Cache.pinned, heq]
  have hlists : SameLists c (c.pinned skip) := ⟨rfl, fun i => (hkeep i).1⟩
  refine ⟨hblocks, hlists, ?_, fun i => (hkeep i).2.2, fun i hi hb => ?_⟩
  · have := dirtyBlocks_filter hlists (fun _ => true) fun i _ => by simp [(hkeep i).2.1]
    rwa [List.filter_true] at this
  · rcases hent i with heq | ⟨-, -, hmem⟩
    · simp only [Cache.pinned, heq, h.calm i hi] at hb
      cases hb
    · exact hmem

theorem Inv.pinned_eq (h : Inv p c) {skip : ℕ}
    (hnone : (collect skip syncBatch c.lru.reverse c.ent).2 = []) : c.pinned skip = c := by
  obtain ⟨-, hent⟩ := collect_spec (l := c.lru.reverse) c.ent skip syncBatch
    (List.nodup_reverse.mpr h.lru_nodup) fun i hi => h.calm i (List.mem_reverse.mp hi)
  have hsame : (collect skip syncBatch c.lru.reverse c.ent).1 = c.ent := by
    funext i
    rcases hent i with heq | ⟨-, -, hmem⟩
    · exact heq
    · rw [hnone] at hmem
      cases hmem
  rw [Cache.pinned, hsame]

theorem filter_batch {front batch rest sorted fail : List UInt32}
    (hnodup : (front ++ (batch ++ rest)).Nodup) (hperm : sorted.Perm batch)
    (hsub : fail.Sublist sorted) :
    ((front ++ (batch ++ rest)).filter fun b => decide (b ∉ sorted ∨ b ∈ fail)) =
        (front ++ batch.filter fun b => decide (b ∈ fail)) ++ rest ∧
      (batch.filter fun b => decide (b ∈ fail)).length = fail.length := by
  obtain ⟨-, hright, hdisj⟩ := List.nodup_append.mp hnodup
  obtain ⟨hbatch, -, hdisj'⟩ := List.nodup_append.mp hright
  have hmem : ∀ b, b ∈ sorted ↔ b ∈ batch := fun b => hperm.mem_iff
  constructor
  · rw [List.filter_append, List.filter_append, List.append_assoc]
    congr 1
    · refine List.filter_eq_self.mpr fun b hb => decide_eq_true (.inl fun hs => ?_)
      exact hdisj b hb b (List.mem_append_left _ ((hmem b).mp hs)) rfl
    · congr 1
      · refine List.filter_congr fun b hb => decide_eq_decide.mpr ?_
        simp [(hmem b).mpr hb]
      · refine List.filter_eq_self.mpr fun b hb => decide_eq_true (.inl fun hs => ?_)
        exact hdisj' b ((hmem b).mp hs) b hb rfl
  · have hfail : fail.Nodup := hsub.nodup (hperm.nodup_iff.mpr hbatch)
    refine ((List.perm_ext_iff_of_nodup (hbatch.filter _) hfail).mpr fun b => ?_).length_eq
    simp only [List.mem_filter, decide_eq_true_eq]
    exact ⟨fun hb => hb.2, fun hb => ⟨(hmem b).mp (hsub.subset hb), hb⟩⟩

structure Synced (p : Prop) (s : Sync) (blocks : List UInt32) (s' : Sync) : Prop where
  inv : Inv p s'.cache
  lists : SameLists s.cache s'.cache
  failures : s'.failures = s'.cache.dirtyBlocks.length
  calls : ∃ new, s'.calls = s.calls ++ new ∧ new.flatten.Perm blocks ∧
    ∀ call ∈ new, ∃ first, call = range first call.length

theorem Inv.batch_nil (h : Inv p c) {skip : ℕ}
    (hnone : (collect skip syncBatch c.lru.reverse c.ent).2 = []) :
    c.dirtyBlocks.drop skip = [] := by
  have hbatch := (h.pinned skip).1
  rw [batchBlocks, hnone] at hbatch
  rcases List.take_eq_nil_iff.mp hbatch.symm with h0 | h0
  · cases h0
  · exact h0

theorem Inv.calmed_pinned (h : Inv p c) (skip : ℕ) : Inv p (c.pinned skip).calmed := by
  obtain ⟨-, hlists, -, hdata, -⟩ := h.pinned skip
  exact h.calmed.sameLists hlists fun i _ => hdata i

theorem Inv.unpin (h : Inv p c) {skip : ℕ} {blocks : List UInt32} (hlists : SameLists (c.pinned skip) c')
    (hinv : Inv p c'.calmed) (hblocks : ∀ b ∈ batchBlocks skip c, b ∈ blocks)
    (hbusy : ∀ i ∈ (c.pinned skip).lru, (c'.ent i).busy = true →
      ((c.pinned skip).ent i).busy = true ∧ ((c.pinned skip).ent i).block ∉ blocks) : Inv p c' := by
  obtain ⟨-, hpin, -, -, hpinned⟩ := h.pinned skip
  refine hinv.of_calmed fun i hi => Bool.eq_false_iff.mpr fun hb => ?_
  rw [hlists.lru] at hi
  obtain ⟨hb', hnot⟩ := hbusy i hi hb
  exact hnot (hpin.block i ▸ hblocks _ (hpinned i (hpin.lru ▸ hi) hb'))

structure Passed (p : Prop) (s : Sync) (front rest : List UInt32) (s' : Sync) : Prop where
  inv : Inv p s'.cache
  lists : SameLists s.cache s'.cache
  failed : ∃ kept, s'.cache.dirtyBlocks = (front ++ kept) ++ rest.drop syncBatch ∧
    s'.failures = (front ++ kept).length
  calls : ∃ new, s'.calls = s.calls ++ new ∧ new.flatten.Perm (rest.take syncBatch) ∧
    ∀ call ∈ new, ∃ first, call = range first call.length

theorem writeRuns_passed (u : Answers) {pieces : List (UInt32 × ℕ)} (front rest : List UInt32)
    (h : Inv p s.cache) (hdirty : s.cache.dirtyBlocks = front ++ rest)
    (hfail : s.failures = front.length)
    (hpieces : (collect s.failures syncBatch s.cache.lru.reverse s.cache.ent).2 = pieces) :
    Passed p s front rest (writeRuns u pieces.length { s with cache := s.cache.pinned s.failures }
      (pieces.insertionSort fun q r => q.1 ≤ r.1)) := by
  obtain ⟨hbatch, hlists, hsame, -, -⟩ := h.pinned s.failures
  rw [hdirty, hfail, List.drop_left' rfl, ← hfail] at hbatch
  have hfst : pieces.map Prod.fst = rest.take syncBatch := by rw [← hbatch, batchBlocks, hpieces]
  have hsort := List.perm_insertionSort (fun q r : UInt32 × ℕ => q.1 ≤ r.1) pieces
  have hperm : ((pieces.insertionSort fun q r => q.1 ≤ r.1).map Prod.fst).Perm
      (rest.take syncBatch) := hfst ▸ hsort.map _
  have hnodup : (front ++ (rest.take syncBatch ++ rest.drop syncBatch)).Nodup := by
    rw [List.take_append_drop, ← hdirty]
    exact h.dirtyBlocks_nodup
  obtain ⟨fail, hw⟩ := writeRuns_wrote (u := u) pieces.length
    (s := { s with cache := s.cache.pinned s.failures })
    (pieces.insertionSort fun q r => q.1 ≤ r.1)
    (hperm.nodup_iff.mpr (List.nodup_append.mp (List.nodup_append.mp hnodup).2.1).1)
    hsort.length_eq.le (h.calmed_pinned _)
  obtain ⟨hfilter, hlen⟩ := filter_batch hnodup hperm hw.sub
  refine ⟨?_, hlists.trans hw.lists,
    ⟨(rest.take syncBatch).filter fun b => decide (b ∈ fail), ?_, ?_⟩, ?_⟩
  · refine h.unpin hw.lists (hw.inv (h.calmed_pinned _)) (fun b hb => ?_) hw.busy
    exact hperm.mem_iff.mpr (hbatch ▸ hb)
  · rw [hw.dirty, hsame, hdirty, ← hfilter, List.take_append_drop]
  · rw [hw.failures, List.length_append, hlen, hfail]
  · obtain ⟨new, hnew, hflat, hcont⟩ := hw.calls
    exact ⟨new, hnew, hflat ▸ hperm, hcont⟩

theorem syncLoop_synced {fuel : ℕ} (front rest : List UInt32) (h : Inv p s.cache)
    (hcallback : s.cache.callback = true) (hdirty : s.cache.dirtyBlocks = front ++ rest)
    (hfail : s.failures = front.length) (hfuel : rest.length < fuel) :
    ∃ s', syncLoop u fuel s.failures s = some s' ∧ Synced p s rest s' := by
  induction fuel generalizing s front rest with
  | zero => omega
  | succ fuel ih =>
    have hdrop : s.cache.dirtyBlocks.drop s.failures = rest := by
      rw [hdirty, hfail, List.drop_left' rfl]
    unfold syncLoop
    dsimp only
    by_cases hnone : (collect s.failures syncBatch s.cache.lru.reverse s.cache.ent).2 = []
    · rw [if_pos hnone]
      have hrest : rest = [] := hdrop ▸ h.batch_nil hnone
      refine ⟨s, ?_, h, .refl _, ?_, [], by simp, by simp [hrest], by simp⟩
      · rw [Option.some.injEq]
        exact congrArg (fun c => ({ s with cache := c } : Sync)) (h.pinned_eq hnone)
      · rw [hfail, hdirty, hrest, List.append_nil]
    · rw [if_neg hnone]
      generalize hpieces : (collect s.failures syncBatch s.cache.lru.reverse s.cache.ent).2 = pieces
        at hnone ⊢
      have hpass := writeRuns_passed u front rest h hdirty hfail hpieces
      generalize hres : writeRuns u pieces.length { s with cache := s.cache.pinned s.failures }
        (pieces.insertionSort fun q r => q.1 ≤ r.1) = s₁ at hpass
      obtain ⟨kept, hdirty₁, hfail₁⟩ := hpass.failed
      have hshort : (rest.drop syncBatch).length < fuel := by
        have hpos : 0 < rest.length := by
          refine List.length_pos_of_ne_nil fun h0 => hnone ?_
          have hbatch := (h.pinned s.failures).1
          rw [hdrop, h0, List.take_nil, batchBlocks, hpieces] at hbatch
          exact List.map_eq_nil_iff.mp hbatch
        have : 0 < syncBatch := by decide
        rw [List.length_drop]
        omega
      obtain ⟨s', heq, hsync⟩ := ih _ _ hpass.inv (hpass.lists.callback.trans hcallback) hdirty₁
        hfail₁ hshort
      have hcb : (!s.cache.callback) = false := by rw [hcallback]; rfl
      refine ⟨s', ?_, hsync.inv, hpass.lists.trans hsync.lists, hsync.failures, ?_⟩
      · rw [← hres] at heq
        rw [hcb]
        exact heq
      · obtain ⟨new, hnew, hflat, hcont⟩ := hpass.calls
        obtain ⟨new', hnew', hflat', hcont'⟩ := hsync.calls
        refine ⟨new ++ new', by rw [hnew', hnew, List.append_assoc], ?_, fun call hcall => ?_⟩
        · rw [List.flatten_append]
          exact (hflat.append hflat').trans (.of_eq (List.take_append_drop _ _))
        · rcases List.mem_append.mp hcall with hc | hc
          · exact hcont call hc
          · exact hcont' call hc

theorem syncLoop_discard {fuel : ℕ} (h : Inv p s.cache) (hcallback : s.cache.callback = false)
    (hfuel : s.cache.dirtyBlocks.length < fuel) :
    ∃ s', syncLoop u fuel 0 s = some s' ∧ Inv p s'.cache ∧ SameLists s.cache s'.cache ∧
      s'.cache.dirtyBlocks = [] ∧ s'.failures = s.failures ∧ s'.calls = s.calls := by
  induction fuel generalizing s with
  | zero => omega
  | succ fuel ih =>
    obtain ⟨hbatch, hlists, hsame, -, -⟩ := h.pinned 0
    unfold syncLoop
    dsimp only
    by_cases hnone : (collect 0 syncBatch s.cache.lru.reverse s.cache.ent).2 = []
    · rw [if_pos hnone]
      refine ⟨s, ?_, h, .refl _, h.batch_nil hnone, rfl, rfl⟩
      rw [Option.some.injEq]
      exact congrArg (fun c => ({ s with cache := c } : Sync)) (h.pinned_eq hnone)
    · rw [if_neg hnone]
      have hcb : (!s.cache.callback) = true := by rw [hcallback]; rfl
      have hfold : ((collect 0 syncBatch s.cache.lru.reverse s.cache.ent).2.foldl
          (fun c q => c.markRangeDone q.1 1 true) (s.cache.pinned 0)) =
          (batchBlocks 0 s.cache).foldl (markDone true) (s.cache.pinned 0) := by
        rw [batchBlocks, List.foldl_map]
        rfl
      have hm := markAll_marked true (batchBlocks 0 s.cache) (h.calmed_pinned 0)
      rw [← hfold] at hm
      have hdirty := dirtyBlocks_filter hm.lists
        (fun b => !(true && decide (b ∈ batchBlocks 0 s.cache))) hm.dirty
      rw [hsame] at hdirty
      generalize hres : (collect 0 syncBatch s.cache.lru.reverse s.cache.ent).2.foldl
          (fun c q => c.markRangeDone q.1 1 true) (s.cache.pinned 0) = c₁ at hm hdirty
      have hlists₁ := hlists.trans hm.lists
      have hinv : Inv p c₁ :=
        h.unpin hm.lists (hm.inv (h.calmed_pinned 0)) (fun _ hb => hb) hm.busy
      have hshort : c₁.dirtyBlocks.length < s.cache.dirtyBlocks.length := by
        rw [hdirty]
        obtain ⟨b, hb⟩ := List.exists_mem_of_ne_nil (batchBlocks 0 s.cache) (by
          rw [batchBlocks]
          exact fun h0 => hnone (List.map_eq_nil_iff.mp h0))
        refine List.length_filter_lt_length_iff_exists.mpr ⟨b, ?_, by simp [hb]⟩
        rw [hbatch] at hb
        exact List.mem_of_mem_take hb
      obtain ⟨s', heq, hi, hl, hd, hf, hc⟩ := ih (s := { s with cache := c₁ }) hinv
        (hlists₁.callback.trans hcallback) (by simp only; omega)
      refine ⟨s', ?_, hi, hlists₁.trans hl, hd, hf, hc⟩
      rw [← hres] at heq
      rw [hcb]
      exact heq

theorem Inv.sync (h : Inv p c) (u : Answers) :
    ∃ s, c.pageCacheSync u = some s ∧ Inv p s.cache ∧
      s.failures = s.cache.dirtyBlocks.length ∧
      (c.callback = true → s.calls.flatten.Perm c.dirtyBlocks ∧
        ∀ call ∈ s.calls, ∃ first, call = range first call.length) ∧
      (c.callback = false → s.calls = [] ∧ s.failures = 0) := by
  have hlen : c.dirtyBlocks.length < c.lru.length + 1 := by
    have := List.length_filter_le (fun i => (c.ent i).dirty) c.lru.reverse
    rw [List.length_reverse] at this
    rw [dirtyBlocks, List.length_map]
    omega
  cases hcb : c.callback with
  | true =>
    obtain ⟨s, heq, hs⟩ := syncLoop_synced (u := u) (s := ⟨c, 0, 0, []⟩) []
      c.dirtyBlocks h hcb rfl rfl hlen
    obtain ⟨new, hnew, hflat, hcont⟩ := hs.calls
    rw [List.nil_append] at hnew
    refine ⟨s, heq, hs.inv, hs.failures, fun _ => ?_, fun hno => by cases hno⟩
    rw [hnew]
    exact ⟨hflat, hcont⟩
  | false =>
    obtain ⟨s, heq, hi, -, hd, hf, hc⟩ := syncLoop_discard (u := u) (s := ⟨c, 0, 0, []⟩) h hcb hlen
    refine ⟨s, heq, hi, ?_, fun hyes => absurd hyes Bool.false_ne_true, fun _ => ⟨hc, hf⟩⟩
    rw [hf, hd]
    rfl

end Cache

/-! ### Sequences of calls -/

inductive Call where
  | lookup (b : UInt32)
  | insert (b : UInt32) (size : ℕ) (ok : Bool) (addr : Option ℕ)
  | invalidate (b : UInt32) (ok : Bool)
  | flush (ok : ℕ → Bool)
  | markDirty (b : UInt32)
  | update (b : UInt32) (size : ℕ) (ok : Bool) (addr : Option ℕ)
  | allocEntry (b : UInt32) (ok : Bool)
  | sync (u : Cache.Answers)

def step (c : Cache) : Call → Option Cache
  | .lookup b => some (c.pageCacheLookup b)
  | .insert b size ok addr => some (c.pageCacheInsert b size ok addr)
  | .invalidate b ok => some (c.pageCacheInvalidate b ok)
  | .flush ok => some (c.pageCacheFlush ok)
  | .markDirty b => some (c.pageCacheMarkDirty b)
  | .update b size ok addr => some (c.pageCacheUpdate b size ok addr)
  | .allocEntry b ok => some (c.pageCacheAllocEntry b ok)
  | .sync u => (c.pageCacheSync u).map (·.cache)

/-- A flush finds no cached entry that has lost its buffer or has block -1. -/
def FlushBacked (c : Cache) : Call → Prop
  | .flush _ => c.Backed
  | _ => True

theorem Inv.step {p : Prop} {c c' : Cache} {call : Call} (h : Cache.Inv p c)
    (hb : p → FlushBacked c call) (heq : step c call = some c') : Cache.Inv p c' := by
  cases call with
  | lookup b => exact Option.some.inj heq ▸ h.lookup
  | insert b size ok addr => exact Option.some.inj heq ▸ h.insert
  | invalidate b ok => exact Option.some.inj heq ▸ h.invalidate
  | flush ok => exact Option.some.inj heq ▸ h.flush hb
  | markDirty b => exact Option.some.inj heq ▸ h.markDirty
  | update b size ok addr => exact Option.some.inj heq ▸ h.update
  | allocEntry b ok => exact Option.some.inj heq ▸ h.allocEntry
  | sync u =>
    obtain ⟨s, hs, hinv, -⟩ := h.sync u
    simp only [Structure.step, hs, Option.map_some, Option.some.injEq] at heq
    exact heq ▸ hinv

/-- After every sequence of calls each entry of the pool is on the free list, or on the LRU list
and the hash chain of its block, and there once, and no block is cached twice; the count is the
length of the LRU list when every flush found its entries backed.  A sync then ends whatever
happens, passes each dirty block to the callback once, in contiguous runs, and returns how many are
left dirty. -/
theorem cache_lists_and_sync (maxEntries : UInt32) (callback : Bool) (pool : Option (ℕ → ℕ × ℕ))
    (calls : List Call) (c : Cache)
    (hrun : runSteps step (Cache.create maxEntries callback pool) calls = some c) :
    (c.free ++ c.lru).Perm (List.range c.maxEntries.toNat) ∧
    (∀ h, (c.hash h).Nodup) ∧
    (∀ h i, i ∈ c.hash h ↔ i ∈ c.lru ∧ pcHash (c.ent i).block = h) ∧
    (∀ i ∈ c.lru, ∀ j ∈ c.lru, (c.ent i).block = (c.ent j).block → i = j) ∧
    (StepsMeet step FlushBacked (Cache.create maxEntries callback pool) calls →
      c.count.toNat = c.lru.length) ∧
    ∀ u, ∃ s, c.pageCacheSync u = some s ∧ s.failures = s.cache.dirtyBlocks.length ∧
      (c.callback = true → s.calls.flatten.Perm c.dirtyBlocks ∧
        ∀ call ∈ s.calls, ∃ first, call = Cache.range first call.length) ∧
      (c.callback = false → s.calls = [] ∧ s.failures = 0) := by
  have h : Cache.Inv False c := runSteps_invariant
    (fun _ _ _ hi hs => Inv.step hi False.elim hs) (Cache.Inv.create maxEntries callback pool) hrun
  refine ⟨h.pool, h.hash_nodup, h.mem_hash, h.once, fun hmeet => ?_, fun u => ?_⟩
  · have htrue : Cache.Inv True c := runSteps_invariant_of_guard
      (fun _ _ _ hi hg hs => Inv.step hi (fun _ => hg) hs)
      (Cache.Inv.create maxEntries callback pool) hmeet hrun
    have hlen : c.lru.length ≤ c.maxEntries.toNat := by
      have := h.pool.length_eq
      rw [List.length_append, List.length_range] at this
      omega
    rw [htrue.count_eq trivial]
    exact UInt32.toNat_ofNat_of_lt' (hlen.trans_lt c.maxEntries.toNat_lt)
  · obtain ⟨s, hs, -, hrest⟩ := h.sync u
    exact ⟨s, hs, hrest⟩

instance FlushBacked.decidable (c : Cache) (call : Call) : Decidable (FlushBacked c call) :=
  match call with
  | .flush _ => inferInstanceAs (Decidable (∀ i ∈ c.lru, _))
  | .lookup _ | .insert .. | .invalidate .. | .markDirty _ | .update .. | .allocEntry .. | .sync _ =>
    .isTrue trivial

def dirtyCalls : List Call :=
  [.insert 9 512 true (some 4096), .flush fun _ => true, .insert 7 512 true (some 4096),
    .markDirty 7, .update 8 512 true (some 8192), .update 3 512 true (some 12288)]

/-- Three dirty blocks after a flush, which a sync passes to the callback. -/
theorem cache_lists_synced :
    ∃ c, runSteps step (Cache.create 4 true none) dirtyCalls = some c ∧
      (c.free ++ c.lru).Perm (List.range c.maxEntries.toNat) ∧ (∀ h, (c.hash h).Nodup) ∧
      c.count.toNat = 3 ∧
      ∃ s, c.pageCacheSync ⟨fun k => k ≠ 1, fun _ => true⟩ = some s ∧
        s.calls.flatten.Perm [7, 8, 3] := by
  obtain ⟨hpool, hchains, -, -, hcount, hsync⟩ :=
    cache_lists_and_sync 4 true none dirtyCalls _ rfl
  obtain ⟨s, hs, -, hcalls, -⟩ := hsync ⟨fun k => k ≠ 1, fun _ => true⟩
  exact ⟨_, rfl, hpool, hchains, hcount (by decide), s, hs, (hcalls rfl).1⟩

/-- An update to another size without memory takes the buffer of the entry, and the flush that
follows leaves the entry on the LRU list and sets the count to 0.  An entry of the block that
stands for none is left in the same way: the block is unsigned and no test refuses it. -/
theorem count_lost_by_flush :
    (runSteps step (Cache.create 2 true none)
        [.insert 5 4096 true (some 4096), .update 5 1024 true none, .flush fun _ => true]).map
          (fun c => (c.count, c.lru)) = some (0, [1]) ∧
      (runSteps step (Cache.create 2 true none)
        [.update 0xffffffff 512 true (some 4096), .flush fun _ => true]).map
          (fun c => (c.count, c.lru)) = some (0, [1]) := by
  decide

end Uros.PageCache.Structure
