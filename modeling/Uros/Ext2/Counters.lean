import Mathlib.Algebra.BigOperators.Group.Finset.Basic
import Mathlib.Algebra.Order.BigOperators.Group.Finset
import Mathlib.Data.UInt
import Mathlib.Logic.Function.Basic
import Uros.Foundation.Transition

/-!
The free counts of a volume and its bitmaps: `block_alloc`, `block_free`, `inode_alloc` and
`inode_free`.

The bitmaps are on the device and are read and written as a whole; the counts of the groups and of
the superblock are in memory.  A transfer may fail, and a write that is reported as failed may have
reached the device all the same.
-/

namespace Uros.Ext2.Counters

open Uros.Foundation

structure Super where
  blockSize : ℕ
  blocksCount : ℕ
  firstDataBlock : ℕ
  blocksPerGroup : ℕ
  inodesCount : ℕ
  inodesPerGroup : ℕ
  firstIno : ℕ

/-- What distinguishes the allocators: `number` is `base + group * perGroup + bit`, the scan of a
group ends at `limit`, and numbers below `lo` or from `hi` on are not given out or freed. -/
structure Table where
  base : ℕ
  perGroup : ℕ
  ngroups : ℕ
  limit : ℕ → ℕ
  lo : ℕ
  hi : ℕ

def Super.blockGroups (fs : Super) : ℕ :=
  (fs.blocksCount - fs.firstDataBlock + fs.blocksPerGroup - 1) / fs.blocksPerGroup

def Super.blocks (fs : Super) : Table where
  base := fs.firstDataBlock
  perGroup := fs.blocksPerGroup
  ngroups := fs.blockGroups
  limit group :=
    if group = fs.blockGroups - 1 then
      min fs.blocksPerGroup (fs.blocksCount - fs.firstDataBlock - group * fs.blocksPerGroup)
    else fs.blocksPerGroup
  lo := fs.firstDataBlock
  hi := fs.blocksCount

def Super.inodes (fs : Super) : Table where
  base := 1
  perGroup := fs.inodesPerGroup
  ngroups := (fs.inodesCount + fs.inodesPerGroup - 1) / fs.inodesPerGroup
  limit _ := fs.inodesPerGroup
  lo := fs.firstIno
  hi := fs.inodesCount + 1

structure Groups where
  bits : ℕ → ℕ → Bool
  freeCount : ℕ → UInt16
  superFree : UInt32
  held : List ℕ

inductive Written where
  | done
  | failed (landed : Bool)
  deriving DecidableEq

section

variable (t : Table) (p : Groups)

def Table.number (group bit : ℕ) : ℕ := t.base + group * t.perGroup + bit

def Table.groupAt (goal : Int32) (k : ℕ) : ℤ := (goal + Int32.ofNat k).toInt.tmod t.ngroups

def setBit (group bit : ℕ) (v : Bool) : Groups :=
  { p with bits := Function.update p.bits group (Function.update (p.bits group) bit v) }

def findFree (group : ℕ) : Option ℕ :=
  (List.range (t.limit group)).find? fun bit =>
    decide (t.lo ≤ t.number group bit) && !p.bits group bit

def allocFrom (read : ℕ → Bool) (written : Written) : List ℤ → Option (Groups × ℕ)
  | [] => some (p, 0)
  | i :: rest =>
    if i < 0 then none
    else if p.freeCount i.toNat = 0 ∨ read i.toNat = false then allocFrom read written rest
    else
      match findFree t p i.toNat with
      | none => allocFrom read written rest
      | some bit =>
        match written with
        | .done =>
          some ({ setBit p i.toNat bit true with
              freeCount := Function.update p.freeCount i.toNat (p.freeCount i.toNat - 1)
              superFree := p.superFree - 1
              held := t.number i.toNat bit :: p.held },
            t.number i.toNat bit)
        | .failed landed => some (if landed then setBit p i.toNat bit true else p, 0)

def alloc (goal : Int32) (read : ℕ → Bool) (written : Written) : Option (Groups × ℕ) :=
  allocFrom t p read written ((List.range t.ngroups).map (t.groupAt goal))

def release (n : ℕ) (read : Bool) (written : Written) : Groups :=
  let q := { p with held := p.held.filter (· ≠ n) }
  if n < t.lo ∨ t.hi ≤ n then q
  else
    let group := (n - t.base) / t.perGroup
    let bit := (n - t.base) % t.perGroup
    if read && p.bits group bit then
      match written with
      | .done =>
        { setBit q group bit false with
          freeCount := Function.update p.freeCount group (p.freeCount group + 1)
          superFree := p.superFree + 1 }
      | .failed landed => if landed then setBit q group bit false else q
    else q

end

structure Volume where
  blocks : Groups
  inodes : Groups

section

variable (fs : Super) (v : Volume)

def blockAlloc (goal : Int32) (read : ℕ → Bool) (written : Written) : Option (Volume × ℕ) :=
  (alloc fs.blocks v.blocks goal read written).map fun r => ({ v with blocks := r.1 }, r.2)

def inodeAlloc (goal : Int32) (read : ℕ → Bool) (written : Written) : Option (Volume × ℕ) :=
  (alloc fs.inodes v.inodes goal read written).map fun r => ({ v with inodes := r.1 }, r.2)

def blockFree (n : ℕ) (read : Bool) (written : Written) : Volume :=
  { v with blocks := release fs.blocks v.blocks n read written }

def inodeFree (n : ℕ) (read : Bool) (written : Written) : Volume :=
  { v with inodes := release fs.inodes v.inodes n read written }

inductive Call where
  | blockAlloc (goal : Int32) (read : ℕ → Bool) (written : Written)
  | inodeAlloc (goal : Int32) (read : ℕ → Bool) (written : Written)
  | blockFree (n : ℕ) (read : Bool) (written : Written)
  | inodeFree (n : ℕ) (read : Bool) (written : Written)

def step : Call → Option Volume
  | .blockAlloc goal read written => (blockAlloc fs v goal read written).map Prod.fst
  | .inodeAlloc goal read written => (inodeAlloc fs v goal read written).map Prod.fst
  | .blockFree n read written => some (blockFree fs v n read written)
  | .inodeFree n read written => some (inodeFree fs v n read written)

end

def Table.size (t : Table) (group : ℕ) : ℕ := min t.perGroup (t.hi - t.base - group * t.perGroup)

def clearBits (t : Table) (p : Groups) (group : ℕ) : ℕ :=
  ((Finset.range (t.size group)).filter fun bit => p.bits group bit = false).card

structure Matches (t : Table) (p : Groups) : Prop where
  group : ∀ g < t.ngroups, (p.freeCount g).toNat = clearBits t p g
  total : p.superFree.toNat = ∑ g ∈ Finset.range t.ngroups, (p.freeCount g).toNat

def Volume.Matches (fs : Super) (v : Volume) : Prop :=
  Counters.Matches fs.blocks v.blocks ∧ Counters.Matches fs.inodes v.inodes

def FineAlloc (t : Table) (p : Groups) (goal : Int32) (read : ℕ → Bool) (written : Written) : Prop :=
  ∃ p' n, alloc t p goal read written = some (p', n) ∧
    (n ≠ 0 → n ∉ p.held ∧ t.lo ≤ n ∧ n < t.hi)

def Fine (fs : Super) (v : Volume) : Call → Prop
  | .blockAlloc goal read written => FineAlloc fs.blocks v.blocks goal read written
  | .inodeAlloc goal read written => FineAlloc fs.inodes v.inodes goal read written
  | _ => True

/-- The groups of inodes are full, and no group has more bits than its count can say or than a
block holds. -/
structure Super.Regular (fs : Super) : Prop where
  blocks_pos : 0 < fs.blocksPerGroup
  blocks_lt : fs.blocksPerGroup < 2 ^ 16
  blocks_le : fs.blocksPerGroup ≤ 8 * fs.blockSize
  first_le : fs.firstDataBlock ≤ fs.blocksCount
  count_lt : fs.blocksCount < 2 ^ 31
  inodes_pos : 0 < fs.inodesPerGroup
  inodes_lt : fs.inodesPerGroup < 2 ^ 16
  inodes_le : fs.inodesPerGroup ≤ 8 * fs.blockSize
  full : fs.inodesPerGroup ∣ fs.inodesCount
  icount_lt : fs.inodesCount < 2 ^ 31
  firstIno_pos : 1 ≤ fs.firstIno

/-- The goal is a group number that the search can count up from, and a write that failed changed
nothing. -/
def Quiet (fs : Super) : Call → Prop
  | .blockAlloc goal _ written =>
    0 ≤ goal.toInt ∧ goal.toInt + fs.blocks.ngroups < 2 ^ 31 ∧ written ≠ .failed true
  | .inodeAlloc goal _ written =>
    0 ≤ goal.toInt ∧ goal.toInt + fs.inodes.ngroups < 2 ^ 31 ∧ written ≠ .failed true
  | .blockFree _ _ written | .inodeFree _ _ written => written ≠ .failed true

structure Table.Even (t : Table) : Prop where
  pos : 0 < t.perGroup
  small : t.perGroup < 2 ^ 16
  base_le : t.base ≤ t.lo
  hi_lt : t.hi + 1 < 2 ^ 32
  limit : ∀ g < t.ngroups, t.limit g = t.size g
  groups : t.ngroups = (t.hi - t.base + t.perGroup - 1) / t.perGroup

theorem mul_lt_of_lt_groups {m k g : ℕ} (hk : 0 < k) (hg : g < (m + k - 1) / k) : g * k < m := by
  rw [Nat.lt_div_iff_mul_lt hk] at hg
  omega

theorem Super.Regular.blocks {fs : Super} (h : fs.Regular) : fs.blocks.Even := by
  refine ⟨h.blocks_pos, h.blocks_lt, le_rfl, ?_, fun g hg => ?_, rfl⟩
  · have := h.count_lt
    show fs.blocksCount + 1 < 2 ^ 32
    omega
  · simp only [Super.blocks, Table.size] at hg ⊢
    split
    · rfl
    · next hlast =>
      have hlt := mul_lt_of_lt_groups h.blocks_pos (show g + 1 < fs.blockGroups by omega)
      rw [Nat.succ_mul] at hlt
      rw [Nat.min_eq_left]
      omega

theorem Super.Regular.inodes {fs : Super} (h : fs.Regular) : fs.inodes.Even := by
  refine ⟨h.inodes_pos, h.inodes_lt, h.firstIno_pos, ?_, fun g hg => ?_, ?_⟩
  · have := h.icount_lt
    show fs.inodesCount + 1 + 1 < 2 ^ 32
    omega
  · obtain ⟨k, hk⟩ := h.full
    have hlt := mul_lt_of_lt_groups h.inodes_pos hg
    rw [hk, Nat.mul_comm, Nat.mul_lt_mul_left h.inodes_pos] at hlt
    have hle := Nat.mul_le_mul_left fs.inodesPerGroup hlt
    rw [Nat.mul_succ, Nat.mul_comm _ g] at hle
    simp only [Super.inodes, Table.size, hk, Nat.add_sub_cancel]
    rw [Nat.min_eq_left]
    omega
  · simp [Super.inodes]

section

variable {t : Table} {p p' : Groups} {g bit n : ℕ}

def bitOf (t : Table) (p : Groups) (n : ℕ) : Bool :=
  p.bits ((n - t.base) / t.perGroup) ((n - t.base) % t.perGroup)

structure Inv (t : Table) (p : Groups) : Prop extends Matches t p where
  held : ∀ n ∈ p.held, t.lo ≤ n ∧ n < t.hi ∧ bitOf t p n = true

theorem Table.Even.locate (ht : t.Even) (hlo : t.lo ≤ n) (hhi : n < t.hi) :
    (n - t.base) / t.perGroup < t.ngroups ∧
      (n - t.base) % t.perGroup < t.size ((n - t.base) / t.perGroup) := by
  have hbase := ht.base_le
  have hmod := Nat.mod_lt (n - t.base) ht.pos
  have hdiv := Nat.div_add_mod' (n - t.base) t.perGroup
  constructor
  · rw [ht.groups, Nat.lt_div_iff_mul_lt ht.pos]
    omega
  · rw [Table.size, Nat.lt_min]
    omega

theorem Table.Even.decode (ht : t.Even) (hbit : bit < t.size g) :
    (t.number g bit - t.base) / t.perGroup = g ∧ (t.number g bit - t.base) % t.perGroup = bit := by
  have hlt : bit < t.perGroup := lt_of_lt_of_le hbit (Nat.min_le_left ..)
  have hsub : t.number g bit - t.base = bit + t.perGroup * g := by
    rw [Table.number, Nat.mul_comm]
    omega
  rw [hsub, Nat.add_mul_div_left _ _ ht.pos, Nat.add_mul_mod_self_left, Nat.div_eq_of_lt hlt,
    Nat.mod_eq_of_lt hlt, Nat.zero_add]
  exact ⟨rfl, rfl⟩

theorem Table.number_lt (hbit : bit < t.size g) : t.number g bit < t.hi := by
  have hlt : bit < t.hi - t.base - g * t.perGroup := lt_of_lt_of_le hbit (Nat.min_le_right ..)
  rw [Table.number]
  omega

theorem clearBits_other {b : Bool} {g' : ℕ} (h : g' ≠ g) :
    clearBits t (setBit p g bit b) g' = clearBits t p g' := by
  simp [clearBits, setBit, Function.update_of_ne h]

theorem clearBits_set (hbit : bit < t.size g) (hclear : p.bits g bit = false) :
    clearBits t (setBit p g bit true) g + 1 = clearBits t p g := by
  have herase : ((Finset.range (t.size g)).filter fun b => (setBit p g bit true).bits g b = false) =
      ((Finset.range (t.size g)).filter fun b => p.bits g b = false).erase bit := by
    ext b
    by_cases hb : b = bit
    · simp [setBit, hb]
    · simp [setBit, hb]
  rw [clearBits, clearBits, herase]
  exact Finset.card_erase_add_one (by simp [hbit, hclear])

theorem clearBits_clear (hbit : bit < t.size g) (hset : p.bits g bit = true) :
    clearBits t (setBit p g bit false) g = clearBits t p g + 1 := by
  have hinsert : ((Finset.range (t.size g)).filter
      fun b => (setBit p g bit false).bits g b = false) =
      insert bit ((Finset.range (t.size g)).filter fun b => p.bits g b = false) := by
    ext b
    by_cases hb : b = bit
    · simp [setBit, hb, hbit]
    · simp [setBit, hb]
  rw [clearBits, clearBits, hinsert]
  exact Finset.card_insert_of_notMem (by simp [hset])

theorem clearBits_le : clearBits t p g ≤ t.perGroup :=
  le_trans (Finset.card_filter_le ..) (by rw [Finset.card_range]; exact Nat.min_le_left ..)

theorem sum_update {n : ℕ} {f : ℕ → UInt16} {x : UInt16} (hg : g < n) :
    ∑ i ∈ Finset.range n, (Function.update f g x i).toNat + (f g).toNat =
      ∑ i ∈ Finset.range n, (f i).toNat + x.toNat := by
  have hmem : g ∈ Finset.range n := Finset.mem_range.mpr hg
  rw [← Finset.add_sum_erase _ _ hmem, ← Finset.add_sum_erase (Finset.range n) _ hmem,
    Function.update_self]
  have hsame : ∑ i ∈ (Finset.range n).erase g, (Function.update f g x i).toNat =
      ∑ i ∈ (Finset.range n).erase g, (f i).toNat :=
    Finset.sum_congr rfl fun i hi => by rw [Function.update_of_ne (Finset.ne_of_mem_erase hi)]
  omega

theorem Matches.change (h : Matches t p) (hg : g < t.ngroups) {b : Bool} {x : UInt16} {y : UInt32}
    {held : List ℕ} (hx : x.toNat = clearBits t (setBit p g bit b) g)
    (hy : y.toNat + (p.freeCount g).toNat = p.superFree.toNat + x.toNat) :
    Matches t { setBit p g bit b with
      freeCount := Function.update p.freeCount g x, superFree := y, held := held } := by
  refine ⟨fun g' hg' => ?_, ?_⟩
  · by_cases heq : g' = g
    · subst heq
      exact (congrArg UInt16.toNat (Function.update_self ..)).trans hx
    · refine (congrArg UInt16.toNat (Function.update_of_ne heq _ _)).trans ?_
      exact (h.group g' hg').trans (clearBits_other heq).symm
  · have hsum := sum_update (f := p.freeCount) (x := x) hg
    rw [← h.total] at hsum
    show y.toNat = ∑ i ∈ Finset.range t.ngroups, (Function.update p.freeCount g x i).toNat
    omega

theorem Matches.total_le (h : Matches t p) (hg : g < t.ngroups) :
    (p.freeCount g).toNat ≤ p.superFree.toNat := by
  rw [h.total]
  exact Finset.single_le_sum (f := fun i => (p.freeCount i).toNat) (fun _ _ => Nat.zero_le _)
    (Finset.mem_range.mpr hg)

theorem Matches.take (h : Matches t p) (hg : g < t.ngroups) (hbit : bit < t.size g)
    (hclear : p.bits g bit = false) (held : List ℕ) :
    Matches t { setBit p g bit true with
      freeCount := Function.update p.freeCount g (p.freeCount g - 1)
      superFree := p.superFree - 1, held := held } := by
  have hset := clearBits_set hbit hclear
  have hcount := h.group g hg
  have hle := h.total_le hg
  have hone : (1 : UInt16) ≤ p.freeCount g := by
    rw [UInt16.le_iff_toNat_le]
    show 1 ≤ _
    omega
  have hone' : (1 : UInt32) ≤ p.superFree := by
    rw [UInt32.le_iff_toNat_le]
    show 1 ≤ _
    omega
  have hx : (p.freeCount g - 1).toNat = (p.freeCount g).toNat - 1 := UInt16.toNat_sub_of_le _ _ hone
  have hy : (p.superFree - 1).toNat = p.superFree.toNat - 1 := UInt32.toNat_sub_of_le _ _ hone'
  exact h.change hg (by omega) (by omega)

theorem sum_size (k : ℕ) :
    ∑ g ∈ Finset.range k, t.size g = min (k * t.perGroup) (t.hi - t.base) := by
  induction k with
  | zero => simp
  | succ k ih =>
    rw [Finset.sum_range_succ, ih, Table.size, Nat.succ_mul]
    omega

theorem Matches.total_le_hi (h : Matches t p) : p.superFree.toNat ≤ t.hi := by
  have hsum : ∑ g ∈ Finset.range t.ngroups, (p.freeCount g).toNat ≤
      ∑ g ∈ Finset.range t.ngroups, t.size g := by
    refine Finset.sum_le_sum fun g hg => ?_
    rw [h.group g (Finset.mem_range.mp hg)]
    exact le_trans (Finset.card_filter_le ..) (Finset.card_range _).le
  rw [← h.total, sum_size] at hsum
  omega

theorem Matches.put (ht : t.Even) (h : Matches t p) (hg : g < t.ngroups) (hbit : bit < t.size g)
    (hset : p.bits g bit = true) (held : List ℕ) :
    Matches t { setBit p g bit false with
      freeCount := Function.update p.freeCount g (p.freeCount g + 1)
      superFree := p.superFree + 1, held := held } := by
  have hclear := clearBits_clear hbit hset
  have hcount := h.group g hg
  have hle : clearBits t (setBit p g bit false) g ≤ t.perGroup := clearBits_le
  have hsmall := ht.small
  have hhi := ht.hi_lt
  have htotal := h.total_le_hi
  have hx : (p.freeCount g + 1).toNat = (p.freeCount g).toNat + 1 := by
    rw [UInt16.toNat_add]
    exact Nat.mod_eq_of_lt (show (p.freeCount g).toNat + 1 < 2 ^ 16 by omega)
  have hy : (p.superFree + 1).toNat = p.superFree.toNat + 1 := by
    rw [UInt32.toNat_add]
    exact Nat.mod_eq_of_lt (show p.superFree.toNat + 1 < 2 ^ 32 by omega)
  exact h.change hg (by omega) (by omega)

theorem bitOf_setBit {b : Bool} : bitOf t (setBit p g bit b) n =
    if (n - t.base) / t.perGroup = g ∧ (n - t.base) % t.perGroup = bit then b else bitOf t p n := by
  by_cases hg : (n - t.base) / t.perGroup = g
  · by_cases hbit : (n - t.base) % t.perGroup = bit
    · simp [bitOf, setBit, hg, hbit]
    · simp [bitOf, setBit, hg, hbit]
  · simp [bitOf, setBit, hg]

theorem findFree_some (h : findFree t p g = some bit) :
    bit < t.limit g ∧ t.lo ≤ t.number g bit ∧ p.bits g bit = false := by
  have hmem := List.mem_of_find?_eq_some h
  have htest := List.find?_some h
  simp only [Bool.and_eq_true, decide_eq_true_eq, Bool.not_eq_true'] at htest
  exact ⟨List.mem_range.mp hmem, htest⟩

theorem Inv.allocFrom (ht : t.Even) (h : Inv t p) {read : ℕ → Bool} {written : Written}
    (hwritten : written ≠ .failed true) {groups : List ℤ}
    (hgroups : ∀ i ∈ groups, 0 ≤ i ∧ i.toNat < t.ngroups) :
    ∃ p' n, allocFrom t p read written groups = some (p', n) ∧ Inv t p' ∧
      (n ≠ 0 → n ∉ p.held ∧ t.lo ≤ n ∧ n < t.hi) := by
  induction groups with
  | nil => exact ⟨p, 0, rfl, h, fun hne => absurd rfl hne⟩
  | cons i rest ih =>
    obtain ⟨hpos, hlt⟩ := hgroups i List.mem_cons_self
    have hrest := ih fun j hj => hgroups j (List.mem_cons_of_mem _ hj)
    rw [Counters.allocFrom, if_neg (not_lt.mpr hpos)]
    split
    · exact hrest
    · split
      · exact hrest
      · next bit hfind =>
        obtain ⟨hbit, hlo, hclear⟩ := findFree_some hfind
        rw [ht.limit _ hlt] at hbit
        obtain ⟨hdiv, hmod⟩ := ht.decode hbit
        have hfree : bitOf t p (t.number i.toNat bit) = false := by
          rw [bitOf, hdiv, hmod]
          exact hclear
        have hout : t.number i.toNat bit ∉ p.held := fun hmem => by
          rw [(h.held _ hmem).2.2] at hfree
          cases hfree
        cases written with
        | done =>
          refine ⟨_, _, rfl, ⟨h.toMatches.take hlt hbit hclear _, fun n hn => ?_⟩,
            fun _ => ⟨hout, hlo, Table.number_lt hbit⟩⟩
          have hkeep : ∀ n, bitOf t p n = true ∨ n = t.number i.toNat bit →
              bitOf t (setBit p i.toNat bit true) n = true := by
            rintro n (hn | rfl)
            · rw [bitOf_setBit, hn, ite_self]
            · rw [bitOf_setBit, if_pos ⟨hdiv, hmod⟩]
          rcases List.mem_cons.mp hn with rfl | hn
          · exact ⟨hlo, Table.number_lt hbit, hkeep _ (.inr rfl)⟩
          · obtain ⟨h1, h2, h3⟩ := h.held n hn
            exact ⟨h1, h2, hkeep n (.inl h3)⟩
        | failed landed =>
          cases landed with
          | true => exact absurd rfl hwritten
          | false => exact ⟨p, 0, rfl, h, fun hne => absurd rfl hne⟩

theorem groupAt_mem {goal : Int32} (h0 : 0 ≤ goal.toInt) (h1 : goal.toInt + t.ngroups < 2 ^ 31)
    {i : ℤ} (hi : i ∈ (List.range t.ngroups).map (t.groupAt goal)) :
    0 ≤ i ∧ i.toNat < t.ngroups := by
  obtain ⟨k, hk, rfl⟩ := List.mem_map.mp hi
  have hk := List.mem_range.mp hk
  have hadd : (goal + Int32.ofNat k).toInt = goal.toInt + k := by
    rw [Int32.toInt_add, Int32.toInt_ofNat_of_lt (by omega), Int.bmod_eq_of_le (by omega) (by omega)]
  have hmod : t.groupAt goal k = (goal.toInt + k) % t.ngroups := by
    rw [Table.groupAt, hadd, Int.tmod_eq_emod_of_nonneg (by omega)]
  have hpos : (0 : ℤ) < t.ngroups := by omega
  rw [hmod]
  have h2 := Int.emod_nonneg (goal.toInt + k) hpos.ne'
  have h3 := Int.emod_lt_of_pos (goal.toInt + k) hpos
  exact ⟨h2, by omega⟩

theorem Inv.alloc (ht : t.Even) (h : Inv t p) {goal : Int32} {written : Written} (read : ℕ → Bool)
    (h0 : 0 ≤ goal.toInt) (h1 : goal.toInt + t.ngroups < 2 ^ 31)
    (hwritten : written ≠ .failed true) :
    ∃ p' n, alloc t p goal read written = some (p', n) ∧ Inv t p' ∧
      (n ≠ 0 → n ∉ p.held ∧ t.lo ≤ n ∧ n < t.hi) :=
  h.allocFrom ht hwritten fun _ hi => groupAt_mem h0 h1 hi

theorem Inv.release (ht : t.Even) (h : Inv t p) {read : Bool} {written : Written}
    (hwritten : written ≠ .failed true) (n : ℕ) : Inv t (release t p n read written) := by
  have hsame : Inv t { p with held := p.held.filter (· ≠ n) } :=
    ⟨⟨h.group, h.total⟩, fun m hm => h.held m (List.mem_of_mem_filter hm)⟩
  unfold Counters.release
  dsimp only
  split
  · exact hsame
  · next hrange =>
    have hlo : t.lo ≤ n := by omega
    have hhi : n < t.hi := by omega
    obtain ⟨hg, hbit⟩ := ht.locate hlo hhi
    split
    · next htest =>
      rw [Bool.and_eq_true] at htest
      cases written with
      | done =>
        refine ⟨h.toMatches.put ht hg hbit htest.2 _, fun m hm => ?_⟩
        obtain ⟨hmem, hne⟩ := List.mem_filter.mp hm
        obtain ⟨h1, h2, h3⟩ := h.held m hmem
        refine ⟨h1, h2, ?_⟩
        have hbase := ht.base_le
        refine bitOf_setBit.trans ((if_neg fun heq => ?_).trans h3)
        have hm' := Nat.div_add_mod' (m - t.base) t.perGroup
        have hn' := Nat.div_add_mod' (n - t.base) t.perGroup
        rw [heq.1, heq.2] at hm'
        exact absurd (show m = n by omega) (by simpa using hne)
      | failed landed =>
        cases landed with
        | true => exact absurd rfl hwritten
        | false => exact hsame
    · exact hsame

end

/-- Over any sequence of calls that are quiet the counts keep agreeing with the bitmaps, and every
allocation is a fine one. -/
theorem counters_kept {fs : Super} (hfs : fs.Regular) {v : Volume} (hv : v.Matches fs)
    (hnew : v.blocks.held = [] ∧ v.inodes.held = []) (calls : List Call)
    (hquiet : ∀ c ∈ calls, Quiet fs c) :
    StepsMeet (step fs) (Fine fs) v calls ∧
      ∃ v', runSteps (step fs) v calls = some v' ∧ v'.Matches fs := by
  have hrun : ∀ v : Volume, Inv fs.blocks v.blocks → Inv fs.inodes v.inodes →
      StepsMeet (step fs) (Fine fs) v calls ∧
        ∃ v', runSteps (step fs) v calls = some v' ∧ v'.Matches fs := by
    induction calls with
    | nil => exact fun v hb hi => ⟨trivial, v, rfl, hb.toMatches, hi.toMatches⟩
    | cons c calls ih =>
      intro v hb hi
      have hc := hquiet c List.mem_cons_self
      have hnext : ∃ v₁, Fine fs v c ∧ step fs v c = some v₁ ∧ Inv fs.blocks v₁.blocks ∧
          Inv fs.inodes v₁.inodes := by
        cases c with
        | blockAlloc goal read written =>
          obtain ⟨p, n, halloc, hinv, hfine⟩ := hb.alloc hfs.blocks read hc.1 hc.2.1 hc.2.2
          exact ⟨{ v with blocks := p }, ⟨p, n, halloc, hfine⟩, by simp [step, blockAlloc, halloc],
            hinv, hi⟩
        | inodeAlloc goal read written =>
          obtain ⟨p, n, halloc, hinv, hfine⟩ := hi.alloc hfs.inodes read hc.1 hc.2.1 hc.2.2
          exact ⟨{ v with inodes := p }, ⟨p, n, halloc, hfine⟩, by simp [step, inodeAlloc, halloc],
            hb, hinv⟩
        | blockFree n read written => exact ⟨_, trivial, rfl, hb.release hfs.blocks hc n, hi⟩
        | inodeFree n read written => exact ⟨_, trivial, rfl, hb, hi.release hfs.inodes hc n⟩
      obtain ⟨v₁, hfine, hstep, hb₁, hi₁⟩ := hnext
      obtain ⟨hmeet, v', hrest, hv'⟩ := ih (fun c hc => hquiet c (List.mem_cons_of_mem _ hc)) v₁ hb₁ hi₁
      refine ⟨⟨hfine, fun v₂ hv₂ => ?_⟩, v', runSteps_cons.mpr ⟨v₁, hstep, hrest⟩, hv'⟩
      rw [hstep, Option.some.injEq] at hv₂
      exact hv₂ ▸ hmeet
  exact hrun v ⟨hv.1, by simp [hnew.1]⟩ ⟨hv.2, by simp [hnew.2]⟩

def unused (n k : ℕ) : Groups where
  bits := fun _ _ => false
  freeCount := fun g => if g < n then UInt16.ofNat k else 0
  superFree := UInt32.ofNat (n * k)
  held := []

def small : Super := ⟨1024, 5, 1, 2, 2, 2, 1⟩

def smallVolume : Volume := ⟨unused 2 2, unused 1 2⟩

theorem small_matches : smallVolume.Matches small :=
  ⟨⟨by decide, by decide⟩, ⟨by decide, by decide⟩⟩

/-- An allocation from the second group, one of an inode, and both are freed; one write fails. -/
def smallCalls : List Call :=
  [.blockAlloc 1 (fun _ => true) .done, .inodeAlloc 0 (fun _ => true) .done,
    .blockFree 3 true (.failed false), .blockFree 3 true .done, .inodeFree 1 true .done]

theorem counters_kept_small :
    ∃ v, runSteps (step small) smallVolume smallCalls = some v ∧ v.Matches small := by
  have hregular : small.Regular := by constructor <;> decide
  refine (counters_kept hregular small_matches ⟨rfl, rfl⟩ smallCalls ?_).2
  simp only [smallCalls, List.forall_mem_cons, Quiet, List.not_mem_nil, IsEmpty.forall_iff,
    implies_true, and_true]
  decide

/-- A write that is reported as failed and has reached the device; a negative goal; a reserved inode
that is not marked, in a group that is shorter than the scan. -/
theorem counters_off :
    (∃ v, step small smallVolume (.blockAlloc 0 (fun _ => true) (.failed true)) = some v ∧
        ¬v.Matches small) ∧
      step small smallVolume (.blockAlloc (-1) (fun _ => true) .done) = none ∧
      Matches (Super.inodes ⟨1024, 5, 1, 2, 1, 2, 2⟩) (unused 1 1) ∧
      ∃ p, alloc (Super.inodes ⟨1024, 5, 1, 2, 1, 2, 2⟩) (unused 1 1) 0 (fun _ => true) .done =
          some (p, 2) ∧ ¬Matches (Super.inodes ⟨1024, 5, 1, 2, 1, 2, 2⟩) p := by
  refine ⟨⟨_, rfl, fun h => ?_⟩, rfl, ⟨by decide, by decide⟩, _, rfl, fun h => ?_⟩
  · exact absurd (h.1.group 0 (by decide)) (by decide)
  · exact absurd (h.group 0 (by decide)) (by decide)

end Uros.Ext2.Counters
