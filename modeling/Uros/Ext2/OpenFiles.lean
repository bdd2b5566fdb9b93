import Mathlib.Data.List.FinRange
import Mathlib.Logic.Function.Basic
import Uros.Foundation.Bytes
import Uros.Foundation.Transition

/-!
The open-file slots of a mount (`ext_server.c`).

A step is one critical section of `of_lock`; what a thread does between two sections (a path
walk into a slot, a read or write through a pinned slot, a close that flushes a slot) is the
stage it is in.  The threads are a list of any length, so the number of operations in
progress on a slot can be counted.
-/

namespace Uros.Ext2

open Uros.Foundation

abbrev Fid := Fin 16

/-- `struct open_file`; `private` is null or points to the slot's own `file_data`.  `openId`
numbers the opens and is not in the source. -/
structure OpenFile where
  inUse : Bool
  busy : Nat
  owner : Nat
  priv : Bool
  path : Bytes
  openId : Nat

inductive OfStage where
  | idle
  | walking (fid : Fid)
  | reclaiming (fid : Fid) (path : Bytes)
  | pinned (fid : Fid)
  | draining (fid : Fid)
  | closing (fid : Fid)
  deriving DecidableEq

namespace OfStage

def pins (fid : Fid) : OfStage → Bool
  | .pinned i => i = fid
  | _ => false

def holds (fid : Fid) : OfStage → Bool
  | .walking i => i = fid
  | .reclaiming i _ => i = fid
  | .closing i => i = fid
  | _ => false

end OfStage

structure OpenFiles where
  slots : Fid → OpenFile
  dirty : List Fid
  threads : List OfStage
  /-- The number of the next open that takes a slot, which of them returned a fid (with the
  slot), and which had their `ext2fs_close_file` started. -/
  nextId : Nat
  handed : List (Nat × Fid)
  closed : List Nat

namespace OpenFiles

def init (threads : Nat) : OpenFiles where
  slots := fun _ => ⟨false, 0, 0, false, [], 0⟩
  dirty := []
  threads := List.replicate threads .idle
  nextId := 1
  handed := []
  closed := []

variable (s : OpenFiles)

def firstFree : Option Fid := (List.finRange 16).find? fun i => !(s.slots i).inUse

def donor (path : Bytes) : Option Fid :=
  (List.finRange 16).find? fun i =>
    (s.slots i).inUse && (s.slots i).priv && (s.slots i).path == path

def nextReclaim (dead : Nat → Bool) (start : Nat) : Option Fid :=
  (List.finRange 16).find? fun i =>
    start ≤ i && (s.slots i).inUse && (s.slots i).owner != 0 && (s.slots i).priv &&
      (s.slots i).busy == 0 && dead (s.slots i).owner

def put (t : Nat) (stage : OfStage) (i : Fid) (x : OpenFile) : OpenFiles :=
  { s with threads := s.threads.set t stage, slots := Function.update s.slots i x }

def fill (t : Nat) (fid : Fid) (path : Bytes) : OpenFiles :=
  let x := { s.slots fid with
    inUse := true, owner := 0, path := path.take 255, openId := s.nextId }
  if (s.donor path).isSome then
    { s.put t .idle fid { x with priv := true } with
      nextId := s.nextId + 1, handed := (s.nextId, fid) :: s.handed }
  else
    { s.put t (.walking fid) fid { x with priv := false } with nextId := s.nextId + 1 }

def claimClose (t : Nat) (stage : OfStage) (i : Fid) : OpenFiles :=
  { s.put t stage i { s.slots i with priv := false, owner := 0 } with
    dirty := s.dirty.erase i
    closed := (s.slots i).openId :: s.closed }

def release (t : Nat) (i : Fid) : OpenFiles :=
  s.put t .idle i { s.slots i with inUse := false, path := [] }

def reclaimScan (t : Nat) (path : Bytes) (dead : Nat → Bool) (start : Nat) : OpenFiles :=
  match s.nextReclaim dead start with
  | some i => s.claimClose t (.reclaiming i path) i
  | none =>
    match s.firstFree with
    | none => s
    | some fid => s.fill t fid path

def closeSection (t : Nat) (i : Fid) : OpenFiles :=
  let x := s.slots i
  if !x.inUse || !x.priv then { s with threads := s.threads.set t .idle }
  else if x.busy = 0 then s.claimClose t (.closing i) i
  else { s with threads := s.threads.set t (.draining i) }

end OpenFiles

inductive OfEvent where
  | dsOpen (t : Nat) (path : Bytes) (dead : Nat → Bool)
  | reclaimed (t : Nat) (dead : Nat → Bool)
  | walked (t : Nat) (ok : Bool)
  | opBegin (t : Nat) (i : Fid)
  | dirtyAdd (t : Nat)
  | opEnd (t : Nat)
  | dsClose (t : Nat) (i : Fid)
  | closeRetry (t : Nat)
  | closed (t : Nat)
  | writeback (still : Fid → Bool)
  | setOwner (i : Fid) (task : Nat)

namespace OpenFiles

def step (s : OpenFiles) : OfEvent → Option OpenFiles
  | .dsOpen t path dead =>
    if s.threads[t]? = some .idle then
      match s.firstFree with
      | some fid => some (s.fill t fid path)
      | none => some (s.reclaimScan t path dead 0)
    else none
  | .reclaimed t dead =>
    match s.threads[t]? with
    | some (.reclaiming i path) => some ((s.release t i).reclaimScan t path dead (i + 1))
    | _ => none
  | .walked t ok =>
    match s.threads[t]? with
    | some (.walking i) =>
      if ok then
        some { s.put t .idle i { s.slots i with priv := true } with
          handed := ((s.slots i).openId, i) :: s.handed }
      else some (s.release t i)
    | _ => none
  | .opBegin t i =>
    if s.threads[t]? = some .idle then
      if (s.slots i).inUse && (s.slots i).priv then
        some (s.put t (.pinned i) i { s.slots i with busy := (s.slots i).busy + 1 })
      else some s
    else none
  | .dirtyAdd t =>
    match s.threads[t]? with
    | some (.pinned i) => some { s with dirty := if i ∈ s.dirty then s.dirty else i :: s.dirty }
    | _ => none
  | .opEnd t =>
    match s.threads[t]? with
    | some (.pinned i) =>
      some (s.put t .idle i { s.slots i with busy := (s.slots i).busy - 1 })
    | _ => none
  | .dsClose t i => if s.threads[t]? = some .idle then some (s.closeSection t i) else none
  | .closeRetry t =>
    match s.threads[t]? with
    | some (.draining i) => some (s.closeSection t i)
    | _ => none
  | .closed t =>
    match s.threads[t]? with
    | some (.closing i) => some (s.release t i)
    | _ => none
  | .writeback still => some { s with dirty := s.dirty.filter still }
  | .setOwner i task =>
    some (if (s.slots i).inUse then
      { s with slots := Function.update s.slots i { s.slots i with owner := task } } else s)

/-! ## The invariant -/

def pinCount (s : OpenFiles) (i : Fid) : Nat := s.threads.countP (·.pins i)

def holdCount (s : OpenFiles) (i : Fid) : Nat := s.threads.countP (·.holds i)

structure SlotOk (x : OpenFile) (pins holds : Nat) (listed : Prop) : Prop where
  busy : x.busy = pins
  held : holds = if x.inUse && !x.priv then 1 else 0
  used : x.priv = true → x.inUse = true
  pinned : 0 < pins → x.priv = true
  listed : listed → x.priv = true

structure Ids (s : OpenFiles) : Prop where
  id_lt : ∀ i, (s.slots i).inUse = true → (s.slots i).openId < s.nextId
  distinct : ∀ i j, (s.slots i).inUse = true → (s.slots j).inUse = true →
    (s.slots i).openId = (s.slots j).openId → i = j
  closed_lt : ∀ n ∈ s.closed, n < s.nextId
  closedOnce : s.closed.Nodup
  live : ∀ i, (s.slots i).priv = true → (s.slots i).openId ∉ s.closed
  walking : ∀ i, .walking i ∈ s.threads → (s.slots i).openId ∉ s.closed
  handed : ∀ p ∈ s.handed, p.1 < s.nextId ∧
    (p.1 ∉ s.closed → (s.slots p.2).priv = true ∧ (s.slots p.2).openId = p.1)

structure Inv (s : OpenFiles) : Prop where
  slot : ∀ i, SlotOk (s.slots i) (s.pinCount i) (s.holdCount i) (i ∈ s.dirty)
  dirtyOnce : s.dirty.Nodup
  ids : s.Ids

variable {s : OpenFiles} {t : Nat} {st st' : OfStage} {i j : Fid} {x : OpenFile}

theorem countP_set_add {l : List OfStage} (p : OfStage → Bool) (ht : l[t]? = some st) :
    (l.set t st').countP p + (if p st then 1 else 0) = l.countP p + if p st' then 1 else 0 := by
  obtain ⟨hlt, hget⟩ := List.getElem?_eq_some_iff.mp ht
  rw [List.countP_set hlt, hget]
  split
  · next hp =>
    have hpos : 0 < l.countP p := List.countP_pos_iff.mpr ⟨st, hget ▸ List.getElem_mem hlt, hp⟩
    omega
  · omega

theorem slotOk_put {s' : OpenFiles} (hs : s.Inv) (ht : s.threads[t]? = some st)
    (hthreads : s'.threads = s.threads.set t st') (hslots : s'.slots = Function.update s.slots i x)
    (hdirty : ∀ j ≠ i, j ∈ s'.dirty → j ∈ s.dirty)
    (hother : ∀ j ≠ i, st.pins j = st'.pins j ∧ st.holds j = st'.holds j) (pins holds : Nat)
    (hpins : pins + (if st.pins i then 1 else 0) = s.pinCount i + if st'.pins i then 1 else 0)
    (hholds : holds + (if st.holds i then 1 else 0) = s.holdCount i + if st'.holds i then 1 else 0)
    (hnew : SlotOk x pins holds (i ∈ s'.dirty)) (j : Fid) :
    SlotOk (s'.slots j) (s'.pinCount j) (s'.holdCount j) (j ∈ s'.dirty) := by
  have hp : s'.pinCount j + (if st.pins j then 1 else 0) =
      s.pinCount j + if st'.pins j then 1 else 0 := by
    rw [pinCount, hthreads]
    exact countP_set_add (OfStage.pins j) ht
  have hh : s'.holdCount j + (if st.holds j then 1 else 0) =
      s.holdCount j + if st'.holds j then 1 else 0 := by
    rw [holdCount, hthreads]
    exact countP_set_add (OfStage.holds j) ht
  by_cases hj : j = i
  · subst hj
    rw [hslots, Function.update_self, Nat.add_right_cancel (hp.trans hpins.symm),
      Nat.add_right_cancel (hh.trans hholds.symm)]
    exact hnew
  · rw [(hother j hj).1, Nat.add_right_cancel_iff] at hp
    rw [(hother j hj).2, Nat.add_right_cancel_iff] at hh
    rw [hslots, Function.update_of_ne hj, hp, hh]
    have hold := hs.slot j
    exact ⟨hold.busy, hold.held, hold.used, hold.pinned, fun hmem => hold.listed (hdirty j hj hmem)⟩

theorem Inv.free (hs : s.Inv) (hfree : (s.slots i).inUse = false) :
    (s.slots i).priv = false ∧ s.pinCount i = 0 ∧ s.holdCount i = 0 ∧ i ∉ s.dirty := by
  have hslot := hs.slot i
  have hpriv : (s.slots i).priv = false := by
    by_contra hp
    rw [hslot.used (by simpa using hp)] at hfree
    cases hfree
  refine ⟨hpriv, ?_, ?_, fun hmem => ?_⟩
  · by_contra hpos
    rw [hslot.pinned (Nat.pos_of_ne_zero hpos)] at hpriv
    cases hpriv
  · rw [hslot.held, hfree]
    rfl
  · rw [hslot.listed hmem] at hpriv
    cases hpriv

/-! ## Opens -/

theorem slots_update {s' : OpenFiles} (hslots : s'.slots = Function.update s.slots i x) (j : Fid) :
    s'.slots j = if j = i then x else s.slots j := by
  rw [hslots, Function.update_apply]

theorem openId_update {s' : OpenFiles} (hslots : s'.slots = Function.update s.slots i x)
    (hid : x.openId = (s.slots i).openId) (j : Fid) :
    (s'.slots j).openId = (s.slots j).openId := by
  rw [slots_update hslots]
  split
  · next h => rw [h, hid]
  · rfl

theorem inUse_update {s' : OpenFiles} (hslots : s'.slots = Function.update s.slots i x)
    (hused : x.inUse = true → (s.slots i).inUse = true) (j : Fid) :
    (s'.slots j).inUse = true → (s.slots j).inUse = true := by
  rw [slots_update hslots]
  split
  · next h => rw [h]; exact hused
  · exact id

theorem Ids.keep {s' : OpenFiles} (hs : s.Ids) (hslots : s'.slots = Function.update s.slots i x)
    (hthreads : ∀ j, .walking j ∈ s'.threads → .walking j ∈ s.threads)
    (hnext : s'.nextId = s.nextId) (hclosed : s'.closed = s.closed)
    (hhanded : s'.handed = s.handed) (hid : x.openId = (s.slots i).openId)
    (hused : x.inUse = true → (s.slots i).inUse = true)
    (hlive : x.priv = true → (s.slots i).openId ∉ s.closed)
    (hpriv : (s.slots i).priv = true → x.priv = true) : s'.Ids := by
  have hget := slots_update hslots
  have hsame := openId_update hslots hid
  have huse := inUse_update hslots hused
  refine ⟨fun j hj => ?_, fun j l hj hl heq => ?_, ?_, ?_, fun j hj => ?_, fun j hj => ?_,
    fun p hp => ?_⟩
  · rw [hsame, hnext]
    exact hs.id_lt j (huse j hj)
  · rw [hsame, hsame] at heq
    exact hs.distinct j l (huse j hj) (huse l hl) heq
  · rw [hclosed, hnext]
    exact hs.closed_lt
  · rw [hclosed]
    exact hs.closedOnce
  · rw [hsame, hclosed]
    rw [hget] at hj
    split at hj
    · next h => rw [h]; exact hlive hj
    · exact hs.live j hj
  · rw [hsame, hclosed]
    exact hs.walking j (hthreads j hj)
  · rw [hhanded] at hp
    obtain ⟨hlt, hopen⟩ := hs.handed p hp
    rw [hclosed, hnext, hsame, hget]
    refine ⟨hlt, fun hnot => ⟨?_, (hopen hnot).2⟩⟩
    split
    · next h => exact hpriv (h ▸ (hopen hnot).1)
    · exact (hopen hnot).1

theorem Ids.hand (hs : s.Ids) (hused : (s.slots i).inUse = true)
    (hpriv : (s.slots i).priv = true) :
    Ids { s with handed := ((s.slots i).openId, i) :: s.handed } := by
  refine { hs with handed := fun p hp => ?_ }
  rcases List.mem_cons.mp hp with rfl | hp
  · exact ⟨hs.id_lt i hused, fun _ => ⟨hpriv, rfl⟩⟩
  · exact hs.handed p hp

theorem Ids.close {s' : OpenFiles} (hs : s.Ids) (hslots : s'.slots = Function.update s.slots i x)
    (hthreads : ∀ j, .walking j ∈ s'.threads → j ≠ i ∧ .walking j ∈ s.threads)
    (hnext : s'.nextId = s.nextId) (hclosed : s'.closed = (s.slots i).openId :: s.closed)
    (hhanded : s'.handed = s.handed) (hid : x.openId = (s.slots i).openId)
    (hx : x.priv = false) (hused : (s.slots i).inUse = true) (hwas : (s.slots i).priv = true)
    (hall : ∀ j, (s.slots j).priv = true ∨ .walking j ∈ s.threads → (s.slots j).inUse = true) :
    s'.Ids := by
  have hget := slots_update hslots
  have hsame := openId_update hslots hid
  have huse := inUse_update hslots fun _ => hused
  have hnew {j : Fid} (hj : j ≠ i) (hju : (s.slots j).inUse = true)
      (hnot : (s.slots j).openId ∉ s.closed) :
      (s.slots j).openId ∉ (s.slots i).openId :: s.closed := by
    simp only [List.mem_cons, not_or]
    exact ⟨fun heq => hj (hs.distinct j i hju hused heq), hnot⟩
  refine ⟨fun j hj => ?_, fun j l hj hl heq => ?_, fun n hn => ?_, ?_, fun j hj => ?_,
    fun j hj => ?_, fun p hp => ?_⟩
  · rw [hsame, hnext]
    exact hs.id_lt j (huse j hj)
  · rw [hsame, hsame] at heq
    exact hs.distinct j l (huse j hj) (huse l hl) heq
  · rw [hclosed] at hn
    rw [hnext]
    rcases List.mem_cons.mp hn with rfl | hn
    · exact hs.id_lt i hused
    · exact hs.closed_lt n hn
  · rw [hclosed]
    exact List.nodup_cons.mpr ⟨hs.live i hwas, hs.closedOnce⟩
  · rw [hsame, hclosed]
    rw [hget] at hj
    split at hj
    · rw [hx] at hj
      cases hj
    · exact hnew ‹_› (hall j (.inl hj)) (hs.live j hj)
  · obtain ⟨hne, hj⟩ := hthreads j hj
    rw [hsame, hclosed]
    exact hnew hne (hall j (.inr hj)) (hs.walking j hj)
  · rw [hhanded] at hp
    obtain ⟨hlt, hopen⟩ := hs.handed p hp
    rw [hclosed, hnext, hsame, hget]
    refine ⟨hlt, fun hnot => ?_⟩
    simp only [List.mem_cons, not_or] at hnot
    obtain ⟨hp1, hp2⟩ := hopen hnot.2
    rw [if_neg, hp1, hp2]
    · exact ⟨rfl, rfl⟩
    · intro heq
      exact hnot.1 (hp2.symm.trans (by rw [heq]))

theorem Ids.fill {s' : OpenFiles} (hs : s.Ids) (hslots : s'.slots = Function.update s.slots i x)
    (hthreads : ∀ j, .walking j ∈ s'.threads → j = i ∨ .walking j ∈ s.threads)
    (hnext : s'.nextId = s.nextId + 1) (hclosed : s'.closed = s.closed)
    (hhanded : s'.handed = s.handed ∨
      x.priv = true ∧ s'.handed = (s.nextId, i) :: s.handed)
    (hid : x.openId = s.nextId) (hfree : (s.slots i).priv = false) : s'.Ids := by
  have hget := slots_update hslots
  have hnot : s.nextId ∉ s.closed := fun h => Nat.lt_irrefl _ (hs.closed_lt _ h)
  refine ⟨fun j hj => ?_, fun j l hj hl heq => ?_, fun n hn => ?_, ?_, fun j hj => ?_,
    fun j hj => ?_, fun p hp => ?_⟩
  · rw [hget] at hj ⊢
    rw [hnext]
    split
    · rw [hid]
      exact Nat.lt_succ_self _
    · rw [if_neg ‹_›] at hj
      exact Nat.lt_succ_of_lt (hs.id_lt j hj)
  · rw [hget] at hj hl
    rw [hget, hget] at heq
    split at heq <;> split at heq
    · exact ‹j = i›.trans ‹l = i›.symm
    · rw [if_neg ‹¬l = i›] at hl
      have := hs.id_lt l hl
      rw [hid] at heq
      omega
    · rw [if_neg ‹¬j = i›] at hj
      have := hs.id_lt j hj
      rw [hid] at heq
      omega
    · rw [if_neg ‹¬j = i›] at hj
      rw [if_neg ‹¬l = i›] at hl
      exact hs.distinct j l hj hl heq
  · rw [hclosed] at hn
    rw [hnext]
    exact Nat.lt_succ_of_lt (hs.closed_lt n hn)
  · rw [hclosed]
    exact hs.closedOnce
  · rw [hget] at hj ⊢
    rw [hclosed]
    split
    · rw [hid]
      exact hnot
    · rw [if_neg ‹_›] at hj
      exact hs.live j hj
  · rw [hget, hclosed]
    split
    · rw [hid]
      exact hnot
    · exact hs.walking j ((hthreads j hj).resolve_left ‹_›)
  · have hold (hp : p ∈ s.handed) : p.1 < s'.nextId ∧
        (p.1 ∉ s'.closed → (s'.slots p.2).priv = true ∧ (s'.slots p.2).openId = p.1) := by
      obtain ⟨hlt, hopen⟩ := hs.handed p hp
      rw [hclosed, hnext, hget]
      refine ⟨Nat.lt_succ_of_lt hlt, fun hnot => ?_⟩
      obtain ⟨hp1, hp2⟩ := hopen hnot
      rw [if_neg]
      · exact ⟨hp1, hp2⟩
      · intro heq
        rw [heq, hfree] at hp1
        cases hp1
    rcases hhanded with hhanded | ⟨hx, hhanded⟩
    · exact hold (hhanded ▸ hp)
    · rw [hhanded] at hp
      rcases List.mem_cons.mp hp with rfl | hp
      · rw [hnext, hget, if_pos rfl]
        exact ⟨Nat.lt_succ_self _, fun _ => ⟨hx, hid⟩⟩
      · exact hold hp

/-! ## One section -/

theorem Inv.held (hs : s.Inv) (ht : s.threads[t]? = some st) (hst : st.holds i = true) :
    (s.slots i).inUse = true ∧ (s.slots i).priv = false ∧ s.holdCount i = 1 ∧
      s.pinCount i = 0 ∧ i ∉ s.dirty := by
  have hpos : 0 < s.holdCount i :=
    List.countP_pos_iff.mpr ⟨st, List.mem_of_getElem? ht, hst⟩
  have hslot := hs.slot i
  have hheld := hslot.held
  split at hheld
  · next h =>
    simp only [Bool.and_eq_true, Bool.not_eq_true'] at h
    refine ⟨h.1, h.2, hheld, ?_, fun hmem => ?_⟩
    · by_contra hne
      simp [hslot.pinned (Nat.pos_of_ne_zero hne)] at h
    · simp [hslot.listed hmem] at h
  · omega

theorem Inv.pin (hs : s.Inv) (ht : s.threads[t]? = some (.pinned i)) :
    (s.slots i).priv = true ∧ 0 < s.pinCount i := by
  have hpos : 0 < s.pinCount i :=
    List.countP_pos_iff.mpr ⟨_, List.mem_of_getElem? ht, by simp [OfStage.pins]⟩
  exact ⟨(hs.slot i).pinned hpos, hpos⟩

theorem Inv.inUse_of_walking (hs : s.Inv) (h : .walking i ∈ s.threads) :
    (s.slots i).inUse = true := by
  obtain ⟨t, ht⟩ := List.mem_iff_getElem?.mp h
  exact (hs.held ht (by simp [OfStage.holds])).1

theorem walking_of_set (hst : ∀ j, st' ≠ .walking j) (h : .walking j ∈ s.threads.set t st') :
    .walking j ∈ s.threads :=
  (List.mem_or_eq_of_mem_set h).resolve_right fun heq => hst j heq.symm

theorem Inv.fill (hs : s.Inv) (ht : s.threads[t]? = some .idle)
    (hfree : (s.slots i).inUse = false) (path : Bytes) : (s.fill t i path).Inv := by
  obtain ⟨hpriv, hpins, hholds, hdirty⟩ := hs.free hfree
  have hbusy : (s.slots i).busy = 0 := (hs.slot i).busy.trans hpins
  unfold OpenFiles.fill
  split
  · refine ⟨slotOk_put hs ht rfl rfl (fun _ _ h => h) (fun _ _ => ⟨rfl, rfl⟩) 0 0
      (by simp [OfStage.pins, hpins]) (by simp [OfStage.holds, hholds]) ?_, hs.dirtyOnce, ?_⟩
    · exact ⟨hbusy, rfl, fun _ => rfl, fun _ => rfl, fun _ => rfl⟩
    · exact hs.ids.fill rfl (fun j h => .inr (walking_of_set (by simp) h)) rfl rfl (.inr ⟨rfl, rfl⟩)
        rfl hpriv
  · refine ⟨slotOk_put hs ht rfl rfl (fun _ _ h => h) (fun j hj => ⟨rfl, ?_⟩) 0 1
      (by simp [OfStage.pins, hpins]) (by simp [OfStage.holds, hholds]) ?_, hs.dirtyOnce, ?_⟩
    · simp [OfStage.holds, hj.symm]
    · exact ⟨hbusy, rfl, by simp, fun h => absurd h (Nat.lt_irrefl 0), fun h => absurd h hdirty⟩
    · refine hs.ids.fill rfl (fun j h => ?_) rfl rfl (.inl rfl) rfl hpriv
      rcases List.mem_or_eq_of_mem_set h with h | h
      · exact .inr h
      · exact .inl (OfStage.walking.inj h)

theorem Inv.claimClose (hs : s.Inv) (ht : s.threads[t]? = some st)
    (hst : ∀ j, st.pins j = false ∧ st.holds j = false)
    (hst' : ∀ j, st'.pins j = false ∧ st'.holds j = decide (i = j)) (hwalk : ∀ j, st' ≠ .walking j)
    (hpriv : (s.slots i).priv = true) (hbusy : (s.slots i).busy = 0) :
    (s.claimClose t st' i).Inv := by
  have hslot := hs.slot i
  have huse := hslot.used hpriv
  have hpins : s.pinCount i = 0 := hslot.busy ▸ hbusy
  have hholds : s.holdCount i = 0 := by simpa [huse, hpriv] using hslot.held
  have hnot : i ∉ s.dirty.erase i := fun h => (List.Nodup.mem_erase_iff hs.dirtyOnce).mp h |>.1 rfl
  refine ⟨slotOk_put hs ht rfl rfl (fun _ _ h => List.mem_of_mem_erase h) (fun j hj => ?_) 0 1
    (by simp [hst, hst', hpins]) (by simp [hst, hst', hholds]) ?_, hs.dirtyOnce.erase i, ?_⟩
  · rw [(hst j).1, (hst j).2, (hst' j).1, (hst' j).2]
    exact ⟨rfl, by simp [hj.symm]⟩
  · exact ⟨hbusy, by simp [huse], by simp, fun h => absurd h (Nat.lt_irrefl 0),
      fun h => absurd h hnot⟩
  · refine hs.ids.close rfl (fun j h => ?_) rfl rfl rfl rfl rfl huse hpriv fun j h => ?_
    · have hj : .walking j ∈ s.threads := walking_of_set hwalk h
      refine ⟨?_, hj⟩
      rintro rfl
      obtain ⟨u, hu⟩ := List.mem_iff_getElem?.mp hj
      have := (hs.held (i := j) hu (by simp [OfStage.holds])).2.1
      rw [hpriv] at this
      cases this
    · exact h.elim (hs.slot j).used hs.inUse_of_walking

theorem Inv.release (hs : s.Inv) (ht : s.threads[t]? = some st)
    (hst : ∀ j, st.pins j = false ∧ st.holds j = decide (i = j)) : (s.release t i).Inv := by
  obtain ⟨huse, hpriv, hholds, hpins, hdirty⟩ := hs.held (i := i) ht (by simp [hst])
  refine ⟨slotOk_put hs ht rfl rfl (fun _ _ h => h) (fun j hj => ?_) 0 0
    (by rw [(hst i).1, hpins]; rfl) (by rw [(hst i).2, hholds]; simp [OfStage.holds]) ?_,
    hs.dirtyOnce, ?_⟩
  · rw [(hst j).1, (hst j).2]
    exact ⟨rfl, by simp [hj.symm, OfStage.holds]⟩
  · refine ⟨(hs.slot i).busy.trans hpins, rfl, fun h => ?_, fun h => absurd h (Nat.lt_irrefl 0),
      fun h => absurd h hdirty⟩
    rw [hpriv] at h
    cases h
  · refine hs.ids.keep rfl (fun j h => walking_of_set (by simp) h) rfl rfl rfl rfl (by simp)
      (fun h => ?_) id
    rw [hpriv] at h
    cases h

theorem Inv.walked (hs : s.Inv) (ht : s.threads[t]? = some (.walking i)) :
    Inv { s.put t .idle i { s.slots i with priv := true } with
      handed := ((s.slots i).openId, i) :: s.handed } := by
  obtain ⟨huse, hpriv, hholds, hpins, hdirty⟩ := hs.held (i := i) ht (by simp [OfStage.holds])
  refine ⟨slotOk_put hs ht rfl rfl (fun _ _ h => h) (fun j hj => ?_) 0 0
    (by simp [OfStage.pins, hpins]) (by simp [OfStage.holds, hholds]) ?_, hs.dirtyOnce, ?_⟩
  · exact ⟨rfl, by simp [hj.symm, OfStage.holds]⟩
  · exact ⟨(hs.slot i).busy.trans hpins, by simp, fun _ => huse, fun _ => rfl, fun _ => rfl⟩
  · have hnot := hs.ids.walking i (List.mem_of_getElem? ht)
    have hkeep : Ids (s.put t .idle i { s.slots i with priv := true }) :=
      hs.ids.keep rfl (fun j h => walking_of_set (by simp) h) rfl rfl rfl rfl id (fun _ => hnot)
        fun _ => rfl
    have hand := hkeep.hand (i := i) (by simpa [OpenFiles.put] using huse) (by simp [OpenFiles.put])
    simpa [OpenFiles.put] using hand

theorem Inv.opBegin (hs : s.Inv) (ht : s.threads[t]? = some .idle)
    (hpriv : (s.slots i).priv = true) :
    (s.put t (.pinned i) i { s.slots i with busy := (s.slots i).busy + 1 }).Inv := by
  have hslot := hs.slot i
  refine ⟨slotOk_put hs ht rfl rfl (fun _ _ h => h) (fun j hj => ?_) (s.pinCount i + 1)
    (s.holdCount i) (by simp [OfStage.pins]) (by simp [OfStage.holds]) ?_, hs.dirtyOnce, ?_⟩
  · exact ⟨by simp [hj.symm, OfStage.pins], rfl⟩
  · exact ⟨congrArg (· + 1) hslot.busy, hslot.held, hslot.used, fun _ => hpriv, hslot.listed⟩
  · exact hs.ids.keep rfl (fun j h => walking_of_set (by simp) h) rfl rfl rfl rfl id
      (fun _ => hs.ids.live i hpriv) id

theorem Inv.opEnd (hs : s.Inv) (ht : s.threads[t]? = some (.pinned i)) :
    (s.put t .idle i { s.slots i with busy := (s.slots i).busy - 1 }).Inv := by
  have hslot := hs.slot i
  obtain ⟨hpriv, hpos⟩ := hs.pin ht
  refine ⟨slotOk_put hs ht rfl rfl (fun _ _ h => h) (fun j hj => ?_) (s.pinCount i - 1)
    (s.holdCount i) (by simp [OfStage.pins]; omega) (by simp [OfStage.holds]) ?_,
    hs.dirtyOnce, ?_⟩
  · exact ⟨by simp [hj.symm, OfStage.pins], rfl⟩
  · exact ⟨congrArg (· - 1) hslot.busy, hslot.held, hslot.used, fun _ => hpriv, hslot.listed⟩
  · exact hs.ids.keep rfl (fun j h => walking_of_set (by simp) h) rfl rfl rfl rfl id
      (fun _ => hs.ids.live i hpriv) id

theorem Inv.setStage (hs : s.Inv) (ht : s.threads[t]? = some st)
    (hst : ∀ j, st.pins j = false ∧ st.holds j = false)
    (hst' : ∀ j, st'.pins j = false ∧ st'.holds j = false) (hwalk : ∀ j, st' ≠ .walking j) :
    Inv { s with threads := s.threads.set t st' } := by
  refine ⟨slotOk_put (i := 0) (x := s.slots 0) hs ht rfl (Function.update_eq_self 0 s.slots).symm
    (fun _ _ h => h) (fun j _ => ?_) (s.pinCount 0) (s.holdCount 0) (by simp [hst, hst'])
    (by simp [hst, hst']) (hs.slot 0), hs.dirtyOnce, ?_⟩
  · rw [(hst j).1, (hst j).2, (hst' j).1, (hst' j).2]
    exact ⟨rfl, rfl⟩
  · exact { hs.ids with walking := fun j h => hs.ids.walking j (walking_of_set hwalk h) }

theorem Inv.closeSection (hs : s.Inv) (ht : s.threads[t]? = some st)
    (hst : ∀ j, st.pins j = false ∧ st.holds j = false) (i : Fid) : (s.closeSection t i).Inv := by
  have hnone (j : Fid) : (OfStage.idle.pins j = false ∧ OfStage.idle.holds j = false) ∧
      (OfStage.draining i).pins j = false ∧ (OfStage.draining i).holds j = false :=
    ⟨⟨rfl, rfl⟩, rfl, rfl⟩
  unfold OpenFiles.closeSection
  simp only
  split
  · exact hs.setStage ht hst (fun j => (hnone j).1) (by simp)
  · next hopen =>
    simp only [Bool.or_eq_true, Bool.not_eq_true', not_or, Bool.not_eq_false] at hopen
    split
    · next hbusy =>
      exact hs.claimClose ht hst (fun j => ⟨rfl, rfl⟩) (by simp) hopen.2 hbusy
    · exact hs.setStage ht hst (fun j => (hnone j).2) (by simp)

theorem inUse_of_firstFree (h : s.firstFree = some i) : (s.slots i).inUse = false := by
  simpa using List.find?_some h

theorem Inv.reclaimScan (hs : s.Inv) (ht : s.threads[t]? = some .idle) (path : Bytes)
    (dead : Nat → Bool) (start : Nat) : (s.reclaimScan t path dead start).Inv := by
  unfold OpenFiles.reclaimScan
  split
  · next i hi =>
    have hfound := List.find?_some hi
    simp only [Bool.and_eq_true, beq_iff_eq] at hfound
    exact hs.claimClose ht (fun _ => ⟨rfl, rfl⟩) (fun j => ⟨rfl, rfl⟩) (by simp) hfound.1.1.2
      hfound.1.2
  · split
    · exact hs
    · next fid hfid => exact hs.fill ht (inUse_of_firstFree hfid) path

theorem Inv.writeback (hs : s.Inv) (still : Fid → Bool) :
    Inv { s with dirty := s.dirty.filter still } :=
  ⟨fun i => { hs.slot i with listed := fun h => (hs.slot i).listed (List.mem_filter.mp h).1 },
    hs.dirtyOnce.filter _, { hs.ids with }⟩

theorem Inv.dirtyAdd (hs : s.Inv) (ht : s.threads[t]? = some (.pinned i)) :
    Inv { s with dirty := if i ∈ s.dirty then s.dirty else i :: s.dirty } := by
  split
  · exact hs
  · next hnot =>
    refine ⟨fun j => { hs.slot j with listed := fun h => ?_ },
      List.nodup_cons.mpr ⟨hnot, hs.dirtyOnce⟩, { hs.ids with }⟩
    rcases List.mem_cons.mp h with rfl | h
    · exact (hs.pin ht).1
    · exact (hs.slot j).listed h

theorem Inv.setOwner (hs : s.Inv) (i : Fid) (task : Nat) :
    Inv { s with slots := Function.update s.slots i { s.slots i with owner := task } } := by
  have hslot := hs.slot i
  refine ⟨fun j => ?_, hs.dirtyOnce,
    hs.ids.keep rfl (fun _ h => h) rfl rfl rfl rfl id (hs.ids.live i) id⟩
  by_cases hj : j = i
  · subst hj
    show SlotOk (Function.update s.slots j _ j) (s.pinCount j) (s.holdCount j) (j ∈ s.dirty)
    rw [Function.update_self]
    exact ⟨hslot.busy, hslot.held, hslot.used, hslot.pinned, hslot.listed⟩
  · show SlotOk (Function.update s.slots i _ j) (s.pinCount j) (s.holdCount j) (j ∈ s.dirty)
    rw [Function.update_of_ne hj]
    exact hs.slot j

theorem threads_release (ht : s.threads[t]? = some st) :
    (s.release t i).threads[t]? = some .idle := by
  obtain ⟨hlt, -⟩ := List.getElem?_eq_some_iff.mp ht
  simp [OpenFiles.release, put, hlt]

theorem inv_init (n : Nat) : (init n).Inv := by
  have hcount (p : OfStage → Bool) (hp : p .idle = false) : (init n).threads.countP p = 0 := by
    simp [init, List.countP_replicate, hp]
  refine ⟨fun i => ?_, List.nodup_nil, ?_⟩
  · rw [pinCount, holdCount, hcount _ rfl, hcount _ rfl]
    exact ⟨rfl, rfl, by simp [init], fun h => absurd h (Nat.lt_irrefl 0), by simp [init]⟩
  · refine ⟨by simp [init], by simp [init], by simp [init], List.nodup_nil, by simp [init],
      fun i h => ?_, by simp [init]⟩
    cases List.eq_of_mem_replicate h

/-! ## Every interleaving -/

structure Safe (s : OpenFiles) : Prop where
  /-- A pinned slot is open, and no thread fills, flushes or frees its file state. -/
  pinned : ∀ i, 0 < s.pinCount i →
    (s.slots i).inUse = true ∧ (s.slots i).priv = true ∧ s.holdCount i = 0
  /-- A slot that is walked into or flushed is reserved, for one thread. -/
  held : ∀ i, 0 < s.holdCount i →
    (s.slots i).inUse = true ∧ (s.slots i).priv = false ∧ s.holdCount i = 1
  dirty : ∀ i ∈ s.dirty, (s.slots i).inUse = true ∧ (s.slots i).priv = true
  /-- The slot of a fid that was returned and is not closed belongs to that open. -/
  handed : ∀ p ∈ s.handed, p.1 ∉ s.closed →
    (s.slots p.2).inUse = true ∧ (s.slots p.2).priv = true ∧ (s.slots p.2).openId = p.1
  closedOnce : s.closed.Nodup

/-- No operation pins the slot, and nothing but the walk of its own open is in it. -/
def OnlyOpener (s : OpenFiles) (i : Fid) : Prop :=
  s.pinCount i = 0 ∧
    ((s.slots i).priv = true ∧ s.holdCount i = 0 ∨ .walking i ∈ s.threads ∧ s.holdCount i = 1)

theorem Inv.safe (hs : s.Inv) : s.Safe where
  pinned i hpos := by
    have hslot := hs.slot i
    have hpriv := hslot.pinned hpos
    have huse := hslot.used hpriv
    exact ⟨huse, hpriv, by simpa [huse, hpriv] using hslot.held⟩
  held i hpos := by
    obtain ⟨st, hmem, hst⟩ := List.countP_pos_iff.mp hpos
    obtain ⟨t, ht⟩ := List.mem_iff_getElem?.mp hmem
    obtain ⟨huse, hpriv, hholds, -⟩ := hs.held ht hst
    exact ⟨huse, hpriv, hholds⟩
  dirty i hmem := by
    have hpriv := (hs.slot i).listed hmem
    exact ⟨(hs.slot i).used hpriv, hpriv⟩
  handed p hp hnot := by
    obtain ⟨hpriv, hid⟩ := (hs.ids.handed p hp).2 hnot
    exact ⟨(hs.slot p.2).used hpriv, hpriv, hid⟩
  closedOnce := hs.ids.closedOnce

theorem fill_slot (ht : s.threads[t]? = some st) (path : Bytes) :
    ((s.fill t i path).slots i).inUse = true ∧
      ((s.fill t i path).slots i).busy = (s.slots i).busy ∧
      (((s.fill t i path).slots i).priv = true ∨
        ((s.fill t i path).slots i).priv = false ∧ .walking i ∈ (s.fill t i path).threads) := by
  obtain ⟨hlt, -⟩ := List.getElem?_eq_some_iff.mp ht
  unfold OpenFiles.fill
  simp only [put]
  split
  · simp
  · simp [List.mem_set hlt]

theorem Inv.onlyOpener_fill (hs : s.Inv) (ht : s.threads[t]? = some .idle)
    (hfree : (s.slots i).inUse = false) (path : Bytes) : (s.fill t i path).OnlyOpener i := by
  obtain ⟨huse, hbusy, hpriv⟩ := fill_slot (i := i) ht path
  have hnew := (hs.fill ht hfree path).slot i
  have hold : (s.slots i).busy = 0 := (hs.slot i).busy.trans (hs.free hfree).2.1
  refine ⟨hnew.busy.symm.trans (hbusy.trans hold), ?_⟩
  rcases hpriv with hpriv | ⟨hpriv, hwalk⟩
  · exact .inl ⟨hpriv, by simpa [huse, hpriv] using hnew.held⟩
  · exact .inr ⟨hwalk, by simpa [huse, hpriv] using hnew.held⟩

theorem openId_fill (hj : j ≠ i) (path : Bytes) :
    ((s.fill t i path).slots j).openId = (s.slots j).openId := by
  unfold OpenFiles.fill
  simp only [put]
  split <;> simp only [Function.update_of_ne hj]

theorem Inv.fill_reinit (hs : s.Inv) (ht : s.threads[t]? = some .idle) {path : Bytes}
    (hfree : (s.slots i).inUse = false)
    (hj : ((s.fill t i path).slots j).openId ≠ (s.slots j).openId) :
    (s.fill t i path).OnlyOpener j := by
  by_cases hji : j = i
  · subst hji
    exact hs.onlyOpener_fill ht hfree path
  · exact absurd (openId_fill hji path) hj

theorem Inv.reclaimScan_reinit (hs : s.Inv) (ht : s.threads[t]? = some .idle) {path : Bytes}
    {dead : Nat → Bool} {start : Nat}
    (hj : ((s.reclaimScan t path dead start).slots j).openId ≠ (s.slots j).openId) :
    (s.reclaimScan t path dead start).OnlyOpener j := by
  unfold OpenFiles.reclaimScan at hj ⊢
  split at hj
  · exact (hj (openId_update rfl (by rfl) j)).elim
  · split at hj
    · exact absurd rfl hj
    · next fid hfid => exact hs.fill_reinit ht (inUse_of_firstFree hfid) hj

theorem openId_closeSection (i j : Fid) :
    ((s.closeSection t i).slots j).openId = (s.slots j).openId := by
  unfold OpenFiles.closeSection
  simp only
  split
  · rfl
  · split
    · exact openId_update rfl (by rfl) j
    · rfl

theorem Inv.step {e : OfEvent} {s' : OpenFiles} (hs : s.Inv) (hstep : s.step e = some s') :
    s'.Inv ∧ ∀ j, (s'.slots j).openId ≠ (s.slots j).openId → s'.OnlyOpener j := by
  have hidle (j : Fid) : OfStage.idle.pins j = false ∧ OfStage.idle.holds j = false := ⟨rfl, rfl⟩
  cases e <;> simp only [OpenFiles.step] at hstep
  case dsOpen t path dead =>
    split at hstep
    · next ht =>
      split at hstep <;> obtain rfl := Option.some.inj hstep
      · next fid hfid =>
        have hfree := inUse_of_firstFree hfid
        exact ⟨hs.fill ht hfree path, fun j => hs.fill_reinit ht hfree⟩
      · exact ⟨hs.reclaimScan ht path dead 0, fun j => hs.reclaimScan_reinit ht⟩
    · cases hstep
  case reclaimed t dead =>
    split at hstep
    · next i path ht =>
      obtain rfl := Option.some.inj hstep
      have hrel : (s.release t i).Inv := hs.release ht fun _ => ⟨rfl, rfl⟩
      refine ⟨hrel.reclaimScan (threads_release ht) path dead _, fun j hj => ?_⟩
      have hsame : ((s.release t i).slots j).openId = (s.slots j).openId :=
        openId_update rfl (by rfl) j
      exact hrel.reclaimScan_reinit (threads_release ht) (hsame ▸ hj)
    · cases hstep
  case walked t ok =>
    split at hstep
    · next i ht =>
      split at hstep <;> obtain rfl := Option.some.inj hstep
      · exact ⟨hs.walked ht, fun j hj => (hj (openId_update rfl (by rfl) j)).elim⟩
      · exact ⟨hs.release ht fun _ => ⟨rfl, rfl⟩,
          fun j hj => (hj (openId_update rfl (by rfl) j)).elim⟩
    · cases hstep
  case opBegin t i =>
    split at hstep
    · next ht =>
      split at hstep <;> obtain rfl := Option.some.inj hstep
      · next hopen =>
        exact ⟨hs.opBegin ht (Bool.and_eq_true_iff.mp hopen).2,
          fun j hj => (hj (openId_update rfl (by rfl) j)).elim⟩
      · exact ⟨hs, fun j hj => (hj rfl).elim⟩
    · cases hstep
  case dirtyAdd t =>
    split at hstep
    · next i ht =>
      obtain rfl := Option.some.inj hstep
      exact ⟨hs.dirtyAdd ht, fun j hj => (hj rfl).elim⟩
    · cases hstep
  case opEnd t =>
    split at hstep
    · next i ht =>
      obtain rfl := Option.some.inj hstep
      exact ⟨hs.opEnd ht, fun j hj => (hj (openId_update rfl (by rfl) j)).elim⟩
    · cases hstep
  case dsClose t i =>
    split at hstep
    · next ht =>
      obtain rfl := Option.some.inj hstep
      exact ⟨hs.closeSection ht hidle i, fun j hj => (hj (openId_closeSection i j)).elim⟩
    · cases hstep
  case closeRetry t =>
    split at hstep
    · next i ht =>
      obtain rfl := Option.some.inj hstep
      exact ⟨hs.closeSection ht (fun _ => ⟨rfl, rfl⟩) i,
        fun j hj => (hj (openId_closeSection i j)).elim⟩
    · cases hstep
  case closed t =>
    split at hstep
    · next i ht =>
      obtain rfl := Option.some.inj hstep
      exact ⟨hs.release ht fun _ => ⟨rfl, rfl⟩,
        fun j hj => (hj (openId_update rfl (by rfl) j)).elim⟩
    · cases hstep
  case writeback still =>
    obtain rfl := Option.some.inj hstep
    exact ⟨hs.writeback still, fun j hj => (hj rfl).elim⟩
  case setOwner i task =>
    split at hstep <;> obtain rfl := Option.some.inj hstep
    · exact ⟨hs.setOwner i task, fun j hj => (hj (openId_update rfl (by rfl) j)).elim⟩
    · exact ⟨hs, fun j hj => (hj rfl).elim⟩

/-- Over every interleaving of any number of threads, `Safe` holds after every section, and a
section that gives a slot to a new open finds no operation and no close in it. -/
theorem openFiles_safe (n : Nat) (events : List OfEvent) (s : OpenFiles)
    (hrun : runSteps step (init n) events = some s) :
    s.Safe ∧ ∀ e s', s.step e = some s' →
      ∀ i, (s'.slots i).openId ≠ (s.slots i).openId → s'.OnlyOpener i := by
  have hs : s.Inv := runSteps_invariant (fun _ _ _ h hstep => (h.step hstep).1) (inv_init n) hrun
  exact ⟨hs.safe, fun e s' hstep => (hs.step hstep).2⟩

/-- A walk and a clone of the same path in slots `i` and `j`, and a close that waits for a
write and then flushes while the path is opened again. -/
def openWriteClose (i j : Fid) : List OfEvent :=
  [.dsOpen 0 [97] fun _ => false, .walked 0 true, .setOwner i 7,
    .dsOpen 1 [97] fun _ => false, .opBegin 0 i, .dirtyAdd 0, .dsClose 1 i, .opEnd 0,
    .closeRetry 1, .dsOpen 2 [97] fun _ => false, .opBegin 0 j, .dirtyAdd 0]

theorem openFiles_safe_three :
    ∃ s, runSteps step (init 3) (openWriteClose 0 1) = some s ∧
      (s.threads, s.dirty, s.handed, s.closed) =
        ([.pinned 1, .closing 0, .idle], [1], [(3, 2), (2, 1), (1, 0)], [1]) ∧ s.Safe := by
  have hmap : (runSteps step (init 3) (openWriteClose 0 1)).map
      (fun s => (s.threads, s.dirty, s.handed, s.closed)) =
        some ([.pinned 1, .closing 0, .idle], [1], [(3, 2), (2, 1), (1, 0)], [1]) := by
    decide +kernel
  obtain ⟨s, hs, hview⟩ := Option.map_eq_some_iff.mp hmap
  exact ⟨s, hs, hview, (openFiles_safe 3 _ s hs).1⟩

end OpenFiles

end Uros.Ext2
