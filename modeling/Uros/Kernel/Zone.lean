import Mathlib.Data.Int.Notation
import Mathlib.Data.List.Nodup
import Mathlib.Data.List.Perm.Basic
import Mathlib.Data.List.ProdSigma
import Mathlib.Data.List.Range
import Mathlib.Tactic.Common
import Uros.Foundation.Places
import Uros.Foundation.Transition

/-!
The elements of a zone (`kern/zalloc.c`): its free list, the magazines of the CPUs, and the callers.

A step is one section under the zone lock, or one with preemption disabled, of a call of `zalloc`,
`zget`, `zfree` or `zone_enable_magazines`; a thread that is between two of them has a program
counter.  The kernel is built without `ZONE_DEBUG`, which turns the magazines off.  Elements are
addresses; what the VM system answers is part of the step.
-/

namespace Uros.Kernel.Zone

open Uros.Foundation

structure Config where
  elemSize : ℕ
  allocSize : ℕ
  exhaustible : Bool
  expandable : Bool
  collectable : Bool
  noSpl : Bool
  ncpus : ℕ
  deriving DecidableEq, Repr

inductive Pc where
  | idle
  | slow
  | growing
  | grown (success : Bool)
  | getting
  | freeing (elem : ℕ)
  | enabling (idx : ℕ)
  deriving DecidableEq, Repr

structure State where
  free : List ℕ
  count : ℤ
  curSize : ℕ
  maxSize : ℕ
  doingAlloc : Bool
  waiting : Bool
  magIndex : Option ℕ
  magNext : ℕ
  mag : ℕ × ℕ → List ℕ
  pc : ℕ → Pc
  held : List (ℕ × ℕ)
  items : List ℕ

def init (maxSize : ℕ) : State where
  free := []
  count := 0
  curSize := 0
  maxSize := maxSize
  doingAlloc := false
  waiting := false
  magIndex := none
  magNext := 0
  mag := fun _ => []
  pc := fun _ => .idle
  held := []
  items := []

def zmagDepth : ℕ := 15

def zmagDrain : ℕ := zmagDepth / 2

def zmagMaxZones : ℕ := 32

def pageSize : ℕ := 4096

def roundPage (size : ℕ) : ℕ := (size + 4095) / 4096 * 4096

def refill : List ℕ → List ℕ → ℤ → List ℕ × List ℕ × ℤ
  | [], mag, count => ([], mag, count)
  | e :: free, mag, count =>
    if mag.length < zmagDepth then refill free (e :: mag) (count + 1) else (e :: free, mag, count)

def drain : ℕ → List ℕ → List ℕ → ℤ → List ℕ × List ℕ × ℤ
  | n + 1, e :: mag, free, count => drain n mag (e :: free) (count - 1)
  | _, mag, free, count => (mag, free, count)

def cramElems (elemSize base size : ℕ) : List ℕ :=
  (List.range (size / elemSize)).map fun k => base + k * elemSize

variable (c : Config)

/-- A thread gets an element from the free list, whose first it was, and its CPU's magazine is
filled before the zone is unlocked. -/
def deliver (z : State) (t cpu e : ℕ) (rest : List ℕ) : State :=
  let z := { z with free := rest, count := z.count + 1, pc := Function.update z.pc t .idle,
                    held := (t, e) :: z.held }
  match z.magIndex with
  | none => z
  | some i =>
    let r := refill z.free (z.mag (i, cpu)) z.count
    { z with free := r.1, mag := Function.update z.mag (i, cpu) r.2.1, count := r.2.2 }

/-- One round of the loop of `zalloc` under the zone lock.  A thread that waits for another one to
get memory comes back with the same round; `none` is the panic of a zone that may not grow. -/
def lockedRound (z : State) (t cpu : ℕ) : Option State :=
  match z.free with
  | e :: rest => some (deliver z t cpu e rest)
  | [] =>
    if z.doingAlloc then some { z with waiting := true, pc := Function.update z.pc t .slow }
    else if z.curSize + c.elemSize > z.maxSize ∧ c.exhaustible then
      -- zero is returned
      some { z with pc := Function.update z.pc t .idle }
    else if z.curSize + c.elemSize > z.maxSize ∧ ¬ c.expandable then none
    else
      let max := if z.curSize + c.elemSize > z.maxSize then z.maxSize + z.maxSize / 2 else z.maxSize
      some { z with maxSize := max, doingAlloc := true,
                    pc := Function.update z.pc t (if c.collectable then .growing else .getting) }

def zalloc (z : State) (t cpu : ℕ) : State :=
  match z.magIndex with
  | none => { z with pc := Function.update z.pc t .slow }
  | some i =>
    match z.mag (i, cpu) with
    | e :: stash =>
      { z with mag := Function.update z.mag (i, cpu) stash, held := (t, e) :: z.held }
    | [] => { z with pc := Function.update z.pc t .slow }

/-- `kernel_memory_allocate` and, when it succeeds, the section of `zcram`.  The memory that the VM
system hands out is not in use by the zone. -/
def allocate (z : State) (t : ℕ) (poolLow : Bool) : Option ℕ → Option State
  | none => some { z with pc := Function.update z.pc t (.grown false) }
  | some space =>
    let elems := cramElems c.elemSize space (if poolLow then roundPage c.elemSize else c.allocSize)
    if elems.Nodup ∧ ∀ e ∈ elems, e ∉ z.items then
      some { z with free := elems.reverse ++ z.free, curSize := z.curSize + elems.length * c.elemSize,
                    items := elems ++ z.items, pc := Function.update z.pc t (.grown true) }
    else none

def relock (z : State) (t cpu : ℕ) (success : Bool) : Option State :=
  let z := { z with doingAlloc := false, waiting := false }
  if z.free = [] ∧ ¬ success then some { z with pc := Function.update z.pc t .slow }
  else lockedRound c z t cpu

def getSpace (z : State) (t : ℕ) : Option ℕ → Option State
  | none =>
    some { z with doingAlloc := false, waiting := false, pc := Function.update z.pc t .slow }
  | some space =>
    if space ∈ z.items then none
    else some { z with doingAlloc := false, waiting := false, count := z.count + 1,
                       curSize := z.curSize + c.elemSize, pc := Function.update z.pc t .idle,
                       held := (t, space) :: z.held, items := space :: z.items }

def zget (z : State) (t : ℕ) (locked : Bool) : State :=
  match z.free with
  | e :: rest =>
    if c.noSpl && !locked then z
    else { z with free := rest, count := z.count + 1, held := (t, e) :: z.held }
  | [] => z

def zfree (z : State) (t cpu e : ℕ) : State :=
  match z.magIndex with
  | none => { z with pc := Function.update z.pc t (.freeing e) }
  | some i =>
    if (z.mag (i, cpu)).length < zmagDepth then
      { z with mag := Function.update z.mag (i, cpu) (e :: z.mag (i, cpu)),
               held := z.held.erase (t, e) }
    else
      let r := drain zmagDrain (z.mag (i, cpu)) z.free z.count
      { z with mag := Function.update z.mag (i, cpu) r.1, free := e :: r.2.1, count := r.2.2 - 1,
               held := z.held.erase (t, e) }

/-- The locked part of `zfree`: an element of a page or more goes back to the VM system when
memory is low. -/
def zfreeLocked (z : State) (t e : ℕ) (poolLow : Bool) : State :=
  let z := { z with pc := Function.update z.pc t .idle, held := z.held.erase (t, e) }
  if c.elemSize ≥ pageSize ∧ c.noSpl ∧ poolLow then
    { z with count := z.count - 1, curSize := z.curSize - c.elemSize, items := z.items.erase e }
  else { z with free := e :: z.free, count := z.count - 1 }

def enable (z : State) (t : ℕ) : State :=
  if z.magIndex.isSome ∨ zmagMaxZones ≤ z.magNext then z
  else { z with magNext := z.magNext + 1, pc := Function.update z.pc t (.enabling z.magNext) }

def publish (z : State) (t idx : ℕ) : State :=
  { z with mag := fun p => if p.1 = idx ∧ p.2 < c.ncpus then [] else z.mag p,
           magIndex := some idx, pc := Function.update z.pc t .idle }

/-- The sections, with the thread, the CPU it is on, and what it is told from outside. -/
inductive Event where
  | zalloc (t cpu : ℕ)
  | locked (t cpu : ℕ)
  | allocate (t : ℕ) (poolLow : Bool) (space : Option ℕ)
  | relock (t cpu : ℕ)
  | getSpace (t : ℕ) (space : Option ℕ)
  | zget (t : ℕ) (locked : Bool)
  | zfree (t cpu elem : ℕ)
  | zfreeLocked (t : ℕ) (poolLow : Bool)
  | enable (t : ℕ)
  | publish (t : ℕ)
  | otherZone
  | pass (t u elem : ℕ)
  deriving DecidableEq, Repr

/-- A section is taken by a thread that has come to it, on a CPU that exists; callers free and pass
on only what they have. -/
def step (z : State) : Event → Option State
  | .zalloc t cpu => if z.pc t = .idle ∧ cpu < c.ncpus then some (zalloc z t cpu) else none
  | .locked t cpu => if z.pc t = .slow ∧ cpu < c.ncpus then lockedRound c z t cpu else none
  | .allocate t poolLow space => if z.pc t = .growing then allocate c z t poolLow space else none
  | .relock t cpu =>
    match z.pc t with
    | .grown success => if cpu < c.ncpus then relock c z t cpu success else none
    | _ => none
  | .getSpace t space => if z.pc t = .getting then getSpace c z t space else none
  | .zget t locked => if z.pc t = .idle then some (zget c z t locked) else none
  | .zfree t cpu e =>
    if z.pc t = .idle ∧ cpu < c.ncpus ∧ (t, e) ∈ z.held then some (zfree z t cpu e) else none
  | .zfreeLocked t poolLow =>
    match z.pc t with
    | .freeing e => some (zfreeLocked c z t e poolLow)
    | _ => none
  | .enable t => if z.pc t = .idle then some (enable z t) else none
  | .publish t =>
    match z.pc t with
    | .enabling idx => some (publish c z t idx)
    | _ => none
  | .otherZone => if z.magNext < zmagMaxZones then some { z with magNext := z.magNext + 1 } else none
  | .pass t u e =>
    if z.pc t = .idle ∧ (t, e) ∈ z.held then
      some { z with held := (u, e) :: z.held.erase (t, e) }
    else none

/-! ### Where the elements are -/

def places : List (ℕ × ℕ) := List.range zmagMaxZones ×ˢ List.range c.ncpus

def State.stored (z : State) : List ℕ := (places c).flatMap z.mag

def State.heldElems (z : State) : List ℕ := z.held.map Prod.snd

structure Conserved (z : State) : Prop where
  perm : (z.free ++ z.stored c ++ z.heldElems).Perm z.items
  nodup : z.items.Nodup
  count_eq : z.count = z.held.length + (z.stored c).length

structure Inv (z : State) : Prop extends Conserved c z where
  magIndex_lt : ∀ i, z.magIndex = some i → i < z.magNext
  magNext_le : z.magNext ≤ zmagMaxZones
  unused : ∀ i cpu, z.magNext ≤ i → z.mag (i, cpu) = []
  reserved : ∀ t idx, z.pc t = .enabling idx →
    idx < z.magNext ∧ z.magIndex ≠ some idx ∧ ∀ cpu, z.mag (idx, cpu) = []
  reserved_once : ∀ t u idx, z.pc t = .enabling idx → z.pc u = .enabling idx → t = u
  freeing : ∀ t e, z.pc t = .freeing e → (t, e) ∈ z.held

theorem places_nodup : (places c).Nodup := (List.nodup_range).product (List.nodup_range)

theorem mem_places {i cpu : ℕ} : (i, cpu) ∈ places c ↔ i < zmagMaxZones ∧ cpu < c.ncpus := by
  simp [places, List.mem_product]

variable {c} {z z' : State} {t cpu e : ℕ}

theorem stored_split {p : ℕ × ℕ} (hp : p ∈ places c) :
    ∃ rest, (z.stored c).Perm (z.mag p ++ rest) ∧
      ∀ stash, ((places c).flatMap (Function.update z.mag p stash)).Perm (stash ++ rest) := by
  obtain ⟨rest, hrest⟩ := flatMap_update_perm (places_nodup c) hp z.mag
  have hold := hrest (z.mag p)
  rw [Function.update_eq_self] at hold
  exact ⟨rest, hold, hrest⟩

theorem Conserved.move (h : Conserved c z) (hitems : z'.items = z.items)
    (hsame : ∀ a, (z'.free.count a + (z'.stored c).count a + z'.heldElems.count a : ℕ) =
      z.free.count a + (z.stored c).count a + z.heldElems.count a)
    (hcount : z'.count + z'.free.length = z.count + z.free.length) : Conserved c z' := by
  have hperm : (z'.free ++ z'.stored c ++ z'.heldElems).Perm
      (z.free ++ z.stored c ++ z.heldElems) := by
    refine List.perm_iff_count.mpr fun a => ?_
    simp only [List.count_append]
    exact hsame a
  refine ⟨hitems ▸ hperm.trans h.perm, hitems ▸ h.nodup, ?_⟩
  have hlen := hperm.length_eq
  have hold := h.count_eq
  simp only [List.length_append, State.heldElems, List.length_map] at hlen
  omega

theorem refill_spec (free mag : List ℕ) (count : ℤ) :
    ((refill free mag count).1 ++ (refill free mag count).2.1).Perm (free ++ mag) ∧
      (refill free mag count).2.2 + (refill free mag count).1.length = count + free.length := by
  induction free generalizing mag count with
  | nil => exact ⟨.refl _, rfl⟩
  | cons e free ih =>
    unfold refill
    split
    · obtain ⟨hperm, hcount⟩ := ih (e :: mag) (count + 1)
      refine ⟨hperm.trans List.perm_middle, ?_⟩
      rw [hcount, List.length_cons]
      omega
    · exact ⟨.refl _, rfl⟩

theorem drain_spec (n : ℕ) (mag free : List ℕ) (count : ℤ) :
    ((drain n mag free count).2.1 ++ (drain n mag free count).1).Perm (free ++ mag) ∧
      (drain n mag free count).2.2 + (drain n mag free count).2.1.length = count + free.length := by
  induction n generalizing mag free count with
  | zero => exact ⟨.refl _, rfl⟩
  | succ n ih =>
    cases mag with
    | nil => exact ⟨.refl _, rfl⟩
    | cons e mag =>
      obtain ⟨hperm, hcount⟩ := ih mag (e :: free) (count - 1)
      refine ⟨hperm.trans List.perm_middle.symm, ?_⟩
      rw [drain, hcount, List.length_cons]
      omega

theorem Inv.keep (h : Inv c z) (hcons : Conserved c z') (hindex : z'.magIndex = z.magIndex)
    (hnext : z'.magNext = z.magNext)
    (hmag : ∀ p, z'.mag p = z.mag p ∨ z.magIndex = some p.1)
    (hpc : ∀ u, u ≠ t → z'.pc u = z.pc u) (hself : ∀ idx, z'.pc t ≠ .enabling idx)
    (hfreeing : ∀ e, z'.pc t = .freeing e → (t, e) ∈ z'.held)
    (hheld : ∀ u, u ≠ t → ∀ e, (u, e) ∈ z.held → (u, e) ∈ z'.held) : Inv c z' := by
  have hother : ∀ u idx, z'.pc u = .enabling idx → u ≠ t ∧ z.pc u = .enabling idx := by
    intro u idx hu
    have hut : u ≠ t := by
      rintro rfl
      exact hself idx hu
    exact ⟨hut, hpc u hut ▸ hu⟩
  refine ⟨hcons, fun i hi => ?_, hnext ▸ h.magNext_le, fun i cpu hi => ?_, fun u idx hu => ?_,
    fun u v idx hu hv => ?_, fun u e hu => ?_⟩
  · rw [hnext]
    exact h.magIndex_lt i (hindex ▸ hi)
  · rw [hnext] at hi
    rcases hmag (i, cpu) with heq | hidx
    · rw [heq]
      exact h.unused i cpu hi
    · have := h.magIndex_lt i hidx
      omega
  · obtain ⟨hlt, hne, hempty⟩ := h.reserved u idx (hother u idx hu).2
    refine ⟨hnext ▸ hlt, hindex ▸ hne, fun cpu => ?_⟩
    rcases hmag (idx, cpu) with heq | hidx
    · rw [heq]
      exact hempty cpu
    · exact absurd hidx hne
  · exact h.reserved_once u v idx (hother u idx hu).2 (hother v idx hv).2
  · by_cases hut : u = t
    · subst hut
      exact hfreeing e hu
    · exact hheld u hut e (h.freeing u e (hpc u hut ▸ hu))

theorem Inv.mem_places {i : ℕ} (h : Inv c z) (hi : z.magIndex = some i) (hcpu : cpu < c.ncpus) :
    (i, cpu) ∈ places c :=
  (Zone.mem_places c).mpr ⟨(h.magIndex_lt i hi).trans_le h.magNext_le, hcpu⟩

theorem update_mag {i : ℕ} (hi : z.magIndex = some i) (stash : List ℕ) (p : ℕ × ℕ) :
    Function.update z.mag (i, cpu) stash p = z.mag p ∨ z.magIndex = some p.1 := by
  by_cases hp : p = (i, cpu)
  · exact .inr (by rw [hi, hp])
  · exact .inl (Function.update_of_ne hp ..)

theorem Inv.advance (h : Inv c z) {p : Pc} (hpc : ∀ idx, p ≠ .enabling idx)
    (hfree : ∀ e, p = .freeing e → (t, e) ∈ z.held) (doingAlloc waiting : Bool) (maxSize : ℕ) :
    Inv c { z with doingAlloc := doingAlloc, waiting := waiting, maxSize := maxSize,
                   pc := Function.update z.pc t p } := by
  refine h.keep (t := t) (h.toConserved.move rfl (fun _ => rfl) rfl) rfl rfl (fun _ => .inl rfl)
    (fun u hu => Function.update_of_ne hu ..) (fun idx => ?_) (fun e he => ?_) fun _ _ _ hm => hm
  · simpa using hpc idx
  · exact hfree e (by simpa using he)

theorem Inv.deliver {rest : List ℕ} (h : Inv c z) (hfree : z.free = e :: rest)
    (hcpu : cpu < c.ncpus) : Inv c (deliver z t cpu e rest) := by
  unfold Zone.deliver
  cases hi : z.magIndex with
  | none =>
    refine h.keep (t := t) (h.toConserved.move rfl (fun a => ?_) ?_) hi.symm rfl
      (fun _ => .inl rfl) (fun u hu => Function.update_of_ne hu ..) (by simp) (by simp)
      fun _ _ _ hm => List.mem_cons_of_mem _ hm
    · simp only [hfree, State.heldElems, List.map_cons, List.count_cons, State.stored]
      omega
    · simp only [hfree, List.length_cons]
      omega
  | some i =>
    obtain ⟨left, hold, hnew⟩ := stored_split (z := z) (h.mem_places hi hcpu)
    obtain ⟨hperm, hcount⟩ := refill_spec rest (z.mag (i, cpu)) (z.count + 1)
    refine h.keep (t := t) (h.toConserved.move rfl (fun a => ?_) ?_) hi.symm rfl
      (update_mag hi _) (fun u hu => Function.update_of_ne hu ..) (by simp) (by simp)
      fun _ _ _ hm => List.mem_cons_of_mem _ hm
    · have h₁ := hperm.count_eq a
      have h₂ := hold.count_eq a
      have h₃ := (hnew (refill rest (z.mag (i, cpu)) (z.count + 1)).2.1).count_eq a
      simp only [hfree, State.heldElems, List.map_cons, List.count_cons, State.stored,
        List.count_append] at h₁ h₂ h₃ ⊢
      omega
    · simp only [hfree, List.length_cons]
      omega

theorem Inv.lockedRound (h : Inv c z) (hcpu : cpu < c.ncpus)
    (heq : lockedRound c z t cpu = some z') : Inv c z' := by
  unfold Zone.lockedRound at heq
  split at heq
  · rename_i e rest hfree
    obtain rfl := Option.some.inj heq
    exact h.deliver hfree hcpu
  · split_ifs at heq
    all_goals try obtain rfl := Option.some.inj heq
    · exact h.advance (by simp) (by simp) z.doingAlloc true z.maxSize
    · exact h.advance (by simp) (by simp) z.doingAlloc z.waiting z.maxSize
    all_goals exact h.advance (by simp) (by simp) true z.waiting _

theorem Inv.zalloc (h : Inv c z) (hidle : z.pc t = .idle) (hcpu : cpu < c.ncpus) :
    Inv c (zalloc z t cpu) := by
  unfold Zone.zalloc
  split
  · exact h.advance (by simp) (by simp) z.doingAlloc z.waiting z.maxSize
  · rename_i i hi
    split
    · rename_i e stash hmag
      obtain ⟨left, hold, hnew⟩ := stored_split (z := z) (h.mem_places hi hcpu)
      refine h.keep (t := t) (h.toConserved.move rfl (fun a => ?_) rfl) rfl rfl
        (update_mag hi _) (fun _ _ => rfl) (by simp [hidle]) (by simp [hidle])
        fun _ _ _ hm => List.mem_cons_of_mem _ hm
      have h₁ := hold.count_eq a
      have h₂ := (hnew stash).count_eq a
      simp only [State.heldElems, List.map_cons, List.count_cons, State.stored,
        List.count_append, hmag] at h₁ h₂ ⊢
      omega
    · exact h.advance (by simp) (by simp) z.doingAlloc z.waiting z.maxSize

theorem Conserved.add (h : Conserved c z) (elems : List ℕ) (hitems : z'.items = elems ++ z.items)
    (hnodup : elems.Nodup) (hnew : ∀ a ∈ elems, a ∉ z.items)
    (hsame : ∀ a, (z'.free.count a + (z'.stored c).count a + z'.heldElems.count a : ℕ) =
      elems.count a + (z.free.count a + (z.stored c).count a + z.heldElems.count a))
    (hcount : z'.count + z'.free.length = z.count + z.free.length + elems.length) :
    Conserved c z' := by
  have hperm : (z'.free ++ z'.stored c ++ z'.heldElems).Perm
      (elems ++ (z.free ++ z.stored c ++ z.heldElems)) := by
    refine List.perm_iff_count.mpr fun a => ?_
    simp only [List.count_append]
    exact hsame a
  refine ⟨hitems ▸ hperm.trans (h.perm.append_left _), ?_, ?_⟩
  · rw [hitems]
    exact List.nodup_append.mpr ⟨hnodup, h.nodup, fun a ha b hb hab => hnew a ha (hab ▸ hb)⟩
  · have hlen := hperm.length_eq
    have hold := h.count_eq
    simp only [List.length_append, State.heldElems, List.length_map] at hlen
    omega

theorem Inv.allocate {poolLow : Bool} {space : Option ℕ} (h : Inv c z)
    (heq : allocate c z t poolLow space = some z') : Inv c z' := by
  cases space with
  | none =>
    obtain rfl := Option.some.inj heq
    exact h.advance (by simp) (by simp) z.doingAlloc z.waiting z.maxSize
  | some space =>
    simp only [Zone.allocate] at heq
    generalize cramElems c.elemSize space _ = elems at heq
    split_ifs at heq with hnew
    obtain rfl := Option.some.inj heq
    refine h.keep (t := t) (h.toConserved.add elems rfl hnew.1 hnew.2 (fun a => ?_) ?_) rfl rfl
      (fun _ => .inl rfl) (fun u hu => Function.update_of_ne hu ..) (by simp) (by simp)
      fun _ _ _ hm => hm
    · simp only [List.count_append, List.count_reverse, State.stored, State.heldElems]
      omega
    · simp only [List.length_append, List.length_reverse]
      omega

theorem Inv.relock {success : Bool} (h : Inv c z) (hcpu : cpu < c.ncpus)
    (hpc : z.pc t = .grown success) (heq : relock c z t cpu success = some z') : Inv c z' := by
  simp only [Zone.relock] at heq
  split_ifs at heq
  · obtain rfl := Option.some.inj heq
    exact h.advance (by simp) (by simp) false false z.maxSize
  · refine Inv.lockedRound ?_ hcpu heq
    have hsame : Function.update z.pc t (.grown success) = z.pc := by
      rw [← hpc, Function.update_eq_self]
    have := h.advance (t := t) (p := .grown success) (by simp) (by simp) false false z.maxSize
    rwa [hsame] at this

theorem Inv.getSpace {space : Option ℕ} (h : Inv c z) (heq : getSpace c z t space = some z') :
    Inv c z' := by
  cases space with
  | none =>
    obtain rfl := Option.some.inj heq
    exact h.advance (by simp) (by simp) false false z.maxSize
  | some space =>
    simp only [Zone.getSpace] at heq
    split_ifs at heq with hnew
    obtain rfl := Option.some.inj heq
    refine h.keep (t := t) (h.toConserved.add [space] rfl (List.nodup_singleton _)
      (by simpa using hnew) (fun a => ?_) ?_) rfl rfl (fun _ => .inl rfl)
      (fun u hu => Function.update_of_ne hu ..) (by simp) (by simp)
      fun _ _ _ hm => List.mem_cons_of_mem _ hm
    · simp only [List.count_cons, List.count_nil, State.stored, State.heldElems, List.map_cons]
      omega
    · simp only [List.length_cons, List.length_nil]
      omega

theorem Inv.zget {locked : Bool} (h : Inv c z) (hidle : z.pc t = .idle) :
    Inv c (zget c z t locked) := by
  unfold Zone.zget
  split
  · rename_i e rest hfree
    split_ifs
    · exact h
    · refine h.keep (t := t) (h.toConserved.move rfl (fun a => ?_) ?_) rfl rfl
        (fun _ => .inl rfl) (fun _ _ => rfl) (by simp [hidle]) (by simp [hidle])
        fun _ _ _ hm => List.mem_cons_of_mem _ hm
      · simp only [hfree, State.heldElems, List.map_cons, List.count_cons, State.stored]
        omega
      · simp only [hfree, List.length_cons]
        omega
  · exact h

theorem count_heldElems_erase (hmem : (t, e) ∈ z.held) (a : ℕ) :
    ((z.held.erase (t, e)).map Prod.snd).count a + (if e = a then 1 else 0) =
      z.heldElems.count a := by
  have hperm := ((List.perm_cons_erase hmem).map Prod.snd).count_eq a
  simp only [List.map_cons, List.count_cons, beq_iff_eq] at hperm
  exact hperm.symm

theorem mem_erase_of_ne {u : ℕ} (hu : u ≠ t) {a : ℕ} (hmem : (u, a) ∈ z.held) :
    (u, a) ∈ z.held.erase (t, e) :=
  (List.mem_erase_of_ne fun heq => hu (congrArg Prod.fst heq)).mpr hmem

theorem Inv.zfree (h : Inv c z) (hidle : z.pc t = .idle) (hcpu : cpu < c.ncpus)
    (hmem : (t, e) ∈ z.held) : Inv c (zfree z t cpu e) := by
  unfold Zone.zfree
  split
  · refine h.advance (by simp) (fun a ha => ?_) z.doingAlloc z.waiting z.maxSize
    obtain rfl := Pc.freeing.inj ha
    exact hmem
  · rename_i i hi
    obtain ⟨left, hold, hnew⟩ := stored_split (z := z) (h.mem_places hi hcpu)
    split
    · refine h.keep (t := t) (h.toConserved.move rfl (fun a => ?_) rfl) rfl rfl
        (update_mag hi _) (fun _ _ => rfl) (by simp [hidle]) (by simp [hidle])
        fun _ hu _ hm => mem_erase_of_ne hu hm
      have h₁ := hold.count_eq a
      have h₂ := (hnew (e :: z.mag (i, cpu))).count_eq a
      have h₃ := count_heldElems_erase hmem a
      simp only [State.heldElems, List.count_cons, State.stored, beq_iff_eq, List.cons_append,
        List.count_append] at h₁ h₂ h₃ ⊢
      omega
    · obtain ⟨hperm, hcount⟩ := drain_spec zmagDrain (z.mag (i, cpu)) z.free z.count
      refine h.keep (t := t) (h.toConserved.move rfl (fun a => ?_) ?_) rfl rfl
        (update_mag hi _) (fun _ _ => rfl) (by simp [hidle]) (by simp [hidle])
        fun _ hu _ hm => mem_erase_of_ne hu hm
      · have h₁ := hold.count_eq a
        have h₂ := (hnew (drain zmagDrain (z.mag (i, cpu)) z.free z.count).1).count_eq a
        have h₃ := count_heldElems_erase hmem a
        have h₄ := hperm.count_eq a
        simp only [State.heldElems, List.count_cons, State.stored, beq_iff_eq,
          List.count_append] at h₁ h₂ h₃ h₄ ⊢
        omega
      · simp only [List.length_cons]
        omega

theorem Conserved.remove (h : Conserved c z) (hmem : (t, e) ∈ z.held)
    (hitems : z'.items = z.items.erase e) (hfree : z'.free = z.free) (hmag : z'.mag = z.mag)
    (hheld : z'.held = z.held.erase (t, e)) (hcount : z'.count = z.count - 1) :
    Conserved c z' := by
  have hin : e ∈ z.items :=
    h.perm.mem_iff.mp (List.mem_append_right _ (List.mem_map.mpr ⟨_, hmem, rfl⟩))
  refine ⟨?_, hitems ▸ h.nodup.erase e, ?_⟩
  · refine List.perm_iff_count.mpr fun a => ?_
    have h₁ := h.perm.count_eq a
    have h₂ := (List.perm_cons_erase hin).count_eq a
    have h₃ := count_heldElems_erase hmem a
    simp only [State.heldElems, State.stored, hitems, hfree, hmag, hheld, List.count_append,
      List.count_cons, beq_iff_eq] at h₁ h₂ h₃ ⊢
    omega
  · have hlen := List.length_erase_of_mem hmem
    have hpos := List.length_pos_of_mem hmem
    have hold := h.count_eq
    simp only [State.stored, hmag, hheld, hlen] at hold ⊢
    omega

theorem Inv.zfreeLocked {poolLow : Bool} (h : Inv c z) (hpc : z.pc t = .freeing e) :
    Inv c (zfreeLocked c z t e poolLow) := by
  have hmem := h.freeing t e hpc
  unfold Zone.zfreeLocked
  split_ifs
  · exact h.keep (t := t) (h.toConserved.remove hmem rfl rfl rfl rfl rfl) rfl rfl
      (fun _ => .inl rfl) (fun u hu => Function.update_of_ne hu ..) (by simp) (by simp)
      fun _ hu _ hm => mem_erase_of_ne hu hm
  · refine h.keep (t := t) (h.toConserved.move rfl (fun a => ?_) ?_) rfl rfl (fun _ => .inl rfl)
      (fun u hu => Function.update_of_ne hu ..) (by simp) (by simp)
      fun _ hu _ hm => mem_erase_of_ne hu hm
    · have h₁ := count_heldElems_erase hmem a
      simp only [State.heldElems, List.count_cons, State.stored, beq_iff_eq] at h₁ ⊢
      omega
    · simp only [List.length_cons]
      omega

theorem Inv.enable (h : Inv c z) : Inv c (enable z t) := by
  unfold Zone.enable
  split_ifs with hno
  · exact h
  simp only [not_or, Nat.not_le] at hno
  have hfresh : ∀ u, z.pc u ≠ .enabling z.magNext := fun u hu => by
    have := (h.reserved u _ hu).1
    omega
  refine ⟨h.toConserved.move rfl (fun _ => rfl) rfl, fun i hi => ?_, hno.2, fun i cpu hi => ?_,
    fun u idx hu => ?_, fun u v idx hu hv => ?_, fun u e hu => ?_⟩
  · exact (h.magIndex_lt i hi).trans (Nat.lt_succ_self _)
  · exact h.unused i cpu (Nat.le_of_succ_le hi)
  · by_cases hut : u = t
    · simp only [hut, Function.update_self, Pc.enabling.injEq] at hu
      exact ⟨hu ▸ Nat.lt_succ_self _, fun hidx => hno.1 (Option.isSome_iff_exists.mpr ⟨_, hidx⟩),
        fun cpu => h.unused idx cpu hu.le⟩
    · simp only [Function.update_of_ne hut] at hu
      obtain ⟨hlt, hrest⟩ := h.reserved u idx hu
      exact ⟨hlt.trans (Nat.lt_succ_self _), hrest⟩
  · by_cases hut : u = t <;> by_cases hvt : v = t
    · rw [hut, hvt]
    · simp only [hut, Function.update_self, Pc.enabling.injEq] at hu
      simp only [Function.update_of_ne hvt] at hv
      exact absurd (hu ▸ hv) (hfresh v)
    · simp only [hvt, Function.update_self, Pc.enabling.injEq] at hv
      simp only [Function.update_of_ne hut] at hu
      exact absurd (hv ▸ hu) (hfresh u)
    · simp only [Function.update_of_ne hut] at hu
      simp only [Function.update_of_ne hvt] at hv
      exact h.reserved_once u v idx hu hv
  · by_cases hut : u = t
    · simp [hut] at hu
    · simp only [Function.update_of_ne hut] at hu
      exact h.freeing u e hu

theorem Inv.publish {idx : ℕ} (h : Inv c z) (hpc : z.pc t = .enabling idx) :
    Inv c (publish c z t idx) := by
  obtain ⟨hlt, hne, hempty⟩ := h.reserved t idx hpc
  -- the slot is this thread's own, so emptying its magazines loses nothing
  have hmag : (fun p : ℕ × ℕ => if p.1 = idx ∧ p.2 < c.ncpus then [] else z.mag p) = z.mag := by
    funext p
    split_ifs with hp
    · have := hempty p.2
      rw [← hp.1] at this
      exact this.symm
    · rfl
  unfold Zone.publish
  rw [hmag]
  have hold : ∀ u i, Function.update z.pc t Pc.idle u = .enabling i →
      u ≠ t ∧ z.pc u = .enabling i := fun u i hu => by
    by_cases hut : u = t
    · simp [hut] at hu
    · exact ⟨hut, by rwa [Function.update_of_ne hut] at hu⟩
  refine ⟨h.toConserved.move rfl (fun _ => rfl) rfl, fun i hi => ?_, h.magNext_le, h.unused,
    fun u i hu => ?_, fun u v i hu hv => ?_, fun u e hu => ?_⟩
  · obtain rfl := Option.some.inj hi
    exact hlt
  · obtain ⟨hut, hu'⟩ := hold u i hu
    obtain ⟨hlt', -, hempty'⟩ := h.reserved u i hu'
    refine ⟨hlt', fun hi => hut ?_, hempty'⟩
    obtain rfl := Option.some.inj hi
    exact h.reserved_once u t _ hu' hpc
  · exact h.reserved_once u v i (hold u i hu).2 (hold v i hv).2
  · by_cases hut : u = t
    · simp [hut] at hu
    · simp only [Function.update_of_ne hut] at hu
      exact h.freeing u e hu

theorem Inv.otherZone (h : Inv c z) (hlt : z.magNext < zmagMaxZones) :
    Inv c { z with magNext := z.magNext + 1 } := by
  refine ⟨h.toConserved.move rfl (fun _ => rfl) rfl, fun i hi => ?_, hlt, fun i cpu hi => ?_,
    fun u idx hu => ?_, h.reserved_once, h.freeing⟩
  · exact (h.magIndex_lt i hi).trans (Nat.lt_succ_self _)
  · exact h.unused i cpu (Nat.le_of_succ_le hi)
  · obtain ⟨hidx, hrest⟩ := h.reserved u idx hu
    exact ⟨hidx.trans (Nat.lt_succ_self _), hrest⟩

theorem Inv.pass {u : ℕ} (h : Inv c z) (hidle : z.pc t = .idle) (hmem : (t, e) ∈ z.held) :
    Inv c { z with held := (u, e) :: z.held.erase (t, e) } := by
  refine h.keep (t := t) (h.toConserved.move rfl (fun a => ?_) rfl) rfl rfl (fun _ => .inl rfl)
    (fun _ _ => rfl) (by simp [hidle]) (by simp [hidle])
    fun _ hv _ hm => List.mem_cons_of_mem _ (mem_erase_of_ne hv hm)
  have h₁ := count_heldElems_erase hmem a
  simp only [State.heldElems, List.map_cons, List.count_cons, State.stored, beq_iff_eq] at h₁ ⊢
  omega

theorem Inv.init (maxSize : ℕ) : Inv c (init maxSize) := by
  have hstored : (Zone.init maxSize).stored c = [] := by simp [State.stored, Zone.init]
  refine ⟨⟨?_, List.nodup_nil, ?_⟩, by simp [Zone.init], Nat.zero_le _, fun _ _ _ => rfl,
    by simp [Zone.init], by simp [Zone.init], by simp [Zone.init]⟩
  · rw [hstored]
    exact .refl _
  · rw [hstored]
    rfl

theorem Inv.step {event : Event} (h : Inv c z) (heq : step c z event = some z') : Inv c z' := by
  cases event with
  | zalloc t cpu =>
    simp only [Zone.step] at heq
    split_ifs at heq with hg
    exact Option.some.inj heq ▸ h.zalloc hg.1 hg.2
  | locked t cpu =>
    simp only [Zone.step] at heq
    split_ifs at heq with hg
    exact h.lockedRound hg.2 heq
  | allocate t poolLow space =>
    simp only [Zone.step] at heq
    split_ifs at heq
    exact h.allocate heq
  | relock t cpu =>
    simp only [Zone.step] at heq
    split at heq
    · rename_i success hpc
      split_ifs at heq with hcpu
      exact h.relock hcpu hpc heq
    · cases heq
  | getSpace t space =>
    simp only [Zone.step] at heq
    split_ifs at heq
    exact h.getSpace heq
  | zget t locked =>
    simp only [Zone.step] at heq
    split_ifs at heq with hg
    exact Option.some.inj heq ▸ h.zget hg
  | zfree t cpu e =>
    simp only [Zone.step] at heq
    split_ifs at heq with hg
    exact Option.some.inj heq ▸ h.zfree hg.1 hg.2.1 hg.2.2
  | zfreeLocked t poolLow =>
    simp only [Zone.step] at heq
    split at heq
    · rename_i e hpc
      exact Option.some.inj heq ▸ h.zfreeLocked hpc
    · cases heq
  | enable t =>
    simp only [Zone.step] at heq
    split_ifs at heq
    exact Option.some.inj heq ▸ h.enable
  | publish t =>
    simp only [Zone.step] at heq
    split at heq
    · rename_i idx hpc
      exact Option.some.inj heq ▸ h.publish hpc
    · cases heq
  | otherZone =>
    simp only [Zone.step] at heq
    split_ifs at heq with hg
    exact Option.some.inj heq ▸ h.otherZone hg
  | pass t u e =>
    simp only [Zone.step] at heq
    split_ifs at heq with hg
    exact Option.some.inj heq ▸ h.pass hg.1 hg.2

/-! ### Who gets an element -/

inductive HeldStep (z z' : State) : Prop where
  | same (h : z'.held = z.held)
  | gain (p : ℕ × ℕ) (h : z'.held = p :: z.held)
  | lose (p : ℕ × ℕ) (h : z'.held = z.held.erase p)

theorem deliver_held {rest : List ℕ} : HeldStep z (deliver z t cpu e rest) := by
  unfold deliver
  dsimp only
  split
  · exact .gain (t, e) rfl
  · exact .gain (t, e) rfl

theorem lockedRound_held (heq : lockedRound c z t cpu = some z') : HeldStep z z' := by
  unfold lockedRound at heq
  split at heq
  · exact Option.some.inj heq ▸ deliver_held
  · split_ifs at heq
    all_goals exact .same (Option.some.inj heq ▸ rfl)

theorem step_held {event : Event} (heq : step c z event = some z')
    (hpass : ∀ t u e, event ≠ .pass t u e) : HeldStep z z' := by
  cases event with
  | zalloc t cpu =>
    simp only [step, zalloc] at heq
    split_ifs at heq
    obtain rfl := Option.some.inj heq
    split
    · exact .same rfl
    · split
      · exact .gain _ rfl
      · exact .same rfl
  | locked t cpu =>
    simp only [step] at heq
    split_ifs at heq
    exact lockedRound_held heq
  | allocate t poolLow space =>
    cases space <;> simp only [step, allocate] at heq <;> split_ifs at heq
    all_goals exact .same (Option.some.inj heq ▸ rfl)
  | relock t cpu =>
    simp only [step] at heq
    split at heq
    · split_ifs at heq
      simp only [relock] at heq
      split_ifs at heq
      · exact .same (Option.some.inj heq ▸ rfl)
      · cases lockedRound_held heq with
        | same h => exact .same h
        | gain p h => exact .gain p h
        | lose p h => exact .lose p h
    · cases heq
  | getSpace t space =>
    cases space <;> simp only [step, getSpace] at heq <;> split_ifs at heq
    · exact .same (Option.some.inj heq ▸ rfl)
    · obtain rfl := Option.some.inj heq
      exact .gain _ rfl
  | zget t locked =>
    simp only [step] at heq
    split_ifs at heq
    obtain rfl := Option.some.inj heq
    unfold zget
    split
    · split_ifs
      · exact .same rfl
      · exact .gain _ rfl
    · exact .same rfl
  | zfree t cpu e =>
    simp only [step, zfree] at heq
    split_ifs at heq
    obtain rfl := Option.some.inj heq
    split
    · exact .same rfl
    · split_ifs
      · exact .lose _ rfl
      · exact .lose _ rfl
  | zfreeLocked t poolLow =>
    simp only [step, zfreeLocked] at heq
    split at heq
    · obtain rfl := Option.some.inj heq
      split_ifs
      · exact .lose _ rfl
      · exact .lose _ rfl
    · cases heq
  | enable t =>
    simp only [step, enable] at heq
    split_ifs at heq
    all_goals exact .same (Option.some.inj heq ▸ rfl)
  | publish t =>
    simp only [step, publish] at heq
    split at heq
    · exact .same (Option.some.inj heq ▸ rfl)
    · cases heq
  | otherZone =>
    simp only [step] at heq
    split_ifs at heq
    exact .same (Option.some.inj heq ▸ rfl)
  | pass t u e => exact absurd rfl (hpass t u e)

theorem Conserved.heldElems_nodup (h : Conserved c z) : z.heldElems.Nodup :=
  ((h.perm.nodup_iff.mpr h.nodup).of_append_right)

theorem Inv.handed {event : Event} {u : ℕ} (h : Inv c z) (heq : Zone.step c z event = some z')
    (hpass : ∀ t u e, event ≠ .pass t u e) (hnew : (u, e) ∈ z'.held) (hold : (u, e) ∉ z.held)
    (v : ℕ) : (v, e) ∉ z.held := by
  intro hv
  cases step_held heq hpass with
  | same hsame => exact hold (hsame ▸ hnew)
  | lose p hlose => exact hold (List.mem_of_mem_erase (hlose ▸ hnew))
  | gain p hgain =>
    have hp : (u, e) = p := (List.mem_cons.mp (hgain ▸ hnew)).resolve_right hold
    have hnodup := (h.step heq).toConserved.heldElems_nodup
    rw [State.heldElems, hgain, ← hp, List.map_cons, List.nodup_cons] at hnodup
    exact hnodup.1 (List.mem_map.mpr ⟨(v, e), hv, rfl⟩)

def smallConfig : Config := ⟨64, 256, false, true, true, true, 2⟩

/-- Magazines are turned on, thread 1 makes the zone grow and fills the magazine of CPU 0, from
which thread 2 allocates; thread 1 frees on CPU 1. -/
def smallRun : List Event :=
  [.enable 0, .publish 0, .zalloc 1 0, .locked 1 0, .allocate 1 false (some 4096), .relock 1 0,
    .zalloc 2 0, .zfree 1 1 4288]

end Uros.Kernel.Zone
