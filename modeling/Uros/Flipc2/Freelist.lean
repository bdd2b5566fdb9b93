import Mathlib.Data.UInt
import Uros.Foundation.Custody
import Uros.Foundation.Transition

/-!
The free list of a buffer group.

The list is kept inside the slots: `next` links them, and the head is one word of 64 bits with the
index of the first slot below and a version above.  The load of the head, the access to `next` and
the compare-and-swap of `flipc2_bufgroup_alloc` and `flipc2_bufgroup_free` are steps of their own.
A failed swap leads back to the load.
-/

namespace Uros.Flipc2.Freelist

open Uros.Foundation

def slotNone : UInt32 := 0xFFFFFFFF

structure Head where
  index : UInt32
  version : UInt32
  deriving DecidableEq

structure Group where
  slotCount : UInt32
  slotStride : UInt32
  freeHead : Head
  next : ℕ → UInt32

def create (poolSize slotSize : UInt32) : Option Group :=
  if slotSize < 64 ∨ 65536 < slotSize then none
  else if poolSize < 4096 ∨ 16 * 1024 * 1024 < poolSize then none
  else
    let slotStride := (slotSize + 7) &&& ~~~7
    let slotCount := poolSize / slotStride
    if slotCount = 0 then none
    else
      some {
        slotCount
        slotStride
        freeHead := ⟨0, 0⟩
        next := fun i =>
          if i + 1 < slotCount.toNat then UInt32.ofNat (i + 1)
          else if i + 1 = slotCount.toNat then slotNone
          else 0 }

/-- Where a task is inside a call.  The last number of a stage after the load of the head says how
many swaps had succeeded at that time. -/
inductive Stage where
  | idle
  | allocLoaded (old : Head) (time : ℕ)
  | allocRead (old : Head) (nextIdx : UInt32) (time : ℕ)
  | freeing (slot : UInt32)
  | freeLoaded (slot : UInt32) (old : Head) (time : ℕ)
  | freeStored (slot : UInt32) (old : Head) (time : ℕ)

structure Task where
  stage : Stage
  held : List ℕ

structure State where
  group : Group
  tasks : ℕ → Task
  swaps : ℕ

def init (g : Group) : State := ⟨g, fun _ => ⟨.idle, []⟩, 0⟩

inductive Step where
  | allocLoad (t : ℕ)
  | allocNext (t : ℕ)
  | allocSwap (t : ℕ)
  | free (t offset : ℕ)
  | freeLoad (t : ℕ)
  | freeStore (t : ℕ)
  | freeSwap (t : ℕ)
  | pass (t u offset : ℕ)

variable (s : State)

def setTask (t : ℕ) (x : Task) : State := { s with tasks := Function.update s.tasks t x }

def setStage (t : ℕ) (stage : Stage) : State := setTask s t { s.tasks t with stage }

def setHead (h : Head) : State :=
  { s with group := { s.group with freeHead := h }, swaps := s.swaps + 1 }

def giveUp (t offset : ℕ) : State :=
  setTask s t { s.tasks t with held := (s.tasks t).held.erase offset }

def receive (t offset : ℕ) : State :=
  setTask s t { s.tasks t with held := offset :: (s.tasks t).held }

def slotOf (stride : UInt32) (offset : ℕ) : UInt32 := UInt32.ofNat offset / stride

def step : Step → Option State
  | .allocLoad t =>
    match (s.tasks t).stage with
    | .idle =>
      if s.group.freeHead.index = slotNone then some s
      else some (setStage s t (.allocLoaded s.group.freeHead s.swaps))
    | _ => none
  | .allocNext t =>
    match (s.tasks t).stage with
    | .allocLoaded old time =>
      some (setStage s t (.allocRead old (s.group.next old.index.toNat) time))
    | _ => none
  | .allocSwap t =>
    match (s.tasks t).stage with
    | .allocRead old nextIdx _ =>
      if s.group.freeHead = old then
        some (setTask (setHead s ⟨nextIdx, old.version + 1⟩) t
          ⟨.idle, old.index.toNat * s.group.slotStride.toNat :: (s.tasks t).held⟩)
      else some (setStage s t .idle)
    | _ => none
  | .free t offset =>
    match (s.tasks t).stage with
    | .idle =>
      if offset ∈ (s.tasks t).held then
        some (setTask s t
          ⟨.freeing (slotOf s.group.slotStride offset), (s.tasks t).held.erase offset⟩)
      else none
    | _ => none
  | .freeLoad t =>
    match (s.tasks t).stage with
    | .freeing slot => some (setStage s t (.freeLoaded slot s.group.freeHead s.swaps))
    | _ => none
  | .freeStore t =>
    match (s.tasks t).stage with
    | .freeLoaded slot old time =>
      some (setStage
        { s with group.next := Function.update s.group.next slot.toNat old.index } t
        (.freeStored slot old time))
    | _ => none
  | .freeSwap t =>
    match (s.tasks t).stage with
    | .freeStored slot old _ =>
      if s.group.freeHead = old then
        some (setStage (setHead s ⟨slot, old.version + 1⟩) t .idle)
      else some (setStage s t (.freeing slot))
    | _ => none
  | .pass t u offset =>
    if offset ∈ (s.tasks t).held then some (receive (giveUp s t offset) u offset) else none

def Stage.loaded : Stage → Option (Head × ℕ)
  | .allocLoaded old time | .allocRead old _ time => some (old, time)
  | .freeLoaded _ old time | .freeStored _ old time => some (old, time)
  | .idle | .freeing _ => none

/-- Fewer than 2^32 swaps succeed between the load of an operation and its swap. -/
def Timely : Step → Prop
  | .allocSwap t | .freeSwap t =>
    ∀ load ∈ (s.tasks t).stage.loaded, s.swaps - load.2 < 2 ^ 32
  | _ => True

instance Timely.decidable : DecidablePred (Timely s)
  | .allocSwap _ | .freeSwap _ => inferInstanceAs (Decidable (∀ load ∈ Stage.loaded _, _))
  | .allocLoad _ | .allocNext _ | .free _ _ | .freeLoad _ | .freeStore _ | .pass _ _ _ =>
    .isTrue trivial

def Stage.slots : Stage → List ℕ
  | .freeing slot | .freeLoaded slot _ _ | .freeStored slot _ _ => [slot.toNat]
  | .idle | .allocLoaded _ _ | .allocRead _ _ _ => []

def Task.slots (stride : UInt32) (x : Task) : List ℕ :=
  x.stage.slots ++ x.held.map fun offset => (slotOf stride offset).toNat

def Chain (next : ℕ → UInt32) : UInt32 → List ℕ → Prop
  | i, [] => i = slotNone
  | i, a :: l => i.toNat = a ∧ Chain next (next a) l

structure Shared (free : List ℕ) (owner : ℕ → Option ℕ) : Prop where
  chain : Chain s.group.next s.group.freeHead.index free
  custody : Custody s.group.slotCount.toNat free
    (fun t => (s.tasks t).slots s.group.slotStride) owner

def Partition : Prop := ∃ free owner, Shared s free owner

variable {s} {s' : State} {g : Group} {free : List ℕ} {owner : ℕ → Option ℕ} {t : ℕ}

theorem Chain.update {next : ℕ → UInt32} {i : UInt32} {a : ℕ} {x : UInt32} {l : List ℕ}
    (h : Chain next i l) (ha : a ∉ l) : Chain (Function.update next a x) i l := by
  induction l generalizing i with
  | nil => exact h
  | cons b l ih =>
    obtain ⟨hne, hl⟩ := not_or.mp (mt List.mem_cons.mpr ha)
    exact ⟨h.1, by rw [Function.update_of_ne (Ne.symm hne)]; exact ih h.2 hl⟩

theorem Chain.split {next : ℕ → UInt32} {i : UInt32} {l : List ℕ} (h : Chain next i l)
    (hi : i ≠ slotNone) : ∃ rest, l = i.toNat :: rest ∧ Chain next (next i.toNat) rest := by
  cases l with
  | nil => exact absurd h hi
  | cons a l =>
    obtain ⟨rfl, hrest⟩ := h
    exact ⟨l, rfl, hrest⟩

structure Inv (s : State) (free : List ℕ) (owner : ℕ → Option ℕ) : Prop extends
    Shared s free owner where
  version : s.group.freeHead.version = UInt32.ofNat s.swaps
  small : s.group.slotCount.toNat * s.group.slotStride.toNat < 2 ^ 32
  stride : 0 < s.group.slotStride.toNat
  fresh : ∀ t old time, (s.tasks t).stage.loaded = some (old, time) →
    time ≤ s.swaps ∧ old.version = UInt32.ofNat time ∧ (time = s.swaps → s.group.freeHead = old)
  read : ∀ t old nextIdx time, (s.tasks t).stage = .allocRead old nextIdx time →
    time = s.swaps → nextIdx = s.group.next old.index.toNat
  nonempty : ∀ t old, (∃ time, (s.tasks t).stage = .allocLoaded old time) ∨
    (∃ nextIdx time, (s.tasks t).stage = .allocRead old nextIdx time) → old.index ≠ slotNone
  stored : ∀ t slot old time, (s.tasks t).stage = .freeStored slot old time →
    s.group.next slot.toNat = old.index

theorem slot_of_index {i : UInt32} (h : Inv s free owner) (hi : i.toNat < s.group.slotCount.toNat) :
    slotOf s.group.slotStride (i.toNat * s.group.slotStride.toNat) = i := by
  have hlt : i.toNat * s.group.slotStride.toNat < 2 ^ 32 :=
    lt_of_le_of_lt (Nat.mul_le_mul_right _ hi.le) h.small
  apply UInt32.toNat_inj.mp
  rw [slotOf, UInt32.toNat_div, UInt32.toNat_ofNat', Nat.mod_eq_of_lt hlt,
    Nat.mul_div_cancel _ h.stride]

theorem Inv.time_eq (h : Inv s free owner) {old : Head} {time : ℕ}
    (hload : (s.tasks t).stage.loaded = some (old, time)) (hswap : s.group.freeHead = old)
    (htimely : s.swaps - time < 2 ^ 32) : time = s.swaps := by
  obtain ⟨hle, hver, -⟩ := h.fresh t old time hload
  rw [← hswap, h.version] at hver
  have hmod := congrArg UInt32.toNat hver
  rw [UInt32.toNat_ofNat', UInt32.toNat_ofNat'] at hmod
  omega

theorem Inv.move (h : Inv s free owner) {stage : Stage}
    (hslots : stage.slots = (s.tasks t).stage.slots)
    (hfresh : ∀ old time, stage.loaded = some (old, time) →
      time ≤ s.swaps ∧ old.version = UInt32.ofNat time ∧ (time = s.swaps → s.group.freeHead = old))
    (hread : ∀ old nextIdx time, stage = .allocRead old nextIdx time → time = s.swaps →
      nextIdx = s.group.next old.index.toNat)
    (hnonempty : ∀ old, (∃ time, stage = .allocLoaded old time) ∨
      (∃ nextIdx time, stage = .allocRead old nextIdx time) → old.index ≠ slotNone)
    (hstored : ∀ slot old time, stage = .freeStored slot old time →
      s.group.next slot.toNat = old.index) :
    Inv (setStage s t stage) free owner := by
  have hsame : ∀ u, ((setStage s t stage).tasks u).slots s.group.slotStride =
      (s.tasks u).slots s.group.slotStride := by
    intro u
    by_cases hu : u = t
    · subst hu
      simp [setStage, setTask, Task.slots, hslots]
    · simp [setStage, setTask, Function.update_of_ne hu]
  have hstage : ∀ u, ((setStage s t stage).tasks u).stage =
      if u = t then stage else (s.tasks u).stage := by
    intro u
    by_cases hu : u = t
    · subst hu
      simp [setStage, setTask]
    · simp [setStage, setTask, hu]
  refine { h with custody := h.custody.perm fun u => .of_eq (hsame u), fresh := fun u => ?_,
                  read := fun u => ?_, nonempty := fun u => ?_, stored := fun u => ?_ }
  all_goals
    rw [hstage]
    split
  · exact hfresh
  · exact h.fresh u
  · exact hread
  · exact h.read u
  · exact hnonempty
  · exact h.nonempty u
  · exact hstored
  · exact h.stored u

theorem Inv.moveUnloaded (h : Inv s free owner) {stage : Stage}
    (hslots : stage.slots = (s.tasks t).stage.slots) (hload : stage.loaded = none) :
    Inv (setStage s t stage) free owner := by
  refine h.move hslots ?_ ?_ ?_ ?_
  · intro old time h
    rw [hload] at h
    cases h
  · rintro old nextIdx time rfl
    cases hload
  · rintro old (⟨time, rfl⟩ | ⟨nextIdx, time, rfl⟩) <;> cases hload
  · rintro slot old time rfl
    cases hload

theorem Inv.swap (h : Inv s free owner) {head : Head} {x : Task} {free' : List ℕ}
    {owner' : ℕ → Option ℕ} (hidle : x.stage = .idle)
    (hversion : head.version = s.group.freeHead.version + 1)
    (hshared : Shared (setTask (setHead s head) t x) free' owner') :
    Inv (setTask (setHead s head) t x) free' owner' := by
  have hstage : ∀ u, ((setTask (setHead s head) t x).tasks u).stage =
      if u = t then .idle else (s.tasks u).stage := by
    intro u
    by_cases hu : u = t
    · subst hu
      simp [setTask, hidle]
    · simp [setTask, setHead, hu]
  refine { hshared with version := ?_, small := h.small, stride := h.stride, fresh := fun u => ?_,
                        read := fun u => ?_, nonempty := fun u => ?_, stored := fun u => ?_ }
  · show head.version = UInt32.ofNat (s.swaps + 1)
    rw [hversion, h.version, UInt32.ofNat_add]
    rfl
  all_goals
    rw [hstage]
    split
  · exact fun _ _ h => nomatch h
  · intro old time hload
    obtain ⟨hle, hver, -⟩ := h.fresh u old time hload
    exact ⟨Nat.le_succ_of_le hle, hver, fun heq => absurd heq (Nat.ne_of_lt (Nat.lt_succ_of_le hle))⟩
  · exact fun _ _ _ h => nomatch h
  · intro old nextIdx time hread heq
    have hle := (h.fresh u old time (by rw [hread]; rfl)).1
    exact absurd heq (Nat.ne_of_lt (Nat.lt_succ_of_le hle))
  · exact fun _ h => h.elim (fun ⟨_, h⟩ => nomatch h) fun ⟨_, _, h⟩ => nomatch h
  · exact h.nonempty u
  · exact fun _ _ _ h => nomatch h
  · exact h.stored u

theorem tasks_setTask_of_ne {x : Task} {u : ℕ} (hu : u ≠ t) :
    (setTask s t x).tasks u = s.tasks u := Function.update_of_ne hu _ _

theorem slots_setTask {x : Task} : (setTask s t x).tasks t = x := Function.update_self ..

theorem Inv.allocSwap (h : Inv s free owner) {old : Head} {nextIdx : UInt32} {time : ℕ}
    (hstage : (s.tasks t).stage = .allocRead old nextIdx time) (hswap : s.group.freeHead = old)
    (htime : time = s.swaps) :
    ∃ free' owner', Inv (setTask (setHead s ⟨nextIdx, old.version + 1⟩) t
      ⟨.idle, old.index.toNat * s.group.slotStride.toNat :: (s.tasks t).held⟩) free' owner' := by
  have hnonempty := h.nonempty t old (.inr ⟨nextIdx, time, hstage⟩)
  obtain ⟨rest, rfl, hrest⟩ := (hswap ▸ h.chain).split hnonempty
  rw [← h.read t old nextIdx time hstage htime] at hrest
  have hlt := ((h.custody.mem_free _).mp List.mem_cons_self).1
  refine ⟨rest, _, h.swap rfl (by rw [hswap]) ⟨hrest, h.custody.take (t := t) (fun u hu => ?_) ?_⟩⟩
  · rw [tasks_setTask_of_ne hu]
    rfl
  · rw [slots_setTask]
    show List.Perm ((slotOf s.group.slotStride _).toNat :: _) _
    rw [slot_of_index h hlt, Task.slots, hstage]
    exact .refl _

theorem Inv.freeSwap (h : Inv s free owner) {slot : UInt32} {old : Head} {time : ℕ}
    (hstage : (s.tasks t).stage = .freeStored slot old time) (hswap : s.group.freeHead = old) :
    ∃ free' owner', Inv (setStage (setHead s ⟨slot, old.version + 1⟩) t .idle) free' owner' := by
  refine ⟨slot.toNat :: free, _, h.swap rfl (by rw [hswap]) ⟨⟨rfl, ?_⟩,
    h.custody.put (t := t) (fun u hu => ?_) ?_⟩⟩
  · show Chain s.group.next (s.group.next slot.toNat) free
    rw [h.stored t slot old time hstage, ← hswap]
    exact h.chain
  · rw [tasks_setTask_of_ne hu]
    rfl
  · rw [slots_setTask]
    show List.Perm (Task.slots _ (s.tasks t)) _
    rw [Task.slots, hstage]
    exact .refl _

theorem Inv.setNext (h : Inv s free owner) {slot : UInt32} {old : Head} {time : ℕ}
    (hstage : (s.tasks t).stage = .freeLoaded slot old time) :
    Inv { s with group.next := Function.update s.group.next slot.toNat old.index } free owner := by
  have hmine : slot.toNat ∈ (s.tasks t).slots s.group.slotStride := by
    rw [Task.slots, hstage]
    exact List.mem_append_left _ List.mem_cons_self
  have howner := ((h.custody.mem_items t _).mp hmine).2
  have hout : slot.toNat ∉ free := fun hmem => by
    rw [((h.custody.mem_free _).mp hmem).2] at howner
    cases howner
  refine { h with chain := h.chain.update hout, read := fun u old' nextIdx time' hread htime => ?_,
                  stored := fun u slot' old' time' hstored => ?_ }
  · have hhead := (h.fresh u old' time' (by rw [hread]; rfl)).2.2 htime
    obtain ⟨rest, rfl, -⟩ :=
      (hhead ▸ h.chain).split (h.nonempty u old' (.inr ⟨nextIdx, time', hread⟩))
    have hne : old'.index.toNat ≠ slot.toNat := fun heq => hout (heq ▸ List.mem_cons_self)
    rw [h.read u old' nextIdx time' hread htime]
    exact (Function.update_of_ne hne _ _).symm
  · have hne : slot'.toNat ≠ slot.toNat := by
      intro heq
      have hother : slot'.toNat ∈ (s.tasks u).slots s.group.slotStride := by
        rw [Task.slots, hstored]
        exact List.mem_append_left _ List.mem_cons_self
      have hsame := ((h.custody.mem_items u _).mp hother).2
      rw [heq, howner, Option.some.injEq] at hsame
      subst hsame
      rw [hstage] at hstored
      cases hstored
    exact (Function.update_of_ne hne _ _).trans (h.stored u slot' old' time' hstored)

theorem Inv.freeStore (h : Inv s free owner) {slot : UInt32} {old : Head} {time : ℕ}
    (hstage : (s.tasks t).stage = .freeLoaded slot old time) :
    Inv (setStage { s with group.next := Function.update s.group.next slot.toNat old.index } t
      (.freeStored slot old time)) free owner := by
  refine (h.setNext hstage).move (by rw [hstage]; rfl) ?_ (fun _ _ _ h => nomatch h)
    (fun _ h => h.elim (fun ⟨_, h⟩ => nomatch h) fun ⟨_, _, h⟩ => nomatch h) ?_
  · intro old' time' hload
    exact h.fresh t old' time' (by rw [hstage]; exact hload)
  · rintro slot' old' time' ⟨⟩
    exact Function.update_self ..

theorem Inv.hand (h : Inv s free owner) {tasks : ℕ → Task} {owner' : ℕ → Option ℕ}
    (hcustody : Custody s.group.slotCount.toNat free
      (fun t => (tasks t).slots s.group.slotStride) owner')
    (hstage : ∀ u, (tasks u).stage = (s.tasks u).stage ∨ ∃ slot, (tasks u).stage = .freeing slot) :
    Inv { s with tasks := tasks } free owner' := by
  refine { h with custody := hcustody, fresh := fun u => ?_, read := fun u => ?_,
                  nonempty := fun u => ?_, stored := fun u => ?_ }
  all_goals rcases hstage u with hu | ⟨slot, hu⟩ <;> simp only [hu]
  · exact h.fresh u
  · exact fun _ _ h => nomatch h
  · exact h.read u
  · exact fun _ _ _ h => nomatch h
  · exact h.nonempty u
  · exact fun _ h => h.elim (fun ⟨_, h⟩ => nomatch h) fun ⟨_, _, h⟩ => nomatch h
  · exact h.stored u
  · exact fun _ _ _ h => nomatch h

theorem Inv.startFree (h : Inv s free owner) {offset : ℕ} (hidle : (s.tasks t).stage = .idle)
    (hheld : offset ∈ (s.tasks t).held) :
    Inv (setTask s t
      ⟨.freeing (slotOf s.group.slotStride offset), (s.tasks t).held.erase offset⟩) free owner := by
  refine h.hand (h.custody.perm fun u => ?_) fun u => ?_
  · by_cases hu : u = t
    · subst hu
      rw [Function.update_self, Task.slots, Task.slots, hidle]
      exact ((List.perm_cons_erase hheld).map fun o => (slotOf s.group.slotStride o).toNat).symm
    · rw [Function.update_of_ne hu]
  · by_cases hu : u = t
    · subst hu
      exact .inr ⟨_, congrArg Task.stage slots_setTask⟩
    · exact .inl (congrArg Task.stage (tasks_setTask_of_ne hu))

theorem slots_held {stride : UInt32} {x : Task} {offset : ℕ} (hheld : offset ∈ x.held) :
    (x.slots stride).Perm ((slotOf stride offset).toNat ::
      Task.slots stride { x with held := x.held.erase offset }) :=
  (((List.perm_cons_erase hheld).map _).append_left _).trans List.perm_middle

theorem Inv.pass (h : Inv s free owner) {u offset : ℕ} (hheld : offset ∈ (s.tasks t).held) :
    ∃ owner', Inv (receive (giveUp s t offset) u offset) free owner' := by
  have hput : Custody s.group.slotCount.toNat ((slotOf s.group.slotStride offset).toNat :: free)
      (fun v => ((giveUp s t offset).tasks v).slots s.group.slotStride) _ :=
    h.custody.put (t := t) (fun v hv => by rw [giveUp, tasks_setTask_of_ne hv])
      (by rw [giveUp, slots_setTask]; exact slots_held hheld)
  have htake : Custody s.group.slotCount.toNat free
      (fun v => ((receive (giveUp s t offset) u offset).tasks v).slots s.group.slotStride) _ :=
    hput.take (t := u) (fun v hv => by rw [receive, tasks_setTask_of_ne hv])
      (by rw [receive, slots_setTask]; exact List.perm_middle)
  refine ⟨_, h.hand htake fun v => .inl ?_⟩
  show ((receive (giveUp s t offset) u offset).tasks v).stage = (s.tasks v).stage
  by_cases hv : v = u <;> by_cases hvt : v = t <;>
    simp_all [receive, giveUp, setTask, Function.update_apply]

theorem Inv.step (h : Inv s free owner) {e : Step} (htimely : Timely s e)
    (hstep : Freelist.step s e = some s') : ∃ free' owner', Inv s' free' owner' := by
  cases e <;> simp only [Freelist.step] at hstep
  case allocLoad t =>
    split at hstep
    · next hidle =>
      split at hstep
      · cases hstep
        exact ⟨_, _, h⟩
      · next hne =>
        cases hstep
        refine ⟨_, _, h.move (by rw [hidle]; rfl) ?_ (fun _ _ _ h => nomatch h) ?_
          fun _ _ _ h => nomatch h⟩
        · rintro old time ⟨⟩
          exact ⟨le_rfl, h.version, fun _ => rfl⟩
        · rintro old (⟨time, ⟨⟩⟩ | ⟨nextIdx, time, ⟨⟩⟩)
          exact hne
    · cases hstep
  case allocNext t =>
    split at hstep
    · next old time hstage =>
      cases hstep
      refine ⟨_, _, h.move (by rw [hstage]; rfl) ?_ ?_ ?_ fun _ _ _ h => nomatch h⟩
      · intro old' time' hload
        exact h.fresh t old' time' (by rw [hstage]; exact hload)
      · rintro old' nextIdx time' ⟨⟩ -
        rfl
      · rintro old' (⟨time', ⟨⟩⟩ | ⟨nextIdx, time', ⟨⟩⟩)
        exact h.nonempty t old (.inl ⟨time, hstage⟩)
    · cases hstep
  case allocSwap t =>
    split at hstep
    · next old nextIdx time hstage =>
      have hload : (s.tasks t).stage.loaded = some (old, time) := by rw [hstage]; rfl
      split at hstep
      · next hswap =>
        cases hstep
        exact h.allocSwap hstage hswap (h.time_eq hload hswap (htimely _ hload))
      · cases hstep
        exact ⟨_, _, h.moveUnloaded (by rw [hstage]; rfl) rfl⟩
    · cases hstep
  case free t offset =>
    split at hstep
    · next hidle =>
      split at hstep
      · next hheld =>
        cases hstep
        exact ⟨_, _, h.startFree hidle hheld⟩
      · cases hstep
    · cases hstep
  case freeLoad t =>
    split at hstep
    · next slot hstage =>
      cases hstep
      refine ⟨_, _, h.move (by rw [hstage]; rfl) ?_ (fun _ _ _ h => nomatch h)
        (fun _ h => h.elim (fun ⟨_, h⟩ => nomatch h) fun ⟨_, _, h⟩ => nomatch h)
        fun _ _ _ h => nomatch h⟩
      rintro old time ⟨⟩
      exact ⟨le_rfl, h.version, fun _ => rfl⟩
    · cases hstep
  case freeStore t =>
    split at hstep
    · next hstage =>
      cases hstep
      exact ⟨_, _, h.freeStore hstage⟩
    · cases hstep
  case freeSwap t =>
    split at hstep
    · next slot old time hstage =>
      split at hstep
      · next hswap =>
        cases hstep
        exact h.freeSwap hstage hswap
      · cases hstep
        exact ⟨_, _, h.moveUnloaded (by rw [hstage]; rfl) rfl⟩
    · cases hstep
  case pass t u offset =>
    obtain ⟨hheld, hstep⟩ := Option.ite_none_right_eq_some.mp hstep
    cases hstep
    exact ⟨_, h.pass hheld⟩

theorem create_eq_some {poolSize slotSize : UInt32} (h : create poolSize slotSize = some g) :
    g.slotCount.toNat * g.slotStride.toNat < 2 ^ 32 ∧ 0 < g.slotStride.toNat ∧
      0 < g.slotCount.toNat ∧ g.freeHead = ⟨0, 0⟩ ∧
      ∀ i, g.next i = if i + 1 < g.slotCount.toNat then UInt32.ofNat (i + 1)
        else if i + 1 = g.slotCount.toNat then slotNone else 0 := by
  unfold create at h
  split at h
  · cases h
  · split at h
    · cases h
    · dsimp only at h
      split at h
      · cases h
      · next hcount =>
        cases h
        have hpos : (poolSize / ((slotSize + 7) &&& ~~~7)).toNat ≠ 0 :=
          fun hzero => hcount (UInt32.toNat_inj.mp hzero)
        rw [UInt32.toNat_div] at hpos
        refine ⟨?_, ?_, ?_, rfl, fun i => rfl⟩
        · rw [UInt32.toNat_div]
          exact lt_of_le_of_lt (Nat.div_mul_le_self _ _) poolSize.toNat_lt
        · exact Nat.pos_of_ne_zero fun hzero => hpos (by rw [hzero, Nat.div_zero])
        · rw [UInt32.toNat_div]
          exact Nat.pos_of_ne_zero hpos

theorem chain_range {n : ℕ} {next : ℕ → UInt32} (hn : n < 2 ^ 32)
    (hnext : ∀ i, next i = if i + 1 < n then UInt32.ofNat (i + 1)
      else if i + 1 = n then slotNone else 0) (m k : ℕ) (hm : k + m + 1 = n) :
    Chain next (UInt32.ofNat k) (List.range' k (m + 1)) := by
  induction m generalizing k with
  | zero =>
    refine ⟨by rw [UInt32.toNat_ofNat']; omega, ?_⟩
    rw [hnext, if_neg (by omega), if_pos (by omega)]
    rfl
  | succ m ih =>
    refine ⟨by rw [UInt32.toNat_ofNat']; omega, ?_⟩
    rw [hnext, if_pos (by omega)]
    exact ih (k + 1) (by omega)

theorem inv_init {poolSize slotSize : UInt32} (h : create poolSize slotSize = some g) :
    Inv (init g) (List.range g.slotCount.toNat) fun _ => none := by
  obtain ⟨hsmall, hstride, hcount, hhead, hnext⟩ := create_eq_some h
  have hchain := chain_range g.slotCount.toNat_lt hnext (g.slotCount.toNat - 1) 0 (by omega)
  rw [Nat.sub_add_cancel hcount, ← List.range_eq_range'] at hchain
  refine ⟨⟨?_, List.nodup_range, by simp [init], by simp [init, Task.slots, Stage.slots],
    by simp [init, Task.slots, Stage.slots]⟩, ?_, hsmall, hstride, by simp [init, Stage.loaded],
    by simp [init], by simp [init], by simp [init]⟩
  · show Chain g.next g.freeHead.index _
    rw [hhead]
    exact hchain
  · show g.freeHead.version = _
    rw [hhead]
    rfl

/-- At all times every slot is on the free list once or with one task once. -/
theorem bufgroup_partition {poolSize slotSize : UInt32} (hcreate : create poolSize slotSize = some g)
    (steps : List Step) (s' : State) (hmeet : StepsMeet step Timely (init g) steps)
    (hrun : runSteps step (init g) steps = some s') : Partition s' := by
  have hkept : ∀ s e s', (∃ free owner, Inv s free owner) → Timely s e → step s e = some s' →
      ∃ free owner, Inv s' free owner := by
    rintro s e s' ⟨free, owner, h⟩ htimely hstep
    exact h.step htimely hstep
  have hinv := runSteps_invariant_of_guard hkept ⟨_, _, inv_init hcreate⟩ hmeet hrun
  obtain ⟨free, owner, h⟩ := hinv
  exact ⟨free, owner, h.toShared⟩

/-- Two slots: both are taken, the first is handed over and freed while a third task tries to get
one. -/
def twoSlots : List Step :=
  [.allocLoad 0, .allocNext 0, .allocSwap 0, .allocLoad 1, .allocNext 1, .allocSwap 1, .pass 0 2 0,
    .free 2 0, .freeLoad 2, .freeStore 2, .freeSwap 2, .allocLoad 3, .allocNext 3, .free 1 2048,
    .freeLoad 1, .freeStore 1, .freeSwap 1, .allocSwap 3]

theorem bufgroup_partition_two :
    ∃ g s, create 4096 2048 = some g ∧ runSteps step (init g) twoSlots = some s ∧
      s.group.freeHead = ⟨1, 4⟩ ∧ Partition s := by
  have hrun : ((create 4096 2048).bind fun g => (runSteps step (init g) twoSlots).map
      (·.group.freeHead)) = some ⟨1, 4⟩ := by decide +kernel
  have hmeet : ∀ g ∈ create 4096 2048, StepsMeet step Timely (init g) twoSlots := by
    decide +kernel
  obtain ⟨g, hg, hg'⟩ := Option.bind_eq_some_iff.mp hrun
  obtain ⟨s, hs, hhead⟩ := Option.map_eq_some_iff.mp hg'
  exact ⟨g, s, hg, hs, hhead, bufgroup_partition hg twoSlots s (hmeet g hg) hs⟩

end Uros.Flipc2.Freelist
