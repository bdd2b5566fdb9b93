import Mathlib.Data.List.Pairwise
import Uros.Foundation.Transition
import Uros.Netname.Registry

/-!
What the registry keeps of a dead server.

`do_mach_notify_dead_name` drops the names and the port record of the dead port and
leaves the mounts alone.  The invariant ties the lists together: every port that a lookup
may hand out has a record.
-/

namespace Uros.Netname

open Uros.Foundation

def Known (s : Registry) (p : Port) : Prop := p.valid → ∃ r ∈ s.ports, r.port = p

structure Inv (s : Registry) : Prop where
  name : ∀ r ∈ s.names, Known s r.name
  mount : ∀ m ∈ s.mounts, Known s m.port
  keys : s.names.Pairwise fun r r' => r.key ≠ r'.key

theorem inv_init : Inv init :=
  ⟨fun _ h => absurd h List.not_mem_nil, fun _ h => absurd h List.not_mem_nil, .nil⟩

theorem known_relink {records : List PortRecord} {p q : Port} {urefs : Nat}
    (h : q ≠ p → ∃ r ∈ records, r.port = q) :
    ∃ r ∈ (⟨p, urefs⟩ : PortRecord) :: records.eraseP (·.port = p), r.port = q := by
  by_cases hq : q = p
  · exact ⟨⟨p, urefs⟩, List.mem_cons_self, hq.symm⟩
  · obtain ⟨r, hr, hport⟩ := h hq
    have hkept : r ∈ records.eraseP (·.port = p) := by
      rwa [List.mem_eraseP_of_neg (by simpa [hport] using hq)]
    exact ⟨r, List.mem_cons_of_mem _ hkept, hport⟩

namespace Registry

variable (s : Registry)

@[simp] theorem addReference_names (p : Port) : (s.addReference p).names = s.names := by
  unfold addReference
  split
  · rfl
  · split <;> rfl

@[simp] theorem addReference_mounts (p : Port) : (s.addReference p).mounts = s.mounts := by
  unfold addReference
  split
  · rfl
  · split <;> rfl

@[simp] theorem notifyWatchersFor_names (key : NetName) (p : Port) :
    (s.notifyWatchersFor key p).names = s.names := rfl

@[simp] theorem notifyWatchersFor_mounts (key : NetName) (p : Port) :
    (s.notifyWatchersFor key p).mounts = s.mounts := rfl

end Registry

variable {s s' : Registry} {p q : Port}

theorem known_addReference (p : Port) (h : Known s q) : Known (s.addReference p) q := by
  intro hvalid
  unfold Registry.addReference
  split
  · exact h hvalid
  · split
    · exact known_relink fun _ => h hvalid
    · obtain ⟨r, hr, hport⟩ := h hvalid
      exact ⟨r, List.mem_cons_of_mem _ hr, hport⟩

theorem known_addReference_self (s : Registry) (p : Port) : Known (s.addReference p) p := by
  intro hvalid
  unfold Registry.addReference
  rw [if_neg (by simp [hvalid])]
  split
  · exact known_relink fun hne => absurd rfl hne
  · exact ⟨_, List.mem_cons_self, rfl⟩

theorem subReference_known (h : Known s p) :
    ∃ s', s.subReference p = some s' ∧ s'.names = s.names ∧ s'.mounts = s.mounts ∧
      ∀ q, Known s q → Known s' q := by
  unfold Registry.subReference
  by_cases hvalid : p.valid
  · obtain ⟨r, hr, hport⟩ := h hvalid
    rw [if_neg (by simp [hvalid])]
    cases hfind : s.ports.find? (·.port = p) with
    | none => simpa [hport] using List.find?_eq_none.mp hfind r hr
    | some this =>
      refine ⟨_, rfl, rfl, rfl, fun q hq hqvalid => ?_⟩
      exact known_relink fun _ => hq hqvalid
  · rw [if_pos (by simpa using hvalid)]
    exact ⟨s, rfl, rfl, rfl, fun _ h => h⟩

theorem subReference_some (h : s.subReference p = some s') :
    s'.names = s.names ∧ s'.mounts = s.mounts ∧ ∀ q, Known s q → Known s' q := by
  unfold Registry.subReference at h
  split at h
  · cases h
    exact ⟨rfl, rfl, fun _ h => h⟩
  · split at h
    · cases h
      exact ⟨rfl, rfl, fun q hq hqvalid => known_relink fun _ => hq hqvalid⟩
    · cases h

def Event.registers : Event → Port → Prop
  | .request (.checkIn _ _ name _), p => name = p
  | .request (.checkInMount _ _ port _), p => port = p
  | _, _ => False

def Event.checksIn : Event → NetName → Prop
  | .request (.checkIn key _ _ _), k => key = k
  | _, _ => False

def Event.checksInMount : Event → NetName → Prop
  | .request (.checkInMount pre _ _ _), k => pre = k
  | _, _ => False

/-- What every event but a dead-name notification does to the lists: new records are those
checked in, and no port record goes. -/
structure Kept (s : Registry) (e : Event) (s' : Registry) : Prop where
  names : ∀ r ∈ s'.names, r ∈ s.names ∨ (e.checksIn r.key ∧ e.registers r.name ∧ Known s' r.name)
  mounts : ∀ m ∈ s'.mounts,
    m ∈ s.mounts ∨ (e.checksInMount m.mountPrefix ∧ e.registers m.port ∧ Known s' m.port)
  known : ∀ q, Known s q → Known s' q
  keys : s.names.Pairwise (fun r r' => r.key ≠ r'.key) →
    s'.names.Pairwise fun r r' => r.key ≠ r'.key

theorem Kept.same {e : Event} (hnames : s'.names = s.names) (hmounts : s'.mounts = s.mounts)
    (hknown : ∀ q, Known s q → Known s' q) : Kept s e s' :=
  ⟨fun _ hr => .inl (hnames ▸ hr), fun _ hm => .inl (hmounts ▸ hm), hknown, fun h => hnames ▸ h⟩

theorem pairwise_toFront {names : List NameRecord} {this : NameRecord}
    (h : names.Pairwise fun r r' => r.key ≠ r'.key) :
    (this :: names.eraseP (·.key = this.key)).Pairwise fun r r' => r.key ≠ r'.key := by
  rw [List.pairwise_cons]
  refine ⟨?_, h.sublist List.eraseP_sublist⟩
  induction names with
  | nil => simp
  | cons r names ih =>
    obtain ⟨hr, hrest⟩ := List.pairwise_cons.mp h
    by_cases hkey : r.key = this.key
    · rw [List.eraseP_cons_of_pos (by simpa using hkey)]
      exact fun r' hr' => hkey ▸ hr r' hr'
    · rw [List.eraseP_cons_of_neg (by simpa using hkey)]
      rintro r' (_ | ⟨_, hr'⟩)
      · exact Ne.symm hkey
      · exact ih hrest r' hr'

theorem toFront_kept {key : NetName} {this : NameRecord} {e : Event}
    (hfind : s.names.find? (·.key = key) = some this) : Kept s e (s.toFront this) := by
  refine ⟨?_, fun m hm => .inl hm, fun _ h => h, pairwise_toFront⟩
  rintro r (_ | ⟨_, hr⟩)
  · exact .inl (List.mem_of_find?_eq_some hfind)
  · exact .inl (List.mem_of_mem_eraseP hr)

theorem Kept.trans_same {e : Event} {s₁ : Registry} (h : Kept s e s₁)
    (hnames : s'.names = s₁.names) (hmounts : s'.mounts = s₁.mounts)
    (hknown : ∀ q, Known s₁ q → Known s' q) : Kept s e s' := by
  refine ⟨fun r hr => ?_, fun m hm => ?_, fun q hq => hknown q (h.known q hq), fun hk => ?_⟩
  · obtain hold | ⟨hc, hr', hk⟩ := h.names r (hnames ▸ hr)
    · exact .inl hold
    · exact .inr ⟨hc, hr', hknown _ hk⟩
  · obtain hold | ⟨hc, hr', hk⟩ := h.mounts m (hmounts ▸ hm)
    · exact .inl hold
    · exact .inr ⟨hc, hr', hknown _ hk⟩
  · exact hnames ▸ h.keys hk

theorem insertName_kept {key : NetName} {sig name : Port} {room : Bool} (this : NameRecord)
    (rest : List NameRecord) (hkey : this.key = key) (hname : this.name = name)
    (hrest : ∀ r ∈ rest, r ∈ s.names)
    (hkeys : s.names.Pairwise (fun r r' => r.key ≠ r'.key) →
      (this :: rest).Pairwise fun r r' => r.key ≠ r'.key) :
    Kept s (.request (.checkIn key sig name room)) (s.insertName this rest) := by
  have hknown : ∀ q, Known s q → Known (s.insertName this rest) q := by
    intro q hq
    have hfirst : Known { s with names := this :: rest } q := hq
    exact known_addReference this.name (known_addReference this.sig hfirst)
  have hself : Known (s.insertName this rest) this.name := known_addReference_self _ this.name
  refine ⟨?_, fun m hm => .inl ?_, hknown, ?_⟩
  · intro r hr
    have hr' : r ∈ this :: rest := by simpa [Registry.insertName] using hr
    obtain _ | ⟨_, hmem⟩ := hr'
    · exact .inr ⟨hkey.symm, hname.symm, hself⟩
    · exact .inl (hrest r hmem)
  · simpa [Registry.insertName] using hm
  · simpa [Registry.insertName] using hkeys

theorem checkIn_kept (s : Registry) (key : NetName) (sig name : Port) (room : Bool) :
    Kept s (.request (.checkIn key sig name room)) (s.checkIn key sig name room).2 := by
  unfold Registry.checkIn
  cases hfind : s.names.find? (·.key = key) with
  | some this =>
    obtain rfl : this.key = key := by simpa using List.find?_some hfind
    simp only
    split
    · exact insertName_kept { this with name := name } _ rfl rfl
        (fun r hr => List.mem_of_mem_eraseP hr) fun h => pairwise_toFront h
    · exact .same rfl rfl fun _ h => h
  | none =>
    simp only
    split
    · refine insertName_kept ⟨key, name, sig⟩ _ rfl rfl (fun r hr => hr) fun h => ?_
      refine List.pairwise_cons.mpr ⟨fun r hr => ?_, h⟩
      have hne := List.find?_eq_none.mp hfind r hr
      simpa [eq_comm] using hne
    · exact .same rfl rfl fun _ h => h

theorem checkInMount_kept (s : Registry) (pre : NetName) (sig port : Port) (room : Bool) :
    Kept s (.request (.checkInMount pre sig port room)) (s.checkInMount pre sig port room).2 := by
  unfold Registry.checkInMount
  split
  · exact .same rfl rfl fun _ h => h
  · split
    · exact .same rfl rfl fun _ h => h
    · split
      · refine ⟨fun r hr => .inl (by simpa using hr), fun m hm => ?_, fun q hq => ?_, fun h => ?_⟩
        · have hm' : m ∈ (⟨pre, port, sig⟩ : MountRecord) :: s.mounts := by simpa using hm
          obtain _ | ⟨_, hmem⟩ := hm'
          · exact .inr ⟨rfl, rfl, known_addReference_self _ port⟩
          · exact .inl hmem
        · have hfirst : Known { s with mounts := ⟨pre, port, sig⟩ :: s.mounts } q := hq
          exact known_addReference port (known_addReference sig hfirst)
        · simpa using h
      · exact .same rfl rfl fun _ h => h

theorem checkOut_kept (s : Registry) (key : NetName) (sig : Port) :
    Kept s (.request (.checkOut key sig)) (s.checkOut key sig).2 := by
  unfold Registry.checkOut
  split
  · split
    · refine ⟨fun r hr => .inl ?_, fun m hm => .inl (by simpa using hm), fun q hq => ?_,
        fun h => ?_⟩
      · simp only [Registry.addReference_names] at hr
        exact List.mem_of_mem_eraseP hr
      · have hfirst : Known { s with names := s.names.eraseP (·.key = key) } q := hq
        exact known_addReference sig hfirst
      · simp only [Registry.addReference_names]
        exact h.sublist List.eraseP_sublist
    · exact .same rfl rfl fun _ h => h
  · exact .same rfl rfl fun _ h => h

theorem checkOutMount_kept (s : Registry) (pre : NetName) (sig : Port) :
    Kept s (.request (.checkOutMount pre sig)) (s.checkOutMount pre sig).2 := by
  unfold Registry.checkOutMount
  split
  · split
    · refine ⟨fun r hr => .inl (by simpa using hr), fun m hm => .inl ?_, fun q hq => ?_,
        fun h => by simpa using h⟩
      · simp only [Registry.addReference_mounts] at hm
        exact List.mem_of_mem_eraseP hm
      · have hfirst : Known { s with mounts := s.mounts.eraseP (·.mountPrefix = pre) } q := hq
        exact known_addReference sig hfirst
    · exact .same rfl rfl fun _ h => h
  · exact .same rfl rfl fun _ h => h

theorem notify_kept (s : Registry) (key : NetName) (port : Port) (room : Bool) :
    Kept s (.request (.notify key port room)) (s.notify key port room).2 := by
  unfold Registry.notify
  cases hfind : s.names.find? (·.key = key) with
  | some this => exact (toFront_kept hfind).trans_same rfl rfl fun _ h => h
  | none =>
    simp only
    split <;> exact .same rfl rfl fun _ h => h

structure Dropped (s : Registry) (p : Port) (s' : Registry) : Prop where
  names : s'.names = s.names.filter fun this => ¬(this.name = p ∨ this.sig = p)
  mounts : s'.mounts = s.mounts
  ports : s'.ports = s.ports.eraseP (·.port = p)

theorem step_deadName (h : step s (.request (.deadName p)) = some s') : Dropped s p s' := by
  simp only [step] at h
  split at h
  · simp only [handle, Registry.deadName, Registry.removePort, Option.map_map,
      Option.map_eq_some_iff] at h
    obtain ⟨s₁, hremoved, rfl⟩ := h
    split at hremoved
    · cases hremoved
      exact ⟨rfl, rfl, rfl⟩
    · cases hremoved
  · cases h

theorem step_cases {e : Event} (h : step s e = some s') :
    Kept s e s' ∨ ∃ p, e = .request (.deadName p) ∧ Dropped s p s' := by
  cases e with
  | die port =>
    simp only [step, Option.some.injEq] at h
    subst h
    exact .inl (.same rfl rfl fun _ h => h)
  | request r =>
    cases r with
    | checkIn key sig name room =>
      simp only [step, handle, Option.map_some, Option.some.injEq] at h
      exact .inl (h ▸ checkIn_kept s key sig name room)
    | lookUp key =>
      simp only [step, handle, Registry.lookUp] at h
      cases hfind : s.names.find? (·.key = key) with
      | none =>
        simp only [hfind, Option.map_some, Option.some.injEq] at h
        exact .inl (h ▸ .same rfl rfl fun _ h => h)
      | some this =>
        simp only [hfind, Option.map_map, Option.map_eq_some_iff] at h
        obtain ⟨s₁, hsub, rfl⟩ := h
        obtain ⟨hnames, hmounts, hknown⟩ := subReference_some hsub
        exact .inl ((toFront_kept hfind).trans_same hnames hmounts hknown)
    | checkOut key sig =>
      simp only [step, handle, Option.map_some, Option.some.injEq] at h
      exact .inl (h ▸ checkOut_kept s key sig)
    | notify key port room =>
      simp only [step, handle, Option.map_some, Option.some.injEq] at h
      exact .inl (h ▸ notify_kept s key port room)
    | checkInMount pre sig port room =>
      simp only [step, handle, Option.map_some, Option.some.injEq] at h
      exact .inl (h ▸ checkInMount_kept s pre sig port room)
    | checkOutMount pre sig =>
      simp only [step, handle, Option.map_some, Option.some.injEq] at h
      exact .inl (h ▸ checkOutMount_kept s pre sig)
    | lookUpMount path =>
      simp only [step, handle, Registry.lookUpMount] at h
      cases hbest : Registry.bestMount path s.mounts none 0 with
      | none =>
        simp only [hbest, Option.map_some, Option.some.injEq] at h
        exact .inl (h ▸ .same rfl rfl fun _ h => h)
      | some best =>
        simp only [hbest, Option.map_map, Option.map_eq_some_iff] at h
        obtain ⟨s₁, hsub, rfl⟩ := h
        obtain ⟨hnames, hmounts, hknown⟩ := subReference_some hsub
        exact .inl (.same hnames hmounts hknown)
    | listMounts =>
      simp only [step, handle, Option.map_some, Option.some.injEq] at h
      exact .inl (h ▸ .same rfl rfl fun _ h => h)
    | deadName p => exact .inr ⟨p, rfl, step_deadName h⟩

/-- A port dies in the eyes of the server only after its mounts were checked out. -/
def MountsLeft (s : Registry) : Event → Prop
  | .request (.deadName p) => ∀ m ∈ s.mounts, m.port ≠ p ∧ m.sig ≠ p
  | _ => True

instance (s : Registry) (e : Event) : Decidable (MountsLeft s e) := by
  unfold MountsLeft
  split <;> infer_instance

theorem inv_step {e : Event} (hinv : Inv s) (hleft : MountsLeft s e) (h : step s e = some s') :
    Inv s' := by
  obtain hkept | ⟨p, rfl, hnames, hmounts, hports⟩ := step_cases h
  · refine ⟨fun r hr => ?_, fun m hm => ?_, hkept.keys hinv.keys⟩
    · obtain hold | ⟨-, -, hnew⟩ := hkept.names r hr
      · exact hkept.known _ (hinv.name r hold)
      · exact hnew
    · obtain hold | ⟨-, -, hnew⟩ := hkept.mounts m hm
      · exact hkept.known _ (hinv.mount m hold)
      · exact hnew
  · -- only the record of the dead port goes, and no list refers to it any more
    have hother : ∀ q, q ≠ p → Known s q → Known s' q := by
      intro q hq hknown hvalid
      obtain ⟨r, hr, hport⟩ := hknown hvalid
      refine ⟨r, ?_, hport⟩
      rwa [hports, List.mem_eraseP_of_neg (by simpa [hport] using hq)]
    refine ⟨fun r hr => ?_, fun m hm => ?_, ?_⟩
    · rw [hnames, List.mem_filter] at hr
      have hne : r.name ≠ p := fun hr' => by simp [hr'] at hr
      exact hother _ hne (hinv.name r hr.1)
    · rw [hmounts] at hm
      exact hother _ (hleft m hm).1 (hinv.mount m hm)
    · rw [hnames]
      exact hinv.keys.filter _

def Unlisted (s : Registry) (p : Port) : Prop :=
  (∀ r ∈ s.names, r.name ≠ p) ∧ ∀ m ∈ s.mounts, m.port ≠ p

theorem Unlisted.step {e : Event} (h : Unlisted s p) (he : ¬ e.registers p)
    (hstep : step s e = some s') : Unlisted s' p := by
  obtain hkept | ⟨q, rfl, hnames, hmounts, -⟩ := step_cases hstep
  · constructor
    · intro r hr hname
      obtain hold | ⟨-, hnew, -⟩ := hkept.names r hr
      · exact h.1 r hold hname
      · exact he (hname ▸ hnew)
    · intro m hm hport
      obtain hold | ⟨-, hnew, -⟩ := hkept.mounts m hm
      · exact h.2 m hold hport
      · exact he (hport ▸ hnew)
  · constructor
    · intro r hr
      rw [hnames] at hr
      exact h.1 r (List.mem_filter.mp hr).1
    · rw [hmounts]
      exact h.2

def FreeName (s : Registry) (key : NetName) : Prop := ∀ r ∈ s.names, r.key ≠ key

theorem FreeName.step {e : Event} {key : NetName} (h : FreeName s key) (he : ¬ e.checksIn key)
    (hstep : step s e = some s') : FreeName s' key := by
  intro r hr hkey
  obtain hkept | ⟨q, rfl, hnames, -, -⟩ := step_cases hstep
  · obtain hold | ⟨hnew, -, -⟩ := hkept.names r hr
    · exact h r hold hkey
    · exact he (hkey ▸ hnew)
  · rw [hnames] at hr
    exact h r (List.mem_filter.mp hr).1 hkey

def FreeMount (s : Registry) (pre : NetName) : Prop := ∀ m ∈ s.mounts, m.mountPrefix ≠ pre

theorem FreeMount.step {e : Event} {pre : NetName} (h : FreeMount s pre)
    (he : ¬ e.checksInMount pre) (hstep : step s e = some s') : FreeMount s' pre := by
  intro m hm hpre
  obtain hkept | ⟨q, rfl, -, hmounts, -⟩ := step_cases hstep
  · obtain hold | ⟨hnew, -, -⟩ := hkept.mounts m hm
    · exact h m hold hpre
    · exact he (hpre ▸ hnew)
  · rw [hmounts] at hm
    exact h m hm hpre

theorem FreeMount.checkIn {pre : NetName} (h : FreeMount s pre) (hpre : pre.1.head? = some '/')
    (sig port : Port) : (s.checkInMount pre sig port true).1.code = .success := by
  have hnone : s.mounts.any (·.mountPrefix = pre) = false := by
    rw [List.any_eq_false]
    intro m hm
    simpa using h m hm
  simp [Registry.checkInMount, hpre, hnone]

theorem Dropped.unlisted (h : Dropped s p s') (hleft : ∀ m ∈ s.mounts, m.port ≠ p) :
    Unlisted s' p := by
  constructor
  · intro r hr hname
    rw [h.names, List.mem_filter] at hr
    simp [hname] at hr
  · rw [h.mounts]
    exact hleft

theorem Dropped.freeName {r : NameRecord} (h : Dropped s p s') (hinv : Inv s) (hr : r ∈ s.names)
    (hcarries : r.name = p ∨ r.sig = p) : FreeName s' r.key := by
  intro r' hr' hkey
  rw [h.names, List.mem_filter] at hr'
  have hne : r' ≠ r := by
    rintro rfl
    simp [hcarries] at hr'
  have : Std.Symm fun a b : NameRecord => a.key ≠ b.key := ⟨fun _ _ hab => hab.symm⟩
  exact hinv.keys.forall hr'.1 hr hne hkey

theorem runSteps_keeps {keep : Registry → Prop} {bad : Event → Prop}
    (hstep : ∀ s e s', keep s → ¬ bad e → step s e = some s' → keep s') {back : List Event}
    (hback : ∀ e ∈ back, ¬ bad e) (h : keep s) (hrun : runSteps step s back = some s') :
    keep s' :=
  runSteps_invariant_of_guard hstep h (stepsMeet_of_forall hback) hrun

def Forgotten (s : Registry) (p : Port) : Prop :=
  (∀ key reply s', handle s (.lookUp key) = some (reply, s') → reply.port ≠ some p) ∧
    ∀ path reply s', handle s (.lookUpMount path) = some (reply, s') → reply.port ≠ some p

theorem bestMount_mem {path : Text} {mounts : List MountRecord} {best : Option MountRecord}
    {bestLen : Nat} {m : MountRecord}
    (h : Registry.bestMount path mounts best bestLen = some m) : best = some m ∨ m ∈ mounts := by
  induction mounts generalizing best bestLen with
  | nil => exact .inl h
  | cons this mounts ih =>
    simp only [Registry.bestMount] at h
    split at h
    · obtain hthis | hmem := ih h
      · simp only [Option.some.injEq] at hthis
        exact .inr (hthis ▸ List.mem_cons_self)
      · exact .inr (List.mem_cons_of_mem _ hmem)
    · obtain hbest | hmem := ih h
      · exact .inl hbest
      · exact .inr (List.mem_cons_of_mem _ hmem)

theorem Unlisted.forgotten (h : Unlisted s p) : Forgotten s p := by
  constructor
  · intro key reply s' hreply
    simp only [handle, Registry.lookUp] at hreply
    cases hfind : s.names.find? (·.key = key) with
    | none =>
      simp only [hfind, Option.some.injEq, Prod.mk.injEq] at hreply
      simp [← hreply.1]
    | some this =>
      simp only [hfind, Option.map_eq_some_iff, Prod.mk.injEq] at hreply
      obtain ⟨s₁, -, rfl, -⟩ := hreply
      simpa using h.1 this (List.mem_of_find?_eq_some hfind)
  · intro path reply s' hreply
    simp only [handle, Registry.lookUpMount] at hreply
    cases hbest : Registry.bestMount path s.mounts none 0 with
    | none =>
      simp only [hbest, Option.some.injEq, Prod.mk.injEq] at hreply
      simp [← hreply.1]
    | some best =>
      simp only [hbest, Option.map_eq_some_iff, Prod.mk.injEq] at hreply
      obtain ⟨s₁, -, rfl, -⟩ := hreply
      obtain hnone | hmem := bestMount_mem hbest
      · cases hnone
      · simpa using h.2 best hmem

theorem Inv.answers (h : Inv s) (r : Request) (hr : ∀ p, r ≠ .deadName p) :
    (handle s r).isSome := by
  cases r with
  | lookUp key =>
    simp only [handle, Registry.lookUp]
    cases hfind : s.names.find? (·.key = key) with
    | none => rfl
    | some this =>
      have hknown : Known (s.toFront this) this.name :=
        h.name this (List.mem_of_find?_eq_some hfind)
      obtain ⟨s', hsub, -⟩ := subReference_known hknown
      simp [hsub]
  | lookUpMount path =>
    simp only [handle, Registry.lookUpMount]
    cases hbest : Registry.bestMount path s.mounts none 0 with
    | none => rfl
    | some best =>
      obtain hnone | hmem := bestMount_mem hbest
      · cases hnone
      · obtain ⟨s', hsub, -⟩ := subReference_known (h.mount best hmem)
        simp [hsub]
  | deadName p => exact absurd rfl (hr p)
  | _ => rfl

theorem FreeName.checkIn {key : NetName} (h : FreeName s key) (sig name : Port) :
    (s.checkIn key sig name true).1.code = .success := by
  have hnone : s.names.find? (·.key = key) = none := by
    rw [List.find?_eq_none]
    intro r hr
    simpa using h r hr
  simp [Registry.checkIn, hnone]

/-- After the dead-name notification of a port, in every run in which mounts are checked
out before their ports die: requests are answered, lookups no longer give the port unless
it was checked in again, and another server can check in its names, and every mount that
was checked out by then. -/
theorem dead_server_forgotten (front back : List Event) (p : Port) (s₀ s : Registry)
    (hmeet : StepsMeet step MountsLeft init (front ++ .request (.deadName p) :: back))
    (hfront : runSteps step init front = some s₀)
    (hrun : runSteps step s₀ (.request (.deadName p) :: back) = some s) :
    (∀ r, (∀ q, r ≠ .deadName q) → (handle s r).isSome) ∧
      ((∀ e ∈ back, ¬ e.registers p) → Forgotten s p) ∧
      (∀ r ∈ s₀.names, r.name = p ∨ r.sig = p → (∀ e ∈ back, ¬ e.checksIn r.key) →
        ∀ sig name, (s.checkIn r.key sig name true).1.code = .success) ∧
      ∀ pre : NetName, pre.1.head? = some '/' → FreeMount s₀ pre →
        (∀ e ∈ back, ¬ e.checksInMount pre) →
        ∀ sig port, (s.checkInMount pre sig port true).1.code = .success := by
  obtain ⟨hmeetFront, hmeetBack⟩ := StepsMeet.append.mp hmeet
  have hmeetBack := hmeetBack s₀ hfront
  have hinv₀ : Inv s₀ :=
    runSteps_invariant_of_guard (fun _ _ _ => inv_step) inv_init hmeetFront hfront
  have hinv : Inv s :=
    runSteps_invariant_of_guard (fun _ _ _ => inv_step) hinv₀ hmeetBack hrun
  obtain ⟨s₁, hdead, hback⟩ := runSteps_cons.mp hrun
  have hleft : ∀ m ∈ s₀.mounts, m.port ≠ p ∧ m.sig ≠ p := hmeetBack.1
  have hdropped := step_deadName hdead
  refine ⟨fun r hr => hinv.answers r hr, fun hback' => ?_, fun r hr hcarries hback' sig name => ?_,
    fun pre hpre hfree hback' sig port => ?_⟩
  · have hunlisted : Unlisted s₁ p := hdropped.unlisted fun m hm => (hleft m hm).1
    exact (runSteps_keeps (fun _ _ _ => Unlisted.step) hback' hunlisted hback).forgotten
  · have hfree : FreeName s₁ r.key := hdropped.freeName hinv₀ hr hcarries
    exact (runSteps_keeps (fun _ _ _ => FreeName.step) hback' hfree hback).checkIn sig name
  · have hfree₁ : FreeMount s₁ pre := hfree.step id hdead
    exact (runSteps_keeps (fun _ _ _ => FreeMount.step) hback' hfree₁ hback).checkIn hpre sig port

def slash : NetName := ⟨['/'], by decide⟩

def orderlyFront : List Event :=
  [.request (.checkIn slash .null (.name 7) true),
    .request (.checkInMount slash .null (.name 7) true), .request (.lookUpMount ['/', 'a']),
    .request (.checkOutMount slash .null), .die (.name 7)]

def orderlyBack : List Event :=
  [.request (.checkIn slash .null (.name 9) true), .request (.lookUp slash)]

/-- The server left its mount and kept its name; another one takes over both. -/
theorem dead_server_forgotten_orderly :
    ∃ s₀ s, runSteps step init orderlyFront = some s₀ ∧
      runSteps step s₀ (.request (.deadName (.name 7)) :: orderlyBack) = some s ∧
      Forgotten s (.name 7) ∧ (s.checkInMount slash .null (.name 9) true).1.code = .success := by
  refine ⟨_, _, rfl, rfl, ?_⟩
  obtain ⟨-, hforgotten, -, hmount⟩ := dead_server_forgotten orderlyFront orderlyBack (.name 7)
    _ _ (by decide +kernel) rfl rfl
  exact ⟨hforgotten (by simp [orderlyBack, Event.registers]),
    hmount slash rfl (fun _ hm => absurd hm List.not_mem_nil)
      (by simp [orderlyBack, Event.checksInMount]) _ _⟩

/-- A file server dies with its mount checked in: afterwards a lookup below the mount
follows a record that is gone, and a new server cannot check the mount in. -/
theorem dead_mount_stays :
    ∃ s, runSteps step init [.request (.checkInMount slash .null (.name 7) true),
        .die (.name 7), .request (.deadName (.name 7))] = some s ∧
      handle s (.lookUpMount ['/', 'a']) = none ∧
      (s.checkInMount slash .null (.name 9) true).1.code = .mountExists :=
  ⟨_, rfl, by decide +kernel, by decide +kernel⟩

end Uros.Netname
