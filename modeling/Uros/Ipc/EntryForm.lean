import Mathlib.Algebra.Ring.Nat
import Uros.Foundation.Transition
import Uros.Ipc.RightEntry

/-!
The entries of a space stay well formed under the operations on rights.

Every operation either leaves the links between an entry and its port as they are (`Inv.keep`) or
changes the entry and the links of one port (`Inv.edit`); what remains for each of them is the
shape of the entry it leaves.
-/

namespace Uros.Ipc.RightEntry

open Uros.Foundation

variable {N P : Type*}

/-! ## Well-formed entries -/

/-- The entries an operation can leave behind.  One that has lost its last right keeps its
references until it is deallocated. -/
inductive Entry.WellFormed : Entry P → Prop where
  | free {urefs high : ℕ} : urefs ≤ urefsMax → high < 2048 →
      WellFormed ⟨⟨urefs, .none, high⟩, none, 0⟩
  | send {urefs high request : ℕ} {port : P} : 1 ≤ urefs → urefs < urefsMax → high < 2048 →
      WellFormed ⟨⟨urefs, .send, high⟩, some port, request⟩
  | receive {high request : ℕ} {port : P} : high < 2048 →
      WellFormed ⟨⟨0, .receive, high⟩, some port, request⟩
  | sendReceive {urefs high request : ℕ} {port : P} : 1 ≤ urefs → urefs < urefsMax →
      high < 2048 → WellFormed ⟨⟨urefs, .sendReceive, high⟩, some port, request⟩
  | sendOnce {high request : ℕ} {port : P} : high < 2048 →
      WellFormed ⟨⟨1, .sendOnce, high⟩, some port, request⟩
  | portSet {high : ℕ} {pset : P} : high < 2048 →
      WellFormed ⟨⟨0, .portSet, high⟩, some pset, 0⟩
  | deadName {urefs high : ℕ} : 1 ≤ urefs → urefs ≤ urefsMax → high < 2048 →
      WellFormed ⟨⟨urefs, .deadName, high⟩, none, 0⟩

namespace Entry

def receives (e : Entry P) : Option P := if e.bits.has .receive then e.object else none

def sends (e : Entry P) : Option P := if e.bits.type = .send then e.object else none

/-- An entry of type SEND, RECEIVE or SEND_RECEIVE for the port. -/
def Names (e : Entry P) (port : P) : Prop :=
  (e.bits.type = .send ∨ e.bits.type = .receive ∨ e.bits.type = .sendReceive) ∧
    e.object = some port

@[simp] theorem sends_mk {b : EntryBits} {object : Option P} {request : ℕ} :
    sends ⟨b, object, request⟩ = if b.type = .send then object else none := rfl

@[simp] theorem receives_mk {b : EntryBits} {object : Option P} {request : ℕ} :
    receives ⟨b, object, request⟩ = if b.has .receive then object else none := rfl

theorem object_of_sends {e : Entry P} {port : P} (h : e.sends = some port) :
    e.object = some port := by
  rw [sends] at h
  split at h <;> simp_all

theorem object_of_receives {e : Entry P} {port : P} (h : e.receives = some port) :
    e.object = some port := by
  rw [receives] at h
  split at h <;> simp_all

theorem Names.right {e : Entry P} {port : P} (h : e.Names port) :
    e.sends = some port ∨ e.receives = some port := by
  obtain ⟨htype | htype | htype, hobject⟩ := h
  · exact .inl (by simp [sends, htype, hobject])
  · exact .inr (by simp [receives, htype, hobject])
  · exact .inr (by simp [receives, htype, hobject])

theorem WellFormed.not_both {e : Entry P} {port : P} (hsend : e.sends = some port) :
    e.receives ≠ some port := by
  rw [sends] at hsend
  split at hsend
  · simp_all [receives]
  · simp at hsend

theorem WellFormed.withHigh {e : Entry P} {high : ℕ} (h : e.WellFormed) (hhigh : high < 2048) :
    WellFormed { e with bits.high := high } := by
  cases h with
  | free hmax _ => exact .free hmax hhigh
  | send hlow hmax _ => exact .send hlow hmax hhigh
  | receive _ => exact .receive hhigh
  | sendReceive hlow hmax _ => exact .sendReceive hlow hmax hhigh
  | sendOnce _ => exact .sendOnce hhigh
  | portSet _ => exact .portSet hhigh
  | deadName hlow hmax _ => exact .deadName hlow hmax hhigh

theorem WellFormed.withRequest {e : Entry P} (h : e.WellFormed) (request : ℕ)
    (hright : e.bits.has .portRights = true) : WellFormed { e with request := request } := by
  cases h with
  | free | portSet | deadName => simp at hright
  | send hlow hmax hhigh => exact .send hlow hmax hhigh
  | receive hhigh => exact .receive hhigh
  | sendReceive hlow hmax hhigh => exact .sendReceive hlow hmax hhigh
  | sendOnce hhigh => exact .sendOnce hhigh

theorem WellFormed.portRights {e : Entry P} (h : e.WellFormed) (hrequest : e.request ≠ 0) :
    e.bits.has .portRights = true := by
  cases h <;> simp_all

theorem WellFormed.object_of_free {e : Entry P} (h : e.WellFormed) (htype : e.bits.type = .none) :
    e.object = none := by
  cases h <;> simp_all

theorem WellFormed.names {e : Entry P} {port : P} (h : e.WellFormed)
    (hreceives : e.receives = some port) : e.Names port := by
  cases h <;> simp_all [Names]

theorem WellFormed.high_lt {e : Entry P} (h : e.WellFormed) : e.bits.high < 2048 := by
  cases h <;> assumption

theorem WellFormed.consistent {e : Entry P} (h : e.WellFormed) (huse : e.bits.type ≠ .none) :
    e.bits.Consistent := by
  cases h <;> simp_all [EntryBits.Consistent] <;> omega

end Entry

/-! ## The invariant -/

structure Linked (s : Space N P) : Prop where
  hash : ∀ port n, s.hash port = some n ↔ (s.entries n).sends = some port
  receiver : ∀ port n, (s.ports port).receiver = some n ↔ (s.entries n).receives = some port
  alive : ∀ port n, (s.ports port).receiver = some n → (s.ports port).active = true
  apart : ∀ port n m, s.hash port = some n → (s.ports port).receiver ≠ some m

structure Inv (s : Space N P) : Prop where
  wf : ∀ n, (s.entries n).WellFormed
  whole : s.carried = false
  unique : ∀ n m port, (s.entries n).Names port → (s.entries m).Names port → n = m
  linked : s.active = true → Linked s

def Owns (s : Space N P) (n : N) (port : P) : Prop :=
  (∀ m, s.hash port = some m → m = n) ∧ ∀ m, (s.ports port).receiver = some m → m = n

theorem Linked.unique {s : Space N P} (h : Linked s) (n m : N) (port : P)
    (hn : (s.entries n).Names port) (hm : (s.entries m).Names port) : n = m := by
  rcases hn.right with hn | hn <;> rcases hm.right with hm | hm
  · have hsome := (h.hash port n).mpr hn
    rw [(h.hash port m).mpr hm] at hsome
    exact (Option.some.inj hsome).symm
  · exact absurd ((h.receiver port m).mpr hm) (h.apart port n m ((h.hash port n).mpr hn))
  · exact absurd ((h.receiver port n).mpr hn) (h.apart port m n ((h.hash port m).mpr hm))
  · have hsome := (h.receiver port n).mpr hn
    rw [(h.receiver port m).mpr hm] at hsome
    exact (Option.some.inj hsome).symm

theorem Linked.receiver_none {s : Space N P} {n : N} {port : P} (h : Linked s)
    (hhash : s.hash port = some n) : (s.ports port).receiver = none :=
  Option.eq_none_iff_forall_ne_some.mpr fun m hm => h.apart port n m hhash hm

theorem Linked.hash_none {s : Space N P} {n : N} {port : P} (h : Linked s)
    (hrecv : (s.ports port).receiver = some n) : s.hash port = none :=
  Option.eq_none_iff_forall_ne_some.mpr fun m hm => h.apart port m n hm hrecv

theorem Linked.receiver_of_dead {s : Space N P} {port : P} (h : Linked s)
    (hdead : ¬ (s.ports port).active = true) : (s.ports port).receiver = none :=
  Option.eq_none_iff_forall_ne_some.mpr fun m hm => hdead (h.alive port m hm)

namespace Inv

variable {s t : Space N P} {n : N} {port : P} {e : Entry P}

theorem of_isFree (h : Inv s) (hfree : ¬ s.isFree n = false) : (s.entries n).bits.type = .none ∧
    (s.entries n).sends = none ∧ (s.entries n).receives = none ∧ (s.entries n).object = none := by
  have htype : (s.entries n).bits.type = .none := by simpa [Space.isFree] using hfree
  exact ⟨htype, by simp [Entry.sends, htype], by simp [Entry.receives, htype],
    (h.wf n).object_of_free htype⟩

theorem of_linked (hwf : ∀ n, (s.entries n).WellFormed) (hwhole : s.carried = false)
    (h : Linked s) : Inv s :=
  ⟨hwf, hwhole, h.unique, fun _ => h⟩

theorem owns (h : Inv s) (ha : s.active = true) (hnames : (s.entries n).Names port) :
    Owns s n port := by
  have hl := h.linked ha
  rcases hnames.right with hright | hright
  · have hhash := (hl.hash port n).mpr hright
    refine ⟨fun m hm => ?_, fun m hm => absurd hm (hl.apart port n m hhash)⟩
    exact Option.some.inj (hm.symm.trans hhash)
  · have hrecv := (hl.receiver port n).mpr hright
    refine ⟨fun m hm => absurd hrecv (hl.apart port m n hm), fun m hm => ?_⟩
    exact Option.some.inj (hm.symm.trans hrecv)

end Inv

variable [DecidableEq N]

/-! ## What the operations keep -/

structure Refund (e : Entry P) (msgtName : CopyinType) (copied : CopiedIn P) : Prop where
  spent : copied.soright = true → e.bits.type = .none
  dead : e.bits.type = .deadName → msgtName ≠ .copySend → e.bits.urefs < urefsMax
  send : e.bits.type = .send → msgtName ≠ .copySend → e.bits.urefs + 1 < urefsMax
  object : e.bits.has .portRights = true → copied.object = e.object
  moved : e.bits.type ≠ .sendOnce ∧ e.bits.type ≠ .portSet

structure CopyinOutcome (s : Space N P) (n : N) (msgtName : CopyinType)
    (r : Option (CopiedIn P) × Space N P) : Prop where
  inv : Inv r.2
  active : r.2.active = true
  frame : ∀ m, m ≠ n → r.2.entries m = s.entries m
  refund : ∀ copied, r.1 = some copied → msgtName ≠ .moveReceive →
    Refund (r.2.entries n) msgtName copied

omit [DecidableEq N] in
theorem CopyinOutcome.failed {s : Space N P} {n : N} {msgtName : CopyinType} (h : Inv s)
    (ha : s.active = true) : CopyinOutcome s n msgtName (none, s) :=
  ⟨h, ha, fun _ _ => rfl, fun _ hr => by simp at hr⟩

namespace Inv

variable {s t : Space N P} {n : N} {port : P} {e : Entry P}

theorem wf_update (h : Inv s) (hwf : e.WellFormed) (m : N) :
    (Function.update s.entries n e m).WellFormed := by
  by_cases hm : m = n
  · rw [hm, Function.update_self]
    exact hwf
  · rw [Function.update_of_ne hm]
    exact h.wf m

theorem keep (h : Inv s) (ha : s.active = true) (hwf : e.WellFormed)
    (hsends : e.sends = (s.entries n).sends) (hreceives : e.receives = (s.entries n).receives) :
    Inv (s.setEntry n e) := by
  have hl := h.linked ha
  have hs : ∀ m, (Function.update s.entries n e m).sends = (s.entries m).sends := by
    intro m
    by_cases hm : m = n
    · rw [hm, Function.update_self, hsends]
    · rw [Function.update_of_ne hm]
  have hr : ∀ m, (Function.update s.entries n e m).receives = (s.entries m).receives := by
    intro m
    by_cases hm : m = n
    · rw [hm, Function.update_self, hreceives]
    · rw [Function.update_of_ne hm]
  refine of_linked (h.wf_update hwf) h.whole ⟨fun p m => ?_, fun p m => ?_, hl.alive, hl.apart⟩
  · exact (hl.hash p m).trans (by rw [← hs m]; rfl)
  · exact (hl.receiver p m).trans (by rw [← hr m]; rfl)

theorem adjust_eq (s : Space N P) (n : N) {e : Entry P} {delta : ℤ} (hhigh : e.bits.high < 2048)
    (hlow : 0 ≤ e.bits.urefs + delta) (hmax : e.bits.urefs + delta ≤ urefsMax)
    (hurefs : e.bits.urefs ≤ urefsMax) :
    s.adjust n e delta = s.setEntry n { e with bits.urefs := (e.bits.urefs + delta).toNat } := by
  simp [EntryBits.add_eq hhigh hlow hmax hurefs]

theorem adjust_dead (h : Inv s) (ha : s.active = true) {urefs high : ℕ} {delta : ℤ}
    (he : s.entries n = ⟨⟨urefs, .deadName, high⟩, none, 0⟩) (hhigh : high < 2048)
    (hurefs : urefs ≤ urefsMax) (hlow : 1 ≤ urefs + delta) (hmax : urefs + delta ≤ urefsMax) :
    Inv (s.adjust n (s.entries n) delta) := by
  rw [adjust_eq s n] <;> simp only [he] <;> try omega
  refine h.keep ha ?_ (by simp [he, Entry.sends]) (by simp [he, Entry.receives])
  exact .deadName (by omega) (by omega) hhigh

omit [DecidableEq N] in
theorem wf_dealloc (h : Inv s) :
    (⟨⟨0, .none, (s.entries n).bits.high / 8 * 8⟩, none, 0⟩ : Entry P).WellFormed := by
  have hhigh := (h.wf n).high_lt
  exact .free (Nat.zero_le _) (by omega)

theorem dealloc (h : Inv s) (ha : s.active = true) (hsends : (s.entries n).sends = none)
    (hreceives : (s.entries n).receives = none) : Inv (s.dealloc n) := by
  exact h.keep ha h.wf_dealloc (by simp [hsends]) (by simp [hreceives])

theorem adjust_conversion (s : Space N P) (n : N) {urefs high : ℕ} (request : ℕ)
    (hmax : urefs < urefsMax) (hhigh : high < 2048) :
    s.adjust n ⟨⟨urefs, .deadName, high⟩, none, 0⟩ (if request = 0 then 0 else 1) =
      s.setEntry n ⟨⟨urefs + if request = 0 then 0 else 1, .deadName, high⟩, none, 0⟩ := by
  simp only [urefsMax] at hmax
  by_cases hr : request = 0
  · rw [if_pos hr, if_pos hr, adjust_eq s n hhigh] <;> simp <;> omega
  · rw [if_neg hr, if_neg hr, adjust_eq s n hhigh] <;> simp <;> omega

omit [DecidableEq N] in
theorem wf_conversion {urefs high : ℕ} (request : ℕ) (hlow : 1 ≤ urefs) (hmax : urefs < urefsMax)
    (hhigh : high < 2048) :
    (⟨⟨urefs + if request = 0 then 0 else 1, .deadName, high⟩, none, 0⟩ : Entry P).WellFormed :=
  .deadName (by omega) (by simp only [urefsMax] at *; split <;> omega) hhigh

omit [DecidableEq N] in
theorem withPort_rule {α : Type*} {failed : α} {f : P → α × Space N P}
    {motive : α × Space N P → Prop} (hnone : motive (failed, s))
    (hf : ∀ port, (s.entries n).object = some port → motive (f port)) :
    motive (s.withPort n failed f) := by
  unfold Space.withPort
  split
  · exact hnone
  · next port hobject => exact hf port hobject

omit [DecidableEq N] in
theorem withPort {α : Type*} {failed : α} {f : P → α × Space N P} (h : Inv s)
    (hf : ∀ port, (s.entries n).object = some port → Inv (f port).2) :
    Inv (s.withPort n failed f).2 :=
  withPort_rule (motive := fun r => Inv r.2) h hf

theorem setRequest (h : Inv s) (ha : s.active = true) (request : ℕ)
    (hright : (s.entries n).bits.has .portRights = true) :
    Inv (s.setEntry n { s.entries n with request := request }) := by
  exact h.keep ha ((h.wf n).withRequest request hright) rfl rfl

theorem dnrequestDead (h : Inv s) (ha : s.active = true) {immediate notify : Bool} :
    Inv (s.dnrequestDead n immediate notify).2 := by
  simp only [Space.dnrequestDead]
  split
  · next hdead =>
    split
    · exact h
    · next hover =>
      have hwf := h.wf n
      generalize he : s.entries n = e at hwf hdead hover ⊢
      cases hwf with
      | free | send | receive | sendReceive | sendOnce | portSet => simp at hdead
      | @deadName urefs high hlow hmax hhigh =>
        have hsum := urefsOverflow_eq_false hmax (by omega) (Bool.eq_false_iff.mpr hover)
        rw [← he]
        exact h.adjust_dead ha he hhigh hmax (by omega) (by omega)
  · split <;> exact h

theorem deallocDead (h : Inv s) (ha : s.active = true) {urefs high : ℕ}
    (he : s.entries n = ⟨⟨urefs, .deadName, high⟩, none, 0⟩) (hlow : 1 ≤ urefs)
    (hmax : urefs ≤ urefsMax) (hhigh : high < 2048) : Inv (s.deallocDead n) := by
  unfold Space.deallocDead
  split
  · exact h.dealloc ha (by simp [he]) (by simp [he])
  · next hone =>
    rw [he] at hone
    exact h.adjust_dead ha he hhigh hmax (by simp only at hone; omega) (by omega)

theorem adjust_send (h : Inv s) (ha : s.active = true) {delta : ℤ}
    (hsend : (s.entries n).bits.has .send = true) (hlow : 1 ≤ (s.entries n).bits.urefs + delta)
    (hmax : (s.entries n).bits.urefs + delta < urefsMax) :
    Inv (s.adjust n (s.entries n) delta) := by
  have hwf := h.wf n
  generalize he : s.entries n = e at hwf hsend hlow hmax ⊢
  cases hwf with
  | free | receive | sendOnce | portSet | deadName => simp at hsend
  | send _ hmax' hhigh =>
    simp only at hlow hmax
    rw [adjust_eq s n hhigh] <;> simp only <;> try omega
    exact h.keep ha (.send (by omega) (by omega) hhigh) (by simp [he]) (by simp [he])
  | sendReceive _ hmax' hhigh =>
    simp only at hlow hmax
    rw [adjust_eq s n hhigh] <;> simp only <;> try omega
    exact h.keep ha (.sendReceive (by omega) (by omega) hhigh) (by simp [he]) (by simp [he])

omit [DecidableEq N] in
theorem urefs_of_send (h : Inv s) (hsend : (s.entries n).bits.has .send = true) :
    1 ≤ (s.entries n).bits.urefs ∧ (s.entries n).bits.urefs < urefsMax := by
  have hwf := h.wf n
  generalize s.entries n = e at hwf hsend ⊢
  cases hwf with
  | free | receive | sendOnce | portSet | deadName => simp at hsend
  | send hlow hmax _ => exact ⟨hlow, hmax⟩
  | sendReceive hlow hmax _ => exact ⟨hlow, hmax⟩

theorem deltaDead (h : Inv s) (ha : s.active = true) {urefs high : ℕ} {delta : ℤ}
    (hdelta : -2147483648 ≤ delta ∧ delta < 2147483648)
    (he : s.entries n = ⟨⟨urefs, .deadName, high⟩, none, 0⟩) (hlow : 1 ≤ urefs)
    (hmax : urefs ≤ urefsMax) (hhigh : high < 2048) : Inv (s.deltaDead n delta).2 := by
  simp only [Space.deltaDead]
  split
  · exact h
  next hunder =>
  split
  · exact h
  next hover =>
  have hunder' := urefsUnderflow_eq_false hdelta.1 (Bool.eq_false_iff.mpr hunder)
  have hover' := urefsOverflow_eq_false (by rw [he]; exact hmax) hdelta.2
    (Bool.eq_false_iff.mpr hover)
  rw [he] at hunder' hover'
  simp only at hunder' hover'
  split
  · exact h.dealloc ha (by simp [he]) (by simp [he])
  · next hzero =>
    rw [he] at hzero
    simp only at hzero
    exact h.adjust_dead ha he hhigh hmax (by omega) (by simp only [urefsMax] at *; omega)

variable [DecidableEq P]

theorem edit (n : N) (port : P) (h : Inv s) (ha : s.active = true) (hwf : e.WellFormed)
    (howns : Owns s n port)
    (hold : ∀ p, (s.entries n).object = some p → p = port)
    (hnew : ∀ p, e.object = some p → p = port)
    (hentries : t.entries = Function.update s.entries n e) (hwhole : t.carried = s.carried)
    (hother : ∀ p, p ≠ port → t.hash p = s.hash p ∧ t.ports p = s.ports p)
    (hhash : t.hash port = if e.sends = some port then some n else none)
    (hrecv : (t.ports port).receiver = if e.receives = some port then some n else none)
    (halive : e.receives = some port → (t.ports port).active = true) : Inv t := by
  have hl := h.linked ha
  -- apart from the entry itself no entry has the port, and the entry has no other port
  have hsends : ∀ p m, t.hash p = some m ↔ (t.entries m).sends = some p := by
    intro p m
    rw [hentries]
    by_cases hp : p = port <;> by_cases hm : m = n
    · rw [hp, hm, Function.update_self, hhash]
      split <;> simp_all
    · rw [hp, Function.update_of_ne hm, hhash, ← hl.hash]
      constructor
      · intro hsome
        split at hsome <;> simp_all
      · intro hsome
        exact absurd (howns.1 m hsome) hm
    · rw [hm, Function.update_self, (hother p hp).1, hl.hash]
      exact ⟨fun hsome => absurd (hold p (Entry.object_of_sends hsome)) hp,
        fun hsome => absurd (hnew p (Entry.object_of_sends hsome)) hp⟩
    · rw [Function.update_of_ne hm, (hother p hp).1, hl.hash]
  have hreceives : ∀ p m, (t.ports p).receiver = some m ↔ (t.entries m).receives = some p := by
    intro p m
    rw [hentries]
    by_cases hp : p = port <;> by_cases hm : m = n
    · rw [hp, hm, Function.update_self, hrecv]
      split <;> simp_all
    · rw [hp, Function.update_of_ne hm, hrecv, ← hl.receiver]
      constructor
      · intro hsome
        split at hsome <;> simp_all
      · intro hsome
        exact absurd (howns.2 m hsome) hm
    · rw [hm, Function.update_self, (hother p hp).2, hl.receiver]
      exact ⟨fun hsome => absurd (hold p (Entry.object_of_receives hsome)) hp,
        fun hsome => absurd (hnew p (Entry.object_of_receives hsome)) hp⟩
    · rw [Function.update_of_ne hm, (hother p hp).2, hl.receiver]
  refine of_linked (hentries ▸ h.wf_update hwf) (hwhole.trans h.whole)
    ⟨hsends, hreceives, fun p m hsome => ?_, fun p k m hsome hsome' => ?_⟩
  · by_cases hp : p = port
    · subst hp
      refine halive ?_
      rw [hrecv] at hsome
      split at hsome <;> simp_all
    · rw [(hother p hp).2] at hsome ⊢
      exact hl.alive p m hsome
  · by_cases hp : p = port
    · subst hp
      rw [hhash] at hsome
      rw [hrecv] at hsome'
      split at hsome
      · next hsend => exact Entry.WellFormed.not_both hsend (by split at hsome' <;> simp_all)
      · simp at hsome
    · rw [(hother p hp).1] at hsome
      rw [(hother p hp).2] at hsome'
      exact hl.apart p k m hsome hsome'

theorem check (h : Inv s) (ha : s.active = true) (hobject : (s.entries n).object = some port)
    (hright : (s.entries n).bits.has .portRights = true) :
    s.rightCheck port n = (false, s) ∧ (s.ports port).active = true ∨
    ∃ t urefs high, s.rightCheck port n = (true, t) ∧ Inv t ∧ t.active = true ∧
      t.entries n = ⟨⟨urefs, .deadName, high⟩, none, 0⟩ ∧ 1 ≤ urefs ∧ urefs ≤ urefsMax ∧
      high < 2048 := by
  by_cases hactive : (s.ports port).active = true
  · exact .inl ⟨by simp [Space.rightCheck, hactive], hactive⟩
  right
  have hl := h.linked ha
  have hreceiver := hl.receiver_of_dead hactive
  have hwf := h.wf n
  generalize he : s.entries n = e at hwf hobject hright
  have hrecv : e.receives ≠ some port := fun hr => by
    simpa [hreceiver] using (hl.receiver port n).mpr (he ▸ hr)
  cases hwf with
  | @send urefs high request port' hlow hmax hhigh =>
    obtain rfl : port' = port := Option.some.inj hobject
    have hhash : s.hash port' = some n := (hl.hash port' n).mpr (by simp [he])
    have hcheck : s.rightCheck port' n = (true, (s.hashDelete port' n).setEntry n
        ⟨⟨urefs + if request = 0 then 0 else 1, .deadName, high⟩, none, 0⟩) := by
      rw [← adjust_conversion _ n request hmax hhigh]
      simp [Space.rightCheck, hactive, he]
    refine ⟨_, _, _, hcheck, ?_, ha, Function.update_self .., by omega, ?_, hhigh⟩
    · refine h.edit n port' ha (wf_conversion request hlow hmax hhigh)
        (h.owns ha (by simp [he, Entry.Names])) (by simp [he]) (by simp) rfl rfl ?_ ?_ ?_ (by simp)
      · intro p hp
        simp [Function.update_of_ne hp]
      · simp [hhash]
      · simp [hreceiver]
    · simp only [urefsMax] at *
      split <;> omega
  | @sendOnce high request port' hhigh =>
    have hcheck : s.rightCheck port n = (true, s.setEntry n
        ⟨⟨1 + if request = 0 then 0 else 1, .deadName, high⟩, none, 0⟩) := by
      rw [← adjust_conversion _ n request (by simp) hhigh]
      simp [Space.rightCheck, hactive, he]
    refine ⟨_, _, _, hcheck, ?_, ha, Function.update_self .., by omega, ?_, hhigh⟩
    · exact h.keep ha (wf_conversion request le_rfl (by simp) hhigh) (by simp [he]) (by simp [he])
    · simp only [urefsMax] at *
      split <;> omega
  | free | deadName => simp at hobject
  | portSet => simp at hright
  | receive | sendReceive => simp_all

theorem rightCheck_of_ne {m : N} (hm : m ≠ n) :
    (s.rightCheck port n).2.entries m = s.entries m := by
  simp only [Space.rightCheck]
  split
  · rfl
  · split <;> simp [Function.update_of_ne hm]

theorem withCheck_rule {α : Type*} {dead live : Space N P → α × Space N P}
    {motive : α × Space N P → Prop} (h : Inv s)
    (ha : s.active = true) (hobject : (s.entries n).object = some port)
    (hright : (s.entries n).bits.has .portRights = true)
    (hdead : ∀ t urefs high, Inv t → t.active = true → (∀ m, m ≠ n → t.entries m = s.entries m) →
      t.entries n = ⟨⟨urefs, .deadName, high⟩, none, 0⟩ → 1 ≤ urefs → urefs ≤ urefsMax →
      high < 2048 → motive (dead t))
    (hlive : (s.ports port).active = true → motive (live s)) :
    motive (s.withCheck port n dead live) := by
  unfold Space.withCheck
  rcases h.check ha hobject hright with ⟨hcheck, hactive⟩ |
    ⟨t, urefs, high, hcheck, ht, hta, he, hlow, hmax, hhigh⟩
  · simpa [hcheck] using hlive hactive
  · have hframe : ∀ m, m ≠ n → t.entries m = s.entries m := fun m hm => by
      rw [← rightCheck_of_ne (s := s) hm, hcheck]
    simpa [hcheck] using hdead t urefs high ht hta hframe he hlow hmax hhigh

theorem withCheck {α : Type*} {dead live : Space N P → α × Space N P} (h : Inv s)
    (ha : s.active = true) (hobject : (s.entries n).object = some port)
    (hright : (s.entries n).bits.has .portRights = true)
    (hdead : ∀ t urefs high, Inv t → t.active = true →
      t.entries n = ⟨⟨urefs, .deadName, high⟩, none, 0⟩ → 1 ≤ urefs → urefs ≤ urefsMax →
      high < 2048 → Inv (dead t).2)
    (hlive : (s.ports port).active = true → Inv (live s).2) :
    Inv (s.withCheck port n dead live).2 :=
  withCheck_rule (motive := fun r => Inv r.2) h ha hobject hright
    (fun t urefs high ht hta _ => hdead t urefs high ht hta) hlive

theorem rightDnrequest (h : Inv s) (ha : s.active = true) {immediate notify : Bool}
    {request : ℕ} : Inv (s.rightDnrequest n immediate notify request).2 := by
  unfold Space.rightDnrequest
  split
  · next hright =>
    refine h.withPort fun port hobject => h.withCheck ha hobject hright ?_ fun _ => ?_
    · intro t _ _ ht hta _ _ _ _
      exact ht.dnrequestDead hta
    · split
      · exact h.setRequest ha 0 hright
      · split
        · exact h.setRequest ha 0 hright
        · exact h.setRequest ha request hright
  · exact h.dnrequestDead ha

theorem deallocSend (h : Inv s) (ha : s.active = true)
    (hobject : (s.entries n).object = some port) (htype : (s.entries n).bits.type = .send)
    (hwf : e.WellFormed) (hnone : e.object = none) :
    Inv ((s.hashDelete port n).setEntry n e) := by
  have hl := h.linked ha
  have hhash : s.hash port = some n := (hl.hash port n).mpr (by simp [Entry.sends, htype, hobject])
  have hrecv := hl.receiver_none hhash
  refine h.edit n port ha hwf (h.owns ha ⟨.inl htype, hobject⟩) (by simp [hobject])
    (by simp [hnone]) rfl rfl ?_ ?_ ?_ (by simp [Entry.receives, hnone])
  · intro p hp
    simp [Function.update_of_ne hp]
  · simp [hhash, Entry.sends, hnone]
  · simp [hrecv, Entry.receives, hnone]

theorem dropSend (h : Inv s) (ha : s.active = true) (hobject : (s.entries n).object = some port)
    (hsend : (s.entries n).bits.has .send = true) : Inv (s.dropSend port n) := by
  have hwf := h.wf n
  have hfree := h.wf_dealloc (n := n)
  have hdrop := fun htype => h.deallocSend ha hobject htype hfree rfl
  simp only [Space.dropSend]
  generalize he : s.entries n = e at hwf hobject hsend hdrop
  cases hwf with
  | free | receive | sendOnce | portSet | deadName => simp at hsend
  | send hlow hmax hhigh =>
    rw [if_neg (by simp)]
    simpa [he] using hdrop rfl
  | sendReceive hlow hmax hhigh =>
    rw [if_pos (by simp)]
    exact h.keep ha (by simpa using .receive hhigh) (by simp [he]) (by simp [he])

theorem releaseSend (h : Inv s) (ha : s.active = true)
    (hobject : (s.entries n).object = some port) (hsend : (s.entries n).bits.has .send = true) :
    Inv (if (s.entries n).bits.urefs = 1 then s.dropSend port n
      else s.adjust n (s.entries n) (-1)) := by
  have hurefs := h.urefs_of_send hsend
  split
  · exact h.dropSend ha hobject hsend
  · exact h.adjust_send ha hsend (by omega) (by omega)

theorem rightDealloc (h : Inv s) (ha : s.active = true) : Inv (s.rightDealloc n).2 := by
  simp only [Space.rightDealloc]
  split
  · next htype =>
    have hwf := h.wf n
    generalize he : s.entries n = e at hwf htype
    cases hwf <;> simp at htype
    next hlow hmax hhigh => exact h.deallocDead ha he hlow hmax hhigh
  split
  · next htype =>
    refine h.withPort fun port hobject => h.withCheck ha hobject (by simp [htype]) ?_ fun _ => ?_
    · intro t _ _ ht hta he hlow hmax hhigh
      exact ht.deallocDead hta he hlow hmax hhigh
    · exact h.dealloc ha (by simp [Entry.sends, htype]) (by simp [Entry.receives, htype])
  split
  · next htype =>
    refine h.withPort fun port hobject => h.withCheck ha hobject (by simp [htype]) ?_ fun _ => ?_
    · intro t _ _ ht hta he hlow hmax hhigh
      exact ht.deallocDead hta he hlow hmax hhigh
    · exact h.releaseSend ha hobject (by simp [htype])
  split
  · next htype => exact h.withPort fun port hobject => h.releaseSend ha hobject (by simp [htype])
  · exact h

theorem loseReceive (h : Inv s) (ha : s.active = true) (backup : Bool)
    (hobject : (s.entries n).object = some port) (hright : (s.entries n).bits.has .receive = true)
    (hwf : e.WellFormed) (hnone : e.object = none) :
    Inv ((s.setEntry n e).destroyPort port backup) := by
  have hl := h.linked ha
  have hreceives : (s.entries n).receives = some port := by simp_all [Entry.receives]
  have hrecv := (hl.receiver port n).mpr hreceives
  have hhash := hl.hash_none hrecv
  have howns : Owns s n port :=
    ⟨fun m hm => by simp [hhash] at hm, fun m hm => Option.some.inj (hm.symm.trans hrecv)⟩
  have hsends : e.sends = none := by simp [Entry.sends, hnone]
  have hreceives' : e.receives = none := by simp [Entry.receives, hnone]
  refine h.edit n port ha hwf howns (by simp [hobject]) (by simp [hnone]) rfl rfl ?_ ?_ ?_
    (by simp [hreceives'])
  · intro p hp
    simp [Function.update_of_ne hp]
  · simp [hhash, hsends]
  · simp [hreceives']

theorem rightDestroy (h : Inv s) (ha : s.active = true) {backup : Bool} :
    Inv (s.rightDestroy n backup).2 := by
  simp only [Space.rightDestroy]
  split
  · next htype =>
    refine h.dealloc ha ?_ ?_ <;> rcases htype with htype | htype <;>
      simp [Entry.sends, Entry.receives, htype]
  split
  · next hright =>
    refine h.withPort fun port hobject => ?_
    by_cases hsend : (s.entries n).bits.type = .send
    · have hrecv : ¬ (s.entries n).bits.has .receive = true := by simp [hsend]
      rw [if_pos hsend, if_neg hrecv, ite_self]
      exact h.deallocSend ha hobject hsend h.wf_dealloc rfl
    rw [if_neg hsend]
    have hsends : (s.entries n).sends = none := by simp [Entry.sends, hsend]
    by_cases hrecv : (s.entries n).bits.has .receive = true
    · have hactive : (s.ports port).active = true :=
        (h.linked ha).alive port n (((h.linked ha).receiver port n).mpr
          (by simp_all [Entry.receives]))
      rw [if_neg (by simp [hactive]), if_pos hrecv]
      exact h.loseReceive ha backup hobject hrecv h.wf_dealloc rfl
    · rw [if_neg hrecv, ite_self]
      exact h.dealloc ha hsends (by rw [Entry.receives, if_neg hrecv])
  · exact h

theorem deltaPortSet (h : Inv s) (ha : s.active = true) {delta : ℤ} {backup : Bool} :
    Inv (s.rightDelta n .portSet delta backup).2 := by
  simp only [Space.rightDelta]
  split
  · exact h
  next hset =>
  split
  · exact h
  split
  · exact h
  have hwf := h.wf n
  refine h.dealloc ha ?_ ?_ <;> generalize s.entries n = e at hwf hset <;> cases hwf <;> simp_all

theorem deltaReceive (h : Inv s) (ha : s.active = true) {delta : ℤ} {backup : Bool} :
    Inv (s.rightDelta n .receive delta backup).2 := by
  simp only [Space.rightDelta]
  split
  · exact h
  next hright =>
  have hright := eq_true_of_ne_false hright
  split
  · exact h
  split
  · exact h
  refine h.withPort fun port hobject => ?_
  have hlose := fun e => h.loseReceive (e := e) ha backup hobject hright
  split
  · next hsend =>
    have hwf := h.wf n
    generalize s.entries n = e at hwf hsend hright
    cases hwf <;> simp at hsend hright
    next hlow hmax hhigh =>
    rw [adjust_conversion s n _ hmax hhigh]
    exact hlose _ (wf_conversion _ hlow hmax hhigh) rfl
  · exact hlose _ h.wf_dealloc rfl

theorem deltaSendOnce (h : Inv s) (ha : s.active = true) {delta : ℤ} {backup : Bool} :
    Inv (s.rightDelta n .sendOnce delta backup).2 := by
  simp only [Space.rightDelta]
  split
  · exact h
  next hright =>
  have hright := eq_true_of_ne_false hright
  refine h.withPort fun port hobject => h.withCheck ha hobject
    (EntryBits.has_portRights rfl hright) (fun _ _ _ ht _ _ _ _ _ => ht) fun _ => ?_
  split
  · exact h
  split
  · exact h
  have hwf := h.wf n
  refine h.dealloc ha ?_ ?_ <;> generalize s.entries n = e at hwf hright <;>
    cases hwf <;> simp_all

theorem deltaDeadName (h : Inv s) (ha : s.active = true) {delta : ℤ} {backup : Bool}
    (hdelta : -2147483648 ≤ delta ∧ delta < 2147483648) :
    Inv (s.rightDelta n .deadName delta backup).2 := by
  simp only [Space.rightDelta]
  split
  · next hright =>
    refine h.withPort fun port hobject => h.withCheck ha hobject
      (EntryBits.has_portRights rfl hright) ?_ fun _ => h
    intro t _ _ ht hta he hlow hmax hhigh
    exact ht.deltaDead hta hdelta he hlow hmax hhigh
  split
  · exact h
  next hdead =>
  have hwf := h.wf n
  generalize he : s.entries n = e at hwf hdead
  cases hwf <;> simp at hdead
  next hlow hmax hhigh => exact h.deltaDead ha hdelta he hlow hmax hhigh

theorem deltaSend (h : Inv s) (ha : s.active = true) {delta : ℤ} {backup : Bool}
    (hdelta : -2147483648 ≤ delta ∧ delta < 2147483648) :
    Inv (s.rightDelta n .send delta backup).2 := by
  simp only [Space.rightDelta]
  split
  · exact h
  next hright =>
  have hright := eq_true_of_ne_false hright
  have hurefs := h.urefs_of_send hright
  refine h.withPort fun port hobject => h.withCheck ha hobject
    (EntryBits.has_portRights rfl hright) (fun _ _ _ ht _ _ _ _ _ => ht) fun _ => ?_
  split
  · exact h
  next hunder =>
  split
  · exact h
  next hover =>
  have hunder' := urefsUnderflow_eq_false hdelta.1 (Bool.eq_false_iff.mpr hunder)
  have hover' := urefsOverflow_eq_false hurefs.2 hdelta.2 (Bool.eq_false_iff.mpr hover)
  split
  · exact h.dropSend ha hobject hright
  · exact h.adjust_send ha hright (by omega) (by simp only [urefsMax] at *; omega)

theorem rightDelta (h : Inv s) (ha : s.active = true) {right : Right} {delta : ℤ} {backup : Bool}
    (hdelta : -2147483648 ≤ delta ∧ delta < 2147483648) :
    Inv (s.rightDelta n right delta backup).2 := by
  cases right with
  | portSet => exact h.deltaPortSet ha
  | receive => exact h.deltaReceive ha
  | sendOnce => exact h.deltaSendOnce ha
  | deadName => exact h.deltaDeadName ha hdelta
  | send => exact h.deltaSend ha hdelta

theorem rightInfo (h : Inv s) (ha : s.active = true) : Inv (s.rightInfo n).2 := by
  simp only [Space.rightInfo]
  split
  · next hright =>
    refine h.withPort fun port hobject => ?_
    rcases h.check ha hobject (EntryBits.has_portRights rfl hright) with ⟨hcheck, -⟩ |
      ⟨t, _, _, hcheck, ht, -⟩
    · simpa [hcheck] using h
    · simpa [hcheck] using ht
  · exact h

/-! ### Rights that are moved out -/

theorem takeSend (h : Inv s) (ha : s.active = true) (hobject : (s.entries n).object = some port)
    (hsend : (s.entries n).bits.has .send = true) : Inv (s.takeSend port n) := by
  have hwf := h.wf n
  have htake := fun htype e => h.deallocSend (e := e) ha hobject htype
  simp only [Space.takeSend]
  generalize he : s.entries n = e at hwf hobject hsend htake
  cases hwf with
  | free | receive | sendOnce | portSet | deadName => simp at hsend
  | send hlow hmax hhigh =>
    rw [if_neg (by simp)]
    exact htake rfl _ (by simpa using .free (Nat.zero_le _) hhigh) rfl
  | sendReceive hlow hmax hhigh =>
    rw [if_pos (by simp)]
    exact h.keep ha (by simpa using .receive hhigh) (by simp [he]) (by simp [he])

omit [DecidableEq P] in
theorem copyinDead (h : Inv s) (ha : s.active = true) {msgtName : CopyinType} {deadok : Bool}
    {urefs high : ℕ} (he : s.entries n = ⟨⟨urefs, .deadName, high⟩, none, 0⟩) (hlow : 1 ≤ urefs)
    (hmax : urefs ≤ urefsMax) (hhigh : high < 2048) :
    CopyinOutcome s n msgtName (s.copyinDead n (msgtName != .copySend) deadok) := by
  simp only [Space.copyinDead]
  split
  · exact .failed h ha
  split
  · next hcopy =>
    have hcopy : msgtName = .copySend := by simpa using hcopy
    refine ⟨h, ha, fun _ _ => rfl, fun copied hr _ => ?_⟩
    obtain rfl := Option.some.inj hr
    constructor <;> simp_all
  split
  · refine ⟨h.keep ha (by simpa [he] using .free hmax hhigh) (by simp [he]) (by simp [he]), ha,
      fun m hm => Function.update_of_ne hm .., fun copied hr _ => ?_⟩
    obtain rfl := Option.some.inj hr
    constructor <;> simp [he]
  · next hone =>
    rw [he] at hone
    simp only at hone
    refine ⟨h.adjust_dead ha he hhigh hmax (by omega) (by omega), ha,
      fun m hm => Function.update_of_ne hm .., fun copied hr _ => ?_⟩
    obtain rfl := Option.some.inj hr
    have hadd := EntryBits.add_neg_one (b := ⟨urefs, .deadName, high⟩) hhigh hlow hmax
    simp only [urefsMax] at hmax
    constructor <;> simp [he, hadd]
    omega

theorem copyinReceive (h : Inv s) (ha : s.active = true) :
    CopyinOutcome s n .moveReceive (s.copyinReceive n) := by
  have hl := h.linked ha
  simp only [Space.copyinReceive]
  split
  · exact .failed h ha
  next hright =>
  have hright := eq_true_of_ne_false hright
  refine withPort_rule (.failed h ha) fun port hobject => ?_
  have hwf := h.wf n
  generalize he : s.entries n = e at hwf hright hobject
  cases hwf with
  | free | send | sendOnce | portSet | deadName => simp at hright
  | @sendReceive urefs high request port' hlow hmax hhigh =>
    obtain rfl : port' = port := Option.some.inj hobject
    rw [if_pos (by simp)]
    refine ⟨?_, ha, fun m hm => Function.update_of_ne hm .., fun _ _ hm => absurd rfl hm⟩
    refine h.edit (e := ⟨⟨urefs, .send, high⟩, some port', request⟩) n port' ha
      (.send hlow hmax hhigh) (h.owns ha (by simp [he, Entry.Names])) (by simp [he]) (by simp)
      (by simp) rfl ?_ (by simp) (by simp) (by simp)
    intro p hp
    simp [Function.update_of_ne hp]
  | @receive high request port' hhigh =>
    obtain rfl : port' = port := Option.some.inj hobject
    rw [if_neg (by simp)]
    refine ⟨?_, ha, fun m hm => Function.update_of_ne hm .., fun _ _ hm => absurd rfl hm⟩
    have hrecv := (hl.receiver port' n).mpr (by simp [he])
    have hhash := hl.hash_none hrecv
    refine h.edit (e := ⟨⟨0, .none, high⟩, none, 0⟩) n port' ha
      (.free (Nat.zero_le _) hhigh) (h.owns ha (by simp [he, Entry.Names])) (by simp [he]) (by simp)
      (by simp) rfl ?_ (by simp [hhash]) (by simp) (by simp)
    intro p hp
    simp [Function.update_of_ne hp]

theorem moveSend (h : Inv s) (ha : s.active = true) (hobject : (s.entries n).object = some port)
    (hsend : (s.entries n).bits.has .send = true) (soright : Bool)
    (hso : soright = true → (s.entries n).bits.has .receive = false) :
    CopyinOutcome s n .moveSend (if (s.entries n).bits.urefs = 1 then
      (some ⟨some port, soright⟩, s.takeSend port n)
      else (some ⟨some port, false⟩, s.adjust n (s.entries n) (-1))) := by
  have hurefs := h.urefs_of_send hsend
  have hwf := h.wf n
  split
  · refine ⟨h.takeSend ha hobject hsend, ?_, ?_, fun copied hr _ => ?_⟩
    · simp only [Space.takeSend]
      split <;> exact ha
    · intro m hm
      simp only [Space.takeSend]
      split <;> exact Function.update_of_ne hm ..
    obtain rfl := Option.some.inj hr
    simp only [Space.takeSend]
    generalize s.entries n = e at hwf hsend hobject hso
    cases hwf with
    | free | receive | sendOnce | portSet | deadName => simp at hsend
    | send => constructor <;> simp
    | sendReceive => constructor <;> simp_all
  · next hone =>
    refine ⟨h.adjust_send ha hsend (by omega) (by omega), ha,
      fun m hm => Function.update_of_ne hm .., fun copied hr _ => ?_⟩
    obtain rfl := Option.some.inj hr
    generalize s.entries n = e at hwf hsend hobject hso hurefs hone
    cases hwf with
    | free | receive | sendOnce | portSet | deadName => simp at hsend
    | @send urefs high request _ hlow hmax hhigh =>
      simp only at hone
      have hadd := EntryBits.add_neg_one (b := ⟨urefs, .send, high⟩) hhigh hlow (Nat.le_of_lt hmax)
      constructor <;> simp_all
    | @sendReceive urefs high request _ hlow hmax hhigh =>
      simp only at hone
      have hadd := EntryBits.add_neg_one (b := ⟨urefs, .sendReceive, high⟩) hhigh hlow
        (Nat.le_of_lt hmax)
      constructor <;> simp_all

omit [DecidableEq N] [DecidableEq P] in
theorem copyinMake (h : Inv s) (ha : s.active = true) {msgtName : CopyinType} :
    CopyinOutcome s n msgtName (s.copyinMake n) := by
  have hwf := h.wf n
  simp only [Space.copyinMake]
  split
  · exact .failed h ha
  next hright =>
  refine ⟨h, ha, fun _ _ => rfl, fun copied hr _ => ?_⟩
  obtain rfl := Option.some.inj hr
  generalize s.entries n = e at hwf hright
  cases hwf with
  | free | send | sendOnce | portSet | deadName => simp at hright
  | receive | sendReceive => constructor <;> simp

theorem copyinSend (h : Inv s) (ha : s.active = true) {msgtName : CopyinType} {deadok : Bool}
    (hsends : msgtName = .copySend ∨ msgtName = .moveSend ∨ msgtName = .moveSendOnce) :
    CopyinOutcome s n msgtName (s.copyinSend n msgtName deadok) := by
  have hwf := h.wf n
  simp only [Space.copyinSend]
  split
  · next hdead =>
    generalize he : s.entries n = e at hwf hdead
    cases hwf <;> simp at hdead
    next hlow hmax hhigh => exact h.copyinDead ha he hlow hmax hhigh
  split
  · exact .failed h ha
  next hright =>
  refine withPort_rule (.failed h ha) fun port hobject => h.withCheck_rule ha hobject
    (EntryBits.has_portRights rfl (eq_true_of_ne_false hright)) ?_ fun _ => ?_
  · intro t urefs high ht hta hframe he hlow hmax hhigh
    have hout : CopyinOutcome t n msgtName (t.copyinDead n (msgtName != .copySend) deadok) :=
      ht.copyinDead hta he hlow hmax hhigh
    exact ⟨hout.inv, hout.active, fun m hm => (hout.frame m hm).trans (hframe m hm), hout.refund⟩
  · simp only [Space.copyinLive]
    split
    · next hsonce =>
      subst hsonce
      split
      · exact .failed h ha
      next honce =>
      have hlinks : (s.entries n).sends = none ∧ (s.entries n).receives = none := by
        generalize s.entries n = e at hwf honce
        cases hwf <;> simp_all
      refine ⟨h.keep ha ?_ (by simp [hlinks]) (by simp [hlinks]), ha,
        fun m hm => Function.update_of_ne hm .., fun copied hr _ => ?_⟩
      · generalize s.entries n = e at hwf honce
        cases hwf <;> simp at honce
        next hhigh => simpa using .free (Nat.one_le_of_lt (Nat.lt_succ_self _)) hhigh
      · obtain rfl := Option.some.inj hr
        generalize s.entries n = e at hwf honce
        cases hwf <;> simp at honce
        constructor <;> simp
    split
    · exact .failed h ha
    next hsend =>
    have hsend := eq_true_of_ne_false hsend
    split
    · next hcopy =>
      refine ⟨h, ha, fun _ _ => rfl, fun copied hr _ => ?_⟩
      obtain rfl := Option.some.inj hr
      generalize s.entries n = e at hwf hsend hobject
      cases hwf <;> simp at hsend <;> constructor <;> simp_all
    · next honce hcopy =>
      obtain rfl : msgtName = .moveSend := by simp_all
      exact h.moveSend ha hobject hsend _ fun hso => by
        simpa using (Bool.and_eq_true_iff.mp hso).1

theorem rightCopyin (h : Inv s) (ha : s.active = true) {msgtName : CopyinType} {deadok : Bool} :
    CopyinOutcome s n msgtName (s.rightCopyin n msgtName deadok) := by
  cases msgtName with
  | makeSend | makeSendOnce => exact h.copyinMake ha
  | moveReceive => exact h.copyinReceive ha
  | copySend | moveSend | moveSendOnce => exact h.copyinSend ha (by simp)

theorem rightCopyinTwo (h : Inv s) (ha : s.active = true) :
    Inv (s.rightCopyinTwo n).2 ∧ (s.rightCopyinTwo n).2.active = true := by
  simp only [Space.rightCopyinTwo]
  split
  · exact ⟨h, ha⟩
  next hguard =>
  obtain ⟨hright, htwo⟩ := not_or.mp hguard
  have hright := eq_true_of_ne_false hright
  have hurefs := h.urefs_of_send hright
  refine withPort_rule (motive := fun r => Inv r.2 ∧ r.2.active = true) ⟨h, ha⟩ fun port hobject =>
    h.withCheck_rule (motive := fun r => Inv r.2 ∧ r.2.active = true) ha hobject
      (EntryBits.has_portRights rfl hright) ?_ fun _ => ?_
  · intro t _ _ ht hta _ _ _ _ _
    exact ⟨ht, hta⟩
  · split
    · refine ⟨h.takeSend ha hobject hright, ?_⟩
      simp only [Space.takeSend]
      split <;> exact ha
    · exact ⟨h.adjust_send ha hright (by omega) (by omega), ha⟩

omit [DecidableEq N] in
theorem portDies (h : Inv s) : Inv (s.portDies port) := by
  unfold Space.portDies
  split
  · next hrecv =>
    refine ⟨h.wf, h.whole, h.unique, fun ha => ?_⟩
    have hl := h.linked ha
    have hsame : ∀ p, ((s.setPort port ⟨false, none⟩).ports p).receiver = (s.ports p).receiver := by
      intro p
      by_cases hp : p = port
      · simp [hp, hrecv]
      · simp [Function.update_of_ne hp]
    refine ⟨hl.hash, fun p m => ?_, fun p m hm => ?_, fun p k m hk => ?_⟩
    · rw [hsame]
      exact hl.receiver p m
    · rw [hsame] at hm
      have hp : p ≠ port := by
        rintro rfl
        simp [hrecv] at hm
      simpa [Function.update_of_ne hp] using hl.alive p m hm
    · rw [hsame]
      exact hl.apart p k m hk
  · exact h

omit [DecidableEq N] in
theorem destDies (h : Inv s) (ha : s.active = true) {d : CopiedIn P} :
    Inv (s.destDies d) ∧ (s.destDies d).active = true ∧ (s.destDies d).entries = s.entries := by
  unfold Space.destDies
  split
  · exact ⟨h, ha, rfl⟩
  · refine ⟨h.portDies, ?_⟩
    unfold Space.portDies
    split
    · exact ⟨ha, rfl⟩
    · exact ⟨ha, rfl⟩

omit [DecidableEq P] in
theorem settle (h : Inv s) (ha : s.active = true) : Inv (s.settle n) := by
  unfold Space.settle
  split
  · next hfree =>
    obtain ⟨-, hsends, hreceives, -⟩ := h.of_isFree (n := n) (by simp [hfree])
    exact h.dealloc ha hsends hreceives
  · exact h

theorem check_inv (h : Inv s) (ha : s.active = true) (hobject : (s.entries n).object = some port)
    (hright : (s.entries n).bits.has .portRights = true) : Inv (s.rightCheck port n).2 := by
  rcases h.check ha hobject hright with ⟨hcheck, -⟩ | ⟨t, _, _, hcheck, ht, -⟩
  · rw [hcheck]
    exact h
  · rw [hcheck]
    exact ht

theorem active_rightCheck : (s.rightCheck port n).2.active = s.active := by
  simp only [Space.rightCheck]
  split
  · rfl
  · split <;> rfl

theorem undo_of_ne {m : N} {msgtName : CopyinType} {copied : CopiedIn P} (hm : m ≠ n) :
    (s.rightCopyinUndo n msgtName copied).entries m = s.entries m ∧
      (s.rightCopyinUndo n msgtName copied).active = s.active := by
  have hadjust : ∀ t : Space N P, (t = s ∨ t = s.adjust n (s.entries n) 1) →
      t.entries m = s.entries m ∧ t.active = s.active := by
    rintro t (rfl | rfl)
    · exact ⟨rfl, rfl⟩
    · exact ⟨Function.update_of_ne hm .., rfl⟩
  simp only [Space.rightCopyinUndo]
  split
  · exact ⟨Function.update_of_ne hm .., rfl⟩
  split
  · exact ⟨Function.update_of_ne hm .., rfl⟩
  have ht := hadjust (if msgtName = .copySend then s else s.adjust n (s.entries n) 1)
    (by split <;> simp)
  split
  · exact ht
  split
  · exact ht
  · rw [rightCheck_of_ne hm, active_rightCheck]
    exact ht

theorem undo (h : Inv s) (ha : s.active = true) {msgtName : CopyinType} {copied : CopiedIn P}
    (hr : Refund (s.entries n) msgtName copied)
    (hdead : ∀ port, copied.object = some port → (s.ports port).active = false) :
    Inv (s.rightCopyinUndo n msgtName copied) := by
  have hl := h.linked ha
  have hreceives : ∀ port, copied.object = some port → (s.entries n).receives ≠ some port := by
    intro port hport hrecv
    simpa [hdead port hport] using hl.alive port n ((hl.receiver port n).mpr hrecv)
  have hwf := h.wf n
  simp only [Space.rightCopyinUndo]
  generalize he : s.entries n = e at hwf hr hreceives
  cases hwf with
  | @free urefs high _ hhigh =>
    have hback : ∀ u, 1 ≤ u → u ≤ urefsMax →
        Inv (s.setEntry n ⟨EntryBits.asDead ⟨urefs, .none, high⟩ u, none, 0⟩) := fun u hu hmax =>
      h.keep ha (.deadName hu hmax (by simp only; omega)) (by simp [he]) (by simp [he])
    split
    · exact hback 2 (by simp) (by simp)
    · exact hback 1 (by simp) (by simp)
  | @send urefs high request port hlow hmax hhigh =>
    have hso : ¬ copied.soright = true := fun hso => by simpa using hr.spent hso
    have hobject : copied.object = some port := hr.object (by simp)
    rw [if_neg hso, if_neg (by simp), hobject]
    simp only [← he]
    rw [if_neg (by simp)]
    split
    · exact h.check_inv ha (by simp [he]) (by simp [he])
    · next hcopy =>
      have hmax' := hr.send rfl hcopy
      have hadd := EntryBits.add_one (b := ⟨urefs, .send, high⟩) hhigh hmax
      have hnext : Inv (s.adjust n (s.entries n) 1) := h.adjust_send ha (by simp [he])
        (by simp only [he]; omega) (by simp only [he] at hmax' ⊢; omega)
      exact hnext.check_inv ha (by simp [he]) (by simp [he, hadd])
  | @deadName urefs high hlow hmax hhigh =>
    have hso : ¬ copied.soright = true := fun hso => by simpa using hr.spent hso
    rw [if_neg hso, if_neg (by simp)]
    have hnext : Inv (if msgtName = .copySend then s
        else s.adjust n ⟨⟨urefs, .deadName, high⟩, none, 0⟩ 1) := by
      split
      · exact h
      · next hcopy =>
        have hmax' := hr.dead rfl hcopy
        simp only at hmax'
        rw [← he]
        exact h.adjust_dead ha he hhigh hmax (by omega) (by omega)
    split
    · exact hnext
    · rw [if_pos (by simp)]
      exact hnext
  | @receive _ _ port _ => exact absurd (by simp) (hreceives port (hr.object (by simp)))
  | @sendReceive _ _ _ port _ _ _ => exact absurd (by simp) (hreceives port (hr.object (by simp)))
  | sendOnce => exact absurd rfl hr.moved.1
  | portSet => exact absurd rfl hr.moved.2

theorem headerCopyin (h : Inv s) (ha : s.active = true) {dest reply : N}
    {destType replyType : CopyinType} {dies before : Bool} (hne : dest ≠ reply)
    (hdest : destType ≠ .moveReceive) (hreply : replyType ≠ .moveReceive) :
    Inv (s.headerCopyin dest reply destType replyType dies before) := by
  simp only [Space.headerCopyin]
  split
  · exact h
  have hout : CopyinOutcome s dest destType (s.rightCopyin dest destType false) := h.rightCopyin ha
  generalize s.rightCopyin dest destType false = first at hout
  obtain ⟨d | d, t⟩ := first
  · exact hout.inv
  simp only
  -- the death of the port of `dest` changes no entry
  have hdies : Inv (if dies = true then t.destDies d else t) ∧
      (if dies = true then t.destDies d else t).active = true ∧
      (if dies = true then t.destDies d else t).entries = t.entries := by
    split
    · exact hout.inv.destDies hout.active
    · exact ⟨hout.inv, hout.active, rfl⟩
  generalize (if dies = true then t.destDies d else t) = t₁ at hdies ⊢
  obtain ⟨hi, ha₁, hentries⟩ := hdies
  have hout' : CopyinOutcome t₁ reply replyType (t₁.rightCopyin reply replyType true) :=
    hi.rightCopyin ha₁
  generalize t₁.rightCopyin reply replyType true = second at hout'
  obtain ⟨r | r, u⟩ := second
  · exact hout'.inv
  simp only
  split
  · next hundo =>
    obtain ⟨-, hnone, hdestDead, -⟩ := hundo
    have hrefund : Refund (u.entries dest) destType d := by
      rw [hout'.frame dest hne, hentries]
      exact hout.refund d rfl hdest
    have hfirst : Inv (u.rightCopyinUndo dest destType d) := by
      refine hout'.inv.undo hout'.active hrefund fun port hport => ?_
      simpa [hport] using hdestDead
    have hframe := @undo_of_ne _ _ _ u dest _ reply destType d hne.symm
    refine hfirst.undo (hframe.2.trans hout'.active) ?_ fun port hport => ?_
    · rw [hframe.1]
      exact hout'.refund r rfl hreply
    · simp [hnone] at hport
  · have hfirst : Inv (u.settle reply) := hout'.inv.settle hout'.active
    refine hfirst.settle ?_
    unfold Space.settle
    split <;> exact hout'.active

/-! ### Rights that arrive, and renaming -/

theorem copyoutFresh (h : Inv s) (ha : s.active = true) {high : ℕ} {msgtName : CopyoutType}
    {overflow : Bool}
    (hnone : (s.ports port).active = true → msgtName ≠ .sendOnce →
      s.hash port = none ∧ (s.ports port).receiver = none) :
    Inv (s.copyoutFresh n high msgtName overflow port).2 := by
  unfold Space.copyoutFresh
  split
  · exact h
  next hfree =>
  have hhigh : high % 2048 < 2048 := Nat.mod_lt _ (by simp)
  obtain ⟨-, hsends, hreceives, hobject⟩ := h.of_isFree hfree
  split
  · exact h.dealloc ha hsends hreceives
  next hactive =>
  have hactive := eq_true_of_ne_false hactive
  cases msgtName with
  | sendOnce =>
    have hstate : ((s.setEntry n ⟨⟨0, .none, high % 2048⟩, some port, 0⟩).rightCopyout n .sendOnce
        overflow port).2 = s.setEntry n ⟨⟨1, .sendOnce, high % 2048⟩, some port, 0⟩ := by
      simp [Space.rightCopyout]
    rw [hstate]
    exact h.keep ha (.sendOnce hhigh) (by simp [hsends]) (by simp [hreceives])
  | send =>
    obtain ⟨hhash, hrecv⟩ := hnone hactive (by simp)
    have hadd := EntryBits.add_one (b := ⟨0, .send, high % 2048⟩) hhigh (by simp)
    refine h.edit (e := ⟨⟨1, .send, high % 2048⟩, some port, 0⟩) n port ha
      (.send le_rfl (by simp) hhigh) ⟨by simp [hhash], by simp [hrecv]⟩ (by simp [hobject])
      (by simp) ?_ ?_ ?_ ?_ ?_ (by simp)
    · simp_all [Space.rightCopyout]
    · simp_all [Space.rightCopyout]
    · intro p hp
      simp [Space.rightCopyout, Function.update_of_ne hp]
    · simp [Space.rightCopyout]
    · simp [Space.rightCopyout, hrecv]
  | receive =>
    obtain ⟨hhash, hrecv⟩ := hnone hactive (by simp)
    refine h.edit (e := ⟨⟨0, .receive, high % 2048⟩, some port, 0⟩) n port ha (.receive hhigh)
      ⟨by simp [hhash], by simp [hrecv]⟩ (by simp [hobject]) (by simp) ?_ ?_ ?_ ?_ ?_ ?_
    · simp [Space.rightCopyout]
    · simp [Space.rightCopyout]
    · intro p hp
      simp [Space.rightCopyout, Function.update_of_ne hp]
    · simp [Space.rightCopyout, hhash]
    · simp [Space.rightCopyout]
    · simpa [Space.rightCopyout] using hactive

theorem copyoutFound (h : Inv s) (ha : s.active = true) {msgtName : CopyoutType} {overflow : Bool}
    (hnames : (s.entries n).Names port) (hactive : (s.ports port).active = true)
    (honce : msgtName ≠ .sendOnce) (hrecv : msgtName = .receive → (s.ports port).receiver = none) :
    Inv (s.rightCopyout n msgtName overflow port).2 := by
  have hl := h.linked ha
  have howns := h.owns ha hnames
  have hwf := h.wf n
  cases msgtName with
  | sendOnce => exact absurd rfl honce
  | send =>
    simp only [Space.rightCopyout]
    split
    · next hsend =>
      have hurefs := h.urefs_of_send hsend
      split
      · split <;> exact h
      · next hroom =>
        have hsame : { s.entries n with bits.type := (s.entries n).bits.type ||| .send } =
            s.entries n := by
          generalize s.entries n = e at hwf hsend
          cases hwf <;> simp_all
        rw [hsame]
        exact h.adjust_send ha hsend (by omega) (by simp only [urefsMax] at *; omega)
    · next hsend =>
      obtain ⟨htype, hobject⟩ := hnames
      generalize he : s.entries n = e at hwf hsend htype hobject
      cases hwf <;> simp at hsend htype
      next high request _ hhigh =>
      rw [if_pos (by simp), adjust_eq s n hhigh (by simp) (by simp) (by simp)]
      exact h.keep ha (by simpa using .sendReceive le_rfl (by simp) hhigh) (by simp [he])
        (by simp [he])
  | receive =>
    have hrecv := hrecv rfl
    have hreceives : (s.entries n).receives ≠ some port := fun hr => by
      simpa [hrecv] using (hl.receiver port n).mpr hr
    obtain ⟨htype, hobject⟩ := hnames
    generalize he : s.entries n = e at hwf hreceives htype hobject
    cases hwf with
    | free | sendOnce | portSet | deadName => simp at htype
    | receive | sendReceive => simp_all
    | @send urefs high request port' hlow hmax hhigh =>
      obtain rfl : port' = port := Option.some.inj hobject
      have hhash : s.hash port' = some n := (hl.hash port' n).mpr (by simp [he])
      refine h.edit (e := ⟨⟨urefs, .sendReceive, high⟩, some port', request⟩) n port' ha
        (.sendReceive hlow hmax hhigh) howns (by simp [he]) (by simp) ?_ ?_ ?_ ?_ ?_ ?_
      · simp [Space.rightCopyout, he]
      · simp [Space.rightCopyout, he]
      · intro p hp
        simp [Space.rightCopyout, he, Function.update_of_ne hp]
      · simp [Space.rightCopyout, he, hhash]
      · simp [Space.rightCopyout]
      · simpa [Space.rightCopyout] using hactive

theorem objectCopyout (h : Inv s) (ha : s.active = true) {asked : Bool} {high : ℕ}
    {msgtName : CopyoutType} {overflow : Bool} :
    Inv (s.objectCopyout asked n high msgtName overflow port).2 := by
  have hl := h.linked ha
  unfold Space.objectCopyout
  split
  · exact h
  next hguard =>
  have hrecv : msgtName = .receive → (s.ports port).receiver = none := fun hm => by
    simpa [hm] using hguard
  split
  · next honce => exact h.copyoutFresh ha fun _ hne => absurd honce hne
  next honce =>
  by_cases hactive : (s.ports port).active = true
  · have hreverse : s.rightReverse port = ((s.ports port).receiver <|> s.hash port) := by
      simp [Space.rightReverse, hactive]
    rw [hreverse]
    split
    · next hnone =>
      refine h.copyoutFresh ha fun _ _ => ?_
      cases hr : (s.ports port).receiver <;> simp_all
    · next m hsome =>
      split
      · exact h
      have hnames : (s.entries m).Names port := by
        cases hr : (s.ports port).receiver with
        | none =>
          have hsends := (hl.hash port m).mp (by simpa [hr] using hsome)
          have hobject := Entry.object_of_sends hsends
          refine ⟨.inl ?_, hobject⟩
          by_contra hne
          simp [Entry.sends, hne] at hsends
        | some k =>
          obtain rfl : k = m := by simpa [hr] using hsome
          exact (h.wf k).names ((hl.receiver port k).mp hr)
      exact h.copyoutFound ha hnames hactive honce hrecv
  · have hreverse : s.rightReverse port = none := by simp [Space.rightReverse, hactive]
    rw [hreverse]
    exact h.copyoutFresh ha fun hactive' => absurd hactive' hactive

theorem move (h : Inv s) (ha : s.active = true) {o : N} {high : ℕ} (hne : o ≠ n)
    (hfree : (s.entries n).bits.type = .none) (hnames : (s.entries o).Names port)
    (hhigh : high < 2048) (hentries : t.entries = Function.update (Function.update s.entries o
      ⟨⟨0, .none, (s.entries o).bits.high / 8 * 8⟩, none, 0⟩) n
      { s.entries o with bits.high := high })
    (hwhole : t.carried = s.carried)
    (hother : ∀ p, p ≠ port → t.hash p = s.hash p ∧ t.ports p = s.ports p)
    (hhash : t.hash port = if (s.entries o).sends = some port then some n else none)
    (hrecv : (t.ports port).receiver = if (s.entries o).receives = some port then some n else none)
    (hactive : (t.ports port).active = (s.ports port).active) : Inv t := by
  have hl := h.linked ha
  -- first the old name is freed, then the new one takes its place
  let s₁ : Space N P :=
    { s with
      entries := Function.update s.entries o ⟨⟨0, .none, (s.entries o).bits.high / 8 * 8⟩, none, 0⟩
      hash := Function.update s.hash port none
      ports := Function.update s.ports port { s.ports port with receiver := none } }
  have hs₁ : Inv s₁ := by
    refine h.edit (t := s₁) o port ha h.wf_dealloc (h.owns ha hnames) (by simp [hnames.2]) (by simp)
      rfl rfl ?_ (by simp [s₁]) (by simp [s₁]) (by simp)
    intro p hp
    simp [s₁, Function.update_of_ne hp]
  have hobject : (s.entries n).object = none := (h.wf n).object_of_free hfree
  refine hs₁.edit n port ha ((h.wf o).withHigh hhigh) ⟨by simp [s₁], by simp [s₁]⟩ ?_
    (by simp [hnames.2]) hentries hwhole ?_ hhash hrecv ?_
  · simp [s₁, Function.update_of_ne hne.symm, hobject]
  · intro p hp
    simpa [s₁, Function.update_of_ne hp] using hother p hp
  · intro hreceives
    rw [hactive]
    exact hl.alive port o ((hl.receiver port o).mpr hreceives)

omit [DecidableEq P] in
theorem moveUnlinked (h : Inv s) (ha : s.active = true) {o : N} {high : ℕ} (hne : o ≠ n)
    (hfree : (s.entries n).bits.type = .none) (hhigh : high < 2048)
    (hsends : (s.entries o).sends = none) (hreceives : (s.entries o).receives = none) :
    Inv ((s.setEntry n { s.entries o with bits.high := high }).dealloc o) := by
  have hold : (s.setEntry n { s.entries o with bits.high := high }).entries o = s.entries o :=
    Function.update_of_ne hne ..
  have hkeep : Inv (s.setEntry n { s.entries o with bits.high := high }) := by
    refine h.keep ha ((h.wf o).withHigh hhigh) ?_ ?_
    · exact hsends.trans (by simp [Entry.sends, hfree])
    · exact hreceives.trans (by simp [Entry.receives, hfree])
  exact hkeep.dealloc ha (by rw [hold, hsends]) (by rw [hold, hreceives])

theorem checkRequest (h : Inv s) (ha : s.active = true) {o : N} (hne : o ≠ n) :
    Inv (s.checkRequest o) ∧ (s.checkRequest o).active = true ∧
      (s.checkRequest o).entries n = s.entries n := by
  unfold Space.checkRequest
  split
  · exact ⟨h, ha, rfl⟩
  next port hobject =>
  split
  · exact ⟨h, ha, rfl⟩
  · next hrequest =>
    exact ⟨h.check_inv ha hobject ((h.wf o).portRights hrequest), active_rightCheck.trans ha,
      rightCheck_of_ne hne.symm⟩

theorem rightRename (h : Inv s) (ha : s.active = true) {o : N} {high : ℕ} (hne : o ≠ n)
    (he : s.entries n = ⟨⟨0, .none, high⟩, none, 0⟩) (hhigh : high < 2048) :
    Inv (s.rightRename o n) := by
  simp only [Space.rightRename]
  obtain ⟨h₁, ha₁, hn⟩ := h.checkRequest (n := n) ha hne
  generalize s.checkRequest o = s₁ at h₁ ha₁ hn ⊢
  have hl := h₁.linked ha₁
  have hbound : high ||| (s₁.entries o).bits.high % 4 < 2048 :=
    Nat.or_lt_two_pow (n := 11) hhigh (by omega)
  have hfree : (s₁.entries n).bits.type = .none := by rw [hn, he]
  simp only [hn, he, Nat.zero_or, RightType.none, BitVec.zero_or]
  generalize high ||| (s₁.entries o).bits.high % 4 = high' at hbound
  split
  · next hnone =>
    exact h₁.moveUnlinked ha₁ hne hfree hbound (by simp [Entry.sends, hnone])
      (by simp [Entry.receives, hnone])
  next port hport =>
  split
  · next htype =>
    have hhash := (hl.hash port o).mpr (by simp [Entry.sends, htype, hport])
    refine h₁.move ha₁ hne hfree ⟨.inl htype, hport⟩ hbound ?_ rfl (fun p hp => ?_) ?_ ?_ rfl
    · simp only [Space.dealloc, Space.hashInsert, Space.hashDelete, Space.setEntry,
        Function.update_of_ne hne]
      exact Function.update_comm hne.symm ..
    · simp [Function.update_of_ne hp]
    · simp [Entry.sends, htype, hport]
    · simp [Entry.receives, htype, hl.receiver_none hhash]
  next htype =>
  split
  · next hright =>
    have hreceives : (s₁.entries o).receives = some port := by simp_all [Entry.receives]
    have hhash := hl.hash_none ((hl.receiver port o).mpr hreceives)
    refine h₁.move ha₁ hne hfree ((h₁.wf o).names hreceives) hbound ?_ rfl (fun p hp => ?_) ?_ ?_ ?_
    · simp only [Space.dealloc, Space.setPort, Space.setEntry, Function.update_of_ne hne]
      exact Function.update_comm hne.symm ..
    · simp [Function.update_of_ne hp]
    · simp [Entry.sends, htype, hhash]
    · simp [hreceives]
    · simp
  · next hright =>
    exact h₁.moveUnlinked ha₁ hne hfree hbound (by simp [Entry.sends, htype])
      (by rw [Entry.receives, if_neg hright])

theorem objectRename (h : Inv s) (ha : s.active = true) {o : N} {high : ℕ} :
    Inv (s.objectRename o n high).2 := by
  unfold Space.objectRename
  split
  · exact h
  next hfree =>
  obtain ⟨-, hsends, hreceives, -⟩ := h.of_isFree hfree
  have hhigh : high % 2048 < 2048 := Nat.mod_lt _ (by simp)
  split
  · exact h.dealloc ha hsends hreceives
  · next hnames =>
    have hnew : Inv (s.setEntry n ⟨⟨0, .none, high % 2048⟩, none, 0⟩) :=
      h.keep ha (.free (Nat.zero_le _) hhigh) (by simp [hsends]) (by simp [hreceives])
    exact hnew.rightRename ha (fun heq => hnames (.inl heq)) (Function.update_self ..) hhigh

theorem objectAlloc (h : Inv s) (ha : s.active = true) {high : ℕ} {right : Right} :
    Inv (s.objectAlloc n high right port) := by
  unfold Space.objectAlloc
  split
  · exact h
  next hfree =>
  have hhigh : high % 2048 < 2048 := Nat.mod_lt _ (by simp)
  obtain ⟨-, hsends, hreceives, hobject⟩ := h.of_isFree hfree
  cases right with
  | send | sendOnce => exact h
  | portSet => exact h.keep ha (.portSet hhigh) (by simp [hsends]) (by simp [hreceives])
  | deadName =>
    exact h.keep ha (.deadName le_rfl (by simp) hhigh) (by simp [hsends]) (by simp [hreceives])
  | receive =>
    simp only
    split
    · exact h
    next hnew =>
    obtain ⟨hdead, hhash⟩ := not_or.mp hnew
    have hhash : s.hash port = none := by simpa using hhash
    have hrecv := (h.linked ha).receiver_of_dead hdead
    refine h.edit (e := ⟨⟨0, .receive, high % 2048⟩, some port, 0⟩) n port ha (.receive hhigh)
      ⟨by simp [hhash], by simp [hrecv]⟩ (by simp [hobject]) (by simp) rfl rfl ?_ (by simp [hhash])
      (by simp) (by simp)
    intro p hp
    simp [Function.update_of_ne hp]

theorem rightClean (h : Inv s) (ha : s.active = false) {backup : Bool} :
    Inv (s.rightClean n backup) := by
  have hcancel : (s.entries n).bits.has .portRights = true → ∀ ports,
      Inv { s.dncancel n with ports := ports } := by
    intro hright ports
    have hnames : ∀ m p, ((s.dncancel n).entries m).Names p ↔ (s.entries m).Names p := by
      intro m p
      by_cases hm : m = n
      · simp [hm, Space.dncancel, Entry.Names]
      · simp [Space.dncancel, Function.update_of_ne hm]
    refine ⟨h.wf_update ((h.wf n).withRequest 0 hright), h.whole, fun m k p hm hk => ?_,
      fun htrue => ?_⟩
    · exact h.unique m k p ((hnames m p).mp hm) ((hnames k p).mp hk)
    · simp [Space.dncancel, ha] at htrue
  simp only [Space.rightClean]
  split
  · exact h
  split
  · exact h
  next hguard =>
  have hright := eq_true_of_ne_false (not_or.mp hguard).1
  split
  · exact hcancel hright _
  · exact hcancel hright _

end Inv

/-! ## Runs -/

inductive Op (N P : Type*) where
  | alloc (n : N) (high : ℕ) (right : Right) (object : P)
  | dnrequest (n : N) (immediate notify : Bool) (request : ℕ)
  | destroy (n : N) (backup : Bool)
  | dealloc (n : N)
  | delta (n : N) (right : Right) (delta : BitVec 32) (backup : Bool)
  | info (n : N)
  | copyin (n : N) (msgtName : CopyinType) (deadok : Bool)
  | copyinTwo (n : N)
  | copyinHeader (dest reply : N) (destType replyType : CopyinType) (dies before : Bool)
  | copyout (asked : Bool) (n : N) (high : ℕ) (msgtName : CopyoutType) (overflow : Bool) (port : P)
  | rename (oname nname : N) (high : ℕ)
  | portDies (port : P)
  | terminate
  | clean (n : N) (backup : Bool)
  deriving DecidableEq, Repr

def Space.onName (s : Space N P) (n : N) (t : Space N P) : Space N P := if s.isFree n then s else t

variable [DecidableEq P]

/-- An operation on an active space, or on a dead one that is being cleaned. -/
def step (s : Space N P) : Op N P → Option (Space N P)
  | .terminate => some { s with active := false }
  | .portDies port => some (s.portDies port)
  | .clean n backup => if s.active then none else some (s.rightClean n backup)
  | op => if s.active = false then none else some <| match op with
    | .alloc n high right object => s.objectAlloc n high right object
    | .dnrequest n immediate notify request =>
      s.onName n (s.rightDnrequest n immediate notify request).2
    | .destroy n backup => s.onName n (s.rightDestroy n backup).2
    | .dealloc n => s.onName n (s.rightDealloc n).2
    | .delta n right delta backup => s.onName n (s.rightDelta n right delta.toInt backup).2
    | .info n => s.onName n (s.rightInfo n).2
    | .copyin n msgtName deadok => s.onName n (s.objectCopyin n msgtName deadok)
    | .copyinTwo n => s.onName n ((s.rightCopyinTwo n).2.settle n)
    | .copyinHeader dest reply destType replyType dies before =>
      -- `MACH_MSG_TYPE_PORT_ANY_SEND`; equal names take other ways through the function
      if dest = reply ∨ destType = .moveReceive ∨ replyType = .moveReceive then s
      else s.onName dest (s.onName reply
        (s.headerCopyin dest reply destType replyType dies before))
    | .copyout asked n high msgtName overflow port =>
      (s.objectCopyout asked n high msgtName overflow port).2
    | .rename oname nname high => (s.objectRename oname nname high).2
    | _ => s

def Space.create (alive : P → Bool) : Space N P where
  active := true
  entries _ := ⟨⟨0, .none, 2040⟩, none, 0⟩
  hash _ := none
  ports port := ⟨alive port, none⟩
  carried := false

omit [DecidableEq N] [DecidableEq P] in
theorem Inv.create (alive : P → Bool) : Inv (Space.create alive : Space N P) := by
  refine .of_linked (fun _ => .free (Nat.zero_le _) (by simp)) rfl ?_
  constructor <;> simp [Space.create]

omit [DecidableEq N] [DecidableEq P] in
theorem Inv.onName {s t : Space N P} {n : N} (h : Inv s) (ht : Inv t) : Inv (s.onName n t) := by
  unfold Space.onName
  split
  · exact h
  · exact ht

omit [DecidableEq N] [DecidableEq P] in
theorem Space.of_active {s t u : Space N P}
    (h : (if s.active = false then none else some u) = some t) : s.active = true ∧ u = t := by
  split at h
  · simp at h
  · next ha => exact ⟨eq_true_of_ne_false ha, Option.some.inj h⟩

theorem Inv.step {s t : Space N P} {op : Op N P} (h : Inv s) (hstep : step s op = some t) :
    Inv t := by
  cases op with
  | terminate =>
    obtain rfl := Option.some.inj hstep
    exact ⟨h.wf, h.whole, h.unique, fun ha => by simp at ha⟩
  | portDies port =>
    obtain rfl := Option.some.inj hstep
    exact h.portDies
  | clean n backup =>
    simp only [RightEntry.step] at hstep
    split at hstep
    · simp at hstep
    · next ha =>
      obtain rfl := Option.some.inj hstep
      exact h.rightClean (Bool.eq_false_iff.mpr ha)
  | alloc n high right object =>
    obtain ⟨ha, rfl⟩ := Space.of_active hstep
    exact h.objectAlloc ha
  | dnrequest n immediate notify request =>
    obtain ⟨ha, rfl⟩ := Space.of_active hstep
    exact h.onName (h.rightDnrequest ha)
  | destroy n backup =>
    obtain ⟨ha, rfl⟩ := Space.of_active hstep
    exact h.onName (h.rightDestroy ha)
  | dealloc n =>
    obtain ⟨ha, rfl⟩ := Space.of_active hstep
    exact h.onName (h.rightDealloc ha)
  | delta n right delta backup =>
    obtain ⟨ha, rfl⟩ := Space.of_active hstep
    have hlow := BitVec.le_toInt delta
    have hhigh := BitVec.toInt_lt (x := delta)
    exact h.onName (h.rightDelta ha ⟨by simpa using hlow, by simpa using hhigh⟩)
  | info n =>
    obtain ⟨ha, rfl⟩ := Space.of_active hstep
    exact h.onName (h.rightInfo ha)
  | copyin n msgtName deadok =>
    obtain ⟨ha, rfl⟩ := Space.of_active hstep
    have hout : CopyinOutcome s n msgtName (s.rightCopyin n msgtName deadok) := h.rightCopyin ha
    exact h.onName (hout.inv.settle hout.active)
  | copyinTwo n =>
    obtain ⟨ha, rfl⟩ := Space.of_active hstep
    have htwo := h.rightCopyinTwo (n := n) ha
    exact h.onName (htwo.1.settle htwo.2)
  | copyinHeader dest reply destType replyType dies before =>
    obtain ⟨ha, rfl⟩ := Space.of_active hstep
    simp only
    split
    · exact h
    · next hguard =>
      obtain ⟨hne, hdest, hreply⟩ := by simpa only [not_or] using hguard
      exact h.onName (h.onName (h.headerCopyin ha hne hdest hreply))
  | copyout asked n high msgtName overflow port =>
    obtain ⟨ha, rfl⟩ := Space.of_active hstep
    exact h.objectCopyout ha
  | rename oname nname high =>
    obtain ⟨ha, rfl⟩ := Space.of_active hstep
    exact h.objectRename ha

/-- In every reachable state of a space the references of every entry in use fit its type, no
addition to them has reached the type bits, and no port has two entries of type SEND, RECEIVE or
SEND_RECEIVE. -/
theorem entries_well_formed (alive : P → Bool) (ops : List (Op N P)) (s : Space N P)
    (hrun : runSteps step (Space.create alive) ops = some s) :
    (∀ n, (s.entries n).bits.type ≠ .none → (s.entries n).bits.Consistent) ∧
      s.carried = false ∧
      ∀ n m port, (s.entries n).Names port → (s.entries m).Names port → n = m := by
  have h : Inv s := runSteps_invariant (fun _ _ _ => Inv.step) (.create alive) hrun
  exact ⟨fun n => (h.wf n).consistent, h.whole, h.unique⟩

/-- A receive right that gains references to its send right, and a send right whose port dies. -/
def sampleOps : List (Op (Fin 2) Bool) :=
  [.alloc 0 0 .receive true, .copyout false 1 0 .send false true, .delta 0 .send 5 false,
    .copyout false 1 0 .send false false, .dnrequest 1 false true 1, .portDies false, .info 1]

theorem entries_sample : ∃ s, runSteps step (Space.create not) sampleOps = some s ∧
    (s.entries 0).bits = ⟨6, .sendReceive, 0⟩ ∧ (s.entries 1).bits = ⟨2, .deadName, 0⟩ ∧
    s.carried = false :=
  ⟨_, rfl, by decide, by decide, (entries_well_formed not sampleOps _ rfl).2.1⟩

/-- The names that `ipc_entry_lookup` can find.  One with index 0 goes into the radix tree, where
no lookup looks for it, and `ipc_right_reverse` would fail on it. -/
structure Name where
  index : ℕ
  gen : ℕ
  nonzero : index ≠ 0
  deriving DecidableEq

/-- In a live space whose names have indices other than 0, `ipc_right_reverse` finds, for a live
port, exactly the name at which the space has a send or receive right for it. -/
theorem rightReverse_iff (alive : P → Bool) (ops : List (Op Name P)) (s : Space Name P)
    (hrun : runSteps step (Space.create alive) ops = some s) (hs : s.active = true) (port : P)
    (hport : (s.ports port).active = true) (n : Name) :
    s.rightReverse port = some n ↔ (s.entries n).Names port := by
  have h : Inv s := runSteps_invariant (fun _ _ _ => Inv.step) (.create alive) hrun
  have hl := h.linked hs
  have hreverse : s.rightReverse port = ((s.ports port).receiver <|> s.hash port) := by
    simp [Space.rightReverse, hport]
  rw [hreverse]
  constructor
  · intro hfound
    cases hr : (s.ports port).receiver with
    | some m =>
      obtain rfl : m = n := by simpa [hr] using hfound
      exact (h.wf m).names ((hl.receiver port m).mp hr)
    | none =>
      have hsends := (hl.hash port n).mp (by simpa [hr] using hfound)
      refine ⟨.inl ?_, Entry.object_of_sends hsends⟩
      by_contra htype
      simp [Entry.sends, htype] at hsends
  · intro hnames
    rcases hnames.right with hright | hright
    · have hhash := (hl.hash port n).mpr hright
      rw [hl.receiver_none hhash, hhash]
      rfl
    · rw [(hl.receiver port n).mpr hright]
      rfl

def firstName : Name := ⟨1, 4, by decide⟩

def reverseOps : List (Op Name Bool) :=
  [.alloc firstName 0 .receive true, .copyout false ⟨2, 4, by decide⟩ 0 .send false true]

theorem rightReverse_sample : ∃ s, runSteps step (Space.create not) reverseOps = some s ∧
    s.active = true ∧ s.rightReverse true = some firstName :=
  ⟨_, rfl, rfl, (rightReverse_iff not reverseOps _ rfl rfl true (by decide) firstName).mpr
    ⟨by decide, by decide⟩⟩

end Uros.Ipc.RightEntry
