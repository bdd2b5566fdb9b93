import Uros.Foundation.Transition
import Uros.Vfs.Descriptor

/-!
What a sync of a descriptor means for the bytes written through it.

A byte that `vfs_write` reported as written is in the write-behind window until the window
is emitted, and `vfs_wb_emit` drops the result of its last resort.  As long as every
window emitted is taken whole, a byte is either accepted by the server or still buffered,
and a sync buffers nothing.
-/

namespace Uros.Vfs

open Uros.Foundation

variable {β : Type*} {e e' : Entry β} {l l' : Link β} {w : Window β} {r : Send × Send}
  {a : Answers} {c : Bool} {o : ℕ} {x : β} {bytes : List β}

def Window.byteAt (w : Window β) (o : ℕ) : Option β :=
  if w.start ≤ o then w.data[o - w.start]? else none

/-- The byte of the last of some writes that covers an offset, the newest write first. -/
def lastByte : List (Window β) → ℕ → Option β
  | [], _ => none
  | w :: earlier, o => (w.byteAt o).or (lastByte earlier o)

def Link.Accepted (l : Link β) (o : ℕ) (x : β) : Prop := ∃ w ∈ l.accepted, w.byteAt o = some x

instance [DecidableEq β] (l : Link β) (o : ℕ) (x : β) : Decidable (l.Accepted o x) :=
  inferInstanceAs (Decidable (∃ w ∈ l.accepted, w.byteAt o = some x))

theorem Link.Accepted.mono (h : l.Accepted o x) (hsub : l.accepted ⊆ l'.accepted) :
    l'.Accepted o x := by
  obtain ⟨w, hw, hx⟩ := h
  exact ⟨w, hsub hw, hx⟩

theorem byteAt_append (start : ℕ) (front back : List β) :
    (⟨start, front ++ back⟩ : Window β).byteAt o = some x ↔
      (⟨start, front⟩ : Window β).byteAt o = some x ∨
        (⟨start + front.length, back⟩ : Window β).byteAt o = some x := by
  unfold Window.byteAt
  dsimp only
  by_cases hle : start ≤ o
  · by_cases hfront : o - start < front.length
    · have hback : ¬start + front.length ≤ o := by omega
      simp [hle, hback, List.getElem?_append_left hfront]
    · have hback : start + front.length ≤ o := by omega
      have hnone : front[o - start]? = none := List.getElem?_eq_none (by omega)
      simp [hle, hback, hnone, List.getElem?_append_right (Nat.le_of_not_lt hfront), Nat.sub_sub]
  · have hback : ¬start + front.length ≤ o := by omega
    simp [hle, hback]

def Delivers (c : Bool) (r : Send × Send) : Prop := (c = true ∧ r.1 = .took 0) ∨ r.2 = .took 0

instance : Decidable (Delivers c r) := inferInstanceAs (Decidable (_ ∨ _))

theorem accepted_vfsFlipcWrite (off : ℕ) (r : Send) :
    (vfsFlipcWrite l off bytes r).1.accepted =
      ⟨off, r.part (bytes.take vfsFlipcMaxRead)⟩ :: l.accepted := by
  cases r <;> rfl

theorem accepted_fsWrite (off : ℕ) (r : Send) :
    (fsWrite l off bytes r).1.accepted =
      ⟨off, r.part (bytes.take (bytes.length % 2 ^ 32))⟩ :: l.accepted := by
  cases r <;> rfl

theorem part_took (bytes : List β) : Send.part (.took 0) bytes = bytes := by
  simp [Send.part]

theorem part_of_flipc_whole (hlen : bytes.length ≤ vfsPrefetchSize) {r : Send}
    (h : (vfsFlipcWrite l o bytes r).2 = some bytes.length) :
    r.part (bytes.take vfsFlipcMaxRead) = bytes := by
  have hall : bytes.take vfsFlipcMaxRead = bytes := List.take_of_length_le hlen
  cases r with
  | lost taken => exact nomatch h
  | refused taken => exact nomatch h
  | took missing =>
    simp only [vfsFlipcWrite, hall, Option.some.injEq] at h
    rw [hall]
    simp only [Send.part, List.length_take] at h ⊢
    exact List.take_of_length_le (by omega)

theorem vfsWbEmit_channel (hne : w.data ≠ []) :
    vfsWbEmit true l w r =
      if (vfsFlipcWrite l w.start w.data r.1).2 = some w.data.length then
        (vfsFlipcWrite l w.start w.data r.1).1
      else (fsWrite (vfsFlipcWrite l w.start w.data r.1).1 w.start w.data r.2).1 := by
  simp [vfsWbEmit, hne]

theorem vfsWbEmit_mach (hne : w.data ≠ []) :
    vfsWbEmit false l w r = (fsWrite l w.start w.data r.2).1 := by
  simp [vfsWbEmit, hne]

theorem vfsWbEmit_keeps (c : Bool) (l : Link β) (w : Window β) (r : Send × Send) :
    l.accepted ⊆ (vfsWbEmit c l w r).accepted := by
  by_cases hne : w.data = []
  · simp [vfsWbEmit, hne]
  · cases c with
    | false =>
      rw [vfsWbEmit_mach hne, accepted_fsWrite]
      exact List.subset_cons_self _ _
    | true =>
      rw [vfsWbEmit_channel hne]
      split
      · rw [accepted_vfsFlipcWrite]
        exact List.subset_cons_self _ _
      · rw [accepted_fsWrite, accepted_vfsFlipcWrite]
        exact List.subset_cons_of_subset _ (List.subset_cons_self _ _)

theorem vfsWbEmit_accepts (hr : Delivers c r) (hlen : w.data.length ≤ vfsPrefetchSize)
    (hx : w.byteAt o = some x) : (vfsWbEmit c l w r).Accepted o x := by
  have hsmall : vfsPrefetchSize < 2 ^ 32 := by decide
  have hmod : w.data.length % 2 ^ 32 = w.data.length := Nat.mod_eq_of_lt (by omega)
  have hmax : w.data.take vfsFlipcMaxRead = w.data := List.take_of_length_le hlen
  have hne : w.data ≠ [] := by
    intro hnil
    simp [Window.byteAt, hnil] at hx
  have hmach (l : Link β) (hr : r.2 = .took 0) :
      w ∈ (fsWrite l w.start w.data r.2).1.accepted := by
    rw [accepted_fsWrite, hr, part_took, hmod, List.take_length]
    exact List.mem_cons_self
  refine ⟨w, ?_, hx⟩
  cases c with
  | false =>
    rw [vfsWbEmit_mach hne]
    exact hmach l (hr.resolve_left fun h => nomatch h.1)
  | true =>
    rw [vfsWbEmit_channel hne]
    split
    · next hwhole =>
      rw [accepted_vfsFlipcWrite, part_of_flipc_whole hlen hwhole]
      exact List.mem_cons_self
    · next hshort =>
      rcases hr with ⟨_, hflipc⟩ | hr
      · apply absurd _ hshort
        simp [hflipc, vfsFlipcWrite, part_took, hmax]
      · exact hmach _ hr

theorem delivers_nextEmit {rs : List (Send × Send)} (h : ∀ r ∈ rs, Delivers true r) :
    Delivers true (nextEmit rs) := by
  cases rs with
  | nil => exact .inr rfl
  | cons r rs => exact h r List.mem_cons_self

theorem wbFill_spec (fuel : ℕ) (l : Link β) (w : WbWindow β) (bytes : List β)
    (rs : List (Send × Send)) (hfuel : bytes.length ≤ fuel) (hrs : ∀ r ∈ rs, Delivers true r) :
    l.accepted ⊆ (wbFill fuel l w bytes rs).1.accepted ∧
      ∀ o x, (⟨w.start, w.data ++ bytes⟩ : Window β).byteAt o = some x →
        (wbFill fuel l w bytes rs).1.Accepted o x ∨
          (wbFill fuel l w bytes rs).2.byteAt o = some x := by
  induction fuel generalizing l w bytes rs with
  | zero =>
    obtain rfl : bytes = [] := List.length_eq_zero_iff.mp (by omega)
    rw [List.append_nil]
    exact ⟨List.Subset.refl _, fun o x hx => .inr hx⟩
  | succ fuel ih =>
    unfold wbFill
    split
    · next hempty =>
      obtain rfl : bytes = [] := List.isEmpty_iff.mp hempty
      rw [List.append_nil]
      exact ⟨List.Subset.refl _, fun o x hx => .inr hx⟩
    · next hsome =>
      have hpos : 0 < bytes.length :=
        List.length_pos_iff.mpr fun h => hsome (List.isEmpty_iff.mpr h)
      have hroom := w.fits
      have hdrop : (bytes.drop
          (min bytes.length (vfsPrefetchSize - w.data.length))).length ≤ fuel := by
        rw [List.length_drop]
        omega
      have hsplit : w.data ++ bytes =
          (w.data ++ bytes.take (min bytes.length (vfsPrefetchSize - w.data.length))) ++
            bytes.drop (min bytes.length (vfsPrefetchSize - w.data.length)) := by
        rw [List.append_assoc, List.take_append_drop]
      dsimp only
      rw [hsplit]
      split
      · exact ih _ _ _ _ hdrop hrs
      · have hlen : (w.data ++ bytes.take
            (min bytes.length (vfsPrefetchSize - w.data.length))).length ≤
              vfsPrefetchSize := by
          rw [List.length_append, List.length_take]
          omega
        obtain ⟨hkeeps, hnew⟩ := ih
          (vfsWbEmit true l ⟨w.start, w.data ++ bytes.take
            (min bytes.length (vfsPrefetchSize - w.data.length))⟩ (nextEmit rs))
          (.empty (w.start + (w.data ++ bytes.take
            (min bytes.length (vfsPrefetchSize - w.data.length))).length))
          _ rs.tail hdrop fun r hr => hrs r (List.mem_of_mem_tail hr)
        refine ⟨List.Subset.trans (vfsWbEmit_keeps _ _ _ _) hkeeps, fun o x hx => ?_⟩
        rcases (byteAt_append _ _ _).mp hx with hfront | hback
        · have hemitted := vfsWbEmit_accepts (l := l) (delivers_nextEmit hrs) hlen hfront
          exact .inl (hemitted.mono hkeeps)
        · exact hnew o x hback

theorem wbContinue_spec (offset : ℕ) (l : Link β) (w : WbWindow β) (rs : List (Send × Send))
    (hrs : ∀ r ∈ rs, Delivers true r) :
    l.accepted ⊆ (wbContinue offset l w rs).1.accepted ∧
      (∀ r ∈ (wbContinue offset l w rs).2.2, Delivers true r) ∧
      (wbContinue offset l w rs).2.1.start + (wbContinue offset l w rs).2.1.data.length = offset ∧
      ∀ o x, w.byteAt o = some x →
        (wbContinue offset l w rs).1.Accepted o x ∨
          (wbContinue offset l w rs).2.1.byteAt o = some x := by
  unfold wbContinue
  split
  · next hempty =>
    refine ⟨List.Subset.refl _, hrs, rfl, fun o x hx => ?_⟩
    simp [Window.byteAt, List.isEmpty_iff.mp hempty] at hx
  · split
    · next hnext => exact ⟨List.Subset.refl _, hrs, hnext.symm, fun o x hx => .inr hx⟩
    · refine ⟨vfsWbEmit_keeps _ _ _ _, fun r hr => hrs r (List.mem_of_mem_tail hr), rfl,
        fun o x hx => .inl ?_⟩
      exact vfsWbEmit_accepts (delivers_nextEmit hrs) (le_of_lt w.fits) hx

@[simp] theorem accepted_vfsFlipcGet (l : Link β) (connect : Bool) :
    (vfsFlipcGet l connect).1.accepted = l.accepted := by
  unfold vfsFlipcGet
  split
  · rfl
  · rfl
  · rfl
  · split <;> rfl

theorem vfsFlipcWbFlush_spec
    (hr : e.wb.data ≠ [] → Delivers (vfsFlipcGet l a.connect).2 (nextEmit a.emits)) :
    (vfsFlipcWbFlush e l a).1.wb.data = [] ∧
      l.accepted ⊆ (vfsFlipcWbFlush e l a).2.accepted ∧
      ∀ o x, e.wb.byteAt o = some x → (vfsFlipcWbFlush e l a).2.Accepted o x := by
  unfold vfsFlipcWbFlush
  split
  · next hempty =>
    have hnil := List.isEmpty_iff.mp hempty
    refine ⟨hnil, List.Subset.refl _, fun o x hx => ?_⟩
    simp [Window.byteAt, hnil] at hx
  · next hsome =>
    have hne : e.wb.data ≠ [] := fun h => hsome (List.isEmpty_iff.mpr h)
    have hkeeps := vfsWbEmit_keeps (vfsFlipcGet l a.connect).2 (vfsFlipcGet l a.connect).1
      e.wb.toWindow (nextEmit a.emits)
    rw [accepted_vfsFlipcGet] at hkeeps
    exact ⟨rfl, hkeeps, fun o x hx => vfsWbEmit_accepts (hr hne) (le_of_lt e.wb.fits) hx⟩

structure Session (β : Type*) where
  entry : Entry β
  link : Link β
  reported : List (Window β)

inductive Call (β : Type*) where
  | write (bytes : List β)
  | read (count : ℕ)
  | lseek (offset : UInt32) (whence : Whence)
  | sync
deriving DecidableEq

namespace Session

variable {s s' : Session β}

def start (l : Link β) : Session β := ⟨.fresh, l, []⟩

def report (s : Session β) (bytes : List β) : Option ℕ → List (Window β)
  | none => s.reported
  | some written => ⟨s.entry.offset, bytes.take written⟩ :: s.reported

def step (s : Session β) : Call β × Answers → Option (Session β)
  | (.write bytes, a) =>
    let done := vfsWrite s.entry s.link bytes a
    some ⟨done.2.1, done.2.2, s.report bytes done.1⟩
  | (.read count, a) =>
    let done := vfsRead s.entry s.link count a
    some { s with entry := done.2.1, link := done.2.2 }
  | (.lseek offset whence, a) =>
    let done := vfsLseek s.entry s.link offset whence a
    some { s with entry := done.2.1, link := done.2.2 }
  | (.sync, a) =>
    let done := vfsSync s.entry s.link a
    some { s with entry := done.2.1, link := done.2.2 }

/-- Every window that the call emits is taken whole by the server. -/
def Delivered (s : Session β) : Call β × Answers → Prop
  | (.write _, a) => ∀ r ∈ a.emits, Delivers true r
  | (_, a) =>
    s.entry.wb.data ≠ [] → Delivers (vfsFlipcGet s.link a.connect).2 (nextEmit a.emits)

instance (s : Session β) : (call : Call β × Answers) → Decidable (Delivered s call)
  | (.write _, a) => inferInstanceAs (Decidable (∀ r ∈ a.emits, Delivers true r))
  | (.read _, _) => inferInstanceAs (Decidable (¬(_ = []) → _))
  | (.lseek _ _, _) => inferInstanceAs (Decidable (¬(_ = []) → _))
  | (.sync, _) => inferInstanceAs (Decidable (¬(_ = []) → _))

structure Kept (s : Session β) : Prop where
  byte : ∀ o x, lastByte s.reported o = some x →
    s.link.Accepted o x ∨ s.entry.wb.byteAt o = some x
  buf : s.entry.wb.data ≠ [] → s.entry.wbBuf = true

theorem kept_start (l : Link β) : Kept (start l) := ⟨fun _ _ h => (nomatch h), fun h => absurd rfl h⟩

structure SamePending (p q : Entry β × Link β) : Prop where
  wb : q.1.wb = p.1.wb
  buf : q.1.wbBuf = p.1.wbBuf
  accepted : q.2.accepted = p.2.accepted

theorem SamePending.refl (p : Entry β × Link β) : SamePending p p := ⟨rfl, rfl, rfl⟩

theorem SamePending.trans {p q r : Entry β × Link β} (h : SamePending p q)
    (h' : SamePending q r) : SamePending p r :=
  ⟨h'.wb.trans h.wb, h'.buf.trans h.buf, h'.accepted.trans h.accepted⟩

theorem accepted_prefetchLoop (fuel : ℕ) (l : Link β) (offset : ℕ) (pf : Window β) (count : ℕ)
    (rs : List Fetch) : (prefetchLoop fuel l offset pf count rs).link.accepted = l.accepted := by
  induction fuel generalizing offset pf count rs with
  | zero => rfl
  | succ fuel ih =>
    unfold prefetchLoop
    split
    · rfl
    · split
      · next l' hfailed =>
        unfold prefetchWindow at hfailed
        split at hfailed
        · exact nomatch hfailed
        · split at hfailed
          · cases hfailed
            rfl
          · cases hfailed
            rfl
          · exact nomatch hfailed
      · dsimp only
        split
        · rfl
        · exact ih _ _ _ _

theorem samePending_fastpath (e : Entry β) (l : Link β) (count : ℕ) (a : Answers) :
    SamePending (e, l) (vfsFlipcReadFastpath e l count a).2 := by
  unfold vfsFlipcReadFastpath
  split
  · exact .refl _
  · dsimp only
    split
    · unfold vfsPrefetchRead
      split
      · exact ⟨rfl, rfl, accepted_vfsFlipcGet l _⟩
      · split
        · exact ⟨rfl, rfl, accepted_vfsFlipcGet l _⟩
        · exact ⟨rfl, rfl, (accepted_prefetchLoop _ _ _ _ _ _).trans (accepted_vfsFlipcGet l _)⟩
    · exact ⟨rfl, rfl, accepted_vfsFlipcGet l _⟩

theorem samePending_vfsRead (hdead : e.dead = false) (count : ℕ) :
    SamePending (vfsFlipcWbFlush e l a) (vfsRead e l count a).2 := by
  have hfast := samePending_fastpath (vfsFlipcWbFlush e l a).1 (vfsFlipcWbFlush e l a).2 count a
  unfold vfsRead
  rw [if_neg (by simp [hdead])]
  dsimp only
  split
  · next hsome =>
    rw [hsome] at hfast
    exact hfast
  · next hnone =>
    rw [hnone] at hfast
    apply hfast.trans
    unfold machRead
    split
    · exact ⟨rfl, rfl, rfl⟩
    · exact .refl _
    · exact ⟨rfl, rfl, rfl⟩

theorem samePending_seekTo (e : Entry β) (l : Link β) (target : UInt32) :
    SamePending (e, l) (seekTo e l target).2 := by
  unfold seekTo
  split
  · exact .refl _
  · exact ⟨rfl, rfl, rfl⟩

theorem samePending_vfsSync (e : Entry β) (l : Link β) (a : Answers) :
    SamePending (vfsFlipcWbFlush e l a) (vfsSync e l a).2 := by
  unfold vfsSync
  dsimp only
  split
  · exact .refl _
  · split
    · exact ⟨rfl, rfl, rfl⟩
    · exact .refl _
    · exact .refl _

theorem samePending_vfsFstat (hnil : e.wb.data = []) :
    SamePending (e, l) (vfsFstat e l a).2 := by
  have hflush : vfsFlipcWbFlush e l a = (e, l) := by
    simp [vfsFlipcWbFlush, hnil]
  unfold vfsFstat
  rw [hflush]
  dsimp only
  split
  · exact .refl _
  · split
    · exact ⟨rfl, rfl, rfl⟩
    · exact .refl _
    · exact .refl _

theorem samePending_vfsLseek (hnil : (vfsFlipcWbFlush e l a).1.wb.data = []) (offset : UInt32)
    (whence : Whence) : SamePending (vfsFlipcWbFlush e l a) (vfsLseek e l offset whence a).2 := by
  unfold vfsLseek
  cases whence with
  | set => exact samePending_seekTo _ _ _
  | cur => exact samePending_seekTo _ _ _
  | fromEnd =>
    have hstat := samePending_vfsFstat (l := (vfsFlipcWbFlush e l a).2) (a := a) hnil
    dsimp only
    split
    · next hnone =>
      rw [hnone] at hstat
      exact hstat
    · next hsome =>
      rw [hsome] at hstat
      exact hstat.trans (samePending_seekTo _ _ _)
  | other => exact .refl _

theorem Kept.flush (h : Kept s) {p : Entry β × Link β}
    (hr : s.entry.wb.data ≠ [] → Delivers (vfsFlipcGet s.link a.connect).2 (nextEmit a.emits))
    (hp : SamePending (vfsFlipcWbFlush s.entry s.link a) p) :
    p.1.wb.data = [] ∧ ∀ o x, lastByte s.reported o = some x → p.2.Accepted o x := by
  obtain ⟨hnil, hkeeps, hflushed⟩ := vfsFlipcWbFlush_spec hr
  rw [← hp.wb] at hnil
  refine ⟨hnil, fun o x hx => ?_⟩
  have haccepted : (vfsFlipcWbFlush s.entry s.link a).2.Accepted o x := by
    cases h.byte o x hx with
    | inl hserver => exact hserver.mono hkeeps
    | inr hwindow => exact hflushed o x hwindow
  exact haccepted.mono (by rw [hp.accepted]; exact List.Subset.refl _)

theorem Kept.of_flush (h : Kept s) {p : Entry β × Link β}
    (hr : s.entry.wb.data ≠ [] → Delivers (vfsFlipcGet s.link a.connect).2 (nextEmit a.emits))
    (hp : SamePending (vfsFlipcWbFlush s.entry s.link a) p) :
    Kept { s with entry := p.1, link := p.2 } := by
  obtain ⟨hnil, haccepted⟩ := h.flush hr hp
  exact ⟨fun o x hx => .inl (haccepted o x hx), fun hne => absurd hnil hne⟩

theorem Kept.writebehind (h : Kept s) (hrs : ∀ r ∈ a.emits, Delivers true r)
    (hl : l.accepted = s.link.accepted) (hdone : vfsWritebehind s.entry l bytes a = some (e', l')) :
    Kept ⟨e', l', ⟨s.entry.offset, bytes⟩ :: s.reported⟩ := by
  unfold vfsWritebehind at hdone
  split at hdone
  · exact nomatch hdone
  · split at hdone
    · exact nomatch hdone
    · dsimp only at hdone
      generalize hw : (if s.entry.wbBuf then s.entry.wb else .empty s.entry.wb.start) = w at hdone
      have hold (o : ℕ) (x : β) (hx : s.entry.wb.byteAt o = some x) : w.byteAt o = some x := by
        have hne : s.entry.wb.data ≠ [] := fun hnil => by simp [Window.byteAt, hnil] at hx
        rwa [← hw, if_pos (h.buf hne)]
      obtain ⟨hkeeps, hrest, hend, hcont⟩ := wbContinue_spec s.entry.offset l w a.emits hrs
      obtain ⟨hkeeps', hfill⟩ := wbFill_spec bytes.length (wbContinue s.entry.offset l w a.emits).1
        (wbContinue s.entry.offset l w a.emits).2.1 bytes
        (wbContinue s.entry.offset l w a.emits).2.2 (le_refl _) hrest
      generalize wbContinue s.entry.offset l w a.emits = first at *
      cases hdone
      constructor
      · intro o x hx
        rcases Option.or_eq_some_iff.mp hx with hnew | ⟨_, hearlier⟩
        · rw [← hend] at hnew
          exact hfill o x ((byteAt_append _ _ _).mpr (.inr hnew))
        · cases h.byte o x hearlier with
          | inl hserver =>
            exact .inl ((hserver.mono (by rw [hl]; exact List.Subset.refl _)).mono
              (List.Subset.trans hkeeps hkeeps'))
          | inr hwindow =>
            cases hcont o x (hold o x hwindow) with
            | inl hemitted => exact .inl (hemitted.mono hkeeps')
            | inr hkept => exact hfill o x ((byteAt_append _ _ _).mpr (.inl hkept))
      · exact fun _ => rfl

theorem accepted_machWrite (e : Entry β) (l : Link β) (bytes : List β) (r : Send) :
    l.accepted ⊆ (machWrite e l bytes r).2.2.accepted ∧
      ∀ written, (machWrite e l bytes r).1 = some written →
        ⟨e.offset, bytes.take written⟩ ∈ (machWrite e l bytes r).2.2.accepted := by
  have hsent : (machWrite e l bytes r).2.2.accepted =
      ⟨e.offset, r.part (bytes.take (bytes.length % 2 ^ 32))⟩ :: l.accepted := by
    cases r <;> rfl
  rw [hsent]
  refine ⟨List.subset_cons_self _ _, fun written hwritten => ?_⟩
  cases r with
  | lost taken => exact nomatch hwritten
  | refused taken => exact nomatch hwritten
  | took missing =>
    have hlen : (Send.part (.took missing) (bytes.take (bytes.length % 2 ^ 32))).length =
        written := Option.some.inj hwritten
    have hpart : bytes.take written =
        Send.part (.took missing) (bytes.take (bytes.length % 2 ^ 32)) := by
      rw [← hlen]
      simp only [Send.part, List.take_take, List.length_take]
      congr 1
      omega
    rw [hpart]
    exact List.mem_cons_self

theorem machWrite_pending (e : Entry β) (l : Link β) (bytes : List β) (r : Send) :
    (machWrite e l bytes r).2.1.wb = e.wb ∧ (machWrite e l bytes r).2.1.wbBuf = e.wbBuf := by
  cases r <;> exact ⟨rfl, rfl⟩

theorem Kept.mach (h : Kept s) (hl : l.accepted = s.link.accepted) (r : Send) :
    Kept ⟨(machWrite s.entry l bytes r).2.1, (machWrite s.entry l bytes r).2.2,
      s.report bytes (machWrite s.entry l bytes r).1⟩ := by
  obtain ⟨hkeeps, htaken⟩ := accepted_machWrite s.entry l bytes r
  obtain ⟨hwb, hbuf⟩ := machWrite_pending s.entry l bytes r
  have hearlier (o : ℕ) (x : β) (hx : lastByte s.reported o = some x) :
      (machWrite s.entry l bytes r).2.2.Accepted o x ∨
        (machWrite s.entry l bytes r).2.1.wb.byteAt o = some x := by
    rw [hwb]
    exact (h.byte o x hx).imp_left fun hserver => hserver.mono (hl ▸ hkeeps)
  constructor
  · intro o x hx
    dsimp only at hx ⊢
    cases hresult : (machWrite s.entry l bytes r).1 with
    | none =>
      rw [hresult] at hx
      exact hearlier o x hx
    | some written =>
      rw [hresult] at hx
      rcases Option.or_eq_some_iff.mp hx with hnew | ⟨_, hold⟩
      · exact .inl ⟨_, htaken written hresult, hnew⟩
      · exact hearlier o x hold
  · dsimp only
    rw [hwb, hbuf]
    exact h.buf

theorem Kept.write (h : Kept s) (bytes : List β) (hrs : ∀ r ∈ a.emits, Delivers true r) :
    Kept ⟨(vfsWrite s.entry s.link bytes a).2.1, (vfsWrite s.entry s.link bytes a).2.2,
      s.report bytes (vfsWrite s.entry s.link bytes a).1⟩ := by
  obtain ⟨_, heq⟩ | ⟨e', l', _, _, hdone, heq⟩ | ⟨_, l₀, heq, hl⟩ :=
    vfsWrite_cases s.entry s.link bytes a
  · rw [heq]
    exact h
  · rw [heq]
    simpa [report] using h.writebehind hrs (accepted_vfsFlipcGet _ _) hdone
  · rw [heq]
    apply h.mach
    rcases hl with ⟨rfl, _⟩ | ⟨rfl, _⟩
    · rfl
    · exact accepted_vfsFlipcGet _ _

theorem Kept.step {call : Call β × Answers} (h : Kept s) (hguard : Delivered s call)
    (hstep : step s call = some s') : Kept s' := by
  obtain ⟨call, a⟩ := call
  cases call with
  | write bytes =>
    cases hstep
    exact h.write _ hguard
  | read count =>
    cases hstep
    cases hdead : s.entry.dead with
    | true =>
      simp only [vfsRead, hdead, if_true]
      exact h
    | false => exact h.of_flush hguard (samePending_vfsRead hdead count)
  | lseek offset whence =>
    cases hstep
    exact h.of_flush hguard
      (samePending_vfsLseek (vfsFlipcWbFlush_spec hguard).1 offset whence)
  | sync =>
    cases hstep
    exact h.of_flush hguard (samePending_vfsSync _ _ _)

/-- When the windows emitted have all been taken whole, a sync that returns 0 leaves every
byte reported as written with the server. -/
theorem synced_bytes_accepted (l : Link β) (calls : List (Call β × Answers)) (a : Answers)
    (hmeet : StepsMeet step Delivered (start l) calls)
    (hrun : runSteps step (start l) calls = some s) (hsync : Delivered s (.sync, a)) :
    (vfsSync s.entry s.link a).1 = true →
      ∀ o x, lastByte s.reported o = some x → (vfsSync s.entry s.link a).2.2.Accepted o x := by
  intro _
  have hkept : Kept s := runSteps_invariant_of_guard (fun _ _ _ hi hg hs => hi.step hg hs)
    (kept_start l) hmeet hrun
  exact (hkept.flush hsync (samePending_vfsSync _ _ _)).2

def demoLink : Link ℕ := ⟨true, .untried, ⟨0, fun _ => 0⟩, []⟩

/-- Two writes and a jump back by two bytes; the channel breaks while the first window is
emitted, and later writes go over Mach. -/
def demoCalls : List (Call ℕ × Answers) :=
  [(.write [1, 2], .fine true true), (.write [3], .fine true true),
   (.lseek 0xfffffffe .cur, { Answers.fine true true with emits := [(.lost 1, .took 0)] }),
   (.write [4], .fine true true), (.read 5, .fine true true)]

theorem synced_bytes_accepted_demo :
    ∃ s, runSteps step (start demoLink) demoCalls = some s ∧
      (vfsSync s.entry s.link (.fine true true)).1 = true ∧
      lastByte s.reported 1 = some 4 ∧
      (vfsSync s.entry s.link (.fine true true)).2.2.Accepted 1 4 := by
  refine ⟨_, rfl, rfl, rfl, ?_⟩
  exact synced_bytes_accepted demoLink demoCalls (.fine true true) (by decide +kernel) rfl
    (by decide +kernel) rfl 1 4 rfl

/-- The server refuses the window that the sync emits, and accepts the sync. -/
theorem sync_hides_refused_window :
    ∃ s, runSteps step (start demoLink) [(.write [7], .fine true true)] = some s ∧
      (vfsSync s.entry s.link
        { Answers.fine true true with emits := [(.refused 0, .refused 0)] }).1 = true ∧
      lastByte s.reported 0 = some 7 ∧
      ¬(vfsSync s.entry s.link
        { Answers.fine true true with emits := [(.refused 0, .refused 0)] }).2.2.Accepted 0 7 :=
  ⟨_, rfl, rfl, rfl, by decide +kernel⟩

end Session

end Uros.Vfs
