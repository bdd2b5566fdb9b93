import Uros.Vfs.Descriptor

/-!
What the windows of a descriptor say about the file.

A read-ahead window that agrees with the file serves the same bytes as the file itself, and
a write-behind window is a write that is still to come.  The lemmas on `Image` say how
reads and writes compose.
-/

namespace Uros.Vfs

open Uros.Foundation

variable {β : Type*} {f : Image β} {off n m : ℕ} {bytes front back : List β}

namespace Image

theorem length_read : (f.read off n).length = min n (f.size - off) := length_slice

theorem read_add (h : off + m ≤ f.size) :
    f.read off (m + n) = f.read off m ++ f.read (off + m) n := by
  unfold read
  rw [show min (m + n) (f.size - off) = m + min n (f.size - (off + m)) by omega,
    show min m (f.size - off) = m by omega, slice_append]

end Image

def Window.Of (w : Window β) (f : Image β) : Prop := w.data = f.read w.start w.data.length

theorem Window.of_nil (start : ℕ) : (⟨start, []⟩ : Window β).Of f := by
  simp [Window.Of, Image.read, slice]

variable {w : Window β} {l : Link β}

theorem Window.Of.le_size (h : w.Of f) (hne : w.data ≠ []) :
    w.start + w.data.length ≤ f.size := by
  have hlen := congrArg List.length h
  rw [Image.length_read] at hlen
  have hpos := List.length_pos_iff.mpr hne
  omega

theorem Window.of_read (f : Image β) (off n : ℕ) : (⟨off, f.read off n⟩ : Window β).Of f := by
  unfold Window.Of
  rw [Image.length_read]
  exact congrArg (slice f.byte off) (by dsimp only; omega)

theorem Window.of_cutTo (f : Image β) (off n : ℕ) (most : Option ℕ) :
    (⟨off, cutTo most (f.read off n)⟩ : Window β).Of f := by
  cases most with
  | none => exact Window.of_read f off n
  | some most =>
    have hcut : cutTo (some most) (f.read off n) = f.read off (min most n) := by
      change (f.read off n).take most = _
      unfold Image.read
      rw [take_slice]
      congr 1
      omega
    rw [hcut]
    exact Window.of_read f off _

theorem Window.Of.give (h : w.Of f) (hstart : w.start ≤ off)
    (hend : off < w.start + w.data.length) (n : ℕ) :
    w.give off n = f.read off (min n (w.start + w.data.length - off)) ∧
      off + min n (w.start + w.data.length - off) ≤ f.size := by
  have hne : w.data ≠ [] := fun hnil => by simp [hnil] at hend; omega
  have hsize := h.le_size hne
  refine ⟨?_, by omega⟩
  unfold Window.give
  rw [h]
  unfold Image.read
  rw [drop_slice, take_slice, length_slice]
  congr 1
  · omega
  · omega

theorem prefetchWindow_got {pf pf' : Window β} {rs rs' : List Fetch} (hpf : pf.Of l.file)
    (h : prefetchWindow l off pf rs = .got pf' rs') :
    pf'.Of l.file ∧ rs' ⊆ rs ∧
      (pf'.data ≠ [] → pf'.start ≤ off ∧ off < pf'.start + pf'.data.length) ∧
      (pf'.data = [] → .gave (some 0) ∈ rs ∨ l.file.size ≤ off) := by
  unfold prefetchWindow at h
  split at h
  · next hcovered =>
    cases h
    refine ⟨hpf, List.Subset.refl _, fun _ => hcovered, fun hnil => ?_⟩
    simp [hnil] at hcovered
    omega
  · split at h
    · exact nomatch h
    · exact nomatch h
    · next most hhead =>
      cases h
      refine ⟨Window.of_cutTo _ _ _ _, fun _ => List.mem_of_mem_tail, fun hne => ?_, fun hnil => ?_⟩
      · have hpos := List.length_pos_iff.mpr hne
        exact ⟨le_refl _, by dsimp only at *; omega⟩
      · have hsize : 0 < vfsPrefetchSize := vfsPrefetchSize_pos
        cases most with
        | none =>
          right
          have hlen := congrArg List.length hnil
          simp only [cutTo, Image.length_read, List.length_nil] at hlen
          omega
        | some most =>
          have hlen := congrArg List.length hnil
          simp only [cutTo, List.length_take, Image.length_read, List.length_nil] at hlen
          by_cases hmost : most = 0
          · left
            cases rs with
            | nil => exact nomatch hhead
            | cons r rs =>
              rw [List.headD_cons] at hhead
              rw [hhead, hmost]
              exact List.mem_cons_self
          · right
            omega

theorem prefetchWindow_failed {pf : Window β} {rs : List Fetch} {l' : Link β}
    (h : prefetchWindow l off pf rs = .failed l') : l'.file = l.file ∧ rs ≠ [] := by
  unfold prefetchWindow at h
  split at h
  · exact nomatch h
  · split at h
    · next hhead =>
      cases h
      exact ⟨rfl, fun hnil => by simp [hnil] at hhead⟩
    · next hhead =>
      cases h
      exact ⟨rfl, fun hnil => by simp [hnil] at hhead⟩
    · exact nomatch h

structure Prefetched.Serves (p : Prefetched β) (l : Link β) (off count : ℕ) (rs : List Fetch) :
    Prop where
  file : p.link.file = l.file
  window : p.pf.Of l.file
  out : p.out = l.file.read off p.out.length
  le : p.out.length ≤ count
  enough : .gave (some 0) ∉ rs →
    p.err = true ∨ p.out.length = count ∨ l.file.size ≤ off + p.out.length
  fine : rs = [] → p.err = false

theorem serves_nothing {count : ℕ} {rs : List Fetch} {pf : Window β} (hpf : pf.Of l.file)
    (henough : .gave (some 0) ∉ rs → count = 0 ∨ l.file.size ≤ off) :
    (⟨l, pf, [], false⟩ : Prefetched β).Serves l off count rs where
  file := rfl
  window := hpf
  out := by simp [Image.read, slice]
  le := Nat.zero_le _
  enough := fun hrs => .inr ((henough hrs).imp (fun h => h.symm) fun h => h)
  fine := fun _ => rfl

theorem prefetchLoop_serves (fuel : ℕ) (l : Link β) (off : ℕ) (pf : Window β) (count : ℕ)
    (rs : List Fetch) (hfuel : count ≤ fuel) (hpf : pf.Of l.file) :
    (prefetchLoop fuel l off pf count rs).Serves l off count rs := by
  induction fuel generalizing off pf count rs with
  | zero => exact serves_nothing hpf fun _ => .inl (by omega)
  | succ fuel ih =>
    unfold prefetchLoop
    split
    · next hzero => exact serves_nothing hpf fun _ => .inl hzero
    · split
      · next l' hfailed =>
        obtain ⟨hfile, hrs⟩ := prefetchWindow_failed hfailed
        exact ⟨hfile, hpf, by simp [Image.read, slice], Nat.zero_le _, fun _ => .inl rfl,
          fun hnil => absurd hnil hrs⟩
      · next hcount pf' rs' hgot =>
        obtain ⟨hwindow, hsub, hcovers, hempty⟩ := prefetchWindow_got hpf hgot
        dsimp only
        split
        · next hnil =>
          apply serves_nothing hwindow
          intro hrs
          exact .inr ((hempty (List.isEmpty_iff.mp hnil)).resolve_left hrs)
        · next hne =>
          obtain ⟨hstart, hend⟩ := hcovers fun hnil => hne (List.isEmpty_iff.mpr hnil)
          obtain ⟨hgive, hinside⟩ := hwindow.give hstart hend count
          generalize hk : min count (pf'.start + pf'.data.length - off) = k at hgive hinside
          have hlen : (pf'.give off count).length = k := by
            rw [hgive, Image.length_read]
            omega
          rw [hlen]
          have hrest := ih (off + k) pf' (count - k) rs' (by omega) hwindow
          have hle := hrest.le
          constructor
          · exact hrest.file
          · exact hrest.window
          · dsimp only
            rw [List.length_append, hlen, Image.read_add hinside, ← hgive, ← hrest.out]
          · dsimp only
            rw [List.length_append, hlen]
            omega
          · intro hrs
            dsimp only
            rw [List.length_append, hlen]
            rcases hrest.enough fun hmem => hrs (hsub hmem) with herr | hall | heof
            · exact .inl herr
            · exact .inr (.inl (by omega))
            · exact .inr (.inr (by omega))
          · intro hnil
            subst hnil
            exact hrest.fine (List.subset_nil.mp hsub)

variable {e e' : Entry β} {l' : Link β} {a : Answers} {count : ℕ} {data : List β}

structure ReadOf (e : Entry β) (f : Image β) (count : ℕ) (data : List β) (e' : Entry β)
    (l' : Link β) : Prop where
  bytes : data = f.read e.offset data.length
  le : data.length ≤ count
  offset : e'.offset = e.offset + data.length
  window : e'.pf.Of f
  file : l'.file = f
  dead : e'.dead = e.dead

theorem ReadOf.congr {e₁ : Entry β} (h : ReadOf e₁ f count data e' l')
    (hoffset : e₁.offset = e.offset) (hdead : e₁.dead = e.dead) :
    ReadOf e f count data e' l' where
  bytes := hoffset ▸ h.bytes
  le := h.le
  offset := hoffset ▸ h.offset
  window := h.window
  file := h.file
  dead := h.dead.trans hdead

structure Unread (e : Entry β) (f : Image β) (e' : Entry β) (l' : Link β) : Prop where
  offset : e'.offset = e.offset
  window : e'.pf.Of f
  file : l'.file = f
  dead : e'.dead = e.dead

@[simp] theorem file_vfsFlipcGet (l : Link β) (connect : Bool) :
    (vfsFlipcGet l connect).1.file = l.file := by
  unfold vfsFlipcGet
  split
  · rfl
  · rfl
  · rfl
  · split <;> rfl

theorem vfsFlipcReadFastpath_cases (count : ℕ) (hpf : e.pf.Of l.file) :
    (∃ e' l', vfsFlipcReadFastpath e l count a = (none, e', l') ∧ Unread e l.file e' l') ∨
      ∃ (l₀ : Link β) (p : Prefetched β), p.Serves l₀ e.offset count a.fetches ∧
        l₀.file = l.file ∧
        vfsFlipcReadFastpath e l count a =
          (if p.out.isEmpty && p.err then none else some p.out,
            { e with pfBuf := true, pf := p.pf, offset := e.offset + p.out.length }, p.link) := by
  have hget := file_vfsFlipcGet l a.connect
  unfold vfsFlipcReadFastpath
  split
  · exact .inl ⟨e, l, rfl, rfl, hpf, rfl, rfl⟩
  · dsimp only
    split
    · unfold vfsPrefetchRead
      split
      · exact .inl ⟨e, _, rfl, rfl, hpf, hget, rfl⟩
      · split
        · exact .inl ⟨e, _, rfl, rfl, hpf, hget, rfl⟩
        · refine .inr ⟨(vfsFlipcGet l a.connect).1, _, ?_, hget, rfl⟩
          apply prefetchLoop_serves _ _ _ _ _ _ (le_refl _)
          rw [hget]
          split
          · exact hpf
          · exact Window.of_nil _
    · exact .inl ⟨e, _, rfl, rfl, hpf, hget, rfl⟩

theorem Unread.machRead {e₀ : Entry β} {l₀ : Link β} (h : Unread e f e₀ l₀)
    (hread : machRead e₀ l₀ count a.fetch = (some data, e', l')) :
    ReadOf e f count data e' l' ∧
      (a.fetch ≠ .gave (some 0) → 0 < count → count < 2 ^ 32 → data = [] → f.size ≤ e.offset) := by
  unfold Vfs.machRead fsRead at hread
  cases hfetch : a.fetch with
  | lost =>
    rw [hfetch] at hread
    exact nomatch hread
  | refused =>
    rw [hfetch] at hread
    exact nomatch hread
  | gave most =>
    rw [hfetch] at hread
    cases hread
    rw [h.file, h.offset]
    have hof := Window.of_cutTo f e.offset (count % 2 ^ 32) most
    refine ⟨⟨hof, ?_, rfl, h.window, h.file, h.dead⟩, fun hne hpos hlt hnil => ?_⟩
    · have hmod := Nat.mod_le count (2 ^ 32)
      cases most with
      | none =>
        rw [cutTo, Image.length_read]
        omega
      | some most =>
        rw [cutTo, List.length_take, Image.length_read]
        omega
    · have hlen := congrArg List.length hnil
      rw [Nat.mod_eq_of_lt hlt] at hlen
      cases most with
      | none =>
        rw [cutTo, Image.length_read, List.length_nil] at hlen
        omega
      | some most =>
        have hmost : most ≠ 0 := by
          rintro rfl
          exact hne rfl
        rw [cutTo, List.length_take, Image.length_read, List.length_nil] at hlen
        omega

theorem Prefetched.Serves.unread {p : Prefetched β} {l₀ : Link β} {rs : List Fetch}
    (h : p.Serves l₀ e.offset count rs) (hfile : l₀.file = f) (hnil : p.out = []) :
    Unread e f { e with pfBuf := true, pf := p.pf, offset := e.offset + p.out.length } p.link where
  offset := by simp [hnil]
  window := hfile ▸ h.window
  file := h.file.trans hfile
  dead := rfl

theorem Prefetched.Serves.readOf {p : Prefetched β} {l₀ : Link β} {rs : List Fetch}
    (h : p.Serves l₀ e.offset count rs) (hfile : l₀.file = f) :
    ReadOf e f count p.out
      { e with pfBuf := true, pf := p.pf, offset := e.offset + p.out.length } p.link where
  bytes := hfile ▸ h.out
  le := h.le
  offset := rfl
  window := hfile ▸ h.window
  file := h.file.trans hfile
  dead := rfl

theorem vfsFlipcWbFlush_entry (e : Entry β) (l : Link β) (a : Answers) :
    (vfsFlipcWbFlush e l a).1.offset = e.offset ∧ (vfsFlipcWbFlush e l a).1.pf = e.pf ∧
      (vfsFlipcWbFlush e l a).1.dead = e.dead := by
  unfold vfsFlipcWbFlush
  split <;> exact ⟨rfl, rfl, rfl⟩

/-- A read that succeeds returns bytes of the file as the flush has left it, from the offset on, and
none only at the end of the file, if the server never answers with zero bytes. -/
theorem vfsRead_readOf (hdead : e.dead = false) (hpf : e.pf.Of (vfsFlipcWbFlush e l a).2.file)
    (h : vfsRead e l count a = (some data, e', l')) :
    ReadOf e (vfsFlipcWbFlush e l a).2.file count data e' l' ∧
      (.gave (some 0) ∉ a.fetches → a.fetch ≠ .gave (some 0) → 0 < count → count < 2 ^ 32 →
        data = [] → (vfsFlipcWbFlush e l a).2.file.size ≤ e.offset) := by
  obtain ⟨hoffset, hwindow, hlive⟩ := vfsFlipcWbFlush_entry e l a
  unfold vfsRead at h
  rw [if_neg (by simp [hdead])] at h
  dsimp only at h
  generalize vfsFlipcWbFlush e l a = flushed at *
  rw [← hwindow] at hpf
  obtain ⟨e₀, l₀, hfast, hunread⟩ | ⟨l₀, p, hserves, hfile, hfast⟩ :=
    vfsFlipcReadFastpath_cases (a := a) count hpf
  · rw [hfast] at h
    obtain ⟨hread, hnil⟩ := hunread.machRead h
    exact ⟨hread.congr hoffset hlive, fun _ => hoffset ▸ hnil⟩
  · rw [hfast] at h
    by_cases hfailed : (p.out.isEmpty && p.err) = true
    · rw [if_pos hfailed] at h
      have hout : p.out = [] := by simpa using (Bool.and_eq_true_iff.mp hfailed).1
      obtain ⟨hread, hnil⟩ := (hserves.unread hfile hout).machRead h
      exact ⟨hread.congr hoffset hlive, fun _ => hoffset ▸ hnil⟩
    · rw [if_neg hfailed] at h
      cases h
      refine ⟨(hserves.readOf hfile).congr hoffset hlive, fun hrs _ hpos _ hnil => ?_⟩
      rw [← hfile, ← hoffset]
      rcases hserves.enough hrs with herr | hall | heof
      · exact absurd (by simp [hnil, herr]) hfailed
      · simp only [hnil, List.length_nil] at hall
        omega
      · simpa [hnil] using heof

end Uros.Vfs
