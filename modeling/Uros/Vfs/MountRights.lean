import Mathlib.Data.List.Perm.Subperm
import Uros.Foundation.Bytes
import Uros.Foundation.Transition
import Uros.Vfs.Descriptor

/-!
The send rights that libvfs holds on file servers (`libvfs.c`).

Every lookup of a mount hands the task one more user reference on the server's port; the
mount cache and the descriptors hold port names without counting who uses them.  `refs` is
the list of references the task holds, one element each.  A port is named by itself: its
name in the task does not change while the task holds a reference.
-/

namespace Uros.Vfs

open Uros.Foundation

abbrev FsPort := ℕ

abbrev Pfx := { bytes : Bytes // bytes.length < 80 }

inductive FsReply where
  | died
  | failed
  | done (handle : ℕ)
  deriving DecidableEq

/-- One pass of the loop in `vfs_open` and `vfs_stat`: the mounts that are registered before
it, the mount point the name server finds for the path, and the answer to the RPC. -/
structure MountAttempt where
  changes : List (Pfx × FsPort)
  lookup : Option Pfx
  reply : FsReply

structure VfsFd where
  dead : Bool
  fsPort : FsPort

abbrev CacheSlot := Option (Pfx × FsPort)

structure MountRights where
  registry : List (Pfx × FsPort)
  cache : List CacheSlot
  fds : Fin vfsMaxFds → Option VfsFd
  refs : List FsPort

inductive MountEvent where
  | register (p : Pfx) (port : FsPort)
  | vfsOpen (first second : MountAttempt)
  | vfsStat (first second : MountAttempt)
  | vfsClose (fd : Fin vfsMaxFds)

def refreshSlot (matched : Pfx) (port : FsPort) :
    List CacheSlot → Option (FsPort × List CacheSlot)
  | [] => none
  | none :: rest => (refreshSlot matched port rest).map fun r => (r.1, none :: r.2)
  | some (p, old) :: rest =>
    if p = matched then some (old, some (p, port) :: rest)
    else (refreshSlot matched port rest).map fun r => (r.1, some (p, old) :: r.2)

def insertSlot (matched : Pfx) (port : FsPort) : List CacheSlot → List CacheSlot
  | [] => []
  | none :: rest => some (matched, port) :: rest
  | some e :: rest => some e :: insertSlot matched port rest

namespace MountRights

def init : MountRights where
  registry := []
  cache := List.replicate 16 none
  fds := fun _ => none
  refs := []

variable (s : MountRights)

def register (p : Pfx) (port : FsPort) : MountRights :=
  { s with registry := (p, port) :: s.registry.filter (·.1 ≠ p) }

def registerAll (changes : List (Pfx × FsPort)) : MountRights :=
  changes.foldl (fun s c => s.register c.1 c.2) s

def netnameLookUpMount (lookup : Option Pfx) : Option (Pfx × FsPort) :=
  lookup.bind fun p => (s.registry.find? (·.1 = p)).filter (·.2 ≠ 0)

def vfsResolveMount (lookup : Option Pfx) : MountRights × Option FsPort :=
  match s.netnameLookUpMount lookup with
  | none => (s, none)
  | some (matched, port) =>
    let refs := port :: s.refs
    match refreshSlot matched port s.cache with
    | some (old, cache) =>
      ({ s with
          cache := cache
          refs := if port ≠ old then refs.erase old else refs.erase port }, some port)
    | none => ({ s with cache := insertSlot matched port s.cache, refs := refs }, some port)

def vfsMarkPortDead (port : FsPort) : MountRights :=
  { s with
    fds := fun fd => (s.fds fd).map fun e => if e.fsPort = port then { e with dead := true } else e
    cache := s.cache.map fun e => if e.any (·.2 = port) then none else e }

def callServer (s : MountRights) : List MountAttempt → MountRights × Option (FsPort × FsReply)
  | [] => (s, none)
  | a :: rest =>
    match (s.registerAll a.changes).vfsResolveMount a.lookup with
    | (s', none) => (s', none)
    | (s', some port) =>
      if a.reply = .died then (s'.vfsMarkPortDead port).callServer rest
      else (s', some (port, a.reply))

def vfsOpen (first second : MountAttempt) : MountRights :=
  match s.callServer [first, second] with
  | (s', some (port, .done handle)) =>
    if handle = 0 then s'
    else
      match vfsFdAlloc s'.fds with
      | none => s'
      | some fd => { s' with fds := Function.update s'.fds fd (some ⟨false, port⟩) }
  | (s', _) => s'

def step (s : MountRights) : MountEvent → Option MountRights
  | .register p port => some (s.register p port)
  | .vfsOpen first second => some (s.vfsOpen first second)
  | .vfsStat first second => some (s.callServer [first, second]).1
  | .vfsClose fd => some { s with fds := Function.update s.fds fd none }

def portOpen (port : FsPort) : Bool :=
  (List.finRange vfsMaxFds).any fun fd => (s.fds fd).any fun e => !e.dead && e.fsPort = port

def keepsOpen (lookup : Option Pfx) : Bool :=
  match s.netnameLookUpMount lookup with
  | none => true
  | some (matched, port) =>
    s.cache.all fun slot => slot.all fun e =>
      e.1 ≠ matched || e.2 = port || !s.portOpen e.2

def keepsOpenAll (s : MountRights) : List MountAttempt → Bool
  | [] => true
  | a :: rest =>
    (s.registerAll a.changes).keepsOpen a.lookup &&
      match (s.registerAll a.changes).vfsResolveMount a.lookup with
      | (_, none) => true
      | (s', some port) =>
        a.reply ≠ .died || (s'.vfsMarkPortDead port).keepsOpenAll rest

def hasRoom (lookup : Option Pfx) : Bool :=
  match s.netnameLookUpMount lookup with
  | none => true
  | some (matched, _) => s.cache.any fun slot => slot.all fun e => e.1 = matched

/-- No port is taken from an open descriptor. -/
def KeepsOpen (s : MountRights) : MountEvent → Prop
  | .vfsOpen first second | .vfsStat first second => s.keepsOpenAll [first, second] = true
  | .register _ _ | .vfsClose _ => True

/-- The cache has room, and no server is found dead. -/
def Cached (s : MountRights) : MountEvent → Prop
  | .vfsOpen first _ | .vfsStat first _ =>
    first.reply ≠ .died ∧ (s.registerAll first.changes).hasRoom first.lookup = true
  | .register _ _ | .vfsClose _ => True

instance KeepsOpen.decidable (s : MountRights) : (e : MountEvent) → Decidable (s.KeepsOpen e)
  | .vfsOpen _ _ | .vfsStat _ _ => inferInstanceAs (Decidable (_ = true))
  | .register _ _ | .vfsClose _ => .isTrue trivial

instance Cached.decidable (s : MountRights) : (e : MountEvent) → Decidable (s.Cached e)
  | .vfsOpen _ _ | .vfsStat _ _ => inferInstanceAs (Decidable (_ ∧ _))
  | .register _ _ | .vfsClose _ => .isTrue trivial

end MountRights

def entries (cache : List CacheSlot) : List (Pfx × FsPort) := cache.filterMap id

@[simp] theorem entries_nil : entries [] = [] := rfl

@[simp] theorem entries_none (cache : List CacheSlot) : entries (none :: cache) = entries cache :=
  rfl

@[simp] theorem entries_some (e : Pfx × FsPort) (cache : List CacheSlot) :
    entries (some e :: cache) = e :: entries cache := rfl

theorem refreshSlot_some {matched : Pfx} {port old : FsPort} {cache cache' : List CacheSlot}
    (h : refreshSlot matched port cache = some (old, cache')) :
    ∃ l₁ l₂, entries cache = l₁ ++ (matched, old) :: l₂ ∧
      entries cache' = l₁ ++ (matched, port) :: l₂ := by
  induction cache generalizing cache' with
  | nil => cases h
  | cons slot rest ih =>
    cases slot with
    | none =>
      obtain ⟨⟨old', rest'⟩, hr, heq⟩ := Option.map_eq_some_iff.mp h
      obtain ⟨rfl, rfl⟩ := Prod.mk.inj heq
      obtain ⟨l₁, l₂, h₁, h₂⟩ := ih hr
      exact ⟨l₁, l₂, h₁, h₂⟩
    | some e =>
      obtain ⟨p, q⟩ := e
      simp only [refreshSlot] at h
      split at h
      · next hp =>
        obtain ⟨rfl, rfl⟩ := Prod.mk.inj (Option.some.inj h)
        exact ⟨[], entries rest, by simp [hp], by simp [hp]⟩
      · obtain ⟨⟨old', rest'⟩, hr, heq⟩ := Option.map_eq_some_iff.mp h
        obtain ⟨rfl, rfl⟩ := Prod.mk.inj heq
        obtain ⟨l₁, l₂, h₁, h₂⟩ := ih hr
        exact ⟨(p, q) :: l₁, l₂, by simp [h₁], by simp [h₂]⟩

theorem refreshSlot_none {matched : Pfx} {port : FsPort} {cache : List CacheSlot}
    (h : refreshSlot matched port cache = none) : ∀ e ∈ entries cache, e.1 ≠ matched := by
  induction cache with
  | nil => simp
  | cons slot rest ih =>
    cases slot with
    | none => exact ih (Option.map_eq_none_iff.mp h)
    | some e =>
      obtain ⟨p, q⟩ := e
      simp only [refreshSlot] at h
      split at h
      · cases h
      · next hp =>
        intro e he
        rcases List.mem_cons.mp he with rfl | he
        · exact hp
        · exact ih (Option.map_eq_none_iff.mp h) e he

theorem insertSlot_cases (matched : Pfx) (port : FsPort) (cache : List CacheSlot) :
    (none ∉ cache ∧ insertSlot matched port cache = cache) ∨
      ∃ l₁ l₂, entries cache = l₁ ++ l₂ ∧
        entries (insertSlot matched port cache) = l₁ ++ (matched, port) :: l₂ := by
  induction cache with
  | nil => exact .inl ⟨by simp, rfl⟩
  | cons slot rest ih =>
    cases slot with
    | none => exact .inr ⟨[], entries rest, rfl, rfl⟩
    | some e =>
      rcases ih with ⟨hfull, hsame⟩ | ⟨l₁, l₂, h₁, h₂⟩
      · exact .inl ⟨by simpa using hfull, by rw [insertSlot, hsame]⟩
      · exact .inr ⟨e :: l₁, l₂, by simp [h₁], by simp [insertSlot, h₂]⟩

namespace MountRights

variable {s s' : MountRights} {lookup : Option Pfx} {matched : Pfx} {port : FsPort}

def cachePorts (s : MountRights) : List FsPort := (entries s.cache).map Prod.snd

inductive Resolved (s : MountRights) (matched : Pfx) (port : FsPort) (s' : MountRights) : Prop
  | refreshed (l₁ l₂ : List (Pfx × FsPort)) (old : FsPort)
      (before : entries s.cache = l₁ ++ (matched, old) :: l₂)
      (after : entries s'.cache = l₁ ++ (matched, port) :: l₂)
      (refs : s'.refs = (port :: s.refs).erase old)
  | inserted (l₁ l₂ : List (Pfx × FsPort)) (absent : ∀ e ∈ entries s.cache, e.1 ≠ matched)
      (before : entries s.cache = l₁ ++ l₂)
      (after : entries s'.cache = l₁ ++ (matched, port) :: l₂) (refs : s'.refs = port :: s.refs)
  | bypassed (absent : ∀ e ∈ entries s.cache, e.1 ≠ matched) (full : none ∉ s.cache)
      (same : s'.cache = s.cache) (refs : s'.refs = port :: s.refs)

theorem vfsResolveMount_spec (hfound : s.netnameLookUpMount lookup = some (matched, port)) :
    ∃ s', s.vfsResolveMount lookup = (s', some port) ∧ s'.fds = s.fds ∧
      s'.registry = s.registry ∧ Resolved s matched port s' := by
  unfold vfsResolveMount
  rw [hfound]
  simp only
  split
  · next old cache hr =>
    obtain ⟨l₁, l₂, h₁, h₂⟩ := refreshSlot_some hr
    refine ⟨_, rfl, rfl, rfl, .refreshed l₁ l₂ old h₁ h₂ ?_⟩
    simp only
    split
    · rfl
    · next heq => rw [not_not.mp heq]
  · next hr =>
    rcases insertSlot_cases matched port s.cache with ⟨hfull, hsame⟩ | ⟨l₁, l₂, h₁, h₂⟩
    · exact ⟨_, rfl, rfl, rfl, .bypassed (refreshSlot_none hr) hfull hsame rfl⟩
    · exact ⟨_, rfl, rfl, rfl, .inserted l₁ l₂ (refreshSlot_none hr) h₁ h₂ rfl⟩

theorem vfsResolveMount_none (hfound : s.netnameLookUpMount lookup = none) :
    s.vfsResolveMount lookup = (s, none) := by
  unfold vfsResolveMount
  rw [hfound]

theorem registerAll_same (s : MountRights) (changes : List (Pfx × FsPort)) :
    (s.registerAll changes).cache = s.cache ∧ (s.registerAll changes).fds = s.fds ∧
      (s.registerAll changes).refs = s.refs := by
  induction changes generalizing s with
  | nil => exact ⟨rfl, rfl, rfl⟩
  | cons change changes ih => exact ih (s.register change.1 change.2)

structure Held (s : MountRights) : Prop where
  cache : ∀ port, s.cachePorts.count port ≤ s.refs.count port
  fds : ∀ fd e, s.fds fd = some e → e.dead = false → e.fsPort ∈ s.refs

theorem Held.congr (hs : s.Held) (hcache : s'.cache = s.cache) (hfds : s'.fds = s.fds)
    (hrefs : s'.refs = s.refs) : s'.Held := by
  refine ⟨fun port => ?_, fun fd e he hlive => ?_⟩
  · rw [cachePorts, hcache, hrefs]
    exact hs.cache port
  · rw [hrefs]
    exact hs.fds fd e (hfds ▸ he) hlive

theorem not_portOpen {fd : Fin vfsMaxFds} {e : VfsFd} (h : s.portOpen port = false)
    (he : s.fds fd = some e) (hlive : e.dead = false) : e.fsPort ≠ port := by
  intro heq
  simp only [portOpen, List.any_eq_false] at h
  exact h fd (List.mem_finRange fd) (by simp [he, hlive, heq])

theorem mem_entries {cache : List CacheSlot} {e : Pfx × FsPort} :
    e ∈ entries cache ↔ some e ∈ cache := by
  simp [entries]

theorem Held.resolve (hs : s.Held) (hfound : s.netnameLookUpMount lookup = some (matched, port))
    (hkeep : s.keepsOpen lookup = true) (hfds : s'.fds = s.fds) (hr : Resolved s matched port s') :
    s'.Held ∧ port ∈ s'.refs := by
  have hcount {l₁ l₂ : List (Pfx × FsPort)} {e : Pfx × FsPort} (q : FsPort) :
      ((l₁ ++ e :: l₂).map Prod.snd).count q =
        ((l₁ ++ l₂).map Prod.snd).count q + if e.2 = q then 1 else 0 := by
    simp only [List.map_append, List.map_cons, List.count_append, List.count_cons, beq_iff_eq]
    omega
  cases hr with
  | refreshed l₁ l₂ old before after refs =>
    have hcache (q : FsPort) : s'.cachePorts.count q ≤ s'.refs.count q := by
      have hold := hs.cache q
      rw [cachePorts, before, hcount] at hold
      rw [cachePorts, after, hcount, refs, List.count_erase, List.count_cons]
      simp only [beq_iff_eq] at hold ⊢
      split at hold <;> split <;> omega
    have hpos : 0 < s'.cachePorts.count port := by
      rw [cachePorts, after, hcount]
      simp
    refine ⟨⟨hcache, fun fd e he hlive => ?_⟩,
      List.count_pos_iff.mp (hpos.trans_le (hcache port))⟩
    rw [hfds] at he
    have hmem := hs.fds fd e he hlive
    rw [refs]
    by_cases hold : old = port
    · rw [hold, List.erase_cons_head]
      exact hmem
    · have hne : e.fsPort ≠ old := by
        refine not_portOpen ?_ he hlive
        have hall := hkeep
        simp only [keepsOpen, hfound, List.all_eq_true] at hall
        have := hall (some (matched, old)) (mem_entries.mp (by simp [before]))
        simpa [hold] using this
      exact (List.mem_erase_of_ne hne).mpr (List.mem_cons_of_mem _ hmem)
  | inserted l₁ l₂ absent before after refs =>
    refine ⟨⟨fun q => ?_, fun fd e he hlive => ?_⟩, by simp [refs]⟩
    · have hold := hs.cache q
      rw [cachePorts, before] at hold
      rw [cachePorts, after, hcount, refs, List.count_cons]
      simp only [beq_iff_eq]
      omega
    · rw [refs]
      exact List.mem_cons_of_mem _ (hs.fds fd e (hfds ▸ he) hlive)
  | bypassed absent full same refs =>
    refine ⟨⟨fun q => ?_, fun fd e he hlive => ?_⟩, by simp [refs]⟩
    · rw [cachePorts, same, refs, List.count_cons]
      exact (hs.cache q).trans (Nat.le_add_right _ _)
    · rw [refs]
      exact List.mem_cons_of_mem _ (hs.fds fd e (hfds ▸ he) hlive)

theorem entries_evict (cache : List CacheSlot) (port : FsPort) :
    (entries (cache.map fun e => if e.any (·.2 = port) then none else e)).Sublist
      (entries cache) := by
  induction cache with
  | nil => exact List.Sublist.refl _
  | cons slot rest ih =>
    cases slot with
    | none => exact ih
    | some e =>
      by_cases he : e.2 = port
      · simpa [he] using ih.trans (List.sublist_cons_self e _)
      · simpa [he] using ih.cons_cons e

theorem Held.markDead (hs : s.Held) (port : FsPort) : (s.vfsMarkPortDead port).Held := by
  refine ⟨fun q => ?_, fun fd e he hlive => ?_⟩
  · exact ((entries_evict s.cache port).map Prod.snd).count_le q |>.trans (hs.cache q)
  · obtain ⟨old, hold, heq⟩ := Option.map_eq_some_iff.mp he
    split at heq
    · rw [← heq] at hlive
      cases hlive
    · exact hs.fds fd e (heq ▸ hold) hlive

theorem Held.callServer {attempts : List MountAttempt} (hs : s.Held)
    (hkeep : s.keepsOpenAll attempts = true) :
    (s.callServer attempts).1.Held ∧
      ∀ port reply, (s.callServer attempts).2 = some (port, reply) →
        port ∈ (s.callServer attempts).1.refs := by
  induction attempts generalizing s with
  | nil => exact ⟨hs, by simp [MountRights.callServer]⟩
  | cons a rest ih =>
    obtain ⟨hcache, hfds, hrefs⟩ := registerAll_same s a.changes
    have hreg : (s.registerAll a.changes).Held := hs.congr hcache hfds hrefs
    simp only [keepsOpenAll, Bool.and_eq_true] at hkeep
    obtain ⟨hkeep, hrest⟩ := hkeep
    simp only [MountRights.callServer]
    cases hfound : (s.registerAll a.changes).netnameLookUpMount a.lookup with
    | none =>
      rw [vfsResolveMount_none hfound]
      exact ⟨hreg, by simp⟩
    | some found =>
      obtain ⟨matched, port⟩ := found
      obtain ⟨s', hres, hfds', -, hresolved⟩ := vfsResolveMount_spec hfound
      obtain ⟨hheld, hmem⟩ := hreg.resolve hfound hkeep hfds' hresolved
      rw [hres] at hrest ⊢
      simp only at hrest ⊢
      split
      · next hdied =>
        exact ih (hheld.markDead port) (by simpa [hdied] using hrest)
      · refine ⟨hheld, fun port' reply h => ?_⟩
        obtain ⟨rfl, -⟩ := Prod.mk.inj (Option.some.inj h)
        exact hmem

theorem Held.put (hs : s.Held) {fd : Fin vfsMaxFds} {x : Option VfsFd}
    (hx : ∀ e, x = some e → e.fsPort ∈ s.refs) :
    Held { s with fds := Function.update s.fds fd x } := by
  refine ⟨hs.cache, fun fd' e he hlive => ?_⟩
  have he : Function.update s.fds fd x fd' = some e := he
  by_cases hfd : fd' = fd
  · rw [hfd, Function.update_self] at he
    exact hx e he
  · rw [Function.update_of_ne hfd] at he
    exact hs.fds fd' e he hlive

theorem Held.step {e : MountEvent} (hs : s.Held) (hguard : s.KeepsOpen e)
    (hstep : s.step e = some s') : s'.Held := by
  cases e with
  | register p port => exact Option.some.inj hstep ▸ hs.congr rfl rfl rfl
  | vfsOpen first second =>
    obtain ⟨hheld, hmem⟩ := hs.callServer hguard
    obtain rfl := Option.some.inj hstep
    unfold vfsOpen
    cases hcall : s.callServer [first, second] with
    | mk s₁ answer =>
      rw [hcall] at hheld hmem
      split
      · next s₂ port handle heq =>
        obtain ⟨rfl, rfl⟩ := Prod.mk.inj heq
        split
        · exact hheld
        · split
          · exact hheld
          · refine hheld.put fun e he => ?_
            rw [← Option.some.inj he]
            exact hmem port _ rfl
      · next heq =>
        obtain ⟨rfl, -⟩ := Prod.mk.inj heq
        exact hheld
  | vfsStat first second => exact Option.some.inj hstep ▸ (hs.callServer hguard).1
  | vfsClose fd => exact Option.some.inj hstep ▸ hs.put (by simp)

theorem held_init : init.Held := by
  refine ⟨fun port => ?_, by simp [init]⟩
  have : init.cachePorts = [] := by decide
  simp [this]

structure Counted (s : MountRights) : Prop where
  refs : ∀ port, s.cachePorts.count port = s.refs.count port
  once : ((entries s.cache).map Prod.fst).Nodup
  mounted : ∀ e ∈ entries s.cache, ∃ port, (e.1, port) ∈ s.registry

theorem Counted.register (hs : s.Counted) (p : Pfx) (port : FsPort) :
    (s.register p port).Counted := by
  refine ⟨hs.refs, hs.once, fun e he => ?_⟩
  obtain ⟨port', hmem⟩ := hs.mounted e he
  by_cases hp : e.1 = p
  · exact ⟨port, by simp [MountRights.register, hp]⟩
  · exact ⟨port', by simp [MountRights.register, hp, hmem]⟩

theorem Counted.registerAll (hs : s.Counted) (changes : List (Pfx × FsPort)) :
    (s.registerAll changes).Counted := by
  induction changes generalizing s with
  | nil => exact hs
  | cons change changes ih => exact ih (hs.register change.1 change.2)

theorem mem_registry_of_lookUp (h : s.netnameLookUpMount lookup = some (matched, port)) :
    (matched, port) ∈ s.registry := by
  obtain ⟨p, -, h⟩ := Option.bind_eq_some_iff.mp h
  exact List.mem_of_find?_eq_some (Option.filter_eq_some_iff.mp h).1

theorem Counted.resolve (hs : s.Counted)
    (hfound : s.netnameLookUpMount lookup = some (matched, port))
    (hroom : s.hasRoom lookup = true) (hreg : s'.registry = s.registry)
    (hr : Resolved s matched port s') : s'.Counted := by
  have hmounted := mem_registry_of_lookUp hfound
  cases hr with
  | refreshed l₁ l₂ old before after refs =>
    refine ⟨fun q => ?_, ?_, fun e he => ?_⟩
    · have hold := hs.refs q
      rw [cachePorts, before] at hold
      rw [cachePorts, after, refs, List.count_erase, List.count_cons, ← hold]
      simp only [List.map_append, List.map_cons, List.count_append, List.count_cons, beq_iff_eq]
      split <;> split <;> omega
    · have := hs.once
      rw [before] at this
      rw [after]
      simpa using this
    · rw [hreg]
      rw [after] at he
      rcases List.mem_append.mp he with he | he
      · exact hs.mounted e (before ▸ List.mem_append_left _ he)
      · rcases List.mem_cons.mp he with rfl | he
        · exact ⟨port, hmounted⟩
        · exact hs.mounted e (before ▸ List.mem_append_right _ (List.mem_cons_of_mem _ he))
  | inserted l₁ l₂ absent before after refs =>
    refine ⟨fun q => ?_, ?_, fun e he => ?_⟩
    · have hold := hs.refs q
      rw [cachePorts, before] at hold
      rw [cachePorts, after, refs, List.count_cons, ← hold]
      simp only [List.map_append, List.map_cons, List.count_append, List.count_cons, beq_iff_eq]
      omega
    · have honce := hs.once
      have hperm : ((entries s'.cache).map Prod.fst).Perm
          (matched :: (entries s.cache).map Prod.fst) := by
        rw [after, before]
        exact (List.perm_middle.map Prod.fst)
      refine hperm.nodup_iff.mpr (List.nodup_cons.mpr ⟨fun hmem => ?_, honce⟩)
      obtain ⟨e, he, heq⟩ := List.mem_map.mp hmem
      exact absent e he heq
    · rw [hreg]
      rw [after] at he
      rcases List.mem_append.mp he with he | he
      · exact hs.mounted e (before ▸ List.mem_append_left _ he)
      · rcases List.mem_cons.mp he with rfl | he
        · exact ⟨port, hmounted⟩
        · exact hs.mounted e (before ▸ List.mem_append_right _ he)
  | bypassed absent full same refs =>
    -- the lookup was said to have room
    simp only [hasRoom, hfound, List.any_eq_true] at hroom
    obtain ⟨slot, hslot, hall⟩ := hroom
    cases slot with
    | none => exact absurd hslot full
    | some e => exact absurd (by simpa using hall) (absent e (mem_entries.mpr hslot))

theorem Counted.callServer {first : MountAttempt} (hs : s.Counted) (second : MountAttempt)
    (hlive : first.reply ≠ .died)
    (hroom : (s.registerAll first.changes).hasRoom first.lookup = true) :
    (s.callServer [first, second]).1.Counted := by
  have hreg := hs.registerAll first.changes
  simp only [MountRights.callServer]
  cases hfound : (s.registerAll first.changes).netnameLookUpMount first.lookup with
  | none =>
    rw [vfsResolveMount_none hfound]
    exact hreg
  | some found =>
    obtain ⟨matched, port⟩ := found
    obtain ⟨s', hres, -, hregistry, hresolved⟩ := vfsResolveMount_spec hfound
    rw [hres]
    simp only [if_neg hlive]
    exact hreg.resolve hfound hroom hregistry hresolved

theorem Counted.step {e : MountEvent} (hs : s.Counted) (hguard : s.Cached e)
    (hstep : s.step e = some s') : s'.Counted := by
  cases e with
  | register p port => exact Option.some.inj hstep ▸ hs.register p port
  | vfsOpen first second =>
    have hcall := hs.callServer second hguard.1 hguard.2
    obtain rfl := Option.some.inj hstep
    unfold vfsOpen
    split
    · next heq =>
      rw [heq] at hcall
      split
      · exact hcall
      · split
        · exact hcall
        · exact ⟨hcall.refs, hcall.once, hcall.mounted⟩
    · next heq =>
      rw [heq] at hcall
      exact hcall
  | vfsStat first second => exact Option.some.inj hstep ▸ hs.callServer _ hguard.1 hguard.2
  | vfsClose fd => exact Option.some.inj hstep ▸ ⟨hs.refs, hs.once, hs.mounted⟩

theorem counted_init : init.Counted := by
  have hnil : entries init.cache = [] := by decide
  refine ⟨fun port => ?_, ?_, ?_⟩
  · simp [cachePorts, init]
  · simp [hnil]
  · simp [hnil]

theorem Counted.bounded (hs : s.Counted) : s.refs.length ≤ s.registry.length := by
  have hperm : s.cachePorts.Perm s.refs := List.perm_iff_count.mpr hs.refs
  have hsub : (entries s.cache).map Prod.fst ⊆ s.registry.map Prod.fst := by
    intro p hp
    obtain ⟨e, he, rfl⟩ := List.mem_map.mp hp
    obtain ⟨port, hmem⟩ := hs.mounted e he
    exact List.mem_map.mpr ⟨_, hmem, rfl⟩
  have hle := (List.subperm_of_subset hs.once hsub).length_le
  rw [← hperm.length_eq, cachePorts]
  simpa using hle

def openFds (s : MountRights) : ℕ :=
  (List.finRange vfsMaxFds).countP fun fd => (s.fds fd).isSome

/-- A descriptor in use and not dead is on a port that the task holds, as long as no lookup
replaces the port of an open descriptor; the references are bounded by the mounts and the
descriptors, as long as every mount that is looked up fits into the cache and no server is
found dead. -/
theorem mountRights_held (events : List MountEvent) (s : MountRights)
    (hrun : runSteps step init events = some s) :
    (StepsMeet step KeepsOpen init events →
      ∀ fd e, s.fds fd = some e → e.dead = false → e.fsPort ∈ s.refs) ∧
    (StepsMeet step Cached init events → s.refs.length ≤ s.registry.length + s.openFds) := by
  refine ⟨fun hmeet => ?_, fun hmeet => ?_⟩
  · have hs : s.Held := runSteps_invariant_of_guard
      (fun _ _ _ h hguard hstep => h.step hguard hstep) held_init hmeet hrun
    exact hs.fds
  · have hs : s.Counted := runSteps_invariant_of_guard
      (fun _ _ _ h hguard hstep => h.step hguard hstep) counted_init hmeet hrun
    exact hs.bounded.trans (Nat.le_add_right _ _)

def mountName (n : ℕ) : Pfx := ⟨[47, UInt8.ofNat n], by simp⟩

def reach (n : ℕ) : MountAttempt := ⟨[], some (mountName n), .done 1⟩

/-- Two mounts with a descriptor each; the first mount moves to another port after its
descriptor was closed. -/
def moveAfterClose : List MountEvent :=
  [.register (mountName 1) 5, .register (mountName 2) 6, .vfsOpen (reach 1) (reach 1),
    .vfsOpen (reach 2) (reach 2), .vfsClose 0, .register (mountName 1) 7,
    .vfsStat (reach 1) (reach 1)]

theorem mountRights_held_move :
    StepsMeet step KeepsOpen init moveAfterClose ∧ StepsMeet step Cached init moveAfterClose ∧
    ∃ s, runSteps step init moveAfterClose = some s ∧ s.refs = [7, 6] ∧
      (∀ fd e, s.fds fd = some e → e.dead = false → e.fsPort ∈ s.refs) ∧
      s.refs.length ≤ s.registry.length + s.openFds := by
  have hkeep : StepsMeet step KeepsOpen init moveAfterClose := by decide +kernel
  have hcached : StepsMeet step Cached init moveAfterClose := by decide +kernel
  have hmap : (runSteps step init moveAfterClose).map (·.refs) = some [7, 6] := by decide +kernel
  obtain ⟨s, hs, hrefs⟩ := Option.map_eq_some_iff.mp hmap
  obtain ⟨hheld, hbound⟩ := mountRights_held moveAfterClose s hs
  exact ⟨hkeep, hcached, s, hs, hrefs, hheld hkeep, hbound hcached⟩

def moveUnderOpen : List MountEvent :=
  [.register (mountName 1) 5, .vfsOpen (reach 1) (reach 1), .register (mountName 1) 7,
    .vfsStat (reach 1) (reach 1)]

def seventeenMounts : List MountEvent :=
  (List.range 17).map (fun n => .register (mountName n) (n + 1)) ++
    (List.range 17).map (fun n => .vfsStat (reach n) (reach n)) ++
    [.vfsStat (reach 16) (reach 16), .vfsStat (reach 16) (reach 16)]

/-- The descriptor's port is no longer held; and with a full cache every lookup keeps one
more reference. -/
theorem mountRights_lost_and_leaked :
    (runSteps step init moveUnderOpen).map (fun s =>
      ((s.fds 0).map fun e => (e.dead, e.fsPort), s.refs)) = some (some (false, 5), [7]) ∧
    (runSteps step init seventeenMounts).map (fun s =>
      (s.refs.length, s.registry.length, s.openFds)) = some (19, 17, 0) := by
  decide +kernel

end MountRights

end Uros.Vfs
