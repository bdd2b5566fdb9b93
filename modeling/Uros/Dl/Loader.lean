import Mathlib.Algebra.Order.Ring.Nat
import Mathlib.Data.List.Basic
import Mathlib.Logic.Function.Basic
import Uros.Foundation.SignedInt
import Uros.Foundation.Transition

/-!
The dynamic loader (`libdl`): `dlopen` maps an object, sets the protections of its pages,
relocates it against itself, the objects loaded before and the host, and `dlclose` unmaps it
with its last reference.

An image is the part of a well-formed i386 object that the loader reads: its `PT_LOAD`
headers, `DT_TEXTREL`, the defined symbols and the relocations that need a symbol.
-/

namespace Uros.Dl

open Uros.Foundation

def pageSize : ℕ := 4096

structure Prot where
  read : Bool
  write : Bool
  execute : Bool
  deriving DecidableEq

def rwx : Prot := ⟨true, true, true⟩

def rx : Prot := ⟨true, false, true⟩

structure Seg where
  vaddr : ℕ
  memsz : ℕ
  flags : Prot
  deriving DecidableEq

def Seg.lo (seg : Seg) : ℕ := seg.vaddr / pageSize

def Seg.hi (seg : Seg) : ℕ := (seg.vaddr + seg.memsz + (pageSize - 1)) / pageSize

inductive RelKind where
  | abs32
  | pc32
  | globDat
  | jmpSlot
  deriving DecidableEq

structure Rel (σ : Type) where
  kind : RelKind
  offset : ℕ
  addend : ℕ
  sym : σ
  weak : Bool
  deriving DecidableEq

structure Image (σ : Type) where
  segs : List Seg
  textrel : Bool
  defs : List (σ × ℕ)
  rels : List (Rel σ)

inductive Source where
  | itself
  | object (id : ℕ)
  | host
  deriving DecidableEq

structure Binding (σ : Type) where
  rel : Rel σ
  source : Source
  addr : ℕ
  word : ℕ

structure Object (σ : Type) where
  id : ℕ
  path : ℕ
  image : Image σ
  mapbase : ℕ
  prot : ℕ → Prot
  bound : List (Binding σ)
  refCount : ℤ

structure Host (σ : Type) where
  sym : σ → Option ℕ
  lo : ℕ
  hi : ℕ

/-- `opens` is history: how many `dlopen` calls that returned an object no `dlclose` has undone. -/
structure State (σ : Type) where
  objects : List (Object σ)
  nextId : ℕ
  opens : ℕ → ℕ

def init (σ : Type) : State σ := ⟨[], 0, fun _ => 0⟩

section Loader

variable {σ : Type}

def protect (prot : ℕ → Prot) (lo hi : ℕ) (new : Prot) (page : ℕ) : Prot :=
  if lo ≤ page ∧ page < hi then new else prot page

def segProt (prot : ℕ → Prot) (seg : Seg) : ℕ → Prot :=
  if seg.flags = rwx then prot else protect prot seg.lo seg.hi seg.flags

def mapProt (prot : ℕ → Prot) (segs : List Seg) : ℕ → Prot := segs.foldl segProt prot

def Image.lo (im : Image σ) : ℕ := (im.segs.head?.map Seg.lo).getD 0

def Image.hi (im : Image σ) : ℕ := (im.segs.getLast?.map Seg.hi).getD 0

def Image.prot (im : Image σ) : ℕ → Prot :=
  let prot := mapProt (fun _ => rwx) im.segs
  if im.textrel then protect (protect prot im.lo im.hi rwx) im.lo im.hi rx else prot

def Image.at (im : Image σ) (mapbase value : ℕ) : ℕ := mapbase + value - im.lo * pageSize

def Image.size (im : Image σ) : ℕ := (im.hi - im.lo) * pageSize

variable [DecidableEq σ]

def symlookObj (im : Image σ) (mapbase : ℕ) (sym : σ) : Option ℕ :=
  (im.defs.lookup sym).map (im.at mapbase)

def resolveSymbol (host : Host σ) (objects : List (Object σ)) (im : Image σ) (mapbase : ℕ)
    (sym : σ) :
    Option (Source × ℕ) :=
  match symlookObj im mapbase sym with
  | some addr => some (.itself, addr)
  | none =>
      match objects.findSome? fun o => (symlookObj o.image o.mapbase sym).map (o.id, ·) with
      | some (id, addr) => some (.object id, addr)
      | none => (host.sym sym).map (.host, ·)

def relocWord (rel : Rel σ) (place addr : ℕ) : ℕ :=
  match rel.kind with
  | .abs32 => (rel.addend + addr) % 2 ^ 32
  | .pc32 => (rel.addend + addr + (2 ^ 32 - place % 2 ^ 32)) % 2 ^ 32
  | .globDat | .jmpSlot => addr % 2 ^ 32

def bind (host : Host σ) (objects : List (Object σ)) (im : Image σ) (mapbase : ℕ) (rel : Rel σ) :
    Option (Binding σ) :=
  match resolveSymbol host objects im mapbase rel.sym with
  | some (source, addr) => some ⟨rel, source, addr, relocWord rel (im.at mapbase rel.offset) addr⟩
  | none => if rel.weak then
    some ⟨rel, .host, 0, relocWord rel (im.at mapbase rel.offset) 0⟩ else none

def dlopen (host : Host σ) (s : State σ) (path : ℕ) (im : Image σ) (mapbase : ℕ) : State σ :=
  if s.objects.any (·.path = path) then
    { s with
      objects := s.objects.map fun o =>
        if o.path = path then { o with refCount := toInt32 (o.refCount + 1) } else o
      opens := fun id =>
        if ∃ o ∈ s.objects, o.id = id ∧ o.path = path then s.opens id + 1 else s.opens id }
  else
    match im.rels.mapM (bind host s.objects im mapbase) with
    | none => s
    | some bound =>
        { objects := ⟨s.nextId, path, im, mapbase, im.prot, bound, 1⟩ :: s.objects
          nextId := s.nextId + 1
          opens := Function.update s.opens s.nextId 1 }

def dlclose (s : State σ) (id : ℕ) : State σ :=
  { s with
    objects := s.objects.filterMap fun o =>
      if o.id = id then
        let count := toInt32 (o.refCount - 1)
        if 0 < count then some { o with refCount := count } else none
      else some o
    opens := Function.update s.opens id (s.opens id - 1) }

inductive Call (σ : Type) where
  | dlopen (path : ℕ) (im : Image σ) (mapbase : ℕ)
  | dlclose (id : ℕ)

def step (host : Host σ) (s : State σ) : Call σ → Option (State σ)
  | .dlopen path im mapbase => some (dlopen host s path im mapbase)
  | .dlclose id => if s.objects.any (·.id = id) then some (dlclose s id) else none

end Loader

section Validity

variable {σ : Type} [DecidableEq σ]

def Object.Covers (o : Object σ) (addr : ℕ) : Prop :=
  o.mapbase ≤ addr ∧ addr < o.mapbase + o.image.size

def Defined (host : Host σ) (objects : List (Object σ)) (o : Object σ) (b : Binding σ) : Prop :=
  match b.source with
  | .itself => symlookObj o.image o.mapbase b.rel.sym = some b.addr
  | .object id => ∃ p ∈ objects, p.id = id ∧ symlookObj p.image p.mapbase b.rel.sym = some b.addr
  | .host => host.sym b.rel.sym = some b.addr

structure Linked (host : Host σ) (s : State σ) (o : Object σ) : Prop where
  writable : ∀ seg ∈ o.image.segs, seg.flags.write = true → ∀ page, seg.lo ≤ page → page < seg.hi →
    (o.prot page).write = true
  computed : ∀ b ∈ o.bound, b.word = relocWord b.rel (o.image.at o.mapbase b.rel.offset) b.addr
  defined : ∀ b ∈ o.bound, Defined host s.objects o b
  mapped : ∀ b ∈ o.bound, (∃ p ∈ s.objects, p.Covers b.addr) ∨ host.lo ≤ b.addr ∧ b.addr < host.hi

/-- Every loaded object is linked, and an object stays loaded until its last `dlclose`. -/
structure Valid (host : Host σ) (s : State σ) : Prop where
  linked : ∀ o ∈ s.objects, Linked host s o
  loaded : ∀ id, 0 < s.opens id → ∃ o ∈ s.objects, o.id = id

/-- The segments ascend and share no page, no writable segment comes with `DT_TEXTREL`, and
the symbols lie in the object. -/
structure WellFormed (im : Image σ) : Prop where
  apart : im.segs.Pairwise fun a b => a.hi ≤ b.lo
  textrel : im.textrel = true → ∀ seg ∈ im.segs, seg.flags.write = false
  inside : ∀ d ∈ im.defs, im.lo * pageSize ≤ d.2 ∧ d.2 < im.hi * pageSize

/-- A new object is well formed and all its symbols are defined, and one that is loaded already
has fewer than `2 ^ 31 - 1` references; an object that goes away is not bound by another one. -/
def Careful (host : Host σ) (s : State σ) : Call σ → Prop
  | .dlopen path im mapbase =>
      WellFormed im ∧ (∀ rel ∈ im.rels,
        (resolveSymbol host s.objects im mapbase rel.sym).isSome = true) ∧
      ∀ o ∈ s.objects, o.path = path → o.refCount < 2 ^ 31 - 1
  | .dlclose id => ∀ o ∈ s.objects, o.id = id → o.refCount ≤ 1 →
      ∀ p ∈ s.objects, ∀ b ∈ p.bound, b.source ≠ .object id

theorem segProt_frame {prot : ℕ → Prot} {page : ℕ} {seg : Seg}
    (h : ¬(seg.lo ≤ page ∧ page < seg.hi)) : segProt prot seg page = prot page := by
  unfold segProt
  split
  · rfl
  · exact if_neg h

theorem mapProt_frame {segs : List Seg} {prot : ℕ → Prot} {page : ℕ}
    (h : ∀ seg ∈ segs, ¬(seg.lo ≤ page ∧ page < seg.hi)) : mapProt prot segs page = prot page := by
  induction segs generalizing prot with
  | nil => rfl
  | cons seg segs ih =>
    exact (ih fun seg' hin => h seg' (List.mem_cons_of_mem _ hin)).trans
      (segProt_frame (h seg List.mem_cons_self))

theorem mapProt_write {segs : List Seg} {prot : ℕ → Prot} {page : ℕ} {seg : Seg}
    (hapart : segs.Pairwise fun a b => a.hi ≤ b.lo) (hin : seg ∈ segs) (hw : seg.flags.write = true)
    (hlo : seg.lo ≤ page) (hhi : page < seg.hi) (hinit : (prot page).write = true) :
    (mapProt prot segs page).write = true := by
  induction segs generalizing prot with
  | nil => cases hin
  | cons first segs ih =>
    obtain ⟨hfirst, hrest⟩ := List.pairwise_cons.mp hapart
    change (mapProt (segProt prot first) segs page).write = true
    rcases List.mem_cons.mp hin with rfl | hin
    · -- no later segment has a page of this one
      rw [mapProt_frame fun b hb => by have := hfirst b hb; omega]
      unfold segProt
      split
      · exact hinit
      · rw [protect, if_pos ⟨hlo, hhi⟩]
        exact hw
    · refine ih hrest hin ?_
      have := hfirst seg hin
      rw [segProt_frame (by omega)]
      exact hinit

omit [DecidableEq σ] in
theorem WellFormed.write {im : Image σ} (h : WellFormed im) {seg : Seg} (hin : seg ∈ im.segs)
    (hw : seg.flags.write = true) {page : ℕ} (hlo : seg.lo ≤ page) (hhi : page < seg.hi) :
    (im.prot page).write = true := by
  have htext : im.textrel = false := by
    by_contra hne
    simp [h.textrel (by simpa using hne) seg hin] at hw
  simp only [Image.prot, htext]
  exact mapProt_write h.apart hin hw hlo hhi rfl

structure Fits (host : Host σ) (objects : List (Object σ)) (o : Object σ) : Prop where
  wf : WellFormed o.image
  prot : o.prot = o.image.prot
  computed : ∀ b ∈ o.bound, b.word = relocWord b.rel (o.image.at o.mapbase b.rel.offset) b.addr
  defined : ∀ b ∈ o.bound, Defined host objects o b

structure Counted (s : State σ) : Prop where
  count : ∀ o ∈ s.objects, o.refCount = s.opens o.id ∧ 0 < o.refCount ∧ o.refCount < 2 ^ 31
  unique : ∀ o ∈ s.objects, ∀ p ∈ s.objects, o.id = p.id → o = p
  fresh : ∀ o ∈ s.objects, o.id < s.nextId
  present : ∀ id, 0 < s.opens id → ∃ o ∈ s.objects, o.id = id

structure Inv (host : Host σ) (s : State σ) : Prop where
  fits : ∀ o ∈ s.objects, Fits host s.objects o
  counted : Counted s

variable {host : Host σ} {s s' : State σ} {o : Object σ} {objects objects' : List (Object σ)}

theorem covers_of_symlookObj {sym : σ} {addr : ℕ} (h : WellFormed o.image)
    (hs : symlookObj o.image o.mapbase sym = some addr) : o.Covers addr := by
  obtain ⟨value, hv, rfl⟩ := Option.map_eq_some_iff.mp hs
  obtain ⟨l₁, l₂, hdefs, -⟩ := List.lookup_eq_some_iff.mp hv
  obtain ⟨hlo, hhi⟩ := h.inside (sym, value) (by simp [hdefs])
  unfold Object.Covers Image.at Image.size
  rw [Nat.sub_mul]
  omega

theorem Inv.valid (hhost : ∀ sym addr, host.sym sym = some addr → host.lo ≤ addr ∧ addr < host.hi)
    (h : Inv host s) : Valid host s := by
  refine ⟨fun o ho => ?_, h.counted.present⟩
  have hf := h.fits o ho
  refine ⟨fun seg hin hw page hlo hhi => ?_, hf.computed, hf.defined, fun b hb => ?_⟩
  · rw [hf.prot]
    exact hf.wf.write hin hw hlo hhi
  · have hd := hf.defined b hb
    unfold Defined at hd
    split at hd
    · exact .inl ⟨o, ho, covers_of_symlookObj hf.wf hd⟩
    · obtain ⟨p, hp, -, hs⟩ := hd
      exact .inl ⟨p, hp, covers_of_symlookObj (h.fits p hp).wf hs⟩
    · exact .inr (hhost _ _ hd)

theorem Fits.mono (h : Fits host objects o)
    (hkeep : ∀ b ∈ o.bound, ∀ id, b.source = .object id → ∀ p ∈ objects, p.id = id →
      ∃ p' ∈ objects', p'.id = id ∧ p'.image = p.image ∧ p'.mapbase = p.mapbase) (n : ℤ) :
    Fits host objects' { o with refCount := n } := by
  refine ⟨h.wf, h.prot, h.computed, fun b hb => ?_⟩
  have hd := h.defined b hb
  unfold Defined at hd ⊢
  split at hd
  · exact hd
  · next id hsrc =>
    obtain ⟨p, hp, hid, hs⟩ := hd
    obtain ⟨p', hp', hid', him, hbase⟩ := hkeep b hb id hsrc p hp hid
    exact ⟨p', hp', hid', by rw [him, hbase]; exact hs⟩
  · exact hd

theorem exists_of_mapM {α β : Type} {f : α → Option β} {l : List α} {bs : List β} {b : β}
    (h : l.mapM f = some bs) (hb : b ∈ bs) : ∃ a ∈ l, f a = some b := by
  induction l generalizing bs with
  | nil =>
    obtain rfl : bs = [] := by simpa using h.symm
    cases hb
  | cons a l ih =>
    simp only [List.mapM_cons, Option.bind_eq_bind, Option.bind_eq_some_iff] at h
    obtain ⟨b', hb', bs', hbs', heq⟩ := h
    cases heq
    rcases List.mem_cons.mp hb with rfl | hb
    · exact ⟨a, List.mem_cons_self, hb'⟩
    · obtain ⟨a', ha', hfa⟩ := ih hbs' hb
      exact ⟨a', List.mem_cons_of_mem _ ha', hfa⟩

theorem defined_of_bind {im : Image σ} {rel : Rel σ} {b : Binding σ} {mapbase : ℕ}
    (hdef : (resolveSymbol host objects im mapbase rel.sym).isSome = true)
    (hb : bind host objects im mapbase rel = some b) (him : o.image = im)
    (hbase : o.mapbase = mapbase) :
    b.word = relocWord b.rel (o.image.at o.mapbase b.rel.offset) b.addr ∧
      Defined host objects o b := by
  subst him hbase
  obtain ⟨⟨source, addr⟩, hres⟩ := Option.isSome_iff_exists.mp hdef
  simp only [bind, hres, Option.some.injEq] at hb
  subst hb
  refine ⟨rfl, ?_⟩
  unfold resolveSymbol at hres
  split at hres
  · next hown =>
    cases hres
    exact hown
  · split at hres
    · next hfind =>
      cases hres
      obtain ⟨p, hp, hsome⟩ := List.exists_of_findSome?_eq_some hfind
      obtain ⟨a, ha, heq⟩ := Option.map_eq_some_iff.mp hsome
      cases heq
      exact ⟨p, hp, rfl, ha⟩
    · obtain ⟨a, ha, heq⟩ := Option.map_eq_some_iff.mp hres
      cases heq
      exact ha

theorem Inv.fits_dlopen {path mapbase : ℕ} {im : Image σ} (h : Inv host s)
    (hc : Careful host s (.dlopen path im mapbase)) :
    ∀ o ∈ (dlopen host s path im mapbase).objects,
      Fits host (dlopen host s path im mapbase).objects o := by
  unfold Dl.dlopen
  split
  · -- one more reference
    intro o' ho'
    obtain ⟨o, ho, rfl⟩ := List.mem_map.mp ho'
    have hkeep : ∀ p ∈ s.objects, ∃ p' ∈ s.objects.map fun o =>
        if o.path = path then { o with refCount := toInt32 (o.refCount + 1) } else o,
        p'.id = p.id ∧ p'.image = p.image ∧ p'.mapbase = p.mapbase := by
      intro p hp
      refine ⟨_, List.mem_map.mpr ⟨p, hp, rfl⟩, ?_⟩
      split <;> simp
    have hmono : ∀ n, Fits host _ { o with refCount := n } :=
      (h.fits o ho).mono fun b _ id _ p hp hid => by
      obtain ⟨p', hp', hid', hrest⟩ := hkeep p hp
      exact ⟨p', hp', hid'.trans hid, hrest⟩
    split
    · exact hmono _
    · exact hmono o.refCount
  · split
    · exact h.fits
    · next bound hbound =>
      intro o ho
      rcases List.mem_cons.mp ho with rfl | ho
      · have hbind : ∀ b ∈ bound, b.word = relocWord b.rel (im.at mapbase b.rel.offset) b.addr ∧
            Defined host s.objects ⟨s.nextId, path, im, mapbase, im.prot, bound, 1⟩ b := by
          intro b hb
          obtain ⟨rel, hrel, hb⟩ := exists_of_mapM hbound hb
          exact defined_of_bind (o := ⟨s.nextId, path, im, mapbase, im.prot, bound, 1⟩)
            (hc.2.1 rel hrel) hb rfl rfl
        have hfits : Fits host s.objects ⟨s.nextId, path, im, mapbase, im.prot, bound, 1⟩ :=
          ⟨hc.1, rfl, fun b hb => (hbind b hb).1, fun b hb => (hbind b hb).2⟩
        exact hfits.mono (fun b _ id _ p hp hid => ⟨p, List.mem_cons_of_mem _ hp, hid, rfl, rfl⟩) 1
      · exact (h.fits o ho).mono (fun b _ id _ p hp hid => ⟨p, List.mem_cons_of_mem _ hp, hid, rfl, rfl⟩)
          o.refCount

theorem Counted.dlopen {path mapbase : ℕ} {im : Image σ} (h : Counted s)
    (hlt : ∀ o ∈ s.objects, o.path = path → o.refCount < 2 ^ 31 - 1) :
    Counted (dlopen host s path im mapbase) := by
  unfold Dl.dlopen
  split
  · have hid : ∀ o : Object σ, (if o.path = path then
        { o with refCount := toInt32 (o.refCount + 1) } else o).id = o.id := by
      intro o
      split <;> rfl
    refine ⟨fun o' ho' => ?_, fun o' ho' p' hp' heq => ?_, fun o' ho' => ?_, fun id hopen => ?_⟩ <;>
      dsimp only at *
    · obtain ⟨o, ho, rfl⟩ := List.mem_map.mp ho'
      obtain ⟨hcount, hpos, hsmall⟩ := h.count o ho
      rw [hid]
      by_cases hpath : o.path = path
      · have := hlt o ho hpath
        rw [if_pos hpath, if_pos ⟨o, ho, rfl, hpath⟩]
        dsimp only
        rw [toInt32_of_range (by omega) (by omega)]
        omega
      · -- the object that gets the reference is another one
        have hother : ¬∃ p ∈ s.objects, p.id = o.id ∧ p.path = path := by
          rintro ⟨p, hp, hp', hpath'⟩
          exact hpath (h.unique p hp o ho hp' ▸ hpath')
        rw [if_neg hpath, if_neg hother]
        exact ⟨hcount, hpos, hsmall⟩
    · obtain ⟨o, ho, rfl⟩ := List.mem_map.mp ho'
      obtain ⟨p, hp, rfl⟩ := List.mem_map.mp hp'
      rw [hid, hid] at heq
      rw [h.unique o ho p hp heq]
    · obtain ⟨o, ho, rfl⟩ := List.mem_map.mp ho'
      rw [hid]
      exact h.fresh o ho
    · have hold : ∃ o ∈ s.objects, o.id = id := by
        split at hopen
        · next hex => exact hex.imp fun o ho => ⟨ho.1, ho.2.1⟩
        · exact h.present id hopen
      obtain ⟨o, ho, rfl⟩ := hold
      exact ⟨_, List.mem_map.mpr ⟨o, ho, rfl⟩, hid o⟩
  · split
    · exact h
    · next bound hbound =>
      have hne : ∀ o ∈ s.objects, o.id ≠ s.nextId := fun o ho => (h.fresh o ho).ne
      refine ⟨fun o ho => ?_, fun o ho p hp heq => ?_, fun o ho => ?_, fun id hopen => ?_⟩ <;>
        dsimp only at *
      · rcases List.mem_cons.mp ho with rfl | ho
        · simp
        · rw [Function.update_of_ne (hne o ho)]
          exact h.count o ho
      · rcases List.mem_cons.mp ho with rfl | ho <;> rcases List.mem_cons.mp hp with rfl | hp
        · rfl
        · exact absurd heq.symm (hne p hp)
        · exact absurd heq (hne o ho)
        · exact h.unique o ho p hp heq
      · rcases List.mem_cons.mp ho with rfl | ho
        · exact Nat.lt_succ_self _
        · exact Nat.lt_succ_of_lt (h.fresh o ho)
      · by_cases hnew : id = s.nextId
        · exact ⟨_, List.mem_cons_self, hnew.symm⟩
        · rw [Function.update_of_ne hnew] at hopen
          obtain ⟨o, ho, hid⟩ := h.present id hopen
          exact ⟨o, List.mem_cons_of_mem _ ho, hid⟩

omit [DecidableEq σ] in
theorem Counted.dlclose (h : Counted s) (id : ℕ) : Counted (dlclose s id) := by
  have hkept : ∀ o' ∈ (Dl.dlclose s id).objects, ∃ o ∈ s.objects, o'.id = o.id ∧
      (o.id ≠ id ∧ o' = o ∨
        o.id = id ∧ 1 < o.refCount ∧ o' = { o with refCount := o.refCount - 1 }) := by
    intro o' ho'
    obtain ⟨o, ho, hsome⟩ := List.mem_filterMap.mp ho'
    obtain ⟨-, hpos, hsmall⟩ := h.count o ho
    rw [toInt32_of_range (by omega) (by omega)] at hsome
    refine ⟨o, ho, ?_⟩
    split at hsome
    · next hid =>
      dsimp only at hsome
      split at hsome
      · cases hsome
        exact ⟨rfl, .inr ⟨hid, by omega, rfl⟩⟩
      · cases hsome
    · next hid =>
      cases hsome
      exact ⟨rfl, .inl ⟨hid, rfl⟩⟩
  refine ⟨fun o' ho' => ?_, fun o' ho' p' hp' heq => ?_, fun o' ho' => ?_, fun id' hopen => ?_⟩
  · obtain ⟨o, ho, -, ⟨hne, rfl⟩ | ⟨rfl, hmany, rfl⟩⟩ := hkept o' ho'
    · simpa [Dl.dlclose, hne] using h.count o' ho
    · have := h.count o ho
      simp only [Dl.dlclose, Function.update_self]
      omega
  · obtain ⟨o, ho, hid, hcase⟩ := hkept o' ho'
    obtain ⟨p, hp, hid', hcase'⟩ := hkept p' hp'
    obtain rfl := h.unique o ho p hp (by rw [← hid, heq, hid'])
    grind
  · obtain ⟨o, ho, hid, -⟩ := hkept o' ho'
    exact hid ▸ h.fresh o ho
  · have hbefore : 0 < s.opens id' ∧ (id' = id → 1 < s.opens id') := by
      simp only [Dl.dlclose, Function.update_apply] at hopen
      split at hopen <;> grind
    obtain ⟨o, ho, rfl⟩ := h.present id' hbefore.1
    obtain ⟨hcount, hpos, hsmall⟩ := h.count o ho
    by_cases hid : o.id = id
    · have hmany := hbefore.2 hid
      refine ⟨{ o with refCount := o.refCount - 1 }, List.mem_filterMap.mpr ⟨o, ho, ?_⟩, rfl⟩
      rw [if_pos hid, toInt32_of_range (by omega) (by omega)]
      exact if_pos (by omega)
    · exact ⟨o, List.mem_filterMap.mpr ⟨o, ho, if_neg hid⟩, rfl⟩

theorem Inv.fits_dlclose {id : ℕ} (h : Inv host s) (hc : Careful host s (.dlclose id)) :
    ∀ o ∈ (dlclose s id).objects, Fits host (dlclose s id).objects o := by
  intro o' ho'
  obtain ⟨o, ho, hsome⟩ := List.mem_filterMap.mp ho'
  have hmono : ∀ n, Fits host (Dl.dlclose s id).objects { o with refCount := n } := by
    refine (h.fits o ho).mono fun b hb id' hsrc p hp hid => ?_
    by_cases hid' : p.id = id
    · have hmany : 1 < p.refCount := by
        by_contra hle
        exact hc p hp hid' (not_lt.mp hle) o ho b hb (by rw [hsrc, ← hid, hid'])
      have hcount := h.counted.count p hp
      refine ⟨{ p with refCount := p.refCount - 1 }, List.mem_filterMap.mpr ⟨p, hp, ?_⟩, hid,
        rfl, rfl⟩
      rw [if_pos hid', toInt32_of_range (by omega) (by omega)]
      exact if_pos (by omega)
    · exact ⟨p, List.mem_filterMap.mpr ⟨p, hp, if_neg hid'⟩, hid, rfl, rfl⟩
  split at hsome
  · dsimp only at hsome
    split at hsome
    · cases hsome
      exact hmono _
    · cases hsome
  · cases hsome
    exact hmono o'.refCount

theorem Inv.step {c : Call σ} (h : Inv host s) (hc : Careful host s c)
    (hs : Dl.step host s c = some s') : Inv host s' := by
  cases c with
  | dlopen path im mapbase =>
    cases hs
    exact ⟨h.fits_dlopen hc, h.counted.dlopen hc.2.2⟩
  | dlclose id =>
    dsimp only [Dl.step] at hs
    split at hs
    · cases hs
      exact ⟨h.fits_dlclose hc, h.counted.dlclose id⟩
    · cases hs

end Validity

def provider : Image ℕ :=
  ⟨[⟨0, 0x1000, rx⟩, ⟨0x1000, 0x800, ⟨true, true, false⟩⟩], false, [(0, 0x10)], []⟩

def user : Image ℕ :=
  ⟨[⟨0, 0x1000, rx⟩, ⟨0x1000, 0x800, ⟨true, true, false⟩⟩], false, [],
    [⟨.globDat, 0x1004, 0, 0, false⟩]⟩

def noHost : Host ℕ := ⟨fun _ => none, 0, 0⟩

/-- The provider is opened twice and closed once. -/
def pairCalls : List (Call ℕ) :=
  [.dlopen 0 provider 0x10000, .dlopen 1 user 0x20000, .dlopen 0 provider 0x30000, .dlclose 0]

end Uros.Dl
