import Mathlib.Algebra.Ring.Int.Defs
import Uros.Exec.Elf
import Uros.Foundation.Transition

/-!
The accessors of libelf, with every read of the buffer checked.

A read outside of the buffer makes a call fault (`none`).  The header is read after its length
has been checked; the tables, the names in them and the cached tables are reached through
offsets, counts and links that the file gives.  Null arguments, which every call refuses, are
left out.
-/

namespace Uros.Exec.LibElf

open Uros.Foundation

inductive Error where
  | outOfRange | notFound | notPresent
  deriving DecidableEq

def words (buf : Bytes) (base n : ℕ) : Option (ℕ → ℕ) :=
  if base + 4 * n ≤ buf.length then some fun k => field buf (base + 4 * k) 4 else none

structure Phdr where
  type : ℕ
  offset : ℕ
  vaddr : ℕ
  paddr : ℕ
  filesz : ℕ
  memsz : ℕ
  flags : ℕ
  align : ℕ

structure Shdr where
  name : ℕ
  type : ℕ
  flags : ℕ
  addr : ℕ
  offset : ℕ
  size : ℕ
  link : ℕ
  info : ℕ
  entsize : ℕ

structure Sym where
  name : ℕ
  value : ℕ
  size : ℕ
  info : ℕ
  shndx : ℕ

structure StrTab where
  offset : ℕ
  size : ℕ

structure SymTab where
  offset : ℕ
  count : ℕ
  str : StrTab

structure DynTab where
  offset : ℕ
  count : ℕ

structure Image where
  phdr : ℕ
  phnum : ℕ
  shdr : ℕ
  shnum : ℕ
  shstrtab : Option StrTab
  symtab : Option SymTab
  dyntab : Option DynTab

def shtSymtab : ℕ := 2
def shtStrtab : ℕ := 3
def shtNobits : ℕ := 8
def ptDynamic : ℕ := 2

section

variable (buf : Bytes)

def phdrAt (img : Image) (idx : ℕ) : Option Phdr :=
  (words buf (img.phdr + idx * phdrSize) 8).map fun w =>
    ⟨w 0, w 1, w 2, w 3, w 4, w 5, w 6, w 7⟩

def shdrAt (img : Image) (idx : ℕ) : Option Shdr :=
  (words buf (img.shdr + idx * shdrSize) 10).map fun w =>
    ⟨w 0, w 1, w 2, w 3, w 4, w 5, w 6, w 7, w 9⟩

def elfOpen : Option (Except ElfError Image) :=
  match Exec.elfOpen buf with
  | .error e => some (.error e)
  | .ok hdr =>
    let img : Image := ⟨hdr.phoff, hdr.phnum, field buf 32 4, field buf 48 2, none, none, none⟩
    let shstrndx := field buf 50 2
    if shstrndx ≠ 0 ∧ shstrndx < img.shnum then
      (shdrAt buf img shstrndx).map fun s =>
        .ok { img with
          shstrtab := if rangeOk buf s.offset s.size then some ⟨s.offset, s.size⟩ else none }
    else some (.ok img)

/-! ## Headers -/

structure PhdrView where
  phdr : Phdr
  data : Option ℕ

structure ShdrView where
  shdr : Shdr
  name : Option ℕ
  data : Option ℕ

def elfPhdrGet (img : Image) (idx : ℤ) : Option (Except Error PhdrView) :=
  if idx < 0 ∨ img.phnum ≤ idx then some (.error .outOfRange)
  else
    (phdrAt buf img idx.toNat).map fun p =>
      .ok ⟨p, if rangeOk buf p.offset p.filesz then some p.offset else none⟩

def StrTab.at (tab : StrTab) (off : ℕ) : Option ℕ :=
  if off < tab.size then some (tab.offset + off) else none

def elfShdrGet (img : Image) (idx : ℤ) : Option (Except Error ShdrView) :=
  if idx < 0 ∨ img.shnum ≤ idx then some (.error .outOfRange)
  else
    (shdrAt buf img idx.toNat).map fun s =>
      .ok ⟨s, img.shstrtab.bind (·.at s.name),
        if s.type ≠ shtNobits ∧ rangeOk buf s.offset s.size then some s.offset else none⟩

/-! ## Names -/

def strEq : ℕ → Bytes → Option Bool
  | i, [] => buf[i]?.map (· = 0)
  | i, c :: cs => buf[i]?.bind fun b => if b = c then strEq (i + 1) cs else some false

/-- The loop of `elf_shdr_find` and `elf_sym_lookup`: the index of the first entry with the
name; an entry may have no name. -/
def findName (nameAt : ℕ → Option (Option ℕ)) (name : Bytes) : ℕ → ℕ → Option (Option ℕ)
  | 0, _ => some none
  | todo + 1, i =>
    (nameAt i).bind fun n =>
      match n with
      | none => findName nameAt name todo (i + 1)
      | some p =>
        (strEq buf p name).bind fun same =>
          if same then some (some i) else findName nameAt name todo (i + 1)

def shdrName (img : Image) (tab : StrTab) (i : ℕ) : Option (Option ℕ) :=
  (shdrAt buf img i).map fun s => tab.at s.name

def elfShdrFind (img : Image) (name : CString) : Option (Except Error ShdrView) :=
  match img.shstrtab with
  | none => some (.error .notPresent)
  | some tab =>
    (findName buf (shdrName buf img tab) name.1 img.shnum 0).bind fun r =>
      match r with
      | some i => elfShdrGet buf img i
      | none => some (.error .notFound)

/-! ## Symbols -/

def findSymtab (img : Image) : ℕ → ℕ → Option (Option SymTab)
  | 0, _ => some none
  | todo + 1, i =>
    (shdrAt buf img i).bind fun s =>
      if s.type = shtSymtab ∧ s.link ≠ 0 ∧ s.link < img.shnum ∧ rangeOk buf s.offset s.size ∧
          s.entsize = 16 then
        (shdrAt buf img s.link).bind fun str =>
          if str.type = shtStrtab ∧ rangeOk buf str.offset str.size then
            some (some ⟨s.offset, s.size / 16, str.offset, str.size⟩)
          else findSymtab img todo (i + 1)
      else findSymtab img todo (i + 1)

def ensureSymtab (img : Image) : Option (Image × Option SymTab) :=
  match img.symtab with
  | some tab => some (img, some tab)
  | none => (findSymtab buf img img.shnum 0).map fun r => ({ img with symtab := r }, r)

def symAt (tab : SymTab) (i : ℕ) : Option Sym :=
  (words buf (tab.offset + i * 16) 4).map fun w =>
    ⟨w 0, w 1, w 2, w 3 % 256, w 3 / 65536⟩

structure SymView where
  sym : Sym
  name : Option ℕ

def symGet (tab : SymTab) (idx : ℤ) : Option (Except Error SymView) :=
  if idx < 0 ∨ tab.count ≤ idx then some (.error .outOfRange)
  else (symAt buf tab idx.toNat).map fun e => .ok ⟨e, tab.str.at e.name⟩

def elfSymGet (img : Image) (idx : ℤ) : Option (Image × Except Error SymView) :=
  (ensureSymtab buf img).bind fun r =>
    match r.2 with
    | none => some (r.1, .error .notPresent)
    | some tab => (symGet buf tab idx).map fun v => (r.1, v)

def symName (tab : SymTab) (i : ℕ) : Option (Option ℕ) :=
  (symAt buf tab i).map fun e => tab.str.at e.name

def elfSymLookup (img : Image) (name : CString) : Option (Image × Except Error SymView) :=
  (ensureSymtab buf img).bind fun r =>
    match r.2 with
    | none => some (r.1, .error .notPresent)
    | some tab =>
      (findName buf (symName buf tab) name.1 tab.count 0).bind fun found =>
        match found with
        | some i => (symGet buf tab i).map fun v => (r.1, v)
        | none => some (r.1, .error .notFound)

/-! ## The dynamic table and the interpreter -/

def findDyntab (img : Image) : ℕ → ℕ → Option (Option DynTab)
  | 0, _ => some none
  | todo + 1, i =>
    (phdrAt buf img i).bind fun p =>
      if p.type = ptDynamic ∧ rangeOk buf p.offset p.filesz then
        some (some ⟨p.offset, p.filesz / 8⟩)
      else findDyntab img todo (i + 1)

def ensureDyntab (img : Image) : Option (Image × Option DynTab) :=
  match img.dyntab with
  | some tab => some (img, some tab)
  | none => (findDyntab buf img img.phnum 0).map fun r => ({ img with dyntab := r }, r)

def dynAt (tab : DynTab) (i : ℕ) : Option (ℤ × ℕ) :=
  (words buf (tab.offset + i * 8) 2).map fun w =>
    (if w 0 < 2 ^ 31 then w 0 else w 0 - 2 ^ 32, w 1)

def elfDynGet (img : Image) (idx : ℤ) : Option (Image × Except Error (ℤ × ℕ)) :=
  (ensureDyntab buf img).bind fun r =>
    match r.2 with
    | none => some (r.1, .error .notPresent)
    | some tab =>
      if idx < 0 ∨ tab.count ≤ idx then some (r.1, .error .outOfRange)
      else (dynAt buf tab idx.toNat).map fun d => (r.1, .ok d)

def findDyn (tab : DynTab) (tag : ℤ) : ℕ → ℕ → Option (Except Error ℕ)
  | 0, _ => some (.error .notFound)
  | todo + 1, i =>
    (dynAt buf tab i).bind fun d =>
      if d.1 = tag then some (.ok d.2)
      else if d.1 = 0 then some (.error .notFound)
      else findDyn tab tag todo (i + 1)

def elfDynFind (img : Image) (tag : ℤ) : Option (Image × Except Error ℕ) :=
  (ensureDyntab buf img).bind fun r =>
    match r.2 with
    | none => some (r.1, .error .notPresent)
    | some tab => (findDyn buf tab tag tab.count 0).map fun v => (r.1, v)

def findInterp (img : Image) : ℕ → ℕ → Option (Option ℕ)
  | 0, _ => some none
  | todo + 1, i =>
    (phdrAt buf img i).bind fun p =>
      if p.type ≠ ptInterp then findInterp img todo (i + 1)
      else if rangeOk buf p.offset p.filesz = false ∨ p.filesz = 0 then some none
      else
        buf[p.offset + p.filesz - 1]?.map fun last => if last = 0 then some p.offset else none

/-! ## Calls -/

inductive Call where
  | phdrGet (idx : ℤ)
  | shdrGet (idx : ℤ)
  | shdrFind (name : CString)
  | symGet (idx : ℤ)
  | symLookup (name : CString)
  | dynGet (idx : ℤ)
  | dynFind (tag : ℤ)
  | interp

inductive Reply where
  | phdr (r : Except Error PhdrView)
  | shdr (r : Except Error ShdrView)
  | sym (r : Except Error SymView)
  | dyn (r : Except Error (ℤ × ℕ))
  | value (r : Except Error ℕ)
  | interp (r : Option ℕ)
  | opened

def call (s : Image × Reply) : Call → Option (Image × Reply)
  | .phdrGet idx => (elfPhdrGet buf s.1 idx).map fun r => (s.1, .phdr r)
  | .shdrGet idx => (elfShdrGet buf s.1 idx).map fun r => (s.1, .shdr r)
  | .shdrFind name => (elfShdrFind buf s.1 name).map fun r => (s.1, .shdr r)
  | .symGet idx => (elfSymGet buf s.1 idx).map fun r => (r.1, .sym r.2)
  | .symLookup name => (elfSymLookup buf s.1 name).map fun r => (r.1, .sym r.2)
  | .dynGet idx => (elfDynGet buf s.1 idx).map fun r => (r.1, .dyn r.2)
  | .dynFind tag => (elfDynFind buf s.1 tag).map fun r => (r.1, .value r.2)
  | .interp => (findInterp buf s.1 s.1.phnum 0).map fun r => (s.1, .interp r)

/-- The data of a reply lie in the buffer; a path is terminated there. -/
def Reply.Inside : Reply → Prop
  | .phdr (.ok v) => ∀ p ∈ v.data, p + v.phdr.filesz ≤ buf.length
  | .shdr (.ok v) => (∀ p ∈ v.data, p + v.shdr.size ≤ buf.length) ∧ ∀ p ∈ v.name, p < buf.length
  | .sym (.ok v) => ∀ p ∈ v.name, p < buf.length
  | .interp (some p) => ∃ q, p ≤ q ∧ buf[q]? = some 0
  | _ => True

def NamesEnd (nameAt : ℕ → Option (Option ℕ)) (count : ℕ) : Prop :=
  ∀ i < count, ∀ p, nameAt i = some (some p) → ∃ q, p ≤ q ∧ buf[q]? = some 0

def Terminated (img : Image) : Prop :=
  (∀ tab, img.shstrtab = some tab → NamesEnd buf (shdrName buf img tab) img.shnum) ∧
    ∀ tab, findSymtab buf img img.shnum 0 = some (some tab) →
      NamesEnd buf (symName buf tab) tab.count

end

/-! ## Reads inside of the buffer -/

variable {buf : Bytes} {img img₀ : Image} {p : ℕ} {name : Bytes}

theorem rangeOk_iff {offset length : ℕ} :
    rangeOk buf offset length = true ↔ offset + length ≤ buf.length := by
  simp only [rangeOk, Bool.and_eq_true, decide_eq_true_eq]
  omega

theorem words_some {base n : ℕ} (h : base + 4 * n ≤ buf.length) : ∃ w, words buf base n = some w :=
  ⟨_, if_pos h⟩

structure Valid (buf : Bytes) (img : Image) : Prop where
  phdrs : 0 < img.phnum → img.phdr + img.phnum * phdrSize ≤ buf.length
  shdrs : 0 < img.shnum → img.shdr + img.shnum * shdrSize ≤ buf.length
  str : ∀ tab, img.shstrtab = some tab → tab.offset + tab.size ≤ buf.length

theorem Valid.phdrAt (h : Valid buf img) {i : ℕ} (hi : i < img.phnum) :
    ∃ x, phdrAt buf img i = some x := by
  have hall := h.phdrs (by omega)
  unfold phdrSize at hall
  obtain ⟨w, hw⟩ : ∃ w, words buf (img.phdr + i * phdrSize) 8 = some w := by
    apply words_some
    unfold phdrSize
    omega
  exact ⟨_, by rw [LibElf.phdrAt, hw]; rfl⟩

theorem Valid.shdrAt (h : Valid buf img) {i : ℕ} (hi : i < img.shnum) :
    ∃ x, shdrAt buf img i = some x := by
  have hall := h.shdrs (by omega)
  unfold shdrSize at hall
  obtain ⟨w, hw⟩ : ∃ w, words buf (img.shdr + i * shdrSize) 10 = some w := by
    apply words_some
    unfold shdrSize
    omega
  exact ⟨_, by rw [LibElf.shdrAt, hw]; rfl⟩

theorem StrTab.at_lt {tab : StrTab} {off n : ℕ} (h : tab.at off = some p)
    (hin : tab.offset + tab.size ≤ n) : p < n := by
  simp only [StrTab.at, Option.ite_none_right_eq_some, Option.some.injEq] at h
  omega

theorem elfOpen_valid (buf : Bytes) :
    ∃ r, elfOpen buf = some r ∧ ∀ img, r = .ok img →
      Valid buf img ∧ img.symtab = none ∧ img.dyntab = none := by
  unfold elfOpen
  split
  · next e _ => exact ⟨_, rfl, by rintro img ⟨⟩⟩
  · next hdr hhdr =>
    have hok : hdr.phoff = field buf 28 4 ∧ hdr.phnum = field buf 44 2 ∧
        (0 < field buf 44 2 → rangeOk buf (field buf 28 4) (field buf 44 2 * phdrSize) = true) ∧
        (0 < field buf 48 2 → rangeOk buf (field buf 32 4) (field buf 48 2 * shdrSize) = true) := by
      simp only [Exec.elfOpen, ite_eq_iff, reduceCtorEq, and_false, false_or,
        Except.ok.injEq] at hhdr
      obtain ⟨-, -, -, -, -, -, -, -, -, hph, hsh, rfl⟩ := hhdr
      refine ⟨rfl, rfl, fun h => ?_, fun h => ?_⟩
      · simpa using fun hr => hph ⟨h, hr⟩
      · simpa using fun hr => hsh ⟨h, hr⟩
    have hvalid : Valid buf ⟨hdr.phoff, hdr.phnum, field buf 32 4, field buf 48 2, none, none,
        none⟩ := by
      refine ⟨fun h => ?_, fun h => rangeOk_iff.mp (hok.2.2.2 h), by rintro tab ⟨⟩⟩
      dsimp only at h ⊢
      rw [hok.1, hok.2.1]
      exact rangeOk_iff.mp (hok.2.2.1 (hok.2.1 ▸ h))
    dsimp only
    split
    · next hndx =>
      obtain ⟨x, hx⟩ := hvalid.shdrAt hndx.2
      rw [hx]
      refine ⟨_, rfl, ?_⟩
      rintro img ⟨⟩
      refine ⟨⟨hvalid.phdrs, hvalid.shdrs, ?_⟩, rfl, rfl⟩
      intro tab htab
      simp only [Option.ite_none_right_eq_some, Option.some.injEq] at htab
      obtain ⟨hr, rfl⟩ := htab
      exact rangeOk_iff.mp hr
    · refine ⟨_, rfl, ?_⟩
      rintro img ⟨⟩
      exact ⟨hvalid, rfl, rfl⟩

/-! ## Comparisons of names -/

theorem strEq_total (hend : ∃ q, p ≤ q ∧ buf[q]? = some 0) (hname : (0 : UInt8) ∉ name) :
    ∃ same, strEq buf p name = some same := by
  induction name generalizing p with
  | nil =>
    obtain ⟨q, hq, hz⟩ := hend
    have hlt : p < buf.length := hq.trans_lt (List.getElem?_eq_some_iff.mp hz).1
    exact ⟨_, by rw [strEq, List.getElem?_eq_getElem hlt]; rfl⟩
  | cons c cs ih =>
    obtain ⟨q, hq, hz⟩ := hend
    have hlt : p < buf.length := hq.trans_lt (List.getElem?_eq_some_iff.mp hz).1
    rw [strEq, List.getElem?_eq_getElem hlt, Option.bind_some]
    split
    · next heq =>
      -- the terminator is further on, since the name has none
      have hne : p ≠ q := by
        rintro rfl
        rw [List.getElem?_eq_getElem hlt, heq] at hz
        cases hz
        exact hname (by simp)
      exact ih ⟨q, by omega, hz⟩ fun h => hname (by simp [h])
    · exact ⟨false, rfl⟩

theorem strEq_fault (more : Bytes) : strEq buf p (buf.drop p ++ more) = none := by
  induction h : buf.length - p generalizing p with
  | zero =>
    have hnone : buf[p]? = none := List.getElem?_eq_none (by omega)
    rw [List.drop_eq_nil_of_le (by omega), List.nil_append]
    cases more <;> simp [strEq, hnone]
  | succ k ih =>
    have hlt : p < buf.length := by omega
    rw [List.drop_eq_getElem_cons hlt, List.cons_append, strEq, List.getElem?_eq_getElem hlt,
      Option.bind_some, if_pos rfl]
    exact ih (by omega)

theorem length_of_strEq (h : strEq buf p name = some true) : p + name.length < buf.length := by
  induction name generalizing p with
  | nil =>
    cases hb : buf[p]? with
    | none => simp [strEq, hb] at h
    | some b => exact (List.getElem?_eq_some_iff.mp hb).1
  | cons c cs ih =>
    cases hb : buf[p]? with
    | none => simp [strEq, hb] at h
    | some b =>
      simp only [strEq, hb, Option.bind_some] at h
      split at h
      · have := ih h
        simp only [List.length_cons]
        omega
      · cases h

variable {nameAt : ℕ → Option (Option ℕ)} {count : ℕ}

theorem findName_total (hat : ∀ i < count, ∃ n, nameAt i = some n)
    (hends : NamesEnd buf nameAt count)
    (hname : (0 : UInt8) ∉ name) (todo i : ℕ) (hle : i + todo ≤ count) :
    ∃ r, findName buf nameAt name todo i = some r ∧ ∀ j, r = some j → j < count := by
  induction todo generalizing i with
  | zero => exact ⟨none, rfl, by rintro j ⟨⟩⟩
  | succ todo ih =>
    obtain ⟨n, hn⟩ := hat i (by omega)
    rw [findName, hn, Option.bind_some]
    cases n with
    | none => exact ih (i + 1) (by omega)
    | some q =>
      obtain ⟨same, hsame⟩ := strEq_total (hends i (by omega) q hn) hname
      dsimp only
      rw [hsame, Option.bind_some]
      split
      · exact ⟨some i, rfl, by rintro j ⟨⟩; omega⟩
      · exact ih (i + 1) (by omega)

def overlong (buf : Bytes) (p : ℕ) : Bytes := buf.drop p ++ List.replicate buf.length 1

theorem findName_fault {i₀ : ℕ} (hp : nameAt i₀ = some (some p)) (todo i : ℕ) (hle : i ≤ i₀)
    (hlt : i₀ < i + todo) : findName buf nameAt (overlong buf p) todo i = none := by
  induction todo generalizing i with
  | zero => omega
  | succ todo ih =>
    rw [findName]
    by_cases heq : i = i₀
    · subst heq
      rw [hp, Option.bind_some]
      dsimp only
      rw [overlong, strEq_fault, Option.bind_none]
    · have hrest := ih (i + 1) (by omega) (by omega)
      cases hn : nameAt i with
      | none => rfl
      | some n =>
        cases n with
        | none => exact hrest
        | some q =>
          rw [Option.bind_some]
          dsimp only
          cases hs : strEq buf q (overlong buf p) with
          | none => rfl
          | some same =>
            cases same with
            | true =>
              have := length_of_strEq hs
              simp only [overlong, List.length_append, List.length_replicate] at this
              omega
            | false => exact hrest

theorem namesEnd_of_total
    (h : ∀ name : CString, findName buf nameAt name.1 count 0 ≠ none) :
    NamesEnd buf nameAt count := by
  intro i hi p hp
  by_contra hno
  have hzero : (0 : UInt8) ∉ overlong buf p := by
    intro hmem
    rcases List.mem_append.mp hmem with hmem | hmem
    · obtain ⟨k, hk⟩ := List.getElem?_of_mem hmem
      rw [List.getElem?_drop] at hk
      exact hno ⟨p + k, by omega, hk⟩
    · exact absurd (List.eq_of_mem_replicate hmem) (by decide)
  exact h ⟨overlong buf p, hzero⟩ (findName_fault hp count 0 (by omega) (by omega))

/-! ## The cached tables -/

structure SymTab.Inside (buf : Bytes) (tab : SymTab) : Prop where
  syms : tab.offset + tab.count * 16 ≤ buf.length
  str : tab.str.offset + tab.str.size ≤ buf.length

theorem findSymtab_total (h : Valid buf img) (todo i : ℕ) (hle : i + todo ≤ img.shnum) :
    ∃ r, findSymtab buf img todo i = some r ∧ ∀ tab, r = some tab → tab.Inside buf := by
  induction todo generalizing i with
  | zero => exact ⟨none, rfl, by rintro tab ⟨⟩⟩
  | succ todo ih =>
    obtain ⟨x, hx⟩ := h.shdrAt (i := i) (by omega)
    rw [findSymtab, hx, Option.bind_some]
    split
    · next hsym =>
      obtain ⟨str, hstr⟩ := h.shdrAt hsym.2.2.1
      rw [hstr, Option.bind_some]
      split
      · next hs =>
        refine ⟨_, rfl, ?_⟩
        rintro tab ⟨⟩
        have hin := rangeOk_iff.mp hsym.2.2.2.1
        exact ⟨by dsimp only; omega, rangeOk_iff.mp hs.2⟩
      · exact ih (i + 1) (by omega)
    · exact ih (i + 1) (by omega)

theorem findDyntab_total (h : Valid buf img) (todo i : ℕ) (hle : i + todo ≤ img.phnum) :
    ∃ r, findDyntab buf img todo i = some r ∧
      ∀ tab, r = some tab → tab.offset + tab.count * 8 ≤ buf.length := by
  induction todo generalizing i with
  | zero => exact ⟨none, rfl, by rintro tab ⟨⟩⟩
  | succ todo ih =>
    obtain ⟨x, hx⟩ := h.phdrAt (i := i) (by omega)
    rw [findDyntab, hx, Option.bind_some]
    split
    · next hdyn =>
      refine ⟨_, rfl, ?_⟩
      rintro tab ⟨⟩
      have hin := rangeOk_iff.mp hdyn.2
      dsimp only
      omega
    · exact ih (i + 1) (by omega)

theorem findInterp_total (h : Valid buf img) (todo i : ℕ) (hle : i + todo ≤ img.phnum) :
    ∃ r, findInterp buf img todo i = some r ∧ (Reply.interp r).Inside buf := by
  induction todo generalizing i with
  | zero => exact ⟨none, rfl, trivial⟩
  | succ todo ih =>
    obtain ⟨x, hx⟩ := h.phdrAt (i := i) (by omega)
    rw [findInterp, hx, Option.bind_some]
    split
    · exact ih (i + 1) (by omega)
    · split
      · exact ⟨none, rfl, trivial⟩
      · next hr =>
        obtain ⟨hrange, hsize⟩ := not_or.mp hr
        have hin := rangeOk_iff.mp (Bool.not_eq_false _ ▸ hrange)
        have hlt : x.offset + x.filesz - 1 < buf.length := by omega
        rw [List.getElem?_eq_getElem hlt]
        refine ⟨_, rfl, ?_⟩
        dsimp only
        split
        · next hz => exact ⟨x.offset + x.filesz - 1, by omega,
            by rw [List.getElem?_eq_getElem hlt, hz]⟩
        · trivial

theorem symAt_some {tab : SymTab} (h : tab.Inside buf) {i : ℕ} (hi : i < tab.count) :
    ∃ x, symAt buf tab i = some x := by
  have hin := h.syms
  obtain ⟨w, hw⟩ : ∃ w, words buf (tab.offset + i * 16) 4 = some w := words_some (by omega)
  exact ⟨_, by rw [symAt, hw]; rfl⟩

theorem dynAt_some {tab : DynTab} (hin : tab.offset + tab.count * 8 ≤ buf.length) {i : ℕ}
    (hi : i < tab.count) : ∃ x, dynAt buf tab i = some x := by
  obtain ⟨w, hw⟩ : ∃ w, words buf (tab.offset + i * 8) 2 = some w := words_some (by omega)
  exact ⟨_, by rw [dynAt, hw]; rfl⟩

/-! ## Calls -/

def Image.base (img : Image) : Image := { img with symtab := none, dyntab := none }

theorem findSymtab_base (img : Image) (todo i : ℕ) :
    findSymtab buf img.base todo i = findSymtab buf img todo i := by
  induction todo generalizing i with
  | zero => rfl
  | succ todo ih =>
    simp only [findSymtab, ih]
    rfl

structure Inv (buf : Bytes) (img₀ : Image) (s : Image × Reply) : Prop where
  base : s.1.base = img₀
  valid : Valid buf s.1
  sym : ∀ tab, s.1.symtab = some tab → findSymtab buf img₀ img₀.shnum 0 = some (some tab)
  dyn : ∀ tab, s.1.dyntab = some tab → tab.offset + tab.count * 8 ≤ buf.length
  inside : s.2.Inside buf

variable {s s' : Image × Reply}

theorem Inv.reply (h : Inv buf img₀ s) {r : Reply} (hr : r.Inside buf) : Inv buf img₀ (s.1, r) :=
  ⟨h.base, h.valid, h.sym, h.dyn, hr⟩

theorem Inv.shnum (h : Inv buf img₀ s) : img₀.shnum = s.1.shnum := by
  rw [← h.base]
  rfl

theorem Inv.ensureSymtab (h : Inv buf img₀ s) :
    ∃ r, ensureSymtab buf s.1 = some r ∧ Inv buf img₀ (r.1, s.2) ∧
      findSymtab buf img₀ img₀.shnum 0 = some r.2 ∧ ∀ tab, r.2 = some tab → tab.Inside buf := by
  obtain ⟨found, hfound, hin⟩ := findSymtab_total h.valid s.1.shnum 0 (by omega)
  have hscan : findSymtab buf img₀ img₀.shnum 0 = some found := by
    rw [← hfound, h.shnum, ← h.base, findSymtab_base]
  unfold LibElf.ensureSymtab
  split
  · next tab htab =>
    obtain rfl : found = some tab := Option.some.inj (hscan.symm.trans (h.sym tab htab))
    exact ⟨_, rfl, h, hscan, hin⟩
  · rw [hfound]
    refine ⟨_, rfl, ⟨h.base, ⟨h.valid.phdrs, h.valid.shdrs, h.valid.str⟩, ?_, h.dyn, h.inside⟩,
      hscan, hin⟩
    rintro tab rfl
    exact hscan

theorem Inv.ensureDyntab (h : Inv buf img₀ s) :
    ∃ r, ensureDyntab buf s.1 = some r ∧ Inv buf img₀ (r.1, s.2) ∧
      ∀ tab, r.2 = some tab → tab.offset + tab.count * 8 ≤ buf.length := by
  obtain ⟨found, hfound, hin⟩ := findDyntab_total h.valid s.1.phnum 0 (by omega)
  unfold LibElf.ensureDyntab
  split
  · next tab htab =>
    exact ⟨_, rfl, h, by rintro _ ⟨⟩; exact h.dyn tab htab⟩
  · rw [hfound]
    exact ⟨_, rfl, ⟨h.base, ⟨h.valid.phdrs, h.valid.shdrs, h.valid.str⟩, h.sym, hin, h.inside⟩, hin⟩

theorem elfPhdrGet_total (h : Valid buf img) (idx : ℤ) :
    ∃ r, elfPhdrGet buf img idx = some r ∧ (Reply.phdr r).Inside buf := by
  unfold elfPhdrGet
  split
  · exact ⟨_, rfl, trivial⟩
  · next hidx =>
    obtain ⟨x, hx⟩ := h.phdrAt (i := idx.toNat) (by omega)
    rw [hx]
    refine ⟨_, rfl, fun p hp => ?_⟩
    simp only [Option.mem_def, Option.ite_none_right_eq_some, Option.some.injEq] at hp
    obtain ⟨hr, rfl⟩ := hp
    exact rangeOk_iff.mp hr

theorem elfShdrGet_total (h : Valid buf img) (idx : ℤ) :
    ∃ r, elfShdrGet buf img idx = some r ∧ (Reply.shdr r).Inside buf := by
  unfold elfShdrGet
  split
  · exact ⟨_, rfl, trivial⟩
  · next hidx =>
    obtain ⟨x, hx⟩ := h.shdrAt (i := idx.toNat) (by omega)
    rw [hx]
    refine ⟨_, rfl, fun p hp => ?_, fun p hp => ?_⟩
    · simp only [Option.mem_def, Option.ite_none_right_eq_some, Option.some.injEq] at hp
      obtain ⟨hr, rfl⟩ := hp
      exact rangeOk_iff.mp hr.2
    · obtain ⟨tab, htab, hat⟩ := Option.bind_eq_some_iff.mp hp
      exact StrTab.at_lt hat (h.str tab htab)

theorem symGet_total {tab : SymTab} (h : tab.Inside buf) (idx : ℤ) :
    ∃ r, symGet buf tab idx = some r ∧ (Reply.sym r).Inside buf := by
  unfold symGet
  split
  · exact ⟨_, rfl, trivial⟩
  · next hidx =>
    obtain ⟨x, hx⟩ := symAt_some h (i := idx.toNat) (by omega)
    rw [hx]
    exact ⟨_, rfl, fun p hp => StrTab.at_lt hp h.str⟩

theorem findDyn_total {tab : DynTab} (hin : tab.offset + tab.count * 8 ≤ buf.length) (tag : ℤ)
    (todo i : ℕ) (hle : i + todo ≤ tab.count) : ∃ r, findDyn buf tab tag todo i = some r := by
  induction todo generalizing i with
  | zero => exact ⟨_, rfl⟩
  | succ todo ih =>
    obtain ⟨x, hx⟩ := dynAt_some hin (i := i) (by omega)
    rw [findDyn, hx, Option.bind_some]
    split
    · exact ⟨_, rfl⟩
    · split
      · exact ⟨_, rfl⟩
      · exact ih (i + 1) (by omega)

theorem Inv.shdrNames (h : Inv buf img₀ s) (tab : StrTab) :
    ∀ i < s.1.shnum, ∃ n, shdrName buf s.1 tab i = some n := by
  intro i hi
  obtain ⟨x, hx⟩ := h.valid.shdrAt hi
  exact ⟨_, by rw [shdrName, hx]; rfl⟩

theorem symNames {tab : SymTab} (h : tab.Inside buf) :
    ∀ i < tab.count, ∃ n, symName buf tab i = some n := by
  intro i hi
  obtain ⟨x, hx⟩ := symAt_some h hi
  exact ⟨_, by rw [symName, hx]; rfl⟩

theorem Inv.call (h : Inv buf img₀ s) (c : Call) :
    (Terminated buf img₀ → ∃ s', call buf s c = some s') ∧
      ∀ s', call buf s c = some s' → Inv buf img₀ s' := by
  -- a call that gives a value
  have done : ∀ {o : Option (Image × Reply)} {s₁ : Image × Reply}, o = some s₁ → Inv buf img₀ s₁ →
      (Terminated buf img₀ → ∃ s', o = some s') ∧ ∀ s', o = some s' → Inv buf img₀ s' := by
    rintro _ s₁ rfl h₁
    exact ⟨fun _ => ⟨s₁, rfl⟩, by rintro _ ⟨⟩; exact h₁⟩
  cases c with
  | phdrGet idx =>
    obtain ⟨r, hr, hin⟩ := elfPhdrGet_total h.valid idx
    exact done (by simp only [LibElf.call, hr]; rfl) (h.reply hin)
  | shdrGet idx =>
    obtain ⟨r, hr, hin⟩ := elfShdrGet_total h.valid idx
    exact done (by simp only [LibElf.call, hr]; rfl) (h.reply hin)
  | shdrFind name =>
    simp only [LibElf.call, elfShdrFind]
    cases htab : s.1.shstrtab with
    | none => exact done rfl (h.reply trivial)
    | some tab =>
      dsimp only
      cases hfound : findName buf (shdrName buf s.1 tab) name.1 s.1.shnum 0 with
      | none =>
        refine ⟨fun hterm => ?_, by rintro _ ⟨⟩⟩
        have hends : NamesEnd buf (shdrName buf s.1 tab) s.1.shnum := by
          have := hterm.1 tab (by rw [← h.base]; exact htab)
          rwa [h.shnum, ← h.base] at this
        obtain ⟨r, hr, -⟩ := findName_total (h.shdrNames tab) hends name.2 s.1.shnum 0 (by omega)
        rw [hfound] at hr
        cases hr
      | some found =>
        rw [Option.bind_some]
        cases found with
        | none => exact done rfl (h.reply trivial)
        | some i =>
          obtain ⟨r, hr, hin⟩ := elfShdrGet_total h.valid i
          exact done (by dsimp only; rw [hr]; rfl) (h.reply hin)
  | symGet idx =>
    obtain ⟨⟨img, tab⟩, hr, hinv, -, hin⟩ := h.ensureSymtab
    simp only [LibElf.call, elfSymGet, hr, Option.bind_some]
    cases tab with
    | none => exact done rfl (hinv.reply trivial)
    | some tab =>
      obtain ⟨v, hv, hinside⟩ := symGet_total (hin tab rfl) idx
      exact done (by dsimp only; rw [hv]; rfl) (hinv.reply hinside)
  | symLookup name =>
    obtain ⟨⟨img, tab⟩, hr, hinv, hscan, hin⟩ := h.ensureSymtab
    simp only [LibElf.call, elfSymLookup, hr, Option.bind_some]
    cases tab with
    | none => exact done rfl (hinv.reply trivial)
    | some tab =>
      dsimp only
      cases hfound : findName buf (symName buf tab) name.1 tab.count 0 with
      | none =>
        refine ⟨fun hterm => ?_, by rintro _ ⟨⟩⟩
        obtain ⟨r, hr, -⟩ := findName_total (symNames (hin tab rfl)) (hterm.2 tab hscan) name.2
          tab.count 0 (by omega)
        rw [hfound] at hr
        cases hr
      | some found =>
        rw [Option.bind_some]
        cases found with
        | none => exact done rfl (hinv.reply trivial)
        | some i =>
          obtain ⟨v, hv, hinside⟩ := symGet_total (hin tab rfl) i
          exact done (by dsimp only; rw [hv]; rfl) (hinv.reply hinside)
  | dynGet idx =>
    obtain ⟨⟨img, tab⟩, hr, hinv, hin⟩ := h.ensureDyntab
    simp only [LibElf.call, elfDynGet, hr, Option.bind_some]
    cases tab with
    | none => exact done rfl (hinv.reply trivial)
    | some tab =>
      dsimp only
      split
      · exact done rfl (hinv.reply trivial)
      · next hidx =>
        obtain ⟨x, hx⟩ := dynAt_some (hin tab rfl) (i := idx.toNat) (by omega)
        exact done (by rw [hx]; rfl) (hinv.reply (r := .dyn (.ok x)) trivial)
  | dynFind tag =>
    obtain ⟨⟨img, tab⟩, hr, hinv, hin⟩ := h.ensureDyntab
    simp only [LibElf.call, elfDynFind, hr, Option.bind_some]
    cases tab with
    | none => exact done rfl (hinv.reply trivial)
    | some tab =>
      obtain ⟨v, hv⟩ := findDyn_total (hin tab rfl) tag tab.count 0 (by omega)
      exact done (by dsimp only; rw [hv]; rfl) (hinv.reply (r := .value v) trivial)
  | interp =>
    obtain ⟨r, hr, hin⟩ := findInterp_total h.valid s.1.phnum 0 (by omega)
    exact done (by simp only [LibElf.call, hr]; rfl) (h.reply hin)

theorem Inv.run (h : Inv buf img₀ s) (hterm : Terminated buf img₀) (calls : List Call) :
    ∃ s', runSteps (LibElf.call buf) s calls = some s' := by
  induction calls generalizing s with
  | nil => exact ⟨s, rfl⟩
  | cons c calls ih =>
    obtain ⟨s₁, h₁⟩ := (h.call c).1 hterm
    obtain ⟨s', hs'⟩ := ih ((h.call c).2 s₁ h₁)
    exact ⟨s', runSteps_cons.mpr ⟨s₁, h₁, hs'⟩⟩

/-- `elf_open` reads inside of the buffer; for an image that it accepts, all calls do so exactly
if the names of the sections and of the symbols are terminated, and the data of every reply lie
in the buffer. -/
theorem libelf_inside_iff (buf : Bytes) :
    (∃ r, elfOpen buf = some r) ∧
      ∀ img, elfOpen buf = some (.ok img) →
        ((∀ calls, ∃ s, runSteps (call buf) (img, .opened) calls = some s) ↔
          Terminated buf img) ∧
        ∀ calls s, runSteps (call buf) (img, .opened) calls = some s → s.2.Inside buf := by
  obtain ⟨r, hr, hvalid⟩ := elfOpen_valid buf
  refine ⟨⟨r, hr⟩, fun img hopen => ?_⟩
  obtain ⟨hv, hsym, hdyn⟩ := hvalid img (Option.some.inj (hr.symm.trans hopen))
  have hbase : img.base = img := by
    unfold Image.base
    rw [← hsym, ← hdyn]
  have h : Inv buf img (img, .opened) :=
    ⟨hbase, hv, by rw [hsym]; rintro _ ⟨⟩, by rw [hdyn]; rintro _ ⟨⟩, trivial⟩
  refine ⟨⟨fun hall => ⟨fun tab htab => ?_, fun tab htab => ?_⟩, h.run⟩, fun calls s hrun => ?_⟩
  · refine namesEnd_of_total fun name hnone => ?_
    obtain ⟨s, hs⟩ := hall [.shdrFind name]
    simp [runSteps, call, elfShdrFind, htab, hnone] at hs
  · refine namesEnd_of_total fun name hnone => ?_
    obtain ⟨s, hs⟩ := hall [.symLookup name]
    simp [runSteps, call, elfSymLookup, ensureSymtab, hsym, htab, hnone] at hs
  · exact (runSteps_invariant (fun s c s' hi hs => (hi.call c).2 s' hs) h hrun).inside

/-- A file with two section headers after its header, both named by the first byte of a string
table that holds the one byte `x` and ends the file. -/
def unterminated : Bytes :=
  [0x7f, 0x45, 0x4c, 0x46, 1, 1, 1, 0, 0, 0, 0, 0, 0, 0, 0, 0] ++
  [3, 0, 3, 0, 1, 0, 0, 0, 0, 0, 0, 0, 0, 0, 0, 0, 52, 0, 0, 0, 0, 0, 0, 0] ++
  [52, 0, 0, 0, 0, 0, 40, 0, 2, 0, 1, 0] ++ List.replicate 56 0 ++ [132, 0, 0, 0, 1] ++
  List.replicate 19 0 ++ [120]

set_option maxRecDepth 20000 in
/-- Looking up the section `x` there reads the byte after the last one. -/
theorem unterminated_name_overrun :
    ∃ img, elfOpen unterminated = some (.ok img) ∧ unterminated.length = 133 ∧
      runSteps (call unterminated) (img, .opened) [.shdrFind ⟨[120], by decide⟩] = none :=
  ⟨_, rfl, rfl, rfl⟩

end Uros.Exec.LibElf
