import Uros.Foundation.Blit
import Uros.Foundation.Bytes

/-!
Reading a directory through the file server, batch by batch.

`ext2fs_readdir` walks the records of a directory from its start; `vfs_readdir` asks it
for one batch more than the client has seen and hands out the part behind the cookie.
A directory is given by the records it is laid out from.
-/

namespace Uros.Vfs

open Uros.Foundation

def nameMax : Nat := 255

def direntMax : Nat := 64

structure DirRecord where
  inode : UInt32
  recLen : Nat
  fileType : UInt8
  name : CString
  name_le : name.1.length ≤ nameMax
  recLen_ge : 8 + name.1.length ≤ recLen
  recLen_lt : recLen < 2 ^ 16

def DirRecord.bytes (r : DirRecord) : Bytes :=
  leBytes 4 r.inode.toNat ++ (leBytes 2 r.recLen ++ ([UInt8.ofNat r.name.1.length, r.fileType]
    ++ (r.name.1 ++ List.replicate (r.recLen - 8 - r.name.1.length) 0)))

@[simp] theorem DirRecord.length_bytes (r : DirRecord) : r.bytes.length = r.recLen := by
  have h := r.recLen_ge
  simp [DirRecord.bytes]
  omega

structure DirFile where
  isDir : Bool
  size : Nat
  content : Nat → UInt8

def layout (records : List DirRecord) : Bytes := records.flatMap DirRecord.bytes

def directory (records : List DirRecord) : DirFile :=
  ⟨true, (layout records).length, poke (fun _ => 0) 0 (layout records)⟩

structure FsDirent where
  ino : Nat
  type : Nat
  name : Bytes
  deriving DecidableEq

def field (d : DirFile) (offset width : Nat) : Nat := leNat (slice d.content offset width)

def walk (d : DirFile) (max : Nat) : Nat → Nat → List FsDirent → List FsDirent
  | 0, _, out => out
  | rounds + 1, offset, out =>
    if offset < d.size ∧ out.length < max then
      let recLen := field d (offset + 4) 2
      if recLen = 0 then out
      else
        let ino := field d offset 4
        let nlen := min (field d (offset + 6) 1) nameMax
        if ino ≠ 0 then
          let entry := ⟨ino, field d (offset + 7) 1, slice d.content (offset + 8) nlen⟩
          walk d max rounds (offset + recLen) (out ++ [entry])
        else walk d max rounds (offset + recLen) out
    else out

def ext2fsReaddir (d : DirFile) (max : Nat) : Option (List FsDirent) :=
  if d.isDir then some (walk d max d.size 0 []) else none

inductive VfsType where
  | unknown | reg | dir | symlink | char | block | fifo | sock
  deriving DecidableEq

def vfsType : Nat → VfsType
  | 1 => .reg
  | 2 => .dir
  | 3 => .char
  | 4 => .block
  | 5 => .fifo
  | 6 => .sock
  | 7 => .symlink
  | _ => .unknown

structure VfsDirent where
  ino : Nat
  cookie : Nat
  type : VfsType
  namelen : Nat
  name : Bytes
  deriving DecidableEq

inductive ReaddirError where
  | invalidArgument | resourceShortage | failure
  deriving DecidableEq

def toVfs (i : Nat) (e : FsDirent) : VfsDirent :=
  let nlen := min (strlen e.name) nameMax
  ⟨e.ino, i + 1, vfsType e.type, nlen, e.name.take nlen⟩

/-- The emitting loop from entry `i` on, with room for `room` more: what it emits and
where it stops. -/
def emitFrom (tmp : List FsDirent) : Nat → Nat → List VfsDirent × Nat
  | 0, i => ([], i)
  | room + 1, i =>
    match tmp[i]? with
    | some e =>
      let (rest, stop) := emitFrom tmp room (i + 1)
      (toVfs i e :: rest, stop)
    | none => ([], i)

structure Buffers where
  tmp : Bool
  out : Bool

def vfsReaddir (buffers : Buffers) (batch : Nat) (priv : Option DirFile) (cookie : Nat) :
    Except ReaddirError (List VfsDirent × Nat) :=
  match priv with
  | none => .error .invalidArgument
  | some d =>
    let first := cookie % 2 ^ 32
    let want := (first + batch) % 2 ^ 32
    if !buffers.tmp then .error .resourceShortage
    else
      match ext2fsReaddir d want with
      | none => .error .failure
      | some tmp =>
        if !buffers.out then .error .resourceShortage
        else
          let (entries, i) := emitFrom tmp batch first
          .ok (entries, if i < tmp.length then i else 0)

def listDir (batch : Nat) (d : DirFile) : Nat → Nat → Option (List VfsDirent)
  | 0, _ => none
  | calls + 1, cookie =>
    match vfsReaddir ⟨true, true⟩ batch (some d) cookie with
    | .error _ => none
    | .ok (entries, next) =>
      if next = 0 then some entries
      else (listDir batch d calls next).map (entries ++ ·)

def live (records : List DirRecord) : List DirRecord := records.filter (·.inode ≠ 0)

def DirRecord.entry (r : DirRecord) : FsDirent := ⟨r.inode.toNat, r.fileType.toNat, r.name.1⟩

theorem field_eq {d : DirFile} {offset width n : Nat}
    (h : Holds d.content offset (leBytes width n)) (hn : n < 256 ^ width) :
    field d offset width = n := by
  have hslice := h.slice_eq
  rw [length_leBytes] at hslice
  rw [field, hslice, leNat_leBytes hn]

theorem field_one {d : DirFile} {offset : Nat} {b : UInt8} (h : d.content offset = b) :
    field d offset 1 = b.toNat := by
  simp [field, slice, leNat, h]

structure Reads (d : DirFile) (offset : Nat) (r : DirRecord) : Prop where
  inode : field d offset 4 = r.inode.toNat
  recLen : field d (offset + 4) 2 = r.recLen
  nameLen : field d (offset + 6) 1 = r.name.1.length
  fileType : field d (offset + 7) 1 = r.fileType.toNat
  name : slice d.content (offset + 8) r.name.1.length = r.name.1

theorem reads_of_holds {d : DirFile} {offset : Nat} {r : DirRecord}
    (h : Holds d.content offset r.bytes) : Reads d offset r := by
  unfold DirRecord.bytes at h
  simp only [holds_append, length_leBytes, List.length_cons, List.length_nil] at h
  obtain ⟨hinode, hrecLen, htwo, hname, -⟩ := h
  have hname_le := r.name_le
  have hlen : d.content (offset + 4 + 2) = UInt8.ofNat r.name.1.length := htwo 0 _ rfl
  have htype : d.content (offset + 4 + 2 + 1) = r.fileType := htwo 1 _ rfl
  refine ⟨field_eq hinode r.inode.toNat_lt, field_eq hrecLen r.recLen_lt, ?_, field_one htype, ?_⟩
  · rw [field_one hlen, UInt8.toNat_ofNat', Nat.mod_eq_of_lt]
    exact Nat.lt_of_le_of_lt hname_le (by decide)
  · exact hname.slice_eq

theorem walk_records {d : DirFile} {max rounds offset : Nat} {records : List DirRecord}
    {out : List FsDirent} (h : Holds d.content offset (layout records))
    (hsize : offset + (layout records).length = d.size)
    (hrounds : (layout records).length ≤ rounds) (hout : out.length ≤ max) :
    walk d max rounds offset out = (out ++ (live records).map DirRecord.entry).take max := by
  induction records generalizing rounds offset out with
  | nil =>
    have hstop : ¬(offset < d.size ∧ out.length < max) := by
      simp [layout] at hsize
      omega
    cases rounds with
    | zero => simp [walk, live, List.take_of_length_le hout]
    | succ rounds => simp [walk, live, List.take_of_length_le hout, if_neg hstop]
  | cons r records ih =>
    have hsplit : layout (r :: records) = r.bytes ++ layout records := rfl
    rw [hsplit, holds_append, DirRecord.length_bytes] at h
    rw [hsplit, List.length_append, DirRecord.length_bytes] at hsize hrounds
    have hread := reads_of_holds h.1
    have hge := r.recLen_ge
    obtain ⟨rounds, rfl⟩ : ∃ k, rounds = k + 1 := ⟨rounds - 1, by omega⟩
    rw [walk]
    by_cases hroom : out.length < max
    · have hpos : r.recLen ≠ 0 := by omega
      have hnlen : min r.name.1.length nameMax = r.name.1.length := Nat.min_eq_left r.name_le
      rw [if_pos ⟨by omega, hroom⟩]
      simp only [hread.recLen, hread.inode, hread.nameLen, hread.fileType, hnlen, hread.name,
        if_neg hpos]
      by_cases hlive : r.inode = 0
      · have hskip : live (r :: records) = live records := by simp [live, hlive]
        rw [if_neg (by simp [hlive]), hskip]
        exact ih h.2 (by omega) (by omega) hout
      · have hkeep : live (r :: records) = r :: live records := by simp [live, hlive]
        have hnz : r.inode.toNat ≠ 0 := fun h0 => hlive (UInt32.toNat_inj.mp h0)
        rw [if_pos hnz, hkeep, ih h.2 (by omega) (by omega) (by simp; omega)]
        simp [DirRecord.entry]
    · have hfull : out.length = max := by omega
      rw [if_neg fun h => hroom h.2, ← hfull]
      simp

theorem ext2fsReaddir_directory (records : List DirRecord) (max : Nat) :
    ext2fsReaddir (directory records) max =
      some (((live records).map DirRecord.entry).take max) := by
  have hheld : Holds (directory records).content 0 (layout records) := by
    change Holds (poke _ 0 (layout records)) 0 (layout records)
    exact holds_poke
  have hdir : (directory records).isDir = true := rfl
  have hwalk : walk (directory records) max (directory records).size 0 [] = _ :=
    walk_records hheld (Nat.zero_add _) (Nat.le_refl _) (Nat.zero_le max)
  rw [ext2fsReaddir, if_pos hdir, hwalk, List.nil_append]

def DirRecord.vfsEntry (i : Nat) (r : DirRecord) : VfsDirent :=
  ⟨r.inode.toNat, i + 1, vfsType r.fileType.toNat, r.name.1.length, r.name.1⟩

theorem toVfs_entry (i : Nat) (r : DirRecord) : toVfs i r.entry = r.vfsEntry i := by
  have hnlen : min (strlen r.name.1) nameMax = r.name.1.length := by
    rw [strlen_cstring r.name]
    exact Nat.min_eq_left r.name_le
  simp [toVfs, DirRecord.entry, DirRecord.vfsEntry, hnlen]

def listing (records : List DirRecord) : List VfsDirent :=
  (live records).mapIdx DirRecord.vfsEntry

theorem emitFrom_eq (rs : List DirRecord) (room i : Nat) (hroom : rs.length ≤ i + room) :
    emitFrom (rs.map DirRecord.entry) room i =
      ((rs.mapIdx DirRecord.vfsEntry).drop i, max i rs.length) := by
  induction room generalizing i with
  | zero =>
    have hdrop : (rs.mapIdx DirRecord.vfsEntry).drop i = [] :=
      List.drop_eq_nil_of_le (by simpa using hroom)
    rw [emitFrom, hdrop, Nat.max_eq_left (by omega)]
  | succ room ih =>
    rw [emitFrom]
    by_cases hi : i < rs.length
    · have hget : (rs.map DirRecord.entry)[i]? = some rs[i].entry := by
        rw [List.getElem?_map, List.getElem?_eq_getElem hi, Option.map_some]
      have hdrop : (rs.mapIdx DirRecord.vfsEntry).drop i =
          rs[i].vfsEntry i :: (rs.mapIdx DirRecord.vfsEntry).drop (i + 1) := by
        rw [List.drop_eq_getElem_cons (by simpa using hi), List.getElem_mapIdx]
      simp only [hget]
      rw [ih (i + 1) (by omega), hdrop, toVfs_entry, Nat.max_eq_right (by omega),
        Nat.max_eq_right (by omega)]
    · have hget : (rs.map DirRecord.entry)[i]? = none :=
        List.getElem?_eq_none (by simpa using hi)
      have hdrop : (rs.mapIdx DirRecord.vfsEntry).drop i = [] :=
        List.drop_eq_nil_of_le (by simpa using hi)
      simp only [hget]
      rw [hdrop, Nat.max_eq_left (by omega)]

theorem vfsReaddir_first (records : List DirRecord) {batch : Nat} (hbatch : batch < 2 ^ 32) :
    vfsReaddir ⟨true, true⟩ batch (some (directory records)) 0 =
      .ok (((live records).take batch).mapIdx DirRecord.vfsEntry, 0) := by
  have hwant : (0 + batch) % 2 ^ 32 = batch := by
    rw [Nat.zero_add, Nat.mod_eq_of_lt hbatch]
  have hlength : ((live records).take batch).length ≤ 0 + batch := by
    rw [List.length_take]
    omega
  have hemit := emitFrom_eq ((live records).take batch) batch 0 hlength
  simp only [vfsReaddir, Nat.zero_mod, hwant, ext2fsReaddir_directory, ← List.map_take, hemit,
    Bool.not_true, Bool.false_eq_true, if_false, List.drop_zero, Nat.zero_max, List.length_map,
    Nat.lt_irrefl]

theorem listDir_eq (records : List DirRecord) {batch : Nat} (hbatch : batch < 2 ^ 32)
    (calls : Nat) :
    listDir batch (directory records) (calls + 1) 0 =
      some (((live records).take batch).mapIdx DirRecord.vfsEntry) := by
  rw [listDir, vfsReaddir_first records hbatch]
  rfl

/-- A client that follows the cookies sees every live entry once and in order exactly when
they fit in one batch. -/
theorem listing_complete_iff (records : List DirRecord) (batch : Nat) (hbatch : batch < 2 ^ 32) :
    (∃ calls, listDir batch (directory records) calls 0 = some (listing records)) ↔
      (live records).length ≤ batch := by
  constructor
  · rintro ⟨calls, hcalls⟩
    cases calls with
    | zero => simp [listDir] at hcalls
    | succ calls =>
      rw [listDir_eq records hbatch, Option.some.injEq] at hcalls
      have hlen := congrArg List.length hcalls
      simp only [listing, List.length_mapIdx, List.length_take] at hlen
      omega
  · intro hfits
    refine ⟨1, ?_⟩
    rw [listDir_eq records hbatch, List.take_of_length_le hfits, listing]

def recordB (ino : UInt32) : DirRecord :=
  ⟨ino, 12, 1, ⟨[98], by decide⟩, by decide, by decide, by decide⟩

theorem listing_complete_iff_two :
    ∃ calls, listDir direntMax (directory [recordB 12, recordB 0, recordB 13]) calls 0 =
      some (listing [recordB 12, recordB 0, recordB 13]) :=
  (listing_complete_iff _ direntMax (by decide)).mpr (by decide)

/-- Files that are called by one letter, from `A` on. -/
def letters : List DirRecord :=
  (List.finRange 65).map fun n : Fin 65 =>
    ⟨.ofNat (12 + n.val), 12, 1, ⟨[.ofNat (65 + n.val)], by revert n; decide⟩, by simp [nameMax],
      by simp, by decide⟩

/-- A directory with one entry more than a batch: the first call returns 64 entries and says
that they are all. -/
theorem directory_listing_cut :
    ¬∃ calls, listDir direntMax (directory letters) calls 0 = some (listing letters) := by
  rintro ⟨calls, hcalls⟩
  cases calls with
  | zero => simp [listDir] at hcalls
  | succ calls =>
    rw [listDir_eq _ (by decide), Option.some.injEq] at hcalls
    exact absurd (congrArg List.length hcalls) (by decide)

end Uros.Vfs
