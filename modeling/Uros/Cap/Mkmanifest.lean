import Mathlib.Data.List.DropRight
import Uros.Cap.Manifest

/-!
The manifest compiler (`tools/mkmanifest/mkmanifest.c`) against the checks and the lookup of
`cap_server/cap_manifest_table.c`.

The tool runs on a little-endian host, in the C locale.
-/

namespace Uros.Cap

open Uros.Foundation

def isspace (b : UInt8) : Bool := b = 32 || (9 ≤ b && b ≤ 13)

def isBlank (b : UInt8) : Bool := b = 32 || b = 9

def strtok (s : Bytes) : Option (Bytes × Bytes) :=
  let s := s.dropWhile isBlank
  if s = [] then none
  else some (s.takeWhile (!isBlank ·), (s.dropWhile (!isBlank ·)).drop 1)

def digitOf (base : ℕ) (b : UInt8) : Option ℕ :=
  let d :=
    if 48 ≤ b && b ≤ 57 then b.toNat - 48
    else if 97 ≤ b && b ≤ 122 then b.toNat - 87
    else if 65 ≤ b && b ≤ 90 then b.toNat - 55
    else base
  if d < base then some d else none

def readDigits (base acc : ℕ) : Bytes → ℕ × Bytes
  | [] => (acc, [])
  | b :: s =>
    match digitOf base b with
    | some d => readDigits base (acc * base + d) s
    | none => (acc, b :: s)

structure Strtoull where
  value : UInt64
  errno : Bool
  rest : Bytes

def strtoull (s : Bytes) : Strtoull :=
  let body := s.dropWhile isspace
  let minus := body.head? = some 45
  let body := if minus || body.head? = some 43 then body.tail else body
  let hex := body.head? = some 48 && (body[1]? = some 120 || body[1]? = some 88) &&
    (body[2]?.bind (digitOf 16)).isSome
  let base := if hex then 16 else if body.head? = some 48 then 8 else 10
  let body := if hex then body.drop 2 else body
  let r := readDigits base 0 body
  if r.2.length = body.length then ⟨0, false, s⟩
  else if 2 ^ 64 ≤ r.1 then ⟨UInt64.ofNat (2 ^ 64 - 1), true, r.2⟩
  else ⟨UInt64.ofNat (if minus then 2 ^ 64 - r.1 else r.1), false, r.2⟩

inductive MkError where
  | tooManyEntries (line : ℕ) (kw : Bytes)
  | needsTypeAndOps (line : ℕ) (kw : Bytes)
  | badType (line : ℕ) (text : Bytes)
  | badOps (line : ℕ) (text : Bytes)
  | nameNeedsValue (line : ℕ)
  | nameTooLong (line : ℕ)
  | nameAlreadySet (line : ℕ) (name : Bytes)
  | needsArgs (line : ℕ) (kw : Bytes)
  | unknownKeyword (line : ℕ) (kw : Bytes)
  | missingName
  | blobTooLarge (size : ℕ)
  deriving DecidableEq

structure MkState where
  name : Bytes
  required : List ManifestEntry
  delegatable : List ManifestEntry

def kwName : Bytes := [110, 97, 109, 101]

def kwRequired : Bytes := [114, 101, 113, 117, 105, 114, 101, 100]

def kwDelegatable : Bytes := [100, 101, 108, 101, 103, 97, 116, 97, 98, 108, 101]

def parseEntry (kw args : Bytes) (out : List ManifestEntry) (line : ℕ) :
    Except MkError (List ManifestEntry) :=
  if capManifestMaxEntries ≤ out.length then .error (.tooManyEntries line kw)
  else
    match strtok args with
    | none => .error (.needsTypeAndOps line kw)
    | some (typeS, rest) =>
      match strtok rest with
      | none => .error (.needsTypeAndOps line kw)
      | some (opsS, _) =>
        let type := strtoull typeS
        if type.errno || type.rest ≠ [] || 0xffffffff < type.value.toNat then
          .error (.badType line typeS)
        else
          let ops := strtoull opsS
          if ops.errno || ops.rest ≠ [] then .error (.badOps line opsS)
          else .ok (out ++ [⟨UInt32.ofNat type.value.toNat, ops.value⟩])

def stripLine (line : Bytes) : Bytes :=
  (((line.takeWhile (· ≠ 0)).takeWhile (· ≠ 35)).rdropWhile isspace).dropWhile isspace

def parseLine (st : MkState) (lineno : ℕ) (line : Bytes) : Except MkError MkState :=
  match strtok (stripLine line) with
  | none => .ok st
  | some (kw, rest) =>
    if kw = kwName then
      if rest = [] then .error (.nameNeedsValue lineno)
      else
        let value := rest.dropWhile isspace
        if capManifestMaxName ≤ value.length then .error (.nameTooLong lineno)
        else if st.name ≠ [] then .error (.nameAlreadySet lineno st.name)
        else .ok { st with name := value }
    else if kw = kwRequired then
      if rest = [] then .error (.needsArgs lineno kwRequired)
      else
        match parseEntry kwRequired rest st.required lineno with
        | .error e => .error e
        | .ok entries => .ok { st with required := entries }
    else if kw = kwDelegatable then
      if rest = [] then .error (.needsArgs lineno kwDelegatable)
      else
        match parseEntry kwDelegatable rest st.delegatable lineno with
        | .error e => .error e
        | .ok entries => .ok { st with delegatable := entries }
    else .error (.unknownKeyword lineno kw)

def parseLines (st : MkState) (lineno : ℕ) : List Bytes → Except MkError MkState
  | [] => .ok st
  | line :: lines =>
    match parseLine st lineno line with
    | .error e => .error e
    | .ok st' => parseLines st' (lineno + 1) lines

def fgets : ℕ → Bytes → Bytes × Bytes
  | 0, src => ([], src)
  | _ + 1, [] => ([], [])
  | size + 1, b :: src =>
    if b = 10 then ([10], src)
    else (b :: (fgets size src).1, (fgets size src).2)

def lineBufferSize : ℕ := 512

def readLines : ℕ → Bytes → List Bytes
  | 0, _ => []
  | _ + 1, [] => []
  | fuel + 1, b :: src =>
    (fgets (lineBufferSize - 1) (b :: src)).1 ::
      readLines fuel (fgets (lineBufferSize - 1) (b :: src)).2

def parseSource (source : Bytes) : Except MkError MkState :=
  match parseLines ⟨[], [], []⟩ 1 (readLines source.length source) with
  | .error e => .error e
  | .ok st => if st.name = [] then .error .missingName else .ok st

def ManifestEntry.bytes (e : ManifestEntry) : Bytes :=
  u32Bytes e.type ++ (leBytes 4 0 ++ u64Bytes e.ops)

def ManifestHeader.bytes (h : ManifestHeader) : Bytes :=
  u32Bytes h.magic ++ (leBytes 2 h.version ++ (leBytes 2 h.headerSize ++
    (leBytes 4 h.totalSize ++ (u32Bytes h.flags ++ (leBytes 4 h.nameOffset ++
      (leBytes 4 h.nameLength ++ (leBytes 4 h.requiredOffset ++ (leBytes 4 h.requiredCount ++
        (leBytes 4 h.delegatableOffset ++ (leBytes 4 h.delegatableCount ++ leBytes 8 0))))))))))

def emitHeader (st : MkState) : ManifestHeader :=
  let delegatableOffset := manifestHeaderSize + st.required.length * manifestEntrySize
  let nameOffset := delegatableOffset + st.delegatable.length * manifestEntrySize
  let nameLength := st.name.length + 1
  { magic := capManifestMagic
    version := capManifestVersion
    headerSize := manifestHeaderSize
    totalSize := (nameOffset + nameLength + 3) / 4 * 4
    flags := 0
    nameOffset := nameOffset
    nameLength := nameLength
    requiredOffset := manifestHeaderSize
    requiredCount := st.required.length
    delegatableOffset := delegatableOffset
    delegatableCount := st.delegatable.length }

def emit (st : MkState) : Except MkError Bytes :=
  let h := emitHeader st
  if capManifestMaxBytes < h.totalSize then .error (.blobTooLarge h.totalSize)
  else
    .ok (h.bytes ++ (st.required.flatMap (·.bytes) ++ (st.delegatable.flatMap (·.bytes) ++
      (st.name ++ [0] ++ List.replicate (h.totalSize - (h.nameOffset + h.nameLength)) 0))))

def mkmanifest (source : Bytes) : Except MkError Bytes :=
  match parseSource source with
  | .error e => .error e
  | .ok st => emit st

theorem drop_append_right {a b : Bytes} {off : ℕ} (h : a.length ≤ off) :
    (a ++ b).drop off = b.drop (off - a.length) := by
  rw [List.drop_append, List.drop_eq_nil_of_le h, List.nil_append]

theorem u16At_append {a b : Bytes} {off : ℕ} (h : a.length ≤ off) :
    u16At (a ++ b) off = u16At b (off - a.length) := by
  rw [u16At, drop_append_right h, u16At]

theorem u32At_append {a b : Bytes} {off : ℕ} (h : a.length ≤ off) :
    u32At (a ++ b) off = u32At b (off - a.length) := by
  rw [u32At, drop_append_right h, u32At]

theorem u64At_append {a b : Bytes} {off : ℕ} (h : a.length ≤ off) :
    u64At (a ++ b) off = u64At b (off - a.length) := by
  rw [u64At, drop_append_right h, u64At]

theorem u16At_leBytes {n : ℕ} (h : n < 2 ^ 16) (rest : Bytes) :
    u16At (leBytes 2 n ++ rest) 0 = n := by
  have : (leBytes 2 n ++ rest).take 2 = leBytes 2 n := List.take_left' (by simp)
  rw [u16At, List.drop_zero, this, leNat_leBytes h]

theorem u32At_leBytes {n : ℕ} (h : n < 2 ^ 32) (rest : Bytes) :
    (u32At (leBytes 4 n ++ rest) 0).toNat = n := by
  have : (leBytes 4 n ++ rest).take 4 = leBytes 4 n := List.take_left' (by simp)
  rw [u32At, List.drop_zero, this, leNat_leBytes h, UInt32.toNat_ofNat_of_lt' h]

theorem u32At_u32Bytes (x : UInt32) (rest : Bytes) : u32At (u32Bytes x ++ rest) 0 = x :=
  UInt32.toNat_inj.mp (u32At_leBytes x.toNat_lt rest)

theorem u64At_u64Bytes (x : UInt64) (rest : Bytes) : u64At (u64Bytes x ++ rest) 0 = x := by
  have : (u64Bytes x ++ rest).take 8 = leBytes 8 x.toNat := List.take_left' (by simp)
  rw [u64At, List.drop_zero, this, leNat_leBytes x.toNat_lt, UInt64.ofNat_toNat]

structure ManifestHeader.Fits (h : ManifestHeader) : Prop where
  version : h.version < 2 ^ 16
  headerSize : h.headerSize < 2 ^ 16
  totalSize : h.totalSize < 2 ^ 32
  nameOffset : h.nameOffset < 2 ^ 32
  nameLength : h.nameLength < 2 ^ 32
  requiredOffset : h.requiredOffset < 2 ^ 32
  requiredCount : h.requiredCount < 2 ^ 32
  delegatableOffset : h.delegatableOffset < 2 ^ 32
  delegatableCount : h.delegatableCount < 2 ^ 32

@[simp] theorem ManifestHeader.length_bytes (h : ManifestHeader) : h.bytes.length = 48 := by
  simp [bytes]

@[simp] theorem ManifestEntry.length_bytes (e : ManifestEntry) : e.bytes.length = 16 := by
  simp [bytes]

theorem manifestHeader_bytes {h : ManifestHeader} (hfits : h.Fits) (rest : Bytes) :
    manifestHeader (h.bytes ++ rest) = h := by
  cases h
  simp only [manifestHeader, ManifestHeader.bytes, List.append_assoc, u32At_append, u16At_append,
    length_u32Bytes, length_leBytes, u32At_u32Bytes, Nat.reduceLeDiff, Nat.reduceSub, le_refl,
    Nat.sub_self]
  simp only [ManifestHeader.mk.injEq, true_and]
  exact ⟨u16At_leBytes hfits.version _, u16At_leBytes hfits.headerSize _,
    u32At_leBytes hfits.totalSize _, u32At_leBytes hfits.nameOffset _,
    u32At_leBytes hfits.nameLength _, u32At_leBytes hfits.requiredOffset _,
    u32At_leBytes hfits.requiredCount _, u32At_leBytes hfits.delegatableOffset _,
    u32At_leBytes hfits.delegatableCount _⟩

theorem entry_read (before : Bytes) (e : ManifestEntry) (rest : Bytes) :
    (⟨u32At (before ++ (e.bytes ++ rest)) before.length,
      u64At (before ++ (e.bytes ++ rest)) (before.length + 8)⟩ : ManifestEntry) = e := by
  cases e
  rw [u32At_append le_rfl, u64At_append (Nat.le_add_right _ _), Nat.sub_self,
    Nat.add_sub_cancel_left, ManifestEntry.bytes]
  simp only [List.append_assoc, u32At_u32Bytes, u64At_append, length_u32Bytes, length_leBytes,
    Nat.reduceLeDiff, Nat.reduceSub, le_refl, Nat.sub_self, u64At_u64Bytes]

theorem entries_read (before : Bytes) (entries : List ManifestEntry) (rest : Bytes) :
    (List.range entries.length).map (fun i =>
      (⟨u32At (before ++ (entries.flatMap (·.bytes) ++ rest))
          (before.length + i * manifestEntrySize),
        u64At (before ++ (entries.flatMap (·.bytes) ++ rest))
          (before.length + i * manifestEntrySize + 8)⟩ : ManifestEntry)) = entries := by
  induction entries generalizing before with
  | nil => rfl
  | cons e entries ih =>
    have hstep := ih (before ++ e.bytes)
    rw [List.length_cons, List.range_succ_eq_map, List.map_cons, List.map_map]
    congr 1
    · simpa using entry_read before e (entries.flatMap (·.bytes) ++ rest)
    · refine Eq.trans (List.map_congr_left fun i _ => ?_) hstep
      have hoff : before.length + (i + 1) * manifestEntrySize =
          (before ++ e.bytes).length + i * manifestEntrySize := by
        simp [manifestEntrySize]
        omega
      simp only [Function.comp, Nat.succ_eq_add_one, hoff, List.flatMap_cons, List.append_assoc]

structure MkState.Bounded (st : MkState) : Prop where
  name : st.name.length < capManifestMaxName
  required : st.required.length ≤ capManifestMaxEntries
  delegatable : st.delegatable.length ≤ capManifestMaxEntries

variable {st st' : MkState} {blob : Bytes}

theorem length_flatMap_bytes (entries : List ManifestEntry) :
    (entries.flatMap (·.bytes)).length = entries.length * manifestEntrySize := by
  induction entries with
  | nil => rfl
  | cons e entries ih =>
    rw [List.flatMap_cons, List.length_append, ih, ManifestEntry.length_bytes, List.length_cons,
      manifestEntrySize]
    omega

theorem MkState.Bounded.fits (hst : st.Bounded) :
    (emitHeader st).Fits ∧ (emitHeader st).totalSize ≤ capManifestMaxBytes := by
  have hname := hst.name
  have hreq := hst.required
  have hdel := hst.delegatable
  simp only [capManifestMaxName, capManifestMaxEntries] at hname hreq hdel
  have htotal : (emitHeader st).totalSize ≤ capManifestMaxBytes := by
    simp only [emitHeader, manifestHeaderSize, manifestEntrySize, capManifestMaxBytes]
    omega
  refine ⟨⟨?_, ?_, ?_, ?_, ?_, ?_, ?_, ?_, ?_⟩, htotal⟩ <;>
    simp only [emitHeader, manifestHeaderSize, manifestEntrySize, capManifestVersion] <;> omega

theorem emit_header (hst : st.Bounded) (h : emit st = .ok blob) :
    manifestHeader blob = emitHeader st ∧ blob.length = (emitHeader st).totalSize ∧
      blob.getD ((emitHeader st).nameOffset + (emitHeader st).nameLength - 1) 0 = 0 := by
  obtain ⟨hfits, htotal⟩ := hst.fits
  simp only [emit, if_neg (Nat.not_lt.mpr htotal)] at h
  obtain rfl := Except.ok.inj h
  refine ⟨manifestHeader_bytes hfits _, ?_, ?_⟩
  · simp only [List.length_append, ManifestHeader.length_bytes, length_flatMap_bytes,
      List.length_singleton, List.length_replicate]
    simp only [emitHeader, manifestHeaderSize]
    omega
  · -- the header, the two arrays and the name are in front of the NUL
    have hoff : (emitHeader st).nameOffset + (emitHeader st).nameLength - 1 =
        ((emitHeader st).bytes ++ st.required.flatMap (·.bytes) ++
          st.delegatable.flatMap (·.bytes) ++ st.name).length := by
      simp only [List.length_append, ManifestHeader.length_bytes, length_flatMap_bytes]
      simp only [emitHeader, manifestHeaderSize]
      omega
    rw [hoff]
    simp only [List.getD_eq_getElem?_getD, ← List.append_assoc]
    rw [List.append_assoc _ [0], List.getElem?_append_right le_rfl, Nat.sub_self]
    rfl

theorem requiredEntries_emit (hst : st.Bounded) (h : emit st = .ok blob) :
    requiredEntries blob = st.required := by
  have hheader := (emit_header hst h).1
  obtain ⟨-, htotal⟩ := hst.fits
  simp only [emit, if_neg (Nat.not_lt.mpr htotal)] at h
  have hblob := Except.ok.inj h
  rw [requiredEntries, hheader, ← hblob]
  have hread := entries_read (emitHeader st).bytes st.required
    (st.delegatable.flatMap (·.bytes) ++ (st.name ++ [0] ++
      List.replicate ((emitHeader st).totalSize -
        ((emitHeader st).nameOffset + (emitHeader st).nameLength)) 0))
  rw [ManifestHeader.length_bytes] at hread
  exact hread

theorem capManifestValidate_emit (hst : st.Bounded) (h : emit st = .ok blob) :
    capManifestValidate blob = .success := by
  obtain ⟨hheader, hlength, hnul⟩ := emit_header hst h
  obtain ⟨-, htotal⟩ := hst.fits
  have hname := hst.name
  have hreq : (emitHeader st).requiredCount ≤ capManifestMaxEntries := hst.required
  have hdel : (emitHeader st).delegatableCount ≤ capManifestMaxEntries := hst.delegatable
  have hrange {off len : ℕ} (hle : off + len ≤ (emitHeader st).totalSize) :
      rangeOk off len (emitHeader st).totalSize = true := by
    simp only [rangeOk, Bool.and_eq_true, decide_eq_true_eq]
    omega
  have hsize : (emitHeader st).nameOffset + (emitHeader st).nameLength ≤
      (emitHeader st).totalSize := by
    simp only [emitHeader]
    omega
  have hoffset : (emitHeader st).nameOffset = manifestHeaderSize +
      st.required.length * manifestEntrySize + st.delegatable.length * manifestEntrySize := rfl
  have hreqRange : rangeOk (emitHeader st).requiredOffset
      ((emitHeader st).requiredCount * manifestEntrySize) (emitHeader st).totalSize = true :=
    hrange (by simp only [emitHeader] at *; omega)
  have hdelRange : rangeOk (emitHeader st).delegatableOffset
      ((emitHeader st).delegatableCount * manifestEntrySize) (emitHeader st).totalSize = true :=
    hrange (by simp only [emitHeader] at *; omega)
  have hnameLength : (emitHeader st).nameLength = st.name.length + 1 := rfl
  simp only [capManifestValidate, hheader, hlength, hreqRange, hdelRange, hrange hsize, hnul]
  rw [if_neg (by omega), if_neg (by omega), if_neg (by simp [emitHeader]),
    if_neg (by simp [emitHeader]), if_neg (by simp [emitHeader]), if_neg (by simp),
    if_neg (by simp [emitHeader]), if_neg (Nat.not_lt.mpr hreq), if_neg (Nat.not_lt.mpr hdel),
    if_neg (by simp), if_neg (by simp), if_neg (by simp [hnameLength]; omega), if_neg (by simp),
    if_neg (by simp)]

def entryOf (args : Bytes) : Option ManifestEntry :=
  (strtok args).bind fun typeWord => (strtok typeWord.2).bind fun opsWord =>
    let type := strtoull typeWord.1
    let ops := strtoull opsWord.1
    if type.errno || type.rest ≠ [] || 0xffffffff < type.value.toNat || ops.errno || ops.rest ≠ []
    then none
    else some ⟨UInt32.ofNat type.value.toNat, ops.value⟩

def requiredLine (line : Bytes) : Option ManifestEntry :=
  match strtok (stripLine line) with
  | none => none
  | some (kw, rest) => if kw = kwRequired then entryOf rest else none

theorem parseEntry_ok {kw args : Bytes} {out out' : List ManifestEntry} {line : ℕ}
    (h : parseEntry kw args out line = .ok out') :
    out.length < capManifestMaxEntries ∧ ∃ e, entryOf args = some e ∧ out' = out ++ [e] := by
  unfold parseEntry at h
  split at h
  · cases h
  · next hlen =>
    refine ⟨Nat.not_le.mp hlen, ?_⟩
    split at h
    · cases h
    · next typeS rest htype =>
      split at h
      · cases h
      · next opsS _ hops =>
        simp only at h
        split at h
        · cases h
        · next hbadType =>
          split at h
          · cases h
          · next hbadOps =>
            refine ⟨_, ?_, (Except.ok.inj h).symm⟩
            rw [entryOf, htype, Option.bind_some, hops, Option.bind_some]
            simp only [Bool.or_eq_true, not_or] at hbadType hbadOps
            rw [if_neg]
            simp only [Bool.or_eq_true, not_or]
            exact ⟨⟨hbadType, hbadOps.1⟩, hbadOps.2⟩

theorem parseLine_ok {lineno : ℕ} {line : Bytes} (hst : st.Bounded)
    (h : parseLine st lineno line = .ok st') :
    st'.Bounded ∧ st'.required = st.required ++ (requiredLine line).toList := by
  unfold parseLine at h
  unfold requiredLine
  split at h
  · obtain rfl := Except.ok.inj h
    exact ⟨hst, by simp⟩
  · next kw rest hsome =>
    show st'.Bounded ∧
      st'.required = st.required ++ (if kw = kwRequired then entryOf rest else none).toList
    split at h
    · next hkw =>
      have hother : kw ≠ kwRequired := hkw ▸ by decide
      rw [if_neg hother]
      split at h
      · cases h
      · simp only at h
        split at h
        · cases h
        · next hlen =>
          split at h
          · cases h
          · obtain rfl := Except.ok.inj h
            exact ⟨⟨Nat.not_le.mp hlen, hst.required, hst.delegatable⟩, by simp⟩
    · split at h
      · next hkw =>
        rw [if_pos hkw]
        split at h
        · cases h
        · split at h
          · cases h
          · next entries hentries =>
            obtain ⟨hlen, e, he, rfl⟩ := parseEntry_ok hentries
            obtain rfl := Except.ok.inj h
            refine ⟨⟨hst.name, ?_, hst.delegatable⟩, by simp [he]⟩
            rw [List.length_append, List.length_singleton]
            exact hlen
      · next hkw =>
        rw [if_neg hkw]
        split at h
        · split at h
          · cases h
          · split at h
            · cases h
            · next entries hentries =>
              obtain ⟨hlen, e, he, rfl⟩ := parseEntry_ok hentries
              obtain rfl := Except.ok.inj h
              refine ⟨⟨hst.name, hst.required, ?_⟩, by simp⟩
              rw [List.length_append, List.length_singleton]
              exact hlen
        · cases h

theorem parseLines_ok {lineno : ℕ} {lines : List Bytes} (hst : st.Bounded)
    (h : parseLines st lineno lines = .ok st') :
    st'.Bounded ∧ st'.required = st.required ++ lines.filterMap requiredLine := by
  induction lines generalizing st lineno with
  | nil =>
    obtain rfl := Except.ok.inj h
    exact ⟨hst, by simp⟩
  | cons line lines ih =>
    simp only [parseLines] at h
    split at h
    · cases h
    · next st₁ h₁ =>
      obtain ⟨hst₁, hreq₁⟩ := parseLine_ok hst h₁
      obtain ⟨hst', hreq'⟩ := ih hst₁ h
      refine ⟨hst', ?_⟩
      rw [hreq', hreq₁]
      cases hline : requiredLine line <;> simp [hline]

theorem takeWhile_newline (p : UInt8 → Bool) (hp : p 10 = true) (l : Bytes) :
    (l ++ [10]).takeWhile p = l.takeWhile p ∨
      (l ++ [10]).takeWhile p = l.takeWhile p ++ [10] := by
  induction l with
  | nil => exact .inr (by simp [hp])
  | cons b l ih =>
    by_cases hb : p b = true
    · simpa [hb] using ih
    · exact .inl (by simp [hb])

theorem stripLine_newline (l : Bytes) : stripLine (l ++ [10]) = stripLine l := by
  have htrim (l : Bytes) : (l ++ [10]).rdropWhile isspace = l.rdropWhile isspace :=
    List.rdropWhile_concat_pos _ _ _ (by decide)
  unfold stripLine
  rcases takeWhile_newline (· ≠ 0) (by decide) l with h | h
  · rw [h]
  · rw [h]
    rcases takeWhile_newline (· ≠ 35) (by decide) (l.takeWhile (· ≠ 0)) with h' | h'
    · rw [h']
    · rw [h', htrim]

theorem requiredLine_newline (l : Bytes) : requiredLine (l ++ [10]) = requiredLine l := by
  rw [requiredLine, stripLine_newline, requiredLine]

theorem fgets_newline {size : ℕ} {l rest : Bytes} (hl : 10 ∉ l) (hsize : l.length < size) :
    fgets size (l ++ 10 :: rest) = (l ++ [10], rest) := by
  induction l generalizing size with
  | nil =>
    obtain ⟨size, rfl⟩ := Nat.exists_eq_add_of_lt hsize
    simp [fgets]
  | cons b l ih =>
    obtain ⟨hb, hl⟩ := not_or.mp (mt List.mem_cons.mpr hl)
    cases size with
    | zero => cases hsize
    | succ size =>
      rw [List.cons_append, fgets, if_neg (Ne.symm hb), ih hl (Nat.lt_of_succ_lt_succ hsize)]
      rfl

theorem fgets_full {l rest : Bytes} (hl : 10 ∉ l) : fgets l.length (l ++ rest) = (l, rest) := by
  induction l with
  | nil => rfl
  | cons b l ih =>
    obtain ⟨hb, hl⟩ := not_or.mp (mt List.mem_cons.mpr hl)
    rw [List.cons_append, List.length_cons, fgets, if_neg (Ne.symm hb), ih hl]

theorem fgets_end {size : ℕ} {l : Bytes} (hl : 10 ∉ l) (hsize : l.length ≤ size) :
    fgets size l = (l, []) := by
  induction l generalizing size with
  | nil => cases size <;> rfl
  | cons b l ih =>
    obtain ⟨hb, hl⟩ := not_or.mp (mt List.mem_cons.mpr hl)
    cases size with
    | zero => cases hsize
    | succ size => rw [fgets, if_neg (Ne.symm hb), ih hl (Nat.le_of_succ_le_succ hsize)]

theorem readLines_of_ne_nil {fuel : ℕ} {src : Bytes} (h : src ≠ []) :
    readLines (fuel + 1) src = (fgets (lineBufferSize - 1) src).1 ::
      readLines fuel (fgets (lineBufferSize - 1) src).2 := by
  cases src with
  | nil => exact absurd rfl h
  | cons b src => rfl

theorem filterMap_readLines {fuel : ℕ} {src : Bytes} (hfuel : src.length ≤ fuel)
    (hlines : ∀ line ∈ src.splitOn 10, line.length < lineBufferSize) :
    (readLines fuel src).filterMap requiredLine = (src.splitOn 10).filterMap requiredLine := by
  have hblank : requiredLine [] = none := by decide
  have hnewline : requiredLine [10] = none := by decide
  induction fuel using Nat.strong_induction_on generalizing src with
  | _ fuel ih =>
    by_cases hmem : (10 : UInt8) ∈ src
    · obtain ⟨l, rest, rfl, hl⟩ := List.eq_append_cons_of_mem hmem
      rw [List.splitOn_append_cons_self_of_not_mem hl] at hlines ⊢
      have hlen := hlines l (by simp)
      have hrest : ∀ line ∈ rest.splitOn 10, line.length < lineBufferSize :=
        fun line h => hlines line (List.mem_cons_of_mem _ h)
      rw [List.length_append, List.length_cons] at hfuel
      obtain ⟨f, rfl⟩ : ∃ f, fuel = f + 1 := ⟨fuel - 1, by omega⟩
      rw [readLines_of_ne_nil (by simp)]
      by_cases hshort : l.length < lineBufferSize - 1
      · rw [fgets_newline hl hshort]
        simp only [List.filterMap_cons, requiredLine_newline,
          @ih f (Nat.lt_succ_self f) rest (by omega) hrest]
      · have hfull : lineBufferSize - 1 = l.length := by omega
        have hpos : 0 < l.length := by rw [← hfull]; decide
        obtain ⟨g, rfl⟩ : ∃ g, f = g + 1 := ⟨f - 1, by omega⟩
        have hnext : fgets (lineBufferSize - 1) (10 :: rest) = ([10], rest) := rfl
        rw [hfull, fgets_full hl, readLines_of_ne_nil (by simp), hnext]
        simp only [List.filterMap_cons, hnewline,
          @ih g (by omega) rest (by omega) hrest]
    · rw [List.splitOn_eq_singleton hmem] at hlines ⊢
      by_cases hnil : src = []
      · subst hnil
        cases fuel <;> simp [readLines, hblank]
      · have hpos : 0 < src.length := List.length_pos_iff.mpr hnil
        obtain ⟨f, rfl⟩ : ∃ f, fuel = f + 1 := ⟨fuel - 1, by omega⟩
        have hlen := hlines src (by simp)
        rw [readLines_of_ne_nil hnil, fgets_end hmem (by omega)]
        cases f <;> simp [readLines]

theorem ite_eq_success {p : Prop} [Decidable p] {r : CapReturn}
    (h : (if p then .manifestInvalid else r) = .success) : ¬p ∧ r = .success := by
  split at h
  · cases h
  · exact ⟨‹_›, h⟩

structure ReadsInside (blob : Bytes) : Prop where
  header : manifestHeaderSize ≤ blob.length
  entry : ∀ i < (manifestHeader blob).requiredCount,
    (manifestHeader blob).requiredOffset + i * manifestEntrySize + manifestEntrySize ≤ blob.length
  name : (manifestHeader blob).nameOffset + (manifestHeader blob).nameLength ≤ blob.length

theorem readsInside_of_validate (h : capManifestValidate blob = .success) : ReadsInside blob := by
  unfold capManifestValidate at h
  simp only at h
  generalize hh : manifestHeader blob = header at h
  obtain ⟨hlen, h⟩ := ite_eq_success h
  obtain ⟨-, h⟩ := ite_eq_success h
  obtain ⟨-, h⟩ := ite_eq_success h
  obtain ⟨-, h⟩ := ite_eq_success h
  obtain ⟨-, h⟩ := ite_eq_success h
  obtain ⟨-, h⟩ := ite_eq_success h
  obtain ⟨-, h⟩ := ite_eq_success h
  obtain ⟨-, h⟩ := ite_eq_success h
  obtain ⟨-, h⟩ := ite_eq_success h
  obtain ⟨hreq, h⟩ := ite_eq_success h
  obtain ⟨-, h⟩ := ite_eq_success h
  obtain ⟨-, h⟩ := ite_eq_success h
  obtain ⟨hname, -⟩ := ite_eq_success h
  simp only [rangeOk, Bool.not_eq_true', Bool.not_eq_false, Bool.and_eq_true,
    decide_eq_true_eq] at hreq hname
  refine ⟨Nat.not_lt.mp hlen, fun i hi => ?_, ?_⟩
  · rw [hh] at hi ⊢
    have hmul : (i + 1) * manifestEntrySize ≤ header.requiredCount * manifestEntrySize :=
      Nat.mul_le_mul_right _ hi
    rw [Nat.succ_mul] at hmul
    omega
  · rw [hh]
    omega

theorem mkmanifest_ok {source : Bytes} (h : mkmanifest source = .ok blob) :
    ∃ st, st.Bounded ∧ emit st = .ok blob ∧
      st.required = (readLines source.length source).filterMap requiredLine := by
  unfold mkmanifest at h
  split at h
  · cases h
  · next st hparse =>
    unfold parseSource at hparse
    split at hparse
    · cases hparse
    · next st₁ hlines =>
      split at hparse
      · cases hparse
      · obtain rfl := Except.ok.inj hparse
        have hempty : MkState.Bounded ⟨[], [], []⟩ := ⟨by decide, by decide, by decide⟩
        obtain ⟨hst, hreq⟩ := parseLines_ok hempty hlines
        exact ⟨st₁, hst, h, by simpa using hreq⟩

/-- An accepted source compiles to a blob that the server accepts and that allows exactly
what its `required` lines do; and of a blob that the server accepts, whoever wrote it, only
bytes inside are read. -/
theorem mkmanifest_roundtrip (source blob : Bytes)
    (hlines : ∀ line ∈ source.splitOn 10, line.length < lineBufferSize)
    (haccept : mkmanifest source = .ok blob) :
    capManifestValidate blob = .success ∧
    (∀ type ops, capManifestAllows (some blob) type ops = true ↔
      ∃ line ∈ source.splitOn 10, ∃ e, requiredLine line = some e ∧ e.type = type ∧
        ops &&& ~~~e.ops = 0) ∧
    ∀ other, capManifestValidate other = .success → ReadsInside other := by
  obtain ⟨st, hst, hemit, hreq⟩ := mkmanifest_ok haccept
  refine ⟨capManifestValidate_emit hst hemit, fun type ops => ?_,
    fun other => readsInside_of_validate⟩
  rw [filterMap_readLines le_rfl hlines] at hreq
  simp only [capManifestAllows, requiredEntries_emit hst hemit, hreq, List.any_eq_true,
    List.mem_filterMap, Bool.and_eq_true, beq_iff_eq]
  constructor
  · rintro ⟨e, ⟨line, hline, he⟩, htype, hops⟩
    exact ⟨line, hline, e, he, htype, hops⟩
  · rintro ⟨line, hline, e, he, htype, hops⟩
    exact ⟨e, ⟨line, hline, he⟩, htype, hops⟩

def smallSource : Bytes :=
  [110, 97, 109, 101, 32, 100, 10, 35, 32, 120, 10, 32, 114, 101, 113, 117, 105, 114, 101, 100, 9,
    52, 32, 48, 120, 51, 10]

theorem mkmanifest_roundtrip_small :
    ∃ blob, mkmanifest smallSource = .ok blob ∧ capManifestValidate blob = .success ∧
      capManifestAllows (some blob) 4 1 = true := by
  have hok : (mkmanifest smallSource).toOption.isSome = true := by decide +kernel
  obtain ⟨blob, hblob⟩ := Option.isSome_iff_exists.mp hok
  have haccept : mkmanifest smallSource = .ok blob := by
    cases h : mkmanifest smallSource with
    | error e => rw [h] at hblob; cases hblob
    | ok b => rw [h] at hblob; exact congrArg _ (Option.some.inj hblob)
  obtain ⟨hvalid, hallows, -⟩ := mkmanifest_roundtrip smallSource blob (by decide +kernel) haccept
  refine ⟨blob, haccept, hvalid, (hallows 4 1).mpr ⟨[32, 114, 101, 113, 117, 105, 114, 101, 100, 9,
    52, 32, 48, 120, 51], by decide +kernel, ⟨4, 3⟩, by decide +kernel, rfl, by decide⟩⟩

end Uros.Cap
