import Uros.Exec.Blob
import Uros.Foundation.Blit

/-!
The initial stack that exec_server builds in a new task.

`exec_build_stack` fills a zeroed buffer by three cursors, one for the header words, one
for the strings and one for the addresses the strings will have, and writes the buffer to
the top of the stack region.  The invariant of the fill says what the header words and
the strings written so far are; the rest of the module reads the finished stack.
-/

namespace Uros.Exec

open Uros.Foundation

def stackVa : Nat := 0xBF800000

def stackSize : Nat := 16 * 1024

def stackTop : Nat := stackVa + stackSize

def pageSize : Nat := 4096

def randomLen : Nat := 16

inductive AuxTag where
  | null | phdr | phent | phnum | pagesz | base | entry | random | sysinfoEhdr
  deriving DecidableEq

def AuxTag.code : AuxTag → Nat
  | .null => 0
  | .phdr => 3
  | .phent => 4
  | .phnum => 5
  | .pagesz => 6
  | .base => 7
  | .entry => 9
  | .random => 25
  | .sysinfoEhdr => 33

inductive ExecError where
  | e2big | notFound | read | parse | notStatic | taskCreate | vmSetup | threadCreate | badBlob
  | tooBig
  deriving DecidableEq

structure AuxvHints where
  entryVa : UInt32
  phdrVa : UInt32
  phent : UInt32
  phnum : UInt32
  vdsoBase : UInt32
  interpBase : UInt32

def countAuxvPairs : Option AuxvHints → Nat
  | none => 3
  | some h =>
    3 + (if h.vdsoBase ≠ 0 then 1 else 0) + (if h.entryVa ≠ 0 then 1 else 0)
      + (if h.interpBase ≠ 0 then 1 else 0) + (if h.phdrVa ≠ 0 then 3 else 0)

def hintPairs (h : AuxvHints) : List (AuxTag × Nat) :=
  (if h.vdsoBase ≠ 0 then [(.sysinfoEhdr, h.vdsoBase.toNat)] else [])
    ++ (if h.entryVa ≠ 0 then [(.entry, h.entryVa.toNat)] else [])
    ++ (if h.interpBase ≠ 0 then [(.base, h.interpBase.toNat)] else [])
    ++ (if h.phdrVa ≠ 0 then
        [(.phdr, h.phdrVa.toNat), (.phent, h.phent.toNat), (.phnum, h.phnum.toNat)] else [])

def auxv (hints : Option AuxvHints) (randomVa : Nat) : List (AuxTag × Nat) :=
  [(.pagesz, pageSize), (.random, randomVa)] ++ hints.elim [] hintPairs ++ [(.null, 0)]

theorem length_auxv (hints : Option AuxvHints) (randomVa : Nat) :
    (auxv hints randomVa).length = countAuxvPairs hints := by
  cases hints with
  | none => rfl
  | some h =>
    simp only [auxv, hintPairs, countAuxvPairs, Option.elim]
    split <;> split <;> split <;> split <;> rfl

def auxvWords (pairs : List (AuxTag × Nat)) : List Nat :=
  pairs.flatMap fun pair => [pair.1.code, pair.2]

theorem length_auxvWords (pairs : List (AuxTag × Nat)) :
    (auxvWords pairs).length = 2 * pairs.length := by
  induction pairs with
  | nil => rfl
  | cons pair pairs ih =>
    change (auxvWords pairs).length + 2 = _
    rw [ih, List.length_cons]
    omega

structure Fill where
  buf : Nat → UInt8
  p : Nat
  dst : Nat
  curVa : Nat
  src : Bytes

def Fill.pushWord (f : Fill) (w : Nat) : Fill :=
  { f with buf := poke f.buf f.p (leBytes 4 w), p := f.p + 4 }

def Fill.pushWords (f : Fill) (ws : List Nat) : Fill := ws.foldl Fill.pushWord f

def Fill.copyString (f : Fill) : Fill :=
  let slen := strlen f.src + 1
  let f := f.pushWord f.curVa
  { f with
    buf := poke f.buf f.dst (f.src.take slen)
    dst := f.dst + slen
    curVa := f.curVa + slen
    src := f.src.drop slen }

def Fill.copyStrings : Nat → Fill → Fill
  | 0, f => f
  | n + 1, f => copyStrings n f.copyString

def randomBytes : Nat → UInt32 → Bytes
  | 0, _ => []
  | n + 1, seed =>
    let seed := seed * 1103515245 + 12345
    (seed >>> 16).toUInt8 :: randomBytes n seed

structure Stack where
  top : Nat
  mem : Nat → UInt8

structure Outcomes where
  stackAllocated : Bool
  bufAllocated : Bool
  stackWritten : Bool

def fillStack (newTask : UInt32) (argvBlob envpBlob : Bytes) (hints : Option AuxvHints)
    (argc argvStrs envc envpStrs headerBytes stackVa : Nat) : Fill :=
  let randomAt := headerBytes + argvStrs + envpStrs
  let f : Fill := ⟨fun _ => 0, 0, headerBytes, stackVa + headerBytes, argvBlob⟩
  let f := ((f.pushWord argc).copyStrings argc).pushWord 0
  let f := ({ f with src := envpBlob }.copyStrings envc).pushWord 0
  let f := f.pushWords (auxvWords (auxv hints (stackVa + randomAt)))
  { f with buf := poke f.buf randomAt (randomBytes randomLen (newTask * 2654435761)) }

def headerSize (argc envc : Nat) (hints : Option AuxvHints) : Nat :=
  4 + (argc + 1) * 4 + (envc + 1) * 4 + countAuxvPairs hints * 2 * 4

def execBuildStack (out : Outcomes) (newTask : UInt32) (argvBlob envpBlob : Bytes)
    (hints : Option AuxvHints) : Except ExecError Stack :=
  if !out.stackAllocated then .error .vmSetup
  else
    match blobCount argvBlob, blobCount envpBlob with
    | some (argc, argvStrs), some (envc, envpStrs) =>
      let headerBytes := headerSize argc envc hints
      let totalBytes := (headerBytes + argvStrs + envpStrs + randomLen + 15) / 16 * 16
      if stackSize < totalBytes then .error .tooBig
      else if !out.bufAllocated then .error .vmSetup
      else
        let va := stackTop - totalBytes
        let f := fillStack newTask argvBlob envpBlob hints argc argvStrs envc envpStrs
          headerBytes va
        if !out.stackWritten then .error .vmSetup
        else .ok ⟨va, blit (fun _ => 0) va totalBytes f.buf⟩
    | _, _ => .error .badBlob

/-- `__uros_spawn` up to the stack: measure both vectors, write them, and have the server
build the stack of the new task. -/
def spawnStack (out : Outcomes) (newTask : UInt32) (argv envp : List CString)
    (hints : Option AuxvHints) : Except ExecError Stack :=
  match serialiseBlob argv none, serialiseBlob envp none with
  | some _, some _ =>
    match serialiseBlob argv (some blobMax), serialiseBlob envp (some blobMax) with
    | some argvBlob, some envpBlob => execBuildStack out newTask argvBlob envpBlob hints
    | _, _ => .error .e2big
  | _, _ => .error .e2big

def addresses : Nat → List CString → List Nat
  | _, [] => []
  | va, s :: vec => va :: addresses (va + (s.1.length + 1)) vec

@[simp] theorem length_addresses (va : Nat) (vec : List CString) :
    (addresses va vec).length = vec.length := by
  induction vec generalizing va with
  | nil => rfl
  | cons s vec ih => simp [addresses, ih]

def wordBytes (ws : List Nat) : Bytes := ws.flatMap (leBytes 4)

@[simp] theorem length_wordBytes (ws : List Nat) : (wordBytes ws).length = 4 * ws.length := by
  induction ws with
  | nil => rfl
  | cons w ws ih =>
    rw [wordBytes, List.flatMap_cons, List.length_append, length_leBytes, List.length_cons]
    change 4 + (wordBytes ws).length = _
    omega

structure Filled (header va : Nat) (ws : List Nat) (strs : Bytes) (f : Fill) : Prop where
  words : Holds f.buf 0 (wordBytes ws)
  bytes : Holds f.buf header strs
  p : f.p = 4 * ws.length
  dst : f.dst = header + strs.length
  curVa : f.curVa = va + strs.length

variable {header va : Nat} {ws : List Nat} {strs : Bytes} {f : Fill}

theorem Filled.pushWord (h : Filled header va ws strs f)
    (hroom : 4 * (ws.length + 1) ≤ header) (w : Nat) :
    Filled header va (ws ++ [w]) strs (f.pushWord w) := by
  have hbytes : wordBytes (ws ++ [w]) = wordBytes ws ++ leBytes 4 w := by simp [wordBytes]
  have hp := h.p
  refine ⟨?_, ?_, ?_, h.dst, h.curVa⟩
  · rw [hbytes, holds_append]
    constructor
    · apply h.words.poke_of_disjoint
      rw [length_wordBytes]
      omega
    · have hat : 0 + (wordBytes ws).length = f.p := by rw [length_wordBytes]; omega
      rw [hat]
      exact holds_poke
  · apply h.bytes.poke_of_disjoint
    rw [length_leBytes]
    omega
  · change f.p + 4 = _
    rw [hp, List.length_append, List.length_singleton]
    omega

theorem Filled.pushWords (more : List Nat) (h : Filled header va ws strs f)
    (hroom : 4 * (ws.length + more.length) ≤ header) :
    Filled header va (ws ++ more) strs (f.pushWords more) := by
  induction more generalizing ws f with
  | nil => simpa [Fill.pushWords] using h
  | cons w more ih =>
    rw [List.length_cons] at hroom
    have hone := h.pushWord (by omega) w
    have hrest := ih hone (by rw [List.length_append, List.length_singleton]; omega)
    simpa [Fill.pushWords] using hrest

theorem Filled.copyString (h : Filled header va ws strs f)
    (hroom : 4 * (ws.length + 1) ≤ header) {s : CString} {rest : Bytes}
    (hsrc : f.src = s.1 ++ 0 :: rest) :
    Filled header va (ws ++ [va + strs.length]) (strs ++ (s.1 ++ [0])) f.copyString ∧
      f.copyString.src = rest := by
  have hlen : strlen f.src + 1 = (s.1 ++ [0]).length := by
    rw [hsrc, strlen_terminated, List.length_append, List.length_singleton]
  have hsplit : f.src = (s.1 ++ [0]) ++ rest := by simp [hsrc]
  have htake : f.src.take (strlen f.src + 1) = s.1 ++ [0] := by
    rw [hlen, hsplit, List.take_left]
  have hpushed := h.pushWord hroom f.curVa
  constructor
  · rw [h.curVa] at hpushed
    refine ⟨?_, ?_, hpushed.p, ?_, ?_⟩
    · change Holds (poke (f.pushWord f.curVa).buf f.dst (f.src.take _)) 0 _
      rw [htake, h.curVa]
      apply hpushed.words.poke_of_disjoint
      right
      rw [length_wordBytes, List.length_append, List.length_singleton, h.dst]
      omega
    · change Holds (poke (f.pushWord f.curVa).buf f.dst (f.src.take _)) header _
      rw [htake, h.curVa, holds_append]
      constructor
      · exact hpushed.bytes.poke_of_disjoint (.inr (by rw [h.dst]))
      · rw [← h.dst]
        exact holds_poke
    · change f.dst + (strlen f.src + 1) = header + (strs ++ (s.1 ++ [0])).length
      rw [List.length_append, hlen, h.dst, Nat.add_assoc]
    · change f.curVa + (strlen f.src + 1) = va + (strs ++ (s.1 ++ [0])).length
      rw [List.length_append, hlen, h.curVa, Nat.add_assoc]
  · change f.src.drop (strlen f.src + 1) = rest
    rw [hlen, hsplit, List.drop_left]

theorem Filled.copyStrings (vec : List CString) (h : Filled header va ws strs f)
    (hroom : 4 * (ws.length + vec.length) ≤ header) {rest : Bytes}
    (hsrc : f.src = strings vec ++ rest) :
    Filled header va (ws ++ addresses (va + strs.length) vec) (strs ++ strings vec)
      (Fill.copyStrings vec.length f) := by
  induction vec generalizing ws strs f with
  | nil => simpa [Fill.copyStrings, addresses] using h
  | cons s vec ih =>
    rw [List.length_cons] at hroom
    have hsrc' : f.src = s.1 ++ 0 :: (strings vec ++ rest) := by simp [hsrc]
    obtain ⟨hone, hleft⟩ := h.copyString (by omega) hsrc'
    have hrest := ih hone (by rw [List.length_append, List.length_singleton]; omega) hleft
    have hva : va + (strs ++ (s.1 ++ [0])).length = va + strs.length + (s.1.length + 1) := by
      simp [Nat.add_assoc]
    rw [hva] at hrest
    simpa [addresses, Fill.copyStrings] using hrest

def headerWords (argv envp : List CString) (hints : Option AuxvHints) (va randomVa : Nat) :
    List Nat :=
  argv.length :: addresses va argv ++ [0] ++ addresses (va + (strings argv).length) envp ++ [0]
    ++ auxvWords (auxv hints randomVa)

theorem length_headerWords (argv envp : List CString) (hints : Option AuxvHints)
    (va randomVa : Nat) :
    4 * (headerWords argv envp hints va randomVa).length =
      headerSize argv.length envp.length hints := by
  simp only [headerWords, headerSize, List.length_append, List.length_cons, List.length_nil,
    length_addresses, length_auxvWords, length_auxv]
  omega

theorem Filled.withSrc (h : Filled header va ws strs f) (src : Bytes) :
    Filled header va ws strs { f with src := src } :=
  ⟨h.words, h.bytes, h.p, h.dst, h.curVa⟩

theorem fillStack_holds (newTask : UInt32) (argv envp : List CString) (hints : Option AuxvHints)
    (va : Nat) (argvRest envpRest : Bytes) :
    let header := headerSize argv.length envp.length hints
    let randomAt := header + (strings argv).length + (strings envp).length
    let f := fillStack newTask (strings argv ++ argvRest) (strings envp ++ envpRest) hints
      argv.length (strings argv).length envp.length (strings envp).length header va
    Holds f.buf 0 (wordBytes (headerWords argv envp hints (va + header) (va + randomAt))) ∧
      Holds f.buf header (strings argv ++ strings envp) := by
  intro header randomAt f
  have hsize : 4 * (3 + argv.length + envp.length + 2 * countAuxvPairs hints) = header := by
    simp only [header, headerSize]
    omega
  have hempty : Filled header (va + header) [] []
      ⟨fun _ => 0, 0, header, va + header, strings argv ++ argvRest⟩ :=
    ⟨holds_nil, holds_nil, rfl, rfl, rfl⟩
  have hargc := hempty.pushWord (by simp; omega) argv.length
  have hargv := hargc.copyStrings argv (by simp; omega) rfl
  have hargvEnd := (hargv.pushWord (by simp; omega) 0).withSrc (strings envp ++ envpRest)
  have henvp := hargvEnd.copyStrings envp (by simp; omega) rfl
  have henvpEnd := henvp.pushWord (by simp; omega) 0
  have hauxv := henvpEnd.pushWords (auxvWords (auxv hints (va + randomAt))) (by
    simp [length_auxvWords, length_auxv]
    omega)
  -- the seed material lies behind the strings
  constructor
  · apply Holds.poke_of_disjoint (by simpa [headerWords] using hauxv.words)
    right
    rw [length_wordBytes, length_headerWords]
    change 0 + header ≤ randomAt
    omega
  · apply Holds.poke_of_disjoint (by simpa using hauxv.bytes)
    right
    simp only [List.length_append]
    change _ ≤ randomAt
    omega

end Uros.Exec
