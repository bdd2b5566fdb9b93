import Uros.Exec.Stack

/-!
The ELF parser of exec_server.

`elf_open` checks the header of an image and that its tables lie inside the buffer.
-/

namespace Uros.Exec

open Uros.Foundation

inductive ElfError where
  | truncated | badMagic | badClass | badData | badVersion | badMachine
  deriving DecidableEq

def ehdrSize : Nat := 52

def phdrSize : Nat := 32

def shdrSize : Nat := 40

def ptInterp : Nat := 3

def field (buf : Bytes) (offset width : Nat) : Nat := leNat ((buf.drop offset).take width)

def rangeOk (buf : Bytes) (offset length : Nat) : Bool :=
  offset ≤ buf.length && length ≤ buf.length - offset

/-- `elf_image_t`: the buffer, the fields of its header that are read later, and where the
program headers lie. -/
structure ElfImage where
  buf : Bytes
  type : Nat
  entry : Nat
  phoff : Nat
  phentsize : Nat
  phnum : Nat

def elfOpen (buf : Bytes) : Except ElfError ElfImage :=
  if buf.length < ehdrSize then .error .truncated
  else if buf.take 4 ≠ [0x7f, 0x45, 0x4c, 0x46] then .error .badMagic
  else if field buf 4 1 ≠ 1 then .error .badClass
  else if field buf 5 1 ≠ 1 then .error .badData
  else if field buf 6 1 ≠ 1 then .error .badVersion
  else if field buf 18 2 ≠ 3 then .error .badMachine
  else if field buf 40 2 ≠ ehdrSize then .error .badVersion
  else if field buf 44 2 ≠ 0 ∧ field buf 42 2 ≠ phdrSize then .error .badVersion
  else if field buf 48 2 ≠ 0 ∧ field buf 46 2 ≠ shdrSize then .error .badVersion
  else if 0 < field buf 44 2 ∧ rangeOk buf (field buf 28 4) (field buf 44 2 * phdrSize) = false then
    .error .truncated
  else if 0 < field buf 48 2 ∧ rangeOk buf (field buf 32 4) (field buf 48 2 * shdrSize) = false then
    .error .truncated
  else
    .ok { buf, type := field buf 16 2, entry := field buf 24 4, phoff := field buf 28 4,
          phentsize := field buf 42 2, phnum := field buf 44 2 }

end Uros.Exec
