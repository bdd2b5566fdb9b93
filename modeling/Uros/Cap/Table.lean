import Uros.Foundation.ChainTable
import Uros.Cap.Types

/-!
The token table of `cap_server` (`cap_server/cap_table.c`) and token signatures.

Only the index by `cap_id` is modelled: the indexes by owner and by parent are
written but never read.  A write through a `struct cap_entry *` obtained from
`cap_table_find_by_id` is `capTableUpdate` at that id.
-/

namespace Uros.Cap

open Uros.Foundation

instance hashBuckets_neZero : NeZero 256 := ⟨by decide⟩

def hash64 (x : UInt64) : Fin 256 :=
  let x := x ^^^ (x >>> 33)
  let x := x * 0xff51afd7ed558ccd
  let x := x ^^^ (x >>> 33)
  let x := x * 0xc4ceb9fe1a85ec53
  let x := x ^^^ (x >>> 33)
  Fin.ofNat 256 x.toNat

section Signature

variable (mac : Mac) (key : Digest)

def capSign (t : UrosCap) : UrosCap := { t with hmac := mac key.toList t.signedBytes }

def capVerifyHmac (t : UrosCap) : Bool :=
  hmacSha256Equal (mac key.toList t.signedBytes) t.hmac

variable {mac key} {t : UrosCap}

theorem capVerifyHmac_iff : capVerifyHmac mac key t = true ↔
    t.hmac = mac key.toList t.signedBytes := by
  rw [capVerifyHmac, hmacSha256Equal_iff]
  exact eq_comm

@[simp] theorem capSign_signedBytes : (capSign mac key t).signedBytes = t.signedBytes :=
  rfl

@[simp] theorem capVerifyHmac_capSign : capVerifyHmac mac key (capSign mac key t) = true :=
  capVerifyHmac_iff.mpr rfl

@[simp] theorem capSign_capId : (capSign mac key t).capId = t.capId := rfl

@[simp] theorem capSign_revoked : (capSign mac key t).revoked = t.revoked := rfl

@[simp] theorem capSign_parentCapId :
    (capSign mac key t).parentCapId = t.parentCapId := rfl

@[simp] theorem capSign_firstChildCapId :
    (capSign mac key t).firstChildCapId = t.firstChildCapId := rfl

@[simp] theorem capSign_nextSiblingCapId :
    (capSign mac key t).nextSiblingCapId = t.nextSiblingCapId := rfl

end Signature

abbrev CapTable := ChainTable UrosCap 256

def capTableInsert (table : CapTable) (t : UrosCap) : CapTable :=
  table.insert UrosCap.capId hash64 t

def capTableFindById (table : CapTable) (id : UInt64) : Option UrosCap :=
  table.find UrosCap.capId hash64 id

def capTableUpdate (table : CapTable) (id : UInt64) (f : UrosCap → UrosCap) : CapTable :=
  table.modify UrosCap.capId hash64 id f

def markRevoked (mac : Mac) (key : Digest) (t : UrosCap) : UrosCap :=
  capSign mac key { t with revoked := 1 }

def capTableMarkRevoked (mac : Mac) (key : Digest) (table : CapTable) (id : UInt64) :
    CapTable :=
  capTableUpdate table id (markRevoked mac key)

def setFirstChild (mac : Mac) (key : Digest) (child : UInt64) (t : UrosCap) : UrosCap :=
  capSign mac key { t with firstChildCapId := child }

variable {mac : Mac} {key : Digest} {table : CapTable} {t : UrosCap} {id id' child : UInt64}

@[simp] theorem markRevoked_revoked : (markRevoked mac key t).revoked = 1 := rfl

@[simp] theorem setFirstChild_revoked :
    (setFirstChild mac key child t).revoked = t.revoked := rfl

theorem find_capTableInsert :
    capTableFindById (capTableInsert table t) id =
      if t.capId = id then some t else capTableFindById table id :=
  ChainTable.find_insert

theorem find_capTableMarkRevoked :
    capTableFindById (capTableMarkRevoked mac key table id) id' =
      if id' = id then (capTableFindById table id).map (markRevoked mac key)
      else capTableFindById table id' :=
  ChainTable.find_modify fun _ => rfl

theorem find_setFirstChild :
    capTableFindById (capTableUpdate table id (setFirstChild mac key child)) id' =
      if id' = id then (capTableFindById table id).map (setFirstChild mac key child)
      else capTableFindById table id' :=
  ChainTable.find_modify fun _ => rfl

end Uros.Cap
