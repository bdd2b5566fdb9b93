import Uros.Cap.Server

/-!
The delegation forest of `cap_server`.

`Delegates s F` says that the table of `s`, read through `parent_cap_id` and the
two link fields, is the forest `F`.  Issuing a root token adds a tree, deriving
adds a first child, and nothing else changes the shape.
-/

namespace Uros.Cap

open Uros.Foundation

namespace CapServer

def firstChild (s : CapServer) (id : UInt64) : Option UInt64 :=
  (s.find id).map UrosCap.firstChildCapId

def nextSibling (s : CapServer) (id : UInt64) : Option UInt64 :=
  (s.find id).map UrosCap.nextSiblingCapId

def parentOf (s : CapServer) (id : UInt64) : Option UInt64 :=
  (s.find id).map UrosCap.parentCapId

end CapServer

structure Delegates (s : CapServer) (F : Forest UInt64) : Prop where
  nodup : F.nodes.Nodup
  mem_iff : ∀ id, id ∈ F.nodes ↔ (s.find id).isSome
  null : 0 ∉ F.nodes
  linked : F.Linked 0 s.firstChild s.nextSibling
  parented : F.Parented s.parentOf 0
  below : ∀ id ∈ F.nodes, id.toNat < s.nextCapId.toNat
  issued : s.nextCapId.toNat = F.nodes.length + 1
  heap : s.heapUsed = capEntrySize * F.nodes.length
  heap_le : s.heapUsed ≤ 2 ^ 32

namespace Delegates

variable {mac : Mac} {s s' : CapServer} {F K : Forest UInt64} {t : UrosCap} {id : UInt64}

theorem init (key : Digest) (capPort : MachPort) :
    Delegates (CapServer.init key capPort) .nil where
  nodup := by simp [Forest.nodes]
  mem_iff id := by simp [Forest.nodes, CapServer.find, CapServer.init, capTableFindById]
  null := by simp [Forest.nodes]
  linked := trivial
  parented := trivial
  below := by simp [Forest.nodes]
  issued := rfl
  heap := rfl
  heap_le := by simp [CapServer.init]

theorem congr (h : Delegates s F) (hsome : ∀ id, (s'.find id).isSome = (s.find id).isSome)
    (hfirst : ∀ id, s'.firstChild id = s.firstChild id)
    (hnext : ∀ id, s'.nextSibling id = s.nextSibling id)
    (hparent : ∀ id, s'.parentOf id = s.parentOf id)
    (hid : s'.nextCapId = s.nextCapId) (hheap : s'.heapUsed = s.heapUsed) :
    Delegates s' F where
  nodup := h.nodup
  mem_iff id := by rw [h.mem_iff, hsome]
  null := h.null
  linked := h.linked.congr (fun v _ => hfirst v) (fun v _ => hnext v)
  parented := h.parented.congr fun v _ => hparent v
  below := by rw [hid]; exact h.below
  issued := by rw [hid]; exact h.issued
  heap := by rw [hheap]; exact h.heap
  heap_le := by rw [hheap]; exact h.heap_le

theorem congr_table (h : Delegates s F) (htable : s'.table = s.table)
    (hid : s'.nextCapId = s.nextCapId) (hheap : s'.heapUsed = s.heapUsed) :
    Delegates s' F := by
  have hfind : ∀ id, s'.find id = s.find id := fun id => by
    simp only [CapServer.find, htable]
  refine h.congr ?_ ?_ ?_ ?_ hid hheap <;> intro id
  · rw [hfind]
  · simp only [CapServer.firstChild, hfind]
  · simp only [CapServer.nextSibling, hfind]
  · simp only [CapServer.parentOf, hfind]

theorem next_not_mem (h : Delegates s F) : s.nextCapId ∉ F.nodes := fun hmem =>
  Nat.lt_irrefl _ (h.below _ hmem)

theorem next_ne_zero (h : Delegates s F) : s.nextCapId ≠ 0 := by
  intro hzero
  have := h.issued
  rw [hzero] at this
  simp at this

theorem next_lt (h : Delegates s F) : s.nextCapId.toNat < 2 ^ 32 := by
  have h₁ := h.issued
  have h₂ := h.heap
  have h₃ := h.heap_le
  simp only [capEntrySize] at h₂
  omega

theorem next_succ (h : Delegates s F) :
    (s.nextCapId + 1).toNat = s.nextCapId.toNat + 1 := by
  have := h.next_lt
  rw [UInt64.toNat_add]
  simp only [UInt64.toNat_one]
  omega

theorem grow {G : Forest UInt64} (h : Delegates s F)
    (hnext : s'.nextCapId = s.nextCapId + 1)
    (hheap : s'.heapUsed = s.heapUsed + capEntrySize)
    (hroom : s.heapUsed + capEntrySize ≤ 2 ^ 32) (hnodes : G.nodes.Nodup)
    (hmem : ∀ id, id ∈ G.nodes ↔ id = s.nextCapId ∨ id ∈ F.nodes)
    (hlen : G.nodes.length = F.nodes.length + 1)
    (hfind : ∀ id, (s'.find id).isSome ↔ id = s.nextCapId ∨ (s.find id).isSome)
    (hlinked : G.Linked 0 s'.firstChild s'.nextSibling)
    (hparented : G.Parented s'.parentOf 0) : Delegates s' G where
  nodup := hnodes
  mem_iff id := by rw [hmem, h.mem_iff, hfind]
  null := by
    rw [hmem]
    rintro (h₀ | h₀)
    · exact h.next_ne_zero h₀.symm
    · exact h.null h₀
  linked := hlinked
  parented := hparented
  below id hid := by
    rw [hnext, h.next_succ]
    rcases (hmem id).mp hid with rfl | hid
    · exact Nat.lt_succ_self _
    · exact Nat.lt_succ_of_lt (h.below id hid)
  issued := by rw [hlen, hnext, h.next_succ, ← h.issued]
  heap := by rw [hlen, hheap, Nat.mul_succ, ← h.heap]
  heap_le := by rw [hheap]; exact hroom

theorem acquire {localPort : MachPort} {type : UInt32} {resourceId ops : UInt64}
    (h : Delegates s F) (ha : Acquired mac s localPort type resourceId ops s' t) :
    Delegates s' (.cons s.nextCapId .nil F) := by
  have hfirst : t.firstChildCapId = 0 := by rw [ha.token]; rfl
  have hparent : t.parentCapId = 0 := by rw [ha.token]; rfl
  have hfind := ha.find
  have hold : ∀ id ∈ F.nodes, s.nextCapId ≠ id := by
    rintro id hmem rfl
    exact h.next_not_mem hmem
  refine h.grow (by rw [ha.state]; rfl) (by rw [ha.state]; rfl) ha.room ?_ ?_ ?_ ?_ ?_ ?_
  · simpa [Forest.nodes] using ⟨h.next_not_mem, h.nodup⟩
  · intro id
    simp [Forest.nodes]
  · simp [Forest.nodes]
  · intro id
    rw [hfind]
    by_cases hnext : s.nextCapId = id
    · simp [hnext]
    · simp [hnext, Ne.symm hnext]
  · refine ⟨?_, trivial, trivial, h.linked.congr (fun v hv => ?_) fun v hv => ?_⟩
    · simp [CapServer.firstChild, hfind, hfirst]
    · simp only [CapServer.firstChild, hfind, hold v hv, if_false]
    · simp only [CapServer.nextSibling, hfind, hold v hv, if_false]
  · refine ⟨?_, trivial, h.parented.congr fun v hv => ?_⟩
    · simp [CapServer.parentOf, hfind, hparent]
    · simp only [CapServer.parentOf, hfind, hold v hv, if_false]

theorem find_derived {parent e : UrosCap} {reducedOps : UInt64} (h : Delegates s F)
    (hd : Derived mac s parent reducedOps s' t) (he : s.find parent.capId = some e)
    (id : UInt64) :
    s'.find id =
      if id = parent.capId then some (setFirstChild mac s.key s.nextCapId e)
      else if id = s.nextCapId then some t else s.find id := by
  have hid : t.capId = s.nextCapId := by
    obtain ⟨_, -, -, ht⟩ := hd.entry
    rw [ht]
    rfl
  have hne : s.nextCapId ≠ parent.capId := by
    intro heq
    refine h.next_not_mem ((h.mem_iff _).mpr ?_)
    rw [heq, he]
    rfl
  have he : capTableFindById s.table parent.capId = some e := he
  rw [hd.state]
  refine find_setFirstChild.trans ?_
  rw [find_capTableInsert, find_capTableInsert, hid, if_neg hne, he]
  by_cases hp : id = parent.capId
  · simp [hp]
  · by_cases hn : id = s.nextCapId
    · simp [hn]
    · simp [hp, hn, Ne.symm hn, CapServer.find]

theorem derive {parent : UrosCap} {reducedOps : UInt64} (h : Delegates s F)
    (hd : Derived mac s parent reducedOps s' t) :
    Delegates s' (F.addChild parent.capId s.nextCapId) := by
  obtain ⟨e, he, -, ht⟩ := hd.entry
  have hfirst : t.firstChildCapId = 0 := by rw [ht]; rfl
  have hnext : t.nextSiblingCapId = e.firstChildCapId := by rw [ht]; rfl
  have hparent : t.parentCapId = parent.capId := by rw [ht]; rfl
  have hp : parent.capId ∈ F.nodes := (h.mem_iff _).mpr (by rw [he]; rfl)
  have hne : s.nextCapId ≠ parent.capId := fun heq => h.next_not_mem (heq ▸ hp)
  have hold : ∀ id ∈ F.nodes, id ≠ s.nextCapId := by
    rintro id hmem rfl
    exact h.next_not_mem hmem
  have hfind := h.find_derived hd he
  refine h.grow (by rw [hd.state]; rfl) (by rw [hd.state]; rfl) hd.room
    (Forest.nodup_addChild h.nodup h.next_not_mem) ?_ ?_ ?_ ?_ ?_
  · intro id
    rw [Forest.mem_nodes_addChild]
    simp [hp, or_comm]
  · rw [Forest.length_addChild, List.count_eq_one_of_mem h.nodup hp]
  · intro id
    rw [hfind]
    by_cases hid' : id = parent.capId
    · simp [hid', he]
    · by_cases hn : id = s.nextCapId
      · simp [hn, hne]
      · simp [hid', hn]
  · refine h.linked.addChild h.next_not_mem (Ne.symm hne) ?_ ?_ ?_ ?_ ?_
    · simp [CapServer.firstChild, hfind, hne, hfirst]
    · simp [CapServer.firstChild, hfind, setFirstChild]
    · intro v hv hvp
      simp only [CapServer.firstChild, hfind, hv, hvp, if_false]
    · simp [CapServer.nextSibling, CapServer.firstChild, hfind, hne, hnext, he]
    · intro v hv
      by_cases hvp : v = parent.capId
      · simp [CapServer.nextSibling, hfind, hvp, he, setFirstChild]
      · simp only [CapServer.nextSibling, hfind, hv, hvp, if_false]
  · have hsame : ∀ v ∈ F.nodes, s'.parentOf v = s.parentOf v := by
      intro v hv
      by_cases hvp : v = parent.capId
      · simp [CapServer.parentOf, hfind, hvp, he, setFirstChild]
      · simp only [CapServer.parentOf, hfind, hold v hv, hvp, if_false]
    refine (h.parented.congr hsame).addChild ?_
    simp [CapServer.parentOf, hfind, hne, hparent]

end Delegates

end Uros.Cap
