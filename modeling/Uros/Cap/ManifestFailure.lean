import Uros.Cap.Server

/-!
What a failed installation of a manifest leaves behind.

`cap_manifest_table_install` frees the manifest it replaces before it allocates the copy,
and `cap_provision_task` destroys the port but not the table entry when the send right
cannot be inserted.  Everywhere else an error leaves every lookup as it was.
-/

namespace Uros.Cap

open Uros.Foundation

structure ManifestInstall where
  port : MachPort
  blob : Bytes
  mem : Bool

def tableAfter (installs : List ManifestInstall) : ManifestTable :=
  installs.foldl (fun table i => (capManifestTableInstall table i.port i.blob i.mem).2)
    capManifestTableInit

def PortsUnique (table : ManifestTable) : Prop :=
  ∀ (i j : Fin capManifestTableSize) (a b : ManifestSlot),
    table.get i = some a → table.get j = some b → a.port = b.port → i = j

/-- The port has a slot of the table, or a slot is free. -/
def HasSlot (table : ManifestTable) (port : MachPort) : Prop :=
  capManifestTableGet table port ≠ none ∨ ∃ i : Fin capManifestTableSize, table.get i = none

variable {table table' : ManifestTable} {port : MachPort} {blob : Bytes} {mem : Bool}
  {kr : CapReturn}

theorem PortsUnique.other (hunique : PortsUnique table) {i j : Fin capManifestTableSize}
    (hslot : (∃ a, table.get i = some a ∧ a.port = port) ∨
      table.get i = none ∧ capManifestTableGet table port = none)
    {b : ManifestSlot} (hb : table.get j = some b) (hij : i ≠ j) : b.port ≠ port := by
  intro hport
  rcases hslot with ⟨a, ha, haport⟩ | ⟨-, hnone⟩
  · exact hij (hunique i j a b ha hb (haport.trans hport.symm))
  · exact capManifestTableGet_eq_none.mp hnone j b hb hport

theorem PortsUnique.install (hunique : PortsUnique table)
    (h : capManifestTableInstall table port blob mem = (kr, table')) : PortsUnique table' := by
  rcases capManifestTableInstall_cases h with ⟨-, rfl⟩ | ⟨i, hslot, hset⟩
  · exact hunique
  · obtain ⟨slot, rfl, hport⟩ : ∃ slot, table' = table.set i slot ∧
        ∀ a, slot = some a → a.port = port := by
      rcases hset with ⟨-, -, rfl⟩ | ⟨-, -, rfl⟩
      · exact ⟨_, rfl, by simp⟩
      · exact ⟨_, rfl, by simp⟩
    intro j k a b ha hb hab
    rw [getElem_set_fin] at ha hb
    split at ha <;> split at hb
    · exact ‹i = j›.symm.trans ‹i = k›
    · exact absurd (hab.symm.trans (hport a ha)) (hunique.other hslot hb ‹_›)
    · exact absurd (hab.trans (hport b hb)) (hunique.other hslot ha ‹_›)
    · exact hunique j k a b ha hb hab

theorem portsUnique_tableAfter (installs : List ManifestInstall) :
    PortsUnique (tableAfter installs) := by
  have hinit : PortsUnique capManifestTableInit := by
    intro i j a b ha
    have ha : capManifestTableInit[i] = some a := ha
    simp [capManifestTableInit] at ha
  rw [tableAfter]
  generalize capManifestTableInit = table at hinit
  induction installs generalizing table with
  | nil => exact hinit
  | cons i installs ih => exact ih _ (hinit.install rfl)

theorem noManifestSlot_iff :
    (capManifestTableInstall table port blob mem).1 = .noManifestSlot ↔ ¬HasSlot table port := by
  constructor
  · intro h
    unfold capManifestTableInstall at h
    dsimp only at h
    split at h
    · next hnone =>
      obtain ⟨hsame, hfree⟩ : (∀ i : Fin capManifestTableSize,
          (table[i].any fun slot => decide (slot.port = port)) = false) ∧
          ∀ i : Fin capManifestTableSize, ¬table[i] = none := by
        simpa using hnone
      rintro (hport | ⟨i, hi⟩)
      · refine hport (capManifestTableGet_eq_none.mpr fun j a ha => ?_)
        have ha : table[j] = some a := ha
        simpa [ha] using hsame j
      · exact hfree i hi
    · split at h <;> cases h
  · intro hno
    have hcases := capManifestTableInstall_cases
      (rfl : capManifestTableInstall table port blob mem = (_, _))
    rcases hcases with ⟨hkr, -⟩ | ⟨i, ⟨a, ha, hport⟩ | ⟨hfree, -⟩, -⟩
    · exact hkr
    · exact absurd (.inl fun hnone => capManifestTableGet_eq_none.mp hnone i a ha hport) hno
    · exact absurd (.inr ⟨i, hfree⟩) hno

theorem PortsUnique.install_error (hunique : PortsUnique table)
    (h : capManifestTableInstall table port blob mem = (kr, table')) (herr : kr ≠ .success) :
    (table' = table ∧ capManifestTableGet table port = none) ∨
      mem = false ∧ capManifestTableGet table port ≠ none ∧
        capManifestTableGet table' port = none := by
  rcases capManifestTableInstall_cases h with ⟨hkr, htable⟩ | ⟨i, hslot, hset⟩
  · have hno : ¬HasSlot table port := noManifestSlot_iff.mp (by rw [h, hkr])
    exact .inl ⟨htable, not_not.mp fun hport => hno (.inl hport)⟩
  · obtain ⟨hmem, -, rfl⟩ : mem = false ∧ kr = .noMemory ∧ table' = table.set i none :=
      hset.resolve_left fun hok => herr hok.2.1
    rcases hslot with ⟨a, ha, haport⟩ | ⟨hfree, hnone⟩
    · refine .inr ⟨hmem, fun hnone => ?_, ?_⟩
      · exact capManifestTableGet_eq_none.mp hnone i a ha haport
      · rw [capManifestTableGet_eq_none]
        intro j b hb
        rw [getElem_set_fin] at hb
        split at hb
        · cases hb
        · exact hunique.other (.inl ⟨a, ha, haport⟩) hb ‹_›
    · refine .inl ⟨?_, hnone⟩
      apply Vector.ext
      intro j hj
      have := getElem_set_fin table i ⟨j, hj⟩ none
      split at this
      · next hij =>
        subst hij
        exact this.trans hfree.symm
      · exact this

theorem PortsUnique.install_unchanged_iff (hunique : PortsUnique table)
    (h : capManifestTableInstall table port blob mem = (kr, table')) (herr : kr ≠ .success) :
    (∀ p, capManifestTableGet table' p = capManifestTableGet table p) ↔
      (mem = false → capManifestTableGet table port = none) := by
  rcases hunique.install_error h herr with ⟨rfl, hnone⟩ | ⟨hmem, hold, hnew⟩
  · exact ⟨fun _ _ => hnone, fun _ _ => rfl⟩
  · exact ⟨fun hall _ => (hall port).symm.trans hnew, fun hnone => absurd (hnone hmem) hold⟩

theorem capProvisionTask_error {s s' : CapServer} {manifest : Bytes} {ans : ProvisionAnswers}
    {out : Option MachPort} (h : capProvisionTask s manifest ans = (kr, s', out))
    (herr : kr ≠ .success) :
    (s' = s ∧ ∀ newPort, capManifestValidate manifest = .success → ans.newPort = some newPort →
        ans.moveMember = false) ∨
      ∃ newPort ikr, capManifestValidate manifest = .success ∧ ans.newPort = some newPort ∧
        ans.moveMember = true ∧
        capManifestTableInstall s.manifests newPort manifest ans.mem = (ikr, s'.manifests) := by
  unfold capProvisionTask at h
  cases hvalid : capManifestValidate manifest with
  | success =>
    rw [hvalid] at h
    cases hnew : ans.newPort with
    | none =>
      simp only [hnew, Prod.mk.injEq] at h
      obtain ⟨-, rfl, -⟩ := h
      exact .inl ⟨rfl, by simp⟩
    | some newPort =>
      simp only [hnew] at h
      cases hmove : ans.moveMember with
      | false =>
        simp only [hmove, Bool.not_false, if_true, Prod.mk.injEq] at h
        obtain ⟨-, rfl, -⟩ := h
        exact .inl ⟨rfl, by simp⟩
      | true =>
        simp only [hmove, Bool.not_true, Bool.false_eq_true, if_false] at h
        refine .inr ⟨newPort, _, rfl, rfl, rfl, Prod.ext rfl ?_⟩
        split at h
        · split at h <;> cases h <;> simp_all
        · cases h
          simp_all
  | _ =>
    simp only [hvalid, Prod.mk.injEq] at h
    obtain ⟨-, rfl, -⟩ := h
    exact .inl ⟨rfl, by simp⟩

/-- For every table that calls of `cap_manifest_table_install` build: a failed installation
changes no lookup exactly when there was memory or the port had no manifest.  A failed
provisioning changes none exactly when it does not come to the installation, or the
installation fails in this way or finds no slot, or the same manifest was there before. -/
theorem failedInstall_unchanged_iff (installs : List ManifestInstall) (s : CapServer)
    (hs : s.manifests = tableAfter installs) :
    (∀ port blob mem kr table',
      capManifestTableInstall s.manifests port blob mem = (kr, table') → kr ≠ .success →
      ((∀ p, capManifestTableGet table' p = capManifestTableGet s.manifests p) ↔
        (mem = false → capManifestTableGet s.manifests port = none))) ∧
    (∀ manifest ans kr s' out,
      capProvisionTask s manifest ans = (kr, s', out) → kr ≠ .success →
      ((∀ p, capManifestTableGet s'.manifests p = capManifestTableGet s.manifests p) ↔
        ∀ newPort, capManifestValidate manifest = .success → ans.newPort = some newPort →
          ans.moveMember = true →
          (ans.mem = false → capManifestTableGet s.manifests newPort = none) ∧
          (ans.mem = true → HasSlot s.manifests newPort →
            capManifestTableGet s.manifests newPort = some manifest))) := by
  have hunique : PortsUnique s.manifests := hs ▸ portsUnique_tableAfter installs
  refine ⟨fun port blob mem kr table' h herr => hunique.install_unchanged_iff h herr,
    fun manifest ans kr s' out h herr => ?_⟩
  rcases capProvisionTask_error h herr with ⟨rfl, hmove⟩ | ⟨newPort, ikr, hvalid, hnew, hmove, hi⟩
  · refine ⟨fun _ newPort hvalid hnew hmember => ?_, fun _ _ => rfl⟩
    rw [hmove newPort hvalid hnew] at hmember
    cases hmember
  · simp only [hvalid, hnew, hmove, Option.some.injEq, forall_eq', true_implies]
    by_cases hok : ikr = .success
    · -- the installation succeeded, so it was the send right that could not be inserted
      subst hok
      have hslot : HasSlot s.manifests newPort := by
        by_contra hno
        have hfull : (capManifestTableInstall s.manifests newPort manifest ans.mem).1 = _ :=
          noManifestSlot_iff.mpr hno
        rw [hi] at hfull
        cases hfull
      have hmem : ans.mem = true := by
        rcases capManifestTableInstall_cases hi with ⟨hkr, -⟩ | ⟨_, -, ⟨hmem, -⟩ | ⟨-, hkr, -⟩⟩
        · cases hkr
        · exact hmem
        · cases hkr
      have hthere := capManifestTableGet_install hi
      refine ⟨fun hall => ⟨by simp [hmem], fun _ _ => (hall newPort).symm.trans hthere⟩,
        fun hold p => ?_⟩
      by_cases hp : p = newPort
      · rw [hp, hthere, hold.2 hmem hslot]
      · exact capManifestTableGet_install_of_ne hi hp
    · rw [hunique.install_unchanged_iff hi hok]
      refine ⟨fun hnone => ⟨hnone, fun hmem hslot => ?_⟩, fun hold => hold.1⟩
      rcases capManifestTableInstall_cases hi with ⟨hkr, -⟩ | ⟨_, -, ⟨-, hkr, -⟩ | ⟨hno, -⟩⟩
      · exact absurd hslot (noManifestSlot_iff.mp (by rw [hi, hkr]))
      · exact absurd hkr hok
      · rw [hno] at hmem
        cases hmem

def emptyManifest : Bytes :=
  leBytes 4 capManifestMagic.toNat ++ leBytes 2 capManifestVersion ++ leBytes 2 48 ++
    leBytes 4 49 ++ leBytes 4 0 ++ leBytes 4 48 ++ leBytes 4 1 ++ leBytes 4 48 ++
    leBytes 4 0 ++ leBytes 4 48 ++ leBytes 4 0 ++ leBytes 8 0 ++ [0]

def confinedServer : CapServer :=
  { CapServer.init (Vector.replicate 32 0) 2 with
    manifests := tableAfter [⟨5, emptyManifest, true⟩] }

/-- No memory for the manifest of another port leaves port 5 confined. -/
theorem failedInstall_other_port :
    (capManifestTableInstall confinedServer.manifests 6 emptyManifest false).1 = .noMemory ∧
      ∀ p, capManifestTableGet
          (capManifestTableInstall confinedServer.manifests 6 emptyManifest false).2 p =
        capManifestTableGet confinedServer.manifests p := by
  refine ⟨by decide +kernel, ?_⟩
  exact ((failedInstall_unchanged_iff [⟨5, emptyManifest, true⟩] confinedServer rfl).1 6
    emptyManifest false .noMemory _ (Prod.ext (by decide +kernel) rfl) (by decide)).mpr
    fun _ => by decide +kernel

/-- When there is no memory to replace the manifest of port 5, the port may acquire
everything; when the send right cannot be inserted, the entry of the destroyed port 6 stays. -/
theorem failedInstall_unconfines :
    let install := capManifestTableInstall confinedServer.manifests 5 emptyManifest false
    let provision := capProvisionTask confinedServer emptyManifest ⟨some 6, true, true, false⟩
    capManifestAllows (capManifestTableGet confinedServer.manifests 5) 1 1 = false ∧
      install.1 = .noMemory ∧
      capManifestAllows (capManifestTableGet install.2 5) 1 1 = true ∧
      provision.1 = .internal ∧ provision.2.2 = none ∧
      capManifestTableGet confinedServer.manifests 6 = none ∧
      capManifestTableGet provision.2.1.manifests 6 = some emptyManifest := by
  decide +kernel

end Uros.Cap
