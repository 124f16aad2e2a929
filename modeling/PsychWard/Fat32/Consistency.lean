import PsychWard.Fat32.RemoveSpec
import PsychWard.Fat32.Check
import PsychWard.Common.Run

/-!
# Consistency over sequences of calls

A run of calls on a mounted volume. The tree stays consistent as long as every call is a `Safe` one,
whatever the calls return (`consistent_of_run`). A call that is not safe can break it:
`rm` on a directory frees the directory's own chain and leaves those of its files without an owner.
-/

namespace PsychWard.Fat32

/-- A path argument: a C string of at most 63 bytes. -/
def Path := { p : CString // p.length ≤ 63 ∧ 0 ∉ p }

/-- The calls that change a volume or the current directory. -/
inductive Call
  | create (path : Path)
  | write (path : Path) (text : List UInt8)
  | mkdir (path : Path)
  | delete (path : Path)
  | rename (oldPath newPath : Path)
  | cd (path : Path)

/-- The mounted instance and the disk. -/
structure Mounted where
  fs : Fat32Instance
  disk : Disk

namespace Mounted

/-- Make a call: its result, and what it leaves behind. -/
def call (s : Mounted) : Call → Bool × Mounted
  | .create path =>
    ((fat32CreateFile s.fs s.disk path.1).1, ⟨s.fs, (fat32CreateFile s.fs s.disk path.1).2⟩)
  | .write path text =>
    ((fat32WriteFile s.fs s.disk path.1 text).1, ⟨s.fs, (fat32WriteFile s.fs s.disk path.1 text).2⟩)
  | .mkdir path => ((fat32Mkdir s.fs s.disk path.1).1, ⟨s.fs, (fat32Mkdir s.fs s.disk path.1).2⟩)
  | .delete path =>
    ((fat32DeleteFile s.fs s.disk path.1).1, ⟨s.fs, (fat32DeleteFile s.fs s.disk path.1).2⟩)
  | .rename oldPath newPath =>
    ((fat32RenameFile s.fs s.disk oldPath.1 newPath.1).1,
      ⟨s.fs, (fat32RenameFile s.fs s.disk oldPath.1 newPath.1).2⟩)
  | .cd path => ((fat32Cd s.fs s.disk path.1).1, ⟨(fat32Cd s.fs s.disk path.1).2, s.disk⟩)

/-- A call as a step, whatever it returns. -/
def Step (s : Mounted) (c : Call) (t : Mounted) : Prop := t = (s.call c).2

/-- The directory tree of the mounted volume is consistent. -/
def Consistent (s : Mounted) : Prop := (volume s.fs s.disk).Consistent s.fs.rootCluster

/-- The calls that keep the tree consistent. -/
def Safe (s : Mounted) : Call → Prop
  | .create path => CreateSafe s.fs s.disk path.1
  | .write path text => WriteSafe s.fs s.disk path.1 text
  | .mkdir path => MkdirSafe s.fs s.disk path.1
  | .delete path => DeleteSafe s.fs s.disk path.1
  | .rename oldPath newPath => RenameSafe s.fs s.disk oldPath.1 newPath.1
  | .cd _ => True

end Mounted

/-- `cd` changes the current directory only. -/
theorem fat32Cd_eq (fs : Fat32Instance) (d : Disk) (path : CString) :
    ∃ c, (fat32Cd fs d path).2 = { fs with currentDirCluster := c } := by
  rw [fat32Cd]
  split
  · exact ⟨_, rfl⟩
  · simp only
    split
    · exact ⟨_, rfl⟩
    · split
      · exact ⟨_, rfl⟩
      · exact ⟨_, rfl⟩

/-- The current directory is no part of the volume's layout. -/
theorem Geometry.cd {fs : Fat32Instance} (g : Geometry fs) (c : ℕ) :
    Geometry { fs with currentDirCluster := c } :=
  ⟨⟨g.noFault.read, g.noFault.write⟩, g.bytes, g.sectors_pos, g.copies_pos, g.dataStart, g.sectors_lt,
    g.clusters_le⟩

/-- What one safe call preserves. -/
theorem Mounted.step_consistent {s t : Mounted} {c : Call} (h : s.Step c t) (g : Geometry s.fs)
    (hc : s.Consistent) (hsafe : s.Safe c) : Geometry t.fs ∧ t.Consistent := by
  obtain rfl := h
  cases c with
  | create path => exact ⟨g, g.fat32CreateFile_consistent path.2.2 hc hsafe⟩
  | write path text => exact ⟨g, g.fat32WriteFile_consistent path.2.2 hc hsafe⟩
  | mkdir path => exact ⟨g, g.fat32Mkdir_consistent path.2.2 hc hsafe⟩
  | delete path => exact ⟨g, g.fat32DeleteFile_consistent hc hsafe⟩
  | rename oldPath newPath => exact ⟨g, g.fat32RenameFile_consistent newPath.2.2 hc hsafe⟩
  | cd path =>
    obtain ⟨c, hcd⟩ := fat32Cd_eq s.fs s.disk path.1
    rw [call, Consistent, hcd]
    exact ⟨g.cd c, hc⟩

/-- In a run of safe calls the volume is consistent after every call. -/
theorem consistent_of_run {s t : Mounted} {cs : List Call} (g : Geometry s.fs) (hc : s.Consistent)
    (h : Run (guarded Mounted.Step Mounted.Safe) s cs t) : t.Consistent :=
  (h.invariant (I := fun s => Geometry s.fs ∧ s.Consistent)
    (fun _ _ _ hI he => Mounted.step_consistent he.2 hI.1 hI.2 he.1) ⟨g, hc⟩).2

/-! ## Small volumes -/

/-- A mounted volume with one sector per cluster: the boot sector, the table, then the clusters. -/
def tinyFs : Fat32Instance where
  readBlocks := ramRead
  writeBlocks := ramWrite
  bytesPerSector := 512
  sectorsPerCluster := 1
  reservedSectors := 1
  fatCount := 1
  sectorsPerFat := 1
  rootCluster := 2
  currentDirCluster := 2
  dataStartSector := 2

theorem tinyFs_geometry : Geometry tinyFs :=
  ⟨⟨fun _ _ => rfl, fun _ _ _ => rfl⟩, rfl, by decide, by decide, by decide, by decide, by decide⟩

/-- A table in which the clusters of `l` are the last ones of their chains. -/
def tableOf (l : List ℕ) : Block := l.foldl (fun b c => b.putU32 (4 * c) fat32Eoc) Block.zero

/-- A volume with an empty root directory. -/
def emptyVolume : Mounted := ⟨tinyFs, ⟨fun s => if s = 1 then tableOf [2] else Block.zero, []⟩⟩

/-- A volume with the directory `D`, which holds the file `F`. -/
def nestedVolume : Mounted where
  fs := tinyFs
  disk :=
    { sectors := fun s =>
        if s = 1 then tableOf [2, 3, 4]
        else if s = 2 then Block.zero.setEntry 0 (shortEntry (formatFat32Name [68]) 0x10 3 0)
        else if s = 3 then
          (newDirSector 3 2).setEntry 64 (shortEntry (formatFat32Name [70]) 0x20 4 1)
        else Block.zero
      log := [] }

/-- The path `D`. -/
def pathD : Path := ⟨[68], by decide⟩

theorem nestedVolume_consistent : nestedVolume.Consistent :=
  Volume.consistent_of_check [2]
    [⟨some ⟨2, 0, 0⟩, true, [3]⟩, ⟨some ⟨3, 0, 64⟩, false, [4]⟩] (by decide +kernel)

theorem emptyVolume_consistent : emptyVolume.Consistent :=
  Volume.consistent_of_check [2] [] (by decide +kernel)

theorem emptyVolume_mkdirSafe : emptyVolume.Safe (.mkdir pathD) := by
  intro p name hres
  have hD : resolveTarget emptyVolume.fs emptyVolume.disk pathD.1 = some (2, [68]) := by
    decide +kernel
  obtain ⟨rfl, rfl⟩ := Prod.mk.inj (Option.some.inj (hD.symm.trans hres))
  have hzero : ∀ p ∈ (volume emptyVolume.fs emptyVolume.disk).slots [2],
      (volume emptyVolume.fs emptyVolume.disk).entry p 0 = 0 := by decide +kernel
  have hroot : (volume emptyVolume.fs emptyVolume.disk).ChainOk [2] := by decide +kernel
  refine ⟨[2], ⟨⟨.root 2 true, .root ⟨rfl, rfl⟩⟩, Volume.chain_of_chainOk hroot⟩,
    fun _ => ⟨⟨fun A q B hs _ _ p hp => ?_, fun _ => by decide⟩, by decide, by decide, by decide⟩⟩
  exact hzero p (by rw [hs]; simp [List.mem_of_mem_head? hp])

theorem consistent_of_run_mkdir_cd :
    ((emptyVolume.call (.mkdir pathD)).2.call (.cd pathD)).2.Consistent := by
  have hmkdir : guarded Mounted.Step Mounted.Safe emptyVolume (.mkdir pathD)
      (emptyVolume.call (.mkdir pathD)).2 := ⟨emptyVolume_mkdirSafe, rfl⟩
  have hcd : guarded Mounted.Step Mounted.Safe (emptyVolume.call (.mkdir pathD)).2 (.cd pathD)
      ((emptyVolume.call (.mkdir pathD)).2.call (.cd pathD)).2 := ⟨trivial, rfl⟩
  exact consistent_of_run tinyFs_geometry emptyVolume_consistent (.snoc (.single hmkdir) hcd)

/-- A root directory without entries leaves every other used cluster without an owner. -/
theorem Volume.used_eq_root_of_empty {v : Volume} {root c : ℕ} (h : v.Consistent root)
    (hroot : v.next root = none)
    (hempty : ∀ p ∈ v.beforeEnd [root], ¬ (v.entry p).IsNamed) (hc : v.Used c) : c = root := by
  have hwalk : ∀ {l}, Walk v.forest.next root l → l = [root] := fun hl =>
    hl.unique (.last hroot)
  have hown : ∀ {o c b}, v.forest.Owns (rootOnly root) o c b → c = root ∧ b = true := by
    intro o c b ho
    induction ho with
    | root hX => exact hX
    | ref _ hl hr ih =>
      obtain ⟨rfl, -⟩ := ih
      obtain rfl := hwalk hl
      exact absurd hr.2.1 (hempty _ hr.1)
  obtain ⟨o, c', b, l, ho, hl, hx⟩ := h.covered hc
  obtain ⟨rfl, -⟩ := hown ho
  rw [hwalk hl.1] at hx
  exact List.mem_singleton.mp hx

/-- Calls keep the tree consistent? `rm D` does not. -/
theorem not_consistent_of_every_run : ¬ ∀ (s t : Mounted) (cs : List Call), Geometry s.fs →
    s.Consistent → Run Mounted.Step s cs t → t.Consistent := by
  intro h
  have hc := h nestedVolume _ [.delete pathD] tinyFs_geometry nestedVolume_consistent (.single rfl)
  have h4 : 4 = 2 := Volume.used_eq_root_of_empty hc (by decide +kernel) (by decide +kernel)
    (by decide +kernel)
  exact absurd h4 (by decide)

end PsychWard.Fat32
