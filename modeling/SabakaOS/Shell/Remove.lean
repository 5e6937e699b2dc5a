import SabakaOS.Fat32.TreeRuns
import SabakaOS.Shell.Copy
import SabakaOS.Vfs.Listing

namespace Shell

open Word ByteMemory Prog Vfs
open Fat32 (Fat32Entry Env Good Vol Link Sound Chained IsDir EntryAt Consistent PlainDir MountedAt
  Calm volume worldEnv anyRule legal_any loose_any files listing dirHead entriesPerClust hasAttr
  attrDirectory fat32Unlink fat32Rmdir fat32Ok)

-- The bytes of a RAM file in the places of an entry's fields.
def castEntry (b : Nat → UInt8) : Fat32Entry where
  name := Fat32.cString (readBytes b 256 0)
  attr := b 256
  cluster := readLE b 4 260
  size := readLE b 4 264
  dirCluster := readLE b 4 268
  dirIndex := readLE b 4 272

def dataEntry (n : VfsNode) : Option Fat32Entry :=
  n.data.map fun
    | .bytes b => castEntry b
    | .entry e => e

def rmChild (fuel : Nat) (child : Option Ptr) : Prog Kernel Unit := do
  let k ← get
  match child with
  | none => pure ()
  | some c =>
    if (k.vfs.nodes c).type ≠ .file then pure ()
    else
      match dataEntry (k.vfs.nodes c) with
      | none => pure ()
      | some e => do
        let _ ← onDisk (fat32Unlink fuel e)
        pure ()

-- The loop of cmd_rm from entry i on. A longer name is copied past the end of name_buf.
def rmLoop (fuel : Nat) (node : Ptr) : Nat → Nat → Prog Kernel Unit
  | 0, _ => stopped
  | turns + 1, i => do
    let r ← vfsReaddir fuel (some node) i
    match r with
    | .error _ => pure ()
    | .ok name =>
      if vfsMaxName ≤ name.length then stopped
      else do
        let child ← vfsFinddir fuel (some node) name
        rmChild fuel child
        rmLoop fuel node turns (i + 1)

def rmDir (fuel : Nat) (node : Ptr) : Prog Kernel String := do
  rmLoop fuel node fuel 0
  let k ← get
  match dataEntry (k.vfs.nodes node) with
  | none => pure "rm: removed directory"
  | some dirE => do
    let r ← onDisk (fat32Rmdir fuel dirE)
    if r ≠ fat32Ok then pure "rm -r: directory not empty or error"
    else pure "rm: removed directory"

def rmFile (fuel : Nat) (node : Ptr) : Prog Kernel String := do
  let k ← get
  match dataEntry (k.vfs.nodes node) with
  | none => pure "rm: removed"
  | some e => do
    let r ← onDisk (fat32Unlink fuel e)
    if r ≠ fat32Ok then pure "rm: error deleting file"
    else pure "rm: removed"

def rmTarget (fuel : Nat) (recursive : Bool) (targetPath : List UInt8) : Prog Kernel String := do
  let node ← vfsResolvePath fuel targetPath
  match node with
  | none => pure "rm: not found"
  | some p => do
    let k ← get
    if (k.vfs.nodes p).type = .dir then
      if !recursive then pure "rm: это директория. Используй rm -r"
      else rmDir fuel p
    else rmFile fuel p

-- "-r"
def recursiveFlag : List UInt8 := [0x2D, 0x72]

-- The line that cmd_rm prints.
def cmdRm (fuel : Nat) (args : List (List UInt8)) : Prog Kernel String :=
  match args with
  | _ :: arg :: rest =>
    if Fat32.kstrcmp arg recursiveFlag = 0 then
      match rest with
      | [] => pure "rm -r: укажи директорию"
      | targetPath :: _ => rmTarget fuel true targetPath
    else rmTarget fuel false arg
  | _ => pure "Usage: rm <path>  (или rm -r <dir> для директорий)"

-- The clusters of a directory and of its files.
def Doomed (m : Fat32.Mount) (N : Nat) (V : Vol) (d : Fat32Entry) (l : List Nat) (z : Nat) : Prop :=
  z ∈ l ∨ ∃ g ∈ files V (entriesPerClust m) d.cluster l, ∃ lc, Chained N V g.cluster lc ∧ z ∈ lc

-- The directory is gone with its files, its slot in cluster y is marked deleted, and the rest of
-- the volume is as it was.
structure Erased (m : Fat32.Mount) (N : Nat) (V : Vol) (d : Fat32Entry) (l : List Nat) (y : Nat)
    (V' : Vol) : Prop where
  freed : ∀ z, Doomed m N V d l z → V'.fat z = 0
  fat : ∀ z, ¬Doomed m N V d l z → V'.fat z = V.fat z
  data : ∀ z, z ∉ l → V'.data z = (V.drop y (d.dirIndex % entriesPerClust m)).data z

-- What the loop of cmd_rm leaves of a directory of n files, from the file with index i on.
structure LoopEnd (E : Env) (D : Set Nat) (d : Fat32Entry) (lp l : List Nat) (y i : Nat) (p : Ptr)
    (k k' : Kernel) : Prop where
  good : Good E k'.disk
  node : DiskNodeAt k' p d
  dir : ∃ H, E.Emptying D H d lp l y (E.vol k'.disk)
  deleted : E.Deleted d.cluster l (E.vol k.disk) (E.vol k'.disk)
  left : (files (E.vol k'.disk) (entriesPerClust E.mount) d.cluster l).length =
    (files (E.vol k.disk) (entriesPerClust E.mount) d.cluster l).length -
      ((files (E.vol k.disk) (entriesPerClust E.mount) d.cluster l).length - i + 1) / 2
  fits : ∀ g, (files (E.vol k.disk) (entriesPerClust E.mount) d.cluster l)[i]? = some g →
    g.name.length < vfsMaxName

section Loop

variable {E : Env} {D H : Set Nat} {k k' : Kernel} {p : Ptr} {d f g : Fat32Entry}
  {fuel turns i j x y : Nat} {l lp lc : List Nat}

theorem rmChild_unlinks (hE : E.Lawful) (hloose : E.Loose) (hq : E.Quiet) (hg : Good E k.disk)
    (h : E.Emptying D H d lp l y (E.vol k.disk))
    (hf : f ∈ files (E.vol k.disk) (entriesPerClust E.mount) d.cluster l)
    (hnode : k.vfs.nodes (.heap j) = diskNode f.name f (some .disk)) (hfuel : E.turns < fuel) :
    Runs (rmChild fuel (some (.heap j))) k (fun _ k' => k' = { k with disk := k'.disk } ∧
      Good E k'.disk ∧ ∃ x lc, E.Unlinks D (E.vol k.disk) f l x ∧
        Chained E.clusters (E.vol k.disk) f.cluster lc ∧ E.vol k'.disk =
          ((E.vol k.disk).without lc).drop x (f.dirIndex % entriesPerClust E.mount))
      (fun _ => False) := by
  obtain ⟨x, hx⟩ := h.file hE.fits hf
  unfold rmChild
  refine Runs.get_bind ?_
  have htype : (diskNode f.name f (some .disk)).type = .file := by
    rw [diskNode, hx.attr]
    rfl
  dsimp only
  rw [hnode, htype, if_neg (fun h => h rfl)]
  refine (onDisk_runs (Fat32.fat32Unlink_exact hE hq hg hloose h.sound hx.dir hx.entry hx.apart
    hx.attr) fun _ h => Nat.not_le.mpr hfuel h.2).bind ?_
  rintro r k1 ⟨hk1, hs1, -, lc, hlc, hvol⟩
  exact Runs.pure ⟨hk1, hs1.good, x, lc, hx, hlc, hvol⟩

theorem rmLoop_deletes (hE : E.Lawful) (hloose : E.Loose) (hq : E.Quiet) (hg : Good E k.disk)
    (hheap : ∀ n, k.heap n = true) (hp : DiskNodeAt k p d)
    (h : E.Emptying D H d lp l y (E.vol k.disk)) (hfuel : E.turns < fuel)
    (hn : ((files (E.vol k.disk) (entriesPerClust E.mount) d.cluster l).length - i + 1) / 2 <
      turns) :
    Runs (rmLoop fuel p turns i) k (fun _ k' => LoopEnd E D d lp l y i p k k')
      (fun _ => ∃ g ∈ files (E.vol k.disk) (entriesPerClust E.mount) d.cluster l,
        vfsMaxName ≤ g.name.length) := by
  induction turns generalizing k H i with
  | zero => exact absurd hn (Nat.not_lt_zero _)
  | succ turns ih =>
    unfold rmLoop
    refine (vfsReaddir_lists hE hloose hq hg rfl hp h.dir.link hfuel).then ?_
    rintro r k1 ⟨hpass1, rfl⟩
    unfold listedName
    rcases hget : (files (E.vol k.disk) (entriesPerClust E.mount) d.cluster l)[i]? with _ | g
    · have hle := List.getElem?_eq_none_iff.mp hget
      refine Runs.pure ⟨hpass1.good, hpass1.diskNode hp, ⟨H, hpass1.vol.symm ▸ h⟩, ?_, ?_, ?_⟩
      · rw [hpass1.vol]
        exact .none
      · rw [hpass1.vol]
        omega
      · intro g hg
        cases hget.symm.trans hg
    · have hmem := List.mem_of_getElem? hget
      dsimp only
      split
      · rename_i hlong
        exact Runs.stopped ⟨g, hmem, hlong⟩
      rename_i hshort
      refine (vfsFinddir_lists hE hloose hq hpass1.good hpass1.vol
        (fun n => hpass1.heap ▸ hheap n) (hpass1.diskNode hp) h.dir.link hmem hfuel).then ?_
      rintro r k2 ⟨hpass2, f, hf, j, rfl, hnode⟩
      have hpass := hpass1.trans hpass2
      have hvol2 := hpass.vol
      have h2 : E.Emptying D H d lp l y (E.vol k2.disk) := hvol2.symm ▸ h
      refine (rmChild_unlinks hE hloose hq hpass.good h2 (hvol2.symm ▸ hf) hnode hfuel).then ?_
      rintro - k3 ⟨hk3, hg3, x, lc, hx, hlc, hvol3⟩
      rw [hvol2] at hx hlc hvol3
      have h3 := h.removed hE.fits hq hx hlc
      rw [← hvol3] at h3
      have hfiles := @Fat32.removed_files E (E.vol k.disk) d.cluster x l lc f hE.fits hx.entry
      rw [← hvol3] at hfiles
      have hlen := Fat32.length_left_out Fat32.files_distinct hf
      rw [← hfiles] at hlen
      have hlt := (List.getElem?_eq_some_iff.mp hget).1
      have hp3 : DiskNodeAt k3 p d := by
        have hp2 := hpass.diskNode hp
        rw [hk3]
        exact ⟨hp2.entry, hp2.ops, hp2.made⟩
      have hheap3 : ∀ n, k3.heap n = true := by
        rw [hk3]
        exact fun n => hpass.heap ▸ hheap n
      refine (ih hg3 hheap3 hp3 h3 (by omega)).mono ?_ ?_
      · rintro - k4 h4
        refine ⟨h4.good, h4.node, h4.dir, ?_, ?_, ?_⟩
        · exact .more hf hx.entry hlc (hvol3 ▸ h4.deleted)
        · rw [h4.left]
          omega
        · intro g' hg'
          obtain rfl := Option.some.inj (hget.symm.trans hg')
          exact Nat.not_le.mp hshort
      · rintro - ⟨g', hg', hlong⟩
        rw [hfiles] at hg'
        exact ⟨g', List.mem_of_mem_filter hg', hlong⟩

end Loop

section Directory

variable {E : Env} {D H : Set Nat} {k k' : Kernel} {p : Ptr} {d f g : Fat32Entry} {V V' : Vol}
  {fuel y N : Nat} {l lp lc ld : List Nat}

theorem chained_unique (hN : N ≤ 0x0FFFFFF8) (h : Chained N V g.cluster lc)
    (h' : Chained N V g.cluster ld) : lc = ld := by
  rcases h with ⟨h0, rfl⟩ | ⟨h0, hlc⟩
  · rcases h' with ⟨-, rfl⟩ | ⟨h0', -⟩
    · rfl
    · exact absurd h0 h0'
  · rcases h' with ⟨h0', -⟩ | ⟨-, hld⟩
    · exact absurd h0' h0
    · exact hlc.unique (Fat32.eof_stops hN) hld

theorem drop_data {i z : Nat} (hy : V'.data y = V.data y) (hz : V'.data z = V.data z) :
    (V'.drop y i).data z = (V.drop y i).data z := by
  change Function.update V'.data y _ z = Function.update V.data y _ z
  rw [hy]
  by_cases hzy : z = y
  · rw [hzy, Function.update_self, Function.update_self]
  · rw [Function.update_of_ne hzy, Function.update_of_ne hzy, hz]

-- With the only file gone, or with none to delete, the end of the directory is the end of it all.
theorem erased_dir (hf : Fat32.Fits E.mount E.clusters) (h : E.Emptying D H d lp l y V)
    (hdel : E.Deleted d.cluster l V V')
    (hle : (files V (entriesPerClust E.mount) d.cluster l).length ≤ 1)
    (hnone : files V' (entriesPerClust E.mount) d.cluster l = []) :
    Erased E.mount E.clusters V d l y
      ((V'.without l).drop y (d.dirIndex % entriesPerClust E.mount)) := by
  have hy : y ∉ l := fun hyl => h.disjoint hf hyl h.entry.mem
  rcases hfiles : files V (entriesPerClust E.mount) d.cluster l with _ | ⟨g, _ | ⟨g', gs⟩⟩
  · have hsame : V' = V := by
      cases hdel with
      | none => rfl
      | more hg =>
        rw [hfiles] at hg
        exact absurd hg List.not_mem_nil
    subst hsame
    have hdoomed : ∀ z, Doomed E.mount E.clusters V' d l z ↔ z ∈ l := by
      intro z
      rw [Doomed, hfiles]
      exact or_iff_left fun ⟨g, hg, _⟩ => List.not_mem_nil hg
    refine ⟨fun z hz => if_pos ((hdoomed z).mp hz), fun z hz => if_neg fun hzl => ?_, ?_⟩
    · exact hz ((hdoomed z).mpr hzl)
    · exact fun z _ => rfl
  · obtain ⟨x, lc, he, hlc, rfl⟩ := (hdel.single hf hfiles).resolve_left fun hsame => by
      rw [hsame, hfiles] at hnone
      cases hnone
    have hdoomed : ∀ z, Doomed E.mount E.clusters V d l z ↔ z ∈ l ∨ z ∈ lc := by
      intro z
      rw [Doomed, hfiles]
      refine or_congr_right ⟨?_, fun hz => ⟨g, List.mem_singleton_self g, lc, hlc, hz⟩⟩
      rintro ⟨g', hg', lc', hlc', hz⟩
      obtain rfl := List.mem_singleton.mp hg'
      rwa [chained_unique hf.small hlc hlc']
    refine ⟨fun z hz => ?_, fun z hz => ?_, fun z hz => ?_⟩
    · change (if z ∈ l then 0 else if z ∈ lc then 0 else V.fat z) = 0
      split
      · rfl
      · rename_i hzl
        exact if_pos (((hdoomed z).mp hz).resolve_left hzl)
    · rw [hdoomed, not_or] at hz
      change (if z ∈ l then 0 else if z ∈ lc then 0 else V.fat z) = V.fat z
      rw [if_neg hz.1, if_neg hz.2]
    · have hother : ∀ z, z ∉ l → (((V.without lc).drop x (g.dirIndex %
          entriesPerClust E.mount)).without l).data z = V.data z := fun z hz =>
        Function.update_of_ne (ne_of_mem_of_not_mem he.mem hz).symm _ _
      exact drop_data (hother y hy) (hother z hz)
  · rw [hfiles] at hle
    exact absurd hle (by simp)

theorem rmDir_ends (hE : E.Lawful) (hloose : E.Loose) (hq : E.Quiet) (hg : Good E k.disk)
    (hheap : ∀ n, k.heap n = true) (hp : DiskNodeAt k p d)
    (h : E.Emptying D H d lp l y (E.vol k.disk)) (hfuel : E.turns < fuel) :
    Runs (rmDir fuel p) k (fun line k' => Good E k'.disk ∧
      (∀ g, (files (E.vol k.disk) (entriesPerClust E.mount) d.cluster l)[0]? = some g →
        g.name.length < vfsMaxName) ∧
      if (files (E.vol k.disk) (entriesPerClust E.mount) d.cluster l).length ≤ 1 then
        line = "rm: removed directory" ∧
          Erased E.mount E.clusters (E.vol k.disk) d l y (E.vol k'.disk)
      else line = "rm -r: directory not empty or error")
      (fun _ => ∃ g ∈ files (E.vol k.disk) (entriesPerClust E.mount) d.cluster l,
        vfsMaxName ≤ g.name.length) := by
  have hlist := hq.list
  have hle : (files (E.vol k.disk) (entriesPerClust E.mount) d.cluster l).length ≤ E.turns := by
    refine (List.length_filter_le _ _).trans ?_
    exact (Fat32.length_le_slots hE.fits).2.trans (Fat32.turns_le hE.fits h.dir.link).2
  unfold rmDir
  refine (rmLoop_deletes hE hloose hq hg hheap hp h hfuel (by omega)).bind ?_
  rintro - k1 hend
  obtain ⟨H1, h1⟩ := hend.dir
  have hleft := hend.left
  refine Runs.get_bind ?_
  rw [dataEntry, hend.node.entry]
  change Runs (do
    let r ← onDisk (fat32Rmdir fuel d)
    if r ≠ fat32Ok then pure "rm -r: directory not empty or error"
    else pure "rm: removed directory") k1 _ _
  split
  · rename_i hone
    have hnone : files (E.vol k1.disk) (entriesPerClust E.mount) d.cluster l = [] :=
      List.eq_nil_of_length_eq_zero (by omega)
    have hdots : ∀ f ∈ listing (E.vol k1.disk) (entriesPerClust E.mount) d.cluster l,
        Fat32.isDots f.name = true := by
      intro f hf
      by_contra hnd
      have hfile := Fat32.mem_files.mpr ⟨hf, Bool.eq_false_iff.mpr hnd⟩
      rw [hnone] at hfile
      exact absurd hfile List.not_mem_nil
    refine (onDisk_runs (Fat32.fat32Rmdir_exact hE hq hend.good hloose h1.sound h1.parent h1.entry
      h1.apart h1.isDir h1.dir.link hdots) fun _ hstop => Nat.not_le.mpr hfuel hstop).then ?_
    rintro r k2 ⟨-, hs2, rfl, lc, hlc, hvol⟩
    refine Runs.pure ⟨hs2.good, hend.fits, rfl, ?_⟩
    obtain ⟨hhead, -⟩ := h1.own hE.fits
    have hlink := h1.dir.link
    rw [hhead] at hlink
    have h0 : d.cluster ≠ 0 := by
      intro h0
      have hvalid := h1.sound.valid (h1.sound.dirs (h1.own hE.fits).2)
      exact absurd (h0 ▸ hvalid).1 (by decide)
    obtain rfl := chained_unique hE.fits.small hlc (.inr ⟨h0, hlink⟩)
    rw [hvol]
    exact erased_dir hE.fits h hend.deleted hone hnone
  · rename_i hmany
    have hsome : ¬∀ f ∈ listing (E.vol k1.disk) (entriesPerClust E.mount) d.cluster l,
        Fat32.isDots f.name = true := by
      intro hdots
      rcases hfiles : files (E.vol k1.disk) (entriesPerClust E.mount) d.cluster l with _ | ⟨f, fs⟩
      · rw [hfiles, List.length_nil] at hleft
        omega
      · have hf := Fat32.mem_files.mp (hfiles ▸ List.mem_cons_self)
        cases hf.2.symm.trans (hdots f hf.1)
    refine (onDisk_runs (Fat32.fat32Rmdir_refuses hE hend.good hloose h1.dir.link hsome hlist)
      fun _ hstop => Nat.not_le.mpr hfuel hstop.2).then ?_
    rintro r k2 ⟨-, hs2, -, hr⟩
    rw [if_pos hr]
    exact Runs.pure ⟨hs2.good, hend.fits, rfl⟩

end Directory

-- The node p holds the entry d of a directory on disk other than the root; d stands at y in the
-- clusters lp of its parent, and there are only files in the directory's own clusters l.
structure FilesOnly (N : Nat) (k : Kernel) (p : Ptr) (d : Fat32Entry) (lp l : List Nat) (y : Nat) :
    Prop where
  node : DiskNodeAt k p d
  type : (k.vfs.nodes p).type = .dir
  attr : hasAttr d.attr attrDirectory = true
  parent : IsDir k.disk.mount N (volume N k.disk) (dirHead k.disk.mount d.dirCluster)
  entry : EntryAt k.disk.mount N (volume N k.disk) d lp y
  plain : PlainDir k.disk.mount N (volume N k.disk) d.cluster l

section Command

variable {k₀ k k' : Kernel} {p : Ptr} {d : Fat32Entry} {fuel y N : Nat} {l lp : List Nat}
  {cmd path : List UInt8} {rest : List (List UInt8)}

theorem rm_recursive (hpath : vfsResolvePath fuel path k₀ = (some (some p), k))
    (htype : (k.vfs.nodes p).type = .dir) :
    cmdRm fuel (cmd :: recursiveFlag :: path :: rest) k₀ = rmDir fuel p k := by
  change rmTarget fuel true path k₀ = _
  rw [rmTarget, bind_ended hpath]
  dsimp only
  rw [get_bind, if_pos htype]
  rfl

theorem FilesOnly.emptying (h : FilesOnly N k p d lp l y) (hm : MountedAt N k.disk)
    (hs : Consistent k.disk.mount N (volume N k.disk)) : ∃ D H, (worldEnv N k.disk anyRule).Emptying
      D H d lp l y ((worldEnv N k.disk anyRule).vol k.disk) := by
  obtain ⟨D, H, hs⟩ := hs
  exact ⟨D, H, hs, hs.isDir hm.fits.small h.parent, h.entry, h.attr,
    hs.not_own hm.fits h.parent h.entry, h.plain⟩

theorem rm_removes_iff (hpath : vfsResolvePath fuel path k₀ = (some (some p), k))
    (hm : MountedAt N k.disk) (hcalm : Calm k.disk) (hheap : ∀ n, k.heap n = true)
    (hfuel : N * entriesPerClust k.disk.mount < fuel)
    (hs : Consistent k.disk.mount N (volume N k.disk)) (hd : FilesOnly N k p d lp l y) :
    (∃ k', cmdRm fuel (cmd :: recursiveFlag :: path :: rest) k₀ =
      (some "rm: removed directory", k') ∧
      Erased k.disk.mount N (volume N k.disk) d l y (volume N k'.disk)) ↔
    (files (volume N k.disk) (entriesPerClust k.disk.mount) d.cluster l).length ≤ 1 ∧
      ∀ g ∈ files (volume N k.disk) (entriesPerClust k.disk.mount) d.cluster l,
        g.name.length < vfsMaxName := by
  obtain ⟨D, H, h⟩ := hd.emptying hm hs
  have hg := hm.good (legal_any k.disk.trace)
  have hends := rmDir_ends hm.lawful loose_any hcalm.quiet hg hheap hd.node h hfuel
  rw [rm_recursive hpath hd.type]
  change Runs _ _ (fun line k' => _ ∧ (∀ g, (files (volume N k.disk)
    (entriesPerClust k.disk.mount) d.cluster l)[0]? = some g → _) ∧ if (files (volume N k.disk)
    (entriesPerClust k.disk.mount) d.cluster l).length ≤ 1 then _ else _) (fun _ => ∃ g ∈
    files (volume N k.disk) (entriesPerClust k.disk.mount) d.cluster l, _) at hends
  generalize files (volume N k.disk) (entriesPerClust k.disk.mount) d.cluster l = fs at hends ⊢
  constructor
  · rintro ⟨k', hrun, -⟩
    obtain ⟨-, hfits, hif⟩ := hends.result hrun
    have hone : fs.length ≤ 1 := by
      by_contra hmany
      rw [if_neg hmany] at hif
      exact absurd hif (by decide)
    refine ⟨hone, fun g hg => ?_⟩
    rcases fs with _ | ⟨f, _ | ⟨f', fs⟩⟩
    · exact absurd hg List.not_mem_nil
    · obtain rfl := List.mem_singleton.mp hg
      exact hfits g rfl
    · exact absurd hone (by simp)
  · rintro ⟨hone, hfits⟩
    obtain ⟨line, k', hrun, hg', -, hif⟩ := (hends.mono (fun _ _ h => h)
      fun _ ⟨g, hmem, hlong⟩ => Nat.not_le.mpr (hfits g hmem) hlong).ends
    rw [if_pos hone, hg'.volume_eq] at hif
    obtain ⟨rfl, herased⟩ := hif
    exact ⟨k', hrun, herased⟩

end Command

-- "A" in the root directory, with "X" and then "Y" in it.
def oneFile : Fat32.World := (Fat32.fat32Create 100 3 [0x58] Fat32.firstDir).2

def twoFiles : Fat32.World := (Fat32.fat32Create 100 3 [0x59] oneFile).2

-- "A" is the current directory.
def rmKernel (w : Fat32.World) : Kernel where
  vfs := {
    nodes := fun p => if p = .heap 1 then
      diskNode [0x41] (Fat32.dirEntry [0x41] 3 0) (some .disk) else blankNode
    nodePoolUsed := 0
    rootNode := none
    cwdNode := some (.heap 1) }
  disk := w
  heap := fun _ => true
  heapCalls := 2

def dotPath : List UInt8 := [0x2E]

section Made

variable {w : Fat32.World} {k : Nat} {name : List UInt8} {D : Set Nat}

theorem create_next {r : Except Int Fat32Entry}
    (h : (Fat32.fat32Create 100 3 name w).1 = some r) (hname : Fat32.isCString name)
    (hcalm : Calm w) (hdir : IsDir w.mount 5 (volume 5 w) 3)
    (hend : (volume 5 w).fat 3 = Fat32.fat32Eof)
    (hidx : Fat32.freeIndex (volume 5 w) (entriesPerClust w.mount) [3] = some k) :
    (Fat32.orderly 5).step (w, D) (.create 3 name) ((Fat32.fat32Create 100 3 name w).2, D) := by
  refine ⟨hdir, hname, fun l hl => ?_, .create (Prod.ext h rfl)⟩
  have hone : Link 5 (volume 5 w) Fat32.fat32Eof (dirHead w.mount 3) [3] :=
    ⟨rfl, (by decide : Fat32.Valid 5 3), hend⟩
  obtain rfl := hl.unique (Fat32.eof_stops (show 5 ≤ 0x0FFFFFF8 by decide)) hone
  exact .inr (.inl ⟨fun hn => (by cases hidx.symm.trans hn), hcalm.no_fatFails⟩)

-- The slot of "A" in the root directory.
structure HasA (w : Fat32.World) : Prop where
  mount : w.mount = Fat32.freshMount
  root : (volume 5 w).fat 2 = Fat32.fat32Eof
  own : (volume 5 w).fat 3 = Fat32.fat32Eof
  names : Fat32.Names (Fat32.slotAt (volume 5 w) (2, 0))
  attr : Fat32.slotAttr (Fat32.slotAt (volume 5 w) (2, 0)) = attrDirectory
  cluster : Fat32.slotCluster (Fat32.slotAt (volume 5 w) (2, 0)) = 3
  size : Fat32.slotSize (Fat32.slotAt (volume 5 w) (2, 0)) = 0

theorem HasA.entryAt (h : HasA w) :
    EntryAt w.mount 5 (volume 5 w) (Fat32.dirEntry [0x41] 3 0) [2] 2 := by
  refine ⟨Fat32.root_link h.mount h.root, ?_, ?_, fun _ hne => absurd rfl hne, ?_, ?_, ?_⟩
  · rw [h.mount]
    rfl
  · rw [h.mount]
    exact h.names
  · rw [h.mount]
    exact h.attr
  · rw [h.mount]
    exact h.cluster
  · rw [h.mount]
    exact h.size

theorem HasA.isDir (h : HasA w) : IsDir w.mount 5 (volume 5 w) 3 := by
  have hdir := IsDir.sub (Fat32.root_dir w) (Fat32.root_link h.mount h.root)
    (List.mem_singleton_self 2) (i := 0) (by rw [h.mount]; decide) h.names
    (fun _ hne => absurd rfl hne) (by rw [h.attr]; decide)
  rwa [h.cluster] at hdir

instance (w : Fat32.World) : Decidable (HasA w) :=
  decidable_of_iff (w.mount = Fat32.freshMount ∧ (volume 5 w).fat 2 = Fat32.fat32Eof ∧
    (volume 5 w).fat 3 = Fat32.fat32Eof ∧ Fat32.Names (Fat32.slotAt (volume 5 w) (2, 0)) ∧
    Fat32.slotAttr (Fat32.slotAt (volume 5 w) (2, 0)) = attrDirectory ∧
    Fat32.slotCluster (Fat32.slotAt (volume 5 w) (2, 0)) = 3 ∧
    Fat32.slotSize (Fat32.slotAt (volume 5 w) (2, 0)) = 0)
    ⟨fun ⟨h1, h2, h3, h4, h5, h6, h7⟩ => ⟨h1, h2, h3, h4, h5, h6, h7⟩,
      fun ⟨h1, h2, h3, h4, h5, h6, h7⟩ => ⟨h1, h2, h3, h4, h5, h6, h7⟩⟩

theorem oneFile_made : (Fat32.orderly 5).Reach (oneFile, insert 3 {2}) ∧ HasA oneFile := by
  have hA : HasA Fat32.firstDir := by decide +kernel
  have hrun : (Fat32.fat32Create 100 3 [0x58] Fat32.firstDir).1 =
      some (.ok (Fat32.newEntry 3 [0x58] Fat32.attrArchive 0 2)) := by
    decide +kernel
  have hidx : Fat32.freeIndex (volume 5 Fat32.firstDir) (entriesPerClust Fat32.firstDir.mount)
      [3] = some 2 := by
    decide +kernel
  have hcalm := Fat32.orderly_calm Fat32.firstDir_reach
  refine ⟨.next Fat32.firstDir_reach (create_next (w := Fat32.firstDir) hrun
    (by simp [Fat32.isCString]) hcalm hA.isDir hA.own hidx), ?_⟩
  decide +kernel

theorem twoFiles_made : (Fat32.orderly 5).Reach (twoFiles, insert 3 {2}) ∧ HasA twoFiles := by
  obtain ⟨hreach, hA⟩ := oneFile_made
  have hrun : (Fat32.fat32Create 100 3 [0x59] oneFile).1 =
      some (.ok (Fat32.newEntry 3 [0x59] Fat32.attrArchive 0 3)) := by
    decide +kernel
  have hidx : Fat32.freeIndex (volume 5 oneFile) (entriesPerClust oneFile.mount) [3] = some 3 := by
    decide +kernel
  have hcalm := Fat32.orderly_calm hreach
  refine ⟨.next hreach (create_next (w := oneFile) hrun (by simp [Fat32.isCString]) hcalm
    hA.isDir hA.own hidx), ?_⟩
  decide +kernel

-- What the command is given: nothing fails, and "A" has files only.
structure Given (w : Fat32.World) : Prop where
  resolves : vfsResolvePath 100 dotPath (rmKernel w) = (some (some (.heap 1)), rmKernel w)
  mounted : MountedAt 5 (rmKernel w).disk
  calm : Calm (rmKernel w).disk
  fuel : 5 * entriesPerClust (rmKernel w).disk.mount < 100
  consistent : Consistent (rmKernel w).disk.mount 5 (volume 5 (rmKernel w).disk)
  dir : FilesOnly 5 (rmKernel w) (.heap 1) (Fat32.dirEntry [0x41] 3 0) [2] [3] 2

theorem given_of (hreach : (Fat32.orderly 5).Reach (w, D)) (hA : HasA w)
    (hlist : ∀ e ∈ listing (volume 5 w) 16 3 [3],
      (Fat32.isDots e.name = true ↔ e.dirIndex < 2) ∧ hasAttr e.attr attrDirectory =
        Fat32.isDots e.name) : Given w := by
  have hforest := (Fat32.forestedInvariant 5).reach hreach
  obtain ⟨-, H, hs⟩ := hforest.planted
  have hepc : entriesPerClust w.mount = 16 := by
    rw [hA.mount]
    rfl
  have hnode : DiskNodeAt (rmKernel w) (.heap 1) (Fat32.dirEntry [0x41] 3 0) := by
    refine ⟨rfl, rfl, fun j hj => ?_⟩
    obtain rfl := Ptr.heap.inj hj
    exact (by decide : 1 < 2)
  have hdots : ∀ e ∈ listing (volume 5 w) (entriesPerClust w.mount) 3 [3],
      Fat32.isDots e.name = true ↔ e.dirIndex < 2 := by
    rw [hepc]
    exact fun e he => (hlist e he).1
  have hplain : ∀ e ∈ files (volume 5 w) (entriesPerClust w.mount) 3 [3],
      hasAttr e.attr attrDirectory = false := by
    intro e he
    obtain ⟨he, hnd⟩ := Fat32.mem_files.mp he
    rw [hepc] at he
    exact (hlist e he).2.trans hnd
  have hfuel : 5 * entriesPerClust w.mount < 100 := by
    rw [hepc]
    decide
  exact ⟨rfl, hforest.mounted, hforest.calm, hfuel, ⟨D, H, hs⟩, hnode, rfl, by decide,
    Fat32.root_dir w, hA.entryAt, ⟨rfl, (by decide : Fat32.Valid 5 3), hA.own⟩, hdots, hplain⟩

theorem oneFile_given : Given oneFile := by
  refine given_of oneFile_made.1 oneFile_made.2 ?_
  decide +kernel

theorem twoFiles_given : Given twoFiles := by
  refine given_of twoFiles_made.1 twoFiles_made.2 ?_
  decide +kernel

theorem rm_removes_one : (∃ k', cmdRm 100 [[0x72, 0x6D], recursiveFlag, dotPath]
      (rmKernel oneFile) = (some "rm: removed directory", k') ∧
      Erased (rmKernel oneFile).disk.mount 5 (volume 5 (rmKernel oneFile).disk)
        (Fat32.dirEntry [0x41] 3 0) [3] 2 (volume 5 k'.disk)) ↔
    (files (volume 5 (rmKernel oneFile).disk) (entriesPerClust (rmKernel oneFile).disk.mount)
        (Fat32.dirEntry [0x41] 3 0).cluster [3]).length ≤ 1 ∧
      ∀ g ∈ files (volume 5 (rmKernel oneFile).disk)
        (entriesPerClust (rmKernel oneFile).disk.mount) (Fat32.dirEntry [0x41] 3 0).cluster [3],
        g.name.length < vfsMaxName :=
  rm_removes_iff oneFile_given.resolves oneFile_given.mounted oneFile_given.calm (fun _ => rfl)
    oneFile_given.fuel oneFile_given.consistent oneFile_given.dir

-- rm -r of a directory with two files leaves one of them, and the directory.
theorem rm_leaves_files : ¬∀ (fuel N y : Nat) (k₀ k : Kernel) (cmd path : List UInt8)
    (rest : List (List UInt8)) (p : Ptr) (d : Fat32Entry) (lp l : List Nat),
    vfsResolvePath fuel path k₀ = (some (some p), k) → MountedAt N k.disk → Calm k.disk →
    (∀ n, k.heap n = true) → N * entriesPerClust k.disk.mount < fuel →
    Consistent k.disk.mount N (volume N k.disk) → FilesOnly N k p d lp l y →
    ∃ k', cmdRm fuel (cmd :: recursiveFlag :: path :: rest) k₀ =
      (some "rm: removed directory", k') ∧
      Erased k.disk.mount N (volume N k.disk) d l y (volume N k'.disk) := by
  intro h
  obtain ⟨k', hrun, -⟩ := h 100 5 2 (rmKernel twoFiles) (rmKernel twoFiles) [] dotPath [] (.heap 1)
    _ _ _ twoFiles_given.resolves twoFiles_given.mounted twoFiles_given.calm (fun _ => rfl)
    twoFiles_given.fuel twoFiles_given.consistent twoFiles_given.dir
  have hline : (cmdRm 100 [[], recursiveFlag, dotPath] (rmKernel twoFiles)).1 =
      some "rm -r: directory not empty or error" := by
    decide +kernel
  rw [hrun] at hline
  exact absurd (Option.some.inj hline) (by decide)

end Made

end Shell
