import SabakaOS.Fat32.CreateFind
import SabakaOS.Vfs.Paths

namespace Vfs

open Prog NameTree
open Fat32 (Fat32Entry Env Good Vol Link Bounded Calm MountedAt Skipped volume worldEnv anyRule view
  listing dirHead entriesPerClust hasAttr attrDirectory isDots isCString isDots_iff kstricmp
  kstricmp_eq_zero upper)

-- vfs_init has set the root; where it has not, the null pointer is followed.
def vfsMountFat32 (mountPoint : List UInt8) : Prog Kernel Bool := do
  let k ← get
  if !k.disk.mount.mounted then pure false
  else do
    let name := if mountPoint.head? = some slash then mountPoint.drop 1 else mountPoint
    let ok ← kmalloc
    if !ok then pure false
    else do
      let diskRoot ← makeDiskNode name
        { name := name
          attr := attrDirectory
          cluster := k.disk.mount.rootCluster
          size := 0
          dirCluster := 0
          dirIndex := 0 } (some .disk)
      match diskRoot, k.vfs.rootNode with
      | none, _ => pure false
      | some _, none => stopped
      | some d, some root => do
        Prog.modify fun k => { k with
          vfs := setNode k.vfs d fun n => { n with parent := some root } }
        let k ← get
        if vfsMaxChildren ≤ (k.vfs.nodes root).children.length then pure false
        else do
          Prog.modify fun k => { k with
            vfs := setNode k.vfs root fun n => { n with children := n.children ++ [d] } }
          pure true

-- The tree stands in the directories of a volume; place gives the entry of each node, chain the
-- clusters of the entry and ends the value behind the last of them.
structure OnVolume (T : FileTree) (m : Fat32.Mount) (N : Nat) (V : Vol)
    (place : List (List UInt8) → Fat32Entry) (ends : List (List UInt8) → Nat)
    (chain : List (List UInt8) → List Nat) : Prop where
  root : (place []).cluster = m.rootCluster
  typed : ∀ s ty, T.kind s = some ty → (hasAttr (place s).attr attrDirectory = true ↔ ty = .dir)
  link : ∀ s, T.Has s → Link N V (ends s) (dirHead m (place s).cluster) (chain s)
  marker : ∀ s, T.Has s → 0x0FFFFFF8 ≤ ends s
  bounded : ∀ s, T.Has s → Bounded V (entriesPerClust m) (ends s) (chain s)
  entries : ∀ s, T.kind s = some .dir → ∀ e,
    e ∈ listing V (entriesPerClust m) (place s).cluster (chain s) ∧ isDots e.name = false ↔
      ∃ n, T.Has (s ++ [n]) ∧ e = place (s ++ [n])
  named : ∀ s n, T.Has (s ++ [n]) → (place (s ++ [n])).name = n
  distinct : ∀ s t, T.Has s → T.Has t → place s = place t → s = t

-- The node d stands for the node s of the tree.
structure NodeOf (T : FileTree) (place : List (List UInt8) → Fat32Entry) (v : NodeStore) (d : Ptr)
    (s : List (List UInt8)) : Prop where
  entry : getEntry (v.nodes d) = some (place s)
  type : T.kind s = some (v.nodes d).type
  ops : (v.nodes d).ops = some .disk
  parent : s ≠ [] → (v.nodes d).parent = none

structure Attached (T : FileTree) (name : List UInt8) (v : NodeStore)
    (place : List (List UInt8) → Fat32Entry) : Prop where
  root : ∃ root d, v.rootNode = some root ∧ (v.nodes root).ops = some .ramfs ∧
    ramfsFinddir v root name = some d ∧ NodeOf T place v d []

-- What makes a lookup of n in the node s on disk come to what the RAM file system finds: in a
-- directory, no entry differs from n in case only; in a file, the clusters of the file read as a
-- directory list no entry by that name.
def Looked (T : FileTree) (m : Fat32.Mount) (V : Vol) (place : List (List UInt8) → Fat32Entry)
    (chain : List (List UInt8) → List Nat) (s : List (List UInt8)) (n : List UInt8) : Prop :=
  if T.kind s = some .dir then T.Has (s ++ [n.map upper]) → n.map upper = n
  else ∀ e ∈ listing V (entriesPerClust m) (place s).cluster (chain s), Skipped n e

-- Nothing fails, and the volume is as it was.
structure DiskReady (E : Env) (V : Vol) (k : Kernel) : Prop where
  good : Good E k.disk
  vol : E.vol k.disk = V
  heap : ∀ n, k.heap n = true

section Disk

variable {T : FileTree} {E : Env} {V : Vol} {k : Kernel} {d : Ptr} {fuel : Nat}
  {place : List (List UInt8) → Fat32Entry} {ends : List (List UInt8) → Nat}
  {chain : List (List UInt8) → List Nat} {s t : List (List UInt8)} {c n : List UInt8}
  {cs : List (List UInt8)} {e : Fat32Entry}

theorem storedNode_makes (h1 : k.heap k.heapCalls = true)
    (h2 : k.heap (k.heapCalls + 1) = true) (node : Ptr) (e : Fat32Entry) :
    ∃ k', storedNode node (.ok e) k = (some (some (.heap (k.heapCalls + 1))), k') ∧
      k'.disk = k.disk ∧ k'.heap = k.heap ∧ k'.heapCalls = k.heapCalls + 2 ∧
      k'.vfs = setNode k.vfs (.heap (k.heapCalls + 1)) fun _ =>
        diskNode e.name e (k.vfs.nodes node).ops := by
  have hm : kmalloc k = (some true, { k with heapCalls := k.heapCalls + 1 }) := by
    rw [kmalloc, h1]
  rw [storedNode, bind_ended hm]
  simp only [Bool.not_true, Bool.false_eq_true, if_false]
  rw [get_bind, makeDiskNode, get_bind]
  have hm' : kmalloc { k with heapCalls := k.heapCalls + 1 } =
      (some true, { k with heapCalls := k.heapCalls + 1 + 1 }) := by
    rw [kmalloc, h2]
  rw [bind_ended hm']
  simp only [Bool.not_true, Bool.false_eq_true, if_false]
  exact ⟨_, rfl, rfl, rfl, rfl, rfl⟩

theorem storedNode_found (hheap : ∀ n, k.heap n = true) (node : Ptr) (e : Fat32Entry) :
    ∃ k', storedNode node (.ok e) k = (some (some (.heap (k.heapCalls + 1))), k') ∧
      k'.disk = k.disk ∧ k'.heap = k.heap ∧ k'.heapCalls = k.heapCalls + 2 ∧
      k'.vfs = setNode k.vfs (.heap (k.heapCalls + 1)) fun _ =>
        diskNode e.name e (k.vfs.nodes node).ops :=
  storedNode_makes (hheap _) (hheap _) node e

theorem chain_turns (hE : E.Lawful) (hv : OnVolume T E.mount E.clusters V place ends chain)
    (hs : T.Has s) : (chain s).length * entriesPerClust E.mount ≤ E.turns := by
  have hstop : ∀ c, c = ends s → ¬Fat32.Valid E.clusters c := by
    rintro c rfl hc
    have hm := hv.marker s hs
    have hsmall := hE.fits.small
    unfold Fat32.Valid at hc
    omega
  have hsub : chain s ⊆ List.range E.clusters := fun x hx =>
    List.mem_range.mpr ((hv.link s hs).ok_of_mem x hx).2
  have hlen := (((hv.link s hs).nodup hstop).subperm hsub).length_le
  rw [List.length_range] at hlen
  exact Nat.mul_le_mul_right _ hlen

-- What disk_finddir makes of the entry fat32_find comes back with.
def Answer (k' : Kernel) (es : List Fat32Entry) (c : List UInt8) : Option Ptr → Prop
  | none => ∀ e ∈ es, Skipped c e
  | some d' => ∃ e ∈ es, ¬Skipped c e ∧ k'.vfs.nodes d' = diskNode e.name e (some .disk)

theorem vfsFinddir_disk (hE : E.Lawful) (hloose : E.Loose) (hq : E.Quiet) (hfuel : E.turns < fuel)
    (hv : OnVolume T E.mount E.clusters V place ends chain) (hk : DiskReady E V k)
    (hd : NodeOf T place k.vfs d s) (c : List UInt8) :
    ∃ r k', vfsFinddir fuel (some d) c k = (some r, k') ∧ DiskReady E V k' ∧
      Answer k' (listing V (entriesPerClust E.mount) (place s).cluster (chain s)) c r := by
  have hs : T.Has s := by
    rw [Has, hd.type]
    rfl
  have hops : opsOf k (some d) = some (d, .disk) := by simp [opsOf, hd.ops]
  have hcluster : dirCluster k d = (place s).cluster := by rw [dirCluster, hd.entry]
  have hlist := hq.list
  obtain ⟨r, w', hfind, hstep, hview, hr⟩ := ((@Fat32.fat32Find_ended E k.disk (place s).cluster
    (ends s) fuel (chain s) c hE hk.good hloose.opens (hk.vol ▸ hv.link s hs)
    (hk.vol ▸ hv.bounded s hs)).mono (fun _ _ h => h)
      (fun _ h => absurd (h.2.trans (chain_turns hE hv hs)) (Nat.not_le.mpr hfuel))).ends
  have hvol : E.vol w' = V := by rw [← hk.vol, Env.vol, Env.vol, hview]
  have hdisk : onDisk (Fat32.fat32Find fuel (place s).cluster c) k =
      (some r, { k with disk := w' }) := by rw [onDisk, hfind]
  rw [hk.vol] at hr
  rw [vfsFinddir, get_bind, hops]
  dsimp only
  rw [diskFinddir, get_bind, hcluster, bind_ended hdisk]
  cases r with
  | error x => exact ⟨none, _, rfl, ⟨hstep.good, hvol, hk.heap⟩, hr.resolve_right hlist⟩
  | ok e =>
    obtain ⟨i, hi, -, hskip⟩ := hr
    obtain ⟨k', he, hdisk', hheap, -, hvfs⟩ := @storedNode_found { k with disk := w' } hk.heap d e
    refine ⟨_, k', he, ⟨hdisk' ▸ hstep.good, hdisk' ▸ hvol, fun n => ?_⟩, e,
      List.mem_of_getElem? hi, hskip, ?_⟩
    · rw [hheap]
      exact hk.heap n
    · rw [hvfs]
      exact (Function.update_self ..).trans (congrArg _ hd.ops)

variable {m : Fat32.Mount} {N : Nat} {k' : Kernel} {r : Option Ptr}

-- In a directory, the entry that matches a name is the one with the name in upper case.
theorem not_skipped_iff (hT : ShortNamed T) (hv : OnVolume T m N V place ends chain)
    (hc : isCString c) (hn : T.Has (s ++ [n])) :
    ¬Skipped c (place (s ++ [n])) ↔ n = c.map upper := by
  obtain ⟨hcs, hfit, hup⟩ := hT s n hn
  have hdots : ¬isDots n = true := fun hd => Fat32.not_fits_dots ((isDots_iff hcs).mp hd) hfit
  rw [Skipped, hv.named s n hn, not_or, not_not, kstricmp_eq_zero hcs hc, hup]
  exact and_iff_right hdots

theorem Answer.in_dir (hT : ShortNamed T) (hv : OnVolume T m N V place ends chain)
    (hc : isCString c) (hs : T.kind s = some .dir)
    (hr : Answer k' (listing V (entriesPerClust m) (place s).cluster (chain s)) c r) :
    (r = none ∧ ¬T.Has (s ++ [c.map upper])) ∨
      ∃ d', r = some d' ∧ T.Has (s ++ [c.map upper]) ∧ k'.vfs.nodes d' =
        diskNode (c.map upper) (place (s ++ [c.map upper])) (some .disk) := by
  cases r with
  | none =>
    refine .inl ⟨rfl, fun hh => ?_⟩
    exact (not_skipped_iff hT hv hc hh).mpr rfl (hr _ ((hv.entries s hs _).mpr ⟨_, hh, rfl⟩).1)
  | some d' =>
    obtain ⟨e, he, hskip, hnode⟩ := hr
    obtain ⟨n, hn, rfl⟩ := (hv.entries s hs e).mp ⟨he, by simpa using fun h => hskip (.inl h)⟩
    obtain rfl := (not_skipped_iff hT hv hc hn).mp hskip
    exact .inr ⟨d', rfl, hn, by rw [hnode, hv.named s _ hn]⟩

theorem nodeOf_diskNode (hv : OnVolume T m N V place ends chain) (hn : T.Has s) {v : NodeStore}
    (h : v.nodes d = diskNode n (place s) (some .disk)) : NodeOf T place v d s := by
  obtain ⟨ty, hty⟩ := Option.isSome_iff_exists.mp hn
  have htype := hv.typed s ty hty
  refine ⟨by rw [h]; rfl, ?_, by rw [h]; rfl, fun _ => by rw [h]; rfl⟩
  rw [h, hty, diskNode]
  dsimp only
  cases ty with
  | dir => rw [if_pos (htype.mpr rfl)]
  | file => rw [if_neg fun ha => by cases htype.mp ha]

theorem has_kind (h : T.Has s) : T.kind s = some .dir ∨ T.kind s = some .file := by
  obtain ⟨ty, hty⟩ := Option.isSome_iff_exists.mp h
  rw [hty]
  cases ty with
  | dir => exact .inl rfl
  | file => exact .inr rfl

theorem Answer.follows (hT : ShortNamed T) (hv : OnVolume T m N V place ends chain)
    (hc : isCString c) (hs : T.Has s) (hl : Looked T m V place chain s c)
    (hr : Answer k' (listing V (entriesPerClust m) (place s).cluster (chain s)) c r) :
    (r = none ∧ T.step s (.down c) = none) ∨
      ∃ d', r = some d' ∧ T.step s (.down c) = some (s ++ [c]) ∧
        NodeOf T place k'.vfs d' (s ++ [c]) := by
  rcases has_kind hs with hdir | hfile
  · rw [Looked, if_pos hdir] at hl
    rcases hr.in_dir hT hv hc hdir with ⟨rfl, hno⟩ | ⟨d', rfl, hn, hnode⟩
    · refine .inl ⟨rfl, if_neg fun hh => hno ?_⟩
      rwa [(hT s c hh).2.2]
    · have hup := hl hn
      rw [hup] at hn hnode
      exact .inr ⟨d', rfl, if_pos hn, nodeOf_diskNode hv hn hnode⟩
  · have hno : ¬T.Has (s ++ [c]) := fun hh => by cases hfile.symm.trans (T.parent s c hh)
    rw [Looked, if_neg (by rw [hfile]; decide)] at hl
    cases r with
    | none => exact .inl ⟨rfl, if_neg hno⟩
    | some d' =>
      obtain ⟨e, he, hskip, -⟩ := hr
      exact absurd (hl e he) hskip

theorem Answer.strays (hT : ShortNamed T) (hv : OnVolume T m N V place ends chain)
    (hc : isCString c) (hs : T.Has s) (hl : ¬Looked T m V place chain s c)
    (hr : Answer k' (listing V (entriesPerClust m) (place s).cluster (chain s)) c r) :
    (∃ d', r = some d') ∧ T.step s (.down c) = none := by
  rcases has_kind hs with hdir | hfile
  · rw [Looked, if_pos hdir, Classical.not_imp] at hl
    refine ⟨?_, if_neg fun hh => hl.2 (hT s c hh).2.2⟩
    rcases hr.in_dir hT hv hc hdir with ⟨-, hno⟩ | ⟨d', rfl, -⟩
    · exact absurd hl.1 hno
    · exact ⟨d', rfl⟩
  · rw [Looked, if_neg (by rw [hfile]; decide)] at hl
    refine ⟨?_, if_neg fun hh => by cases hfile.symm.trans (T.parent s c hh)⟩
    cases r with
    | none => exact absurd hr hl
    | some d' => exact ⟨d', rfl⟩

end Disk

end Vfs
