import SabakaOS.Fat32.UniqueNames
import SabakaOS.Vfs.Mount

namespace Vfs

open Prog NameTree
open Fat32 (Fat32Entry Env Good Vol Calm MountedAt volume worldEnv anyRule isCString kstrcmp dotName
  dotdotName entriesPerClust)

-- One tree, as a RAM subtree under one name of the root directory and as the volume mounted under
-- another.
structure Twins (T : FileTree) (N : Nat) (k : Kernel) (ram disk : List UInt8)
    (pos : List (List UInt8) → Nat) (place : List (List UInt8) → Fat32Entry)
    (ends : List (List UInt8) → Nat) (chain : List (List UInt8) → List Nat) : Prop where
  names : ShortNamed T
  inRam : InRam T ram k.vfs pos
  attached : Attached T disk k.vfs place
  onVolume : OnVolume T k.disk.mount N (volume N k.disk) place ends chain
  mounted : MountedAt N k.disk
  calm : Calm k.disk
  heap : ∀ n, k.heap n = true
  ramName : Component ram ∧ moveOf ram = .down ram
  diskName : Component disk ∧ moveOf disk = .down disk

-- The results of two walks are both null, or one node of the tree with the type it has there.
def SameNode (T : FileTree) (pos : List (List UInt8) → Nat) (place : List (List UInt8) → Fat32Entry)
    (k₁ k₂ : Kernel) : Option Ptr → Option Ptr → Prop
  | none, none => True
  | some a, some b => ∃ s, a = .pool (pos s) ∧ T.kind s = some (k₁.vfs.nodes a).type ∧
      getEntry (k₂.vfs.nodes b) = some (place s) ∧ T.kind s = some (k₂.vfs.nodes b).type
  | _, _ => False

def Agree (fuel : Nat) (T : FileTree) (k : Kernel) (ram disk : List UInt8)
    (pos : List (List UInt8) → Nat) (place : List (List UInt8) → Fat32Entry) (p : List UInt8) :
    Prop :=
  ∃ r₁ k₁ r₂ k₂, vfsResolvePath fuel (under ram p) k = (some r₁, k₁) ∧
    vfsResolvePath fuel (under disk p) k = (some r₂, k₂) ∧ SameNode T pos place k₁ k₂ r₁ r₂

section Walk

variable {T : FileTree} {E : Env} {V : Vol} {k : Kernel} {d : Ptr} {fuel N : Nat}
  {place : List (List UInt8) → Fat32Entry} {ends : List (List UInt8) → Nat}
  {chain : List (List UInt8) → List Nat} {s t : List (List UInt8)} {c p : List UInt8}
  {cs : List (List UInt8)} {ram disk : List UInt8} {pos : List (List UInt8) → Nat}

theorem NodeOf.has {v : NodeStore} (h : NodeOf T place v d s) : T.Has s := by
  rw [Has, h.type]
  rfl

theorem moveOf_cases (c : List UInt8) :
    (kstrcmp c dotName = 0 ∧ moveOf c = .here) ∨
      (kstrcmp c dotName ≠ 0 ∧ kstrcmp c dotdotName = 0 ∧ moveOf c = .up) ∨
      (kstrcmp c dotName ≠ 0 ∧ kstrcmp c dotdotName ≠ 0 ∧ moveOf c = .down c) := by
  unfold moveOf
  split
  · rename_i h
    exact .inl ⟨h, rfl⟩
  · rename_i h
    split
    · rename_i h'
      exact .inr (.inl ⟨h, h', rfl⟩)
    · rename_i h'
      exact .inr (.inr ⟨h, h', rfl⟩)

theorem resolveOne_down (h : moveOf c = .down c) : resolveOne fuel d c = vfsFinddir fuel d c := by
  rcases moveOf_cases c with ⟨-, hm⟩ | ⟨-, -, hm⟩ | ⟨h1, h2, -⟩
  · cases hm.symm.trans h
  · cases hm.symm.trans h
  · rw [resolveOne, if_neg h1, if_neg h2]

-- The walk on disk ends at the node the tree has at the end of the path.
def Reached (T : FileTree) (place : List (List UInt8) → Fat32Entry) (k' : Kernel)
    (r : Option Ptr) : Option (List (List UInt8)) → Prop
  | none => r = none
  | some t => ∃ d', r = some d' ∧ NodeOf T place k'.vfs d' t

theorem resolveAll_disk (hE : E.Lawful) (hloose : E.Loose) (hq : E.Quiet) (hfuel : E.turns < fuel)
    (hT : ShortNamed T) (hv : OnVolume T E.mount E.clusters V place ends chain) (hk : DiskReady E V k)
    (hd : NodeOf T place k.vfs d s) (hcs : ∀ c ∈ cs, isCString c)
    (hl : T.Descends (Looked T E.mount V place chain) s (cs.map moveOf)) :
    ∃ r k', resolveAll fuel cs d k = (some r, k') ∧ DiskReady E V k' ∧
      Reached T place k' r (T.follow s (cs.map moveOf)) := by
  induction cs generalizing s d k with
  | nil => exact ⟨some d, k, rfl, hk, d, rfl, hd⟩
  | cons c cs ih =>
    have hc := hcs c List.mem_cons_self
    have hcs' : ∀ c ∈ cs, isCString c := fun x hx => hcs x (List.mem_cons_of_mem c hx)
    rw [List.map_cons] at hl ⊢
    rw [resolveAll, follow_cons]
    rcases moveOf_cases c with ⟨h1, hm⟩ | ⟨-, -, hm⟩ | ⟨-, -, hm⟩
    · rw [hm] at hl ⊢
      obtain ⟨r, k', he, hr⟩ := ih hk hd hcs' hl
      refine ⟨r, k', ?_, hr⟩
      rw [← he, resolveOne, if_pos h1]
      rfl
    · rw [hm] at hl
      exact hl.elim
    · rw [hm] at hl ⊢
      obtain ⟨r, k₁, he, hk₁, hr⟩ := vfsFinddir_disk hE hloose hq hfuel hv hk hd c
      rw [resolveOne_down hm, bind_ended he]
      rcases hr.follows hT hv hc hd.has hl.1 with ⟨rfl, hstep⟩ | ⟨d', rfl, hstep, hd'⟩
      · rw [hstep]
        exact ⟨none, k₁, rfl, hk₁, rfl⟩
      · have hn : T.Has (s ++ [c]) := hd'.has
        rw [hstep]
        exact ih hk₁ hd' hcs' (hl.2 hn)

theorem Twins.ready (h : Twins T N k ram disk pos place ends chain) :
    DiskReady (worldEnv N k.disk anyRule) (volume N k.disk) k :=
  ⟨h.mounted.good (Fat32.legal_any _), rfl, h.heap⟩

theorem Twins.ram_walk (h : Twins T N k ram disk pos place ends chain)
    (hp : ∀ c ∈ componentsOf p, isCString c) (hin : T.Inside [] (movesOf p)) :
    vfsResolvePath fuel (under ram p) k =
      (some ((T.follow [] (movesOf p)).map fun t => Ptr.pool (pos t)), k) := by
  obtain ⟨root, hroot, hops, hfind⟩ := h.inRam.root
  have hone : resolveOne fuel root ram k = (some (some (.pool (pos []))), k) := by
    rw [resolveOne_down h.ramName.2, vfsFinddir, get_bind,
      show opsOf k (some root) = some (root, .ramfs) by simp [opsOf, hops], ← hfind]
    rfl
  rw [vfsResolvePath_under h.ramName.1 hroot, resolveAll, bind_ended hone]
  exact h.inRam.resolveAll h.names has_root hp hin

theorem Twins.disk_start (h : Twins T N k ram disk pos place ends chain) (fuel : Nat)
    (p : List UInt8) : ∃ d, NodeOf T place k.vfs d [] ∧
      vfsResolvePath fuel (under disk p) k = resolveAll fuel (componentsOf p) d k := by
  obtain ⟨root, d, hroot, hops, hfind, hd⟩ := h.attached.root
  have hone : resolveOne fuel root disk k = (some (some d), k) := by
    rw [resolveOne_down h.diskName.2, vfsFinddir, get_bind,
      show opsOf k (some root) = some (root, .ramfs) by simp [opsOf, hops], ← hfind]
    rfl
  refine ⟨d, hd, ?_⟩
  rw [vfsResolvePath_under h.diskName.1 hroot, resolveAll, bind_ended hone]

theorem Twins.agree (h : Twins T N k ram disk pos place ends chain)
    (hfuel : N * entriesPerClust k.disk.mount < fuel) (hp : ∀ c ∈ componentsOf p, isCString c)
    (hin : T.Inside [] (movesOf p))
    (hl : T.Descends (Looked T k.disk.mount (volume N k.disk) place chain) [] (movesOf p)) :
    Agree fuel T k ram disk pos place p := by
  obtain ⟨d, hd, hdisk⟩ := h.disk_start fuel p
  obtain ⟨r, k', he, -, hr⟩ := resolveAll_disk h.mounted.lawful Fat32.loose_any h.calm.quiet hfuel
    h.names h.onVolume h.ready hd hp hl
  refine ⟨_, k, r, k', h.ram_walk hp hin, hdisk.trans he, ?_⟩
  change Reached T place k' r (T.follow [] (movesOf p)) at hr
  cases hf : T.follow [] (movesOf p) with
  | none =>
    rw [hf] at hr
    obtain rfl : r = none := hr
    trivial
  | some t =>
    rw [hf] at hr
    obtain ⟨d', rfl, hd'⟩ := hr
    obtain ⟨ty, hty⟩ := Option.isSome_iff_exists.mp (follow_has has_root hf)
    refine ⟨t, rfl, ?_, hd'.entry, hd'.type⟩
    rw [hty, (h.inRam.typed t ty hty).1]

-- The first move that goes up, or looks up what it should not, leads the two walks apart.
theorem Twins.disagree (h : Twins T N k ram disk pos place ends chain)
    (hfuel : N * entriesPerClust k.disk.mount < fuel) (hp : ∀ c ∈ componentsOf p, isCString c)
    (hin : T.Inside [] (movesOf p)) (hcs : componentsOf p = cs ++ [c])
    (hl : T.Descends (Looked T k.disk.mount (volume N k.disk) place chain) [] (cs.map moveOf))
    (ht : T.follow [] (cs.map moveOf) = some t)
    (hbad : moveOf c = .up ∨
      ∃ n, moveOf c = .down n ∧ ¬Looked T k.disk.mount (volume N k.disk) place chain t n) :
    ¬Agree fuel T k ram disk pos place p := by
  have hmoves : movesOf p = cs.map moveOf ++ [moveOf c] := by
    rw [movesOf, hcs, List.map_append, List.map_singleton]
  have hfollow : T.follow [] (movesOf p) = T.step t (moveOf c) := by
    rw [hmoves, follow_append, ht, Option.bind_some, follow_cons]
    cases T.step t (moveOf c) with
    | none => rfl
    | some u => rfl
  obtain ⟨d, hd, hdisk⟩ := h.disk_start fuel p
  obtain ⟨r, k₁, he, hk₁, hr⟩ := resolveAll_disk h.mounted.lawful Fat32.loose_any h.calm.quiet hfuel
    h.names h.onVolume h.ready hd (fun c hc => hp c (hcs ▸ List.mem_append_left _ hc)) hl
  rw [ht] at hr
  obtain ⟨d₁, rfl, hd₁⟩ := hr
  rw [hcs, resolveAll_append he] at hdisk
  rintro ⟨r₁, k₁', r₂, k₂, hram, hvol, hsame⟩
  rw [h.ram_walk hp hin, hfollow] at hram
  obtain ⟨hr₁, rfl⟩ := Prod.mk.inj hram
  obtain rfl := Option.some.inj hr₁
  rw [hdisk, resolveAll] at hvol
  rcases hbad with hup | ⟨n, hdown, hlook⟩
  · -- the disk node has no parent, so the walk stays where it is
    rw [hup] at hsame
    rw [hmoves, hup] at hin
    have hne : t ≠ [] := (inside_right hin ht).1
    have hone : resolveOne fuel d₁ c k₁ = (some (some d₁), k₁) := by
      rcases moveOf_cases c with ⟨-, hm⟩ | ⟨h1, h2, -⟩ | ⟨-, -, hm⟩
      · cases hm.symm.trans hup
      · rw [resolveOne, if_neg h1, if_pos h2, get_bind, up, hd₁.parent hne]
        rfl
      · cases hm.symm.trans hup
    rw [bind_ended hone] at hvol
    obtain ⟨hr₂, rfl⟩ := Prod.mk.inj hvol
    obtain rfl := Option.some.inj hr₂
    obtain ⟨s, hs, hkind, hentry, -⟩ := hsame
    have hts : T.Has s := by
      rw [Has, hkind]
      rfl
    have hdrop : t.dropLast = s :=
      h.inRam.distinct _ _ (has_dropLast hd₁.has) hts (Ptr.pool.inj hs)
    have hst : t = s := by
      refine h.onVolume.distinct _ _ hd₁.has hts (Option.some.inj ?_)
      rw [← hd₁.entry, hentry]
    have hlen := congrArg List.length (hdrop.trans hst.symm)
    rw [List.length_dropLast] at hlen
    have := List.length_pos_iff.mpr hne
    omega
  · have hc : moveOf c = .down c := by
      rcases moveOf_cases c with ⟨-, hm⟩ | ⟨-, -, hm⟩ | ⟨-, -, hm⟩
      · cases hm.symm.trans hdown
      · cases hm.symm.trans hdown
      · exact hm
    obtain rfl := Move.down.inj (hc.symm.trans hdown)
    obtain ⟨r, k₂', he₂, -, hr⟩ := vfsFinddir_disk h.mounted.lawful Fat32.loose_any h.calm.quiet
      hfuel h.onVolume hk₁ hd₁ c
    obtain ⟨⟨d₂, rfl⟩, hnone⟩ := hr.strays h.names h.onVolume
      (hp c (hcs ▸ List.mem_append_right _ (List.mem_singleton.mpr rfl))) hd₁.has hlook
    rw [hc, hnone] at hsame
    rw [resolveOne_down hc, bind_ended he₂] at hvol
    obtain ⟨hr₂, rfl⟩ := Prod.mk.inj hvol
    obtain rfl := Option.some.inj hr₂
    exact hsame

end Walk

section Agreement

variable {T : FileTree} {k : Kernel} {fuel N : Nat} {place : List (List UInt8) → Fat32Entry}
  {ends : List (List UInt8) → Nat} {chain : List (List UInt8) → List Nat} {p : List UInt8}
  {ram disk : List UInt8} {pos : List (List UInt8) → Nat}

-- Along a path and every path that leads up to it.
theorem back_ends_agree (h : Twins T N k ram disk pos place ends chain)
    (hfuel : N * entriesPerClust k.disk.mount < fuel) (hp : isCString p)
    (hin : T.Inside [] (movesOf p)) :
    (∀ q, componentsOf q <+: componentsOf p → Agree fuel T k ram disk pos place q) ↔
      T.Descends (Looked T k.disk.mount (volume N k.disk) place chain) [] (movesOf p) := by
  have hcs : ∀ c ∈ componentsOf p, isCString c := fun c hc b hb => hp b ((components_sub hc).2 hb)
  constructor
  · intro hagree
    by_contra hno
    obtain ⟨ms₁, m, ms₂, t, hms, hl, ht, hbad⟩ := exists_first hno
    obtain ⟨cs₁, rest, hsplit, rfl, hrest⟩ := List.map_eq_append_iff.mp hms
    obtain ⟨c, cs₂, rfl, rfl, rfl⟩ := List.map_eq_cons_iff.mp hrest
    have hmem : ∀ x ∈ cs₁ ++ [c], x ∈ componentsOf p := fun x hx => by
      rw [hsplit]
      rcases List.mem_append.mp hx with hx | hx
      · exact List.mem_append_left _ hx
      · exact List.mem_append_right _ (List.mem_singleton.mp hx ▸ List.mem_cons_self)
    have hq : componentsOf (joined (cs₁ ++ [c])) = cs₁ ++ [c] :=
      componentsOf_joined fun x hx => (components_sub (hmem x hx)).1
    have hprefix : cs₁ ++ [c] <+: componentsOf p := by
      rw [hsplit]
      exact ⟨cs₂, by simp⟩
    refine h.disagree hfuel (fun x hx => hcs x (hmem x (hq ▸ hx))) ?_ hq hl ht hbad
      (hagree _ (hq.symm ▸ hprefix))
    rw [movesOf, hsplit, List.map_append, List.map_cons] at hin
    rw [movesOf, hq, List.map_append, List.map_singleton]
    exact inside_left (cs₂.map moveOf) (by simpa using hin)
  · rintro hl q ⟨rest, hq⟩
    have hmoves : movesOf p = movesOf q ++ rest.map moveOf := by
      rw [movesOf, ← hq, List.map_append]
      rfl
    rw [hmoves] at hl hin
    exact h.agree hfuel (fun c hc => hcs c (hq ▸ List.mem_append_left _ hc)) (inside_left _ hin)
      (descends_left hl)

-- "A", the only directory below the root of the tree.
def nameA : List UInt8 := [0x41]

def twinTree : FileTree where
  kind s := if s = [] ∨ s = [nameA] then some .dir else none
  root := if_pos (.inl rfl)
  parent s n hn := by
    by_cases h : s = []
    · exact if_pos (.inl h)
    · have hne : ¬(s ++ [n] = [] ∨ s ++ [n] = [nameA]) := by
        cases s with
        | nil => exact absurd rfl h
        | cons x s => simp
      rw [if_neg hne] at hn
      cases hn

-- The disk after mkdir "A" on a fresh volume.
def twinDisk : Fat32.World :=
  Fat32.diskWorld (Fat32.view (Fat32.fat32Mkdir 100 0 nameA Fat32.freshWorld).2) fun _ _ _ => true

def ramName : List UInt8 := [0x72]

def diskName : List UInt8 := [0x64, 0x69, 0x73, 0x6B]

-- mkdir /r, mkdir /r/A, mount the disk on /disk.
def twinRun : Prog Kernel Unit := do
  let r ← vfsMkdir 100 (some (.pool 0)) ramName
  let _ ← vfsMkdir 100 r nameA
  let _ ← vfsMountFat32 (slash :: diskName)
  pure ()

def twinStart (w : Fat32.World) : Kernel where
  vfs := vfsInit ⟨fun _ => blankNode, 0, none, none⟩
  disk := w
  heap := fun _ => true
  heapCalls := 0

def twinKernel : Kernel := (twinRun (twinStart twinDisk)).2

def twinPos (s : List (List UInt8)) : Nat := if s = [] then 1 else 2

def twinPlace (s : List (List UInt8)) : Fat32Entry :=
  if s = [] then ⟨diskName, Fat32.attrDirectory, 2, 0, 0, 0⟩
  else ⟨nameA, Fat32.attrDirectory, 3, 0, 2, 0⟩

def twinChain (s : List (List UInt8)) : List Nat := if s = [] then [2] else [3]

section Twin

variable {s : List (List UInt8)} {n : List UInt8}

theorem twin_has : twinTree.Has s ↔ s = [] ∨ s = [nameA] := by
  unfold Has twinTree
  dsimp only
  split
  · rename_i h
    exact iff_of_true rfl h
  · rename_i h
    exact iff_of_false (fun hh => by cases hh) h

theorem twin_has_below : twinTree.Has (s ++ [n]) ↔ s = [] ∧ n = nameA := by
  rw [twin_has]
  cases s with
  | nil => simp
  | cons x s => simp

theorem twinRun_disk (disk : Nat → UInt8) (ata : Fat32.Site → Fat32.Xfer → Nat → Bool) :
    (twinRun (twinStart (Fat32.diskWorld disk ata))).2.disk = Fat32.diskWorld disk ata := rfl

theorem twinKernel_disk : twinKernel.disk = twinDisk := twinRun_disk _ _

theorem twin_inRam : InRam twinTree ramName twinKernel.vfs twinPos where
  root := ⟨.pool 0, by decide +kernel, by decide +kernel, by decide +kernel⟩
  typed s ty h := by
    have hs : twinTree.Has s := by
      rw [Has, h]
      rfl
    rcases twin_has.mp hs with rfl | rfl
    · obtain rfl := Option.some.inj h
      decide +kernel
    · obtain rfl := Option.some.inj h
      decide +kernel
  named s n h := by
    obtain ⟨rfl, rfl⟩ := twin_has_below.mp h
    decide +kernel
  children s h c := by
    have hs : twinTree.Has s := by
      rw [Has, h]
      rfl
    rcases twin_has.mp hs with rfl | rfl
    · have hkids : (twinKernel.vfs.nodes (.pool (twinPos []))).children = [.pool 2] := by
        decide +kernel
      simp only [hkids, List.mem_singleton, twin_has_below, true_and, exists_eq_left]
      rfl
    · have hkids : (twinKernel.vfs.nodes (.pool (twinPos [nameA]))).children = [] := by
        decide +kernel
      rw [hkids]
      refine iff_of_false (List.not_mem_nil) ?_
      rintro ⟨n, hn, -⟩
      cases (twin_has_below.mp hn).1
  distinct s t hs ht h := by
    rcases twin_has.mp hs with rfl | rfl
    · rcases twin_has.mp ht with rfl | rfl
      · rfl
      · cases h
    · rcases twin_has.mp ht with rfl | rfl
      · cases h
      · rfl

theorem twin_link (s : List (List UInt8)) (h : twinTree.Has s) :
    Fat32.Link 5 (volume 5 twinDisk) Fat32.fat32Eof
      (Fat32.dirHead Fat32.freshMount (twinPlace s).cluster) (twinChain s) := by
  have h2 : (volume 5 twinDisk).fat 2 = Fat32.fat32Eof := by decide +kernel
  have h3 : (volume 5 twinDisk).fat 3 = Fat32.fat32Eof := by decide +kernel
  generalize volume 5 twinDisk = V at h2 h3
  rcases twin_has.mp h with rfl | rfl
  · exact ⟨rfl, by decide, h2⟩
  · exact ⟨rfl, by decide, h3⟩

theorem twin_onVolume : OnVolume twinTree Fat32.freshMount 5 (volume 5 twinDisk) twinPlace
    (fun _ => Fat32.fat32Eof) twinChain where
  root := rfl
  typed s ty h := by
    have hs : twinTree.Has s := by
      rw [Has, h]
      rfl
    rcases twin_has.mp hs with rfl | rfl
    · obtain rfl := Option.some.inj h
      decide
    · obtain rfl := Option.some.inj h
      decide
  link := twin_link
  marker _ _ := by decide
  bounded _ _ := .inl rfl
  entries s h e := by
    have hs : twinTree.Has s := by
      rw [Has, h]
      rfl
    rcases twin_has.mp hs with rfl | rfl
    · have hlist : Fat32.listing (volume 5 twinDisk) (entriesPerClust Fat32.freshMount)
          (twinPlace []).cluster (twinChain []) = [twinPlace [nameA]] := by decide +kernel
      simp only [hlist, List.mem_singleton, twin_has_below, true_and, exists_eq_left]
      constructor
      · exact fun h => h.1
      · rintro rfl
        exact ⟨rfl, by decide⟩
    · have hlist : (Fat32.listing (volume 5 twinDisk) (entriesPerClust Fat32.freshMount)
          (twinPlace [nameA]).cluster (twinChain [nameA])).all
            (fun e => Fat32.isDots e.name) = true := by decide +kernel
      constructor
      · rintro ⟨he, hd⟩
        cases hd.symm.trans (List.all_eq_true.mp hlist e he)
      · rintro ⟨n, hn, -⟩
        cases (twin_has_below.mp hn).1
  named s n h := by
    obtain ⟨rfl, rfl⟩ := twin_has_below.mp h
    rfl
  distinct s t hs ht h := by
    rcases twin_has.mp hs with rfl | rfl
    · rcases twin_has.mp ht with rfl | rfl
      · rfl
      · exact absurd h (by decide)
    · rcases twin_has.mp ht with rfl | rfl
      · exact absurd h (by decide)
      · rfl

theorem twins : Twins twinTree 5 twinKernel ramName diskName twinPos twinPlace
    (fun _ => Fat32.fat32Eof) twinChain where
  names s n h := by
    obtain ⟨rfl, rfl⟩ := twin_has_below.mp h
    exact ⟨by simp [isCString, nameA], ⟨by decide, by decide, fun _ h => by cases h⟩, by decide⟩
  inRam := twin_inRam
  attached := ⟨.pool 0, .heap 1, by decide +kernel, by decide +kernel, by decide +kernel,
    by decide +kernel, by decide +kernel, by decide +kernel, fun h => absurd rfl h⟩
  onVolume := by
    rw [twinKernel_disk]
    exact twin_onVolume
  mounted := by
    rw [twinKernel_disk]
    exact Fat32.disk_mounted ..
  calm := by
    rw [twinKernel_disk]
    exact ⟨fun _ _ _ => rfl, fun _ _ => rfl⟩
  heap _ := rfl
  ramName := ⟨⟨by decide, by decide, by decide⟩, rfl⟩
  diskName := ⟨⟨by decide, by decide, by decide⟩, rfl⟩

theorem twin_turns : 5 * entriesPerClust twinKernel.disk.mount < 100 := by
  rw [twinKernel_disk]
  decide

theorem looked_nameA {V : Vol} :
    Looked twinTree twinKernel.disk.mount V twinPlace twinChain [] nameA := by
  rw [Looked, if_pos twinTree.root]
  exact fun _ => by decide

-- "./A"
theorem back_ends_agree_nameA :
    Agree 100 twinTree twinKernel ramName diskName twinPos twinPlace (dotName ++ slash :: nameA) :=
  (back_ends_agree (p := dotName ++ slash :: nameA) twins twin_turns
    (by simp [isCString, dotName, slash, nameA]) (fun _ => trivial)).mpr
    ⟨looked_nameA, fun _ => trivial⟩ _ List.prefix_rfl

-- "A/.." is the root of the RAM subtree, and on disk it is A.
theorem back_ends_agree_fails : ¬∀ (fuel N : Nat) (T : FileTree) (k : Kernel)
    (ram disk p : List UInt8) (pos : List (List UInt8) → Nat)
    (place : List (List UInt8) → Fat32Entry) (ends : List (List UInt8) → Nat)
    (chain : List (List UInt8) → List Nat), Twins T N k ram disk pos place ends chain →
    N * entriesPerClust k.disk.mount < fuel → isCString p → T.Inside [] (movesOf p) →
    Agree fuel T k ram disk pos place p := by
  intro h
  have hcs : componentsOf (nameA ++ slash :: dotdotName) = [nameA] ++ [dotdotName] := rfl
  have hstrings : ∀ c ∈ [nameA] ++ [dotdotName], isCString c := by
    simp [isCString, nameA, dotdotName]
  have hin : twinTree.Inside [] (movesOf (nameA ++ slash :: dotdotName)) :=
    fun _ => ⟨List.cons_ne_nil _ _, trivial⟩
  refine twins.disagree (p := nameA ++ slash :: dotdotName) (t := [nameA]) twin_turns
    (hcs.symm ▸ hstrings) hin hcs ⟨looked_nameA, fun _ => trivial⟩ rfl (.inl rfl) ?_
  exact h 100 5 twinTree twinKernel ramName diskName _ twinPos twinPlace _ twinChain twins
    twin_turns (by simp [isCString, nameA, slash, dotdotName]) hin

end Twin

end Agreement

end Vfs
