import SabakaOS.Vfs.MountedTree

namespace Vfs

open Prog Relation
open Fat32 (Fat32Entry kstrcmp kstrcmp_eq_zero isCString dotName dotdotName)

-- The parent links lead from a node to the root, past nodes with the names cs.
inductive At (v : NodeStore) : List (List UInt8) → Ptr → Prop
  | root {p : Ptr} : v.rootNode = some p → At v [] p
  | under {cs : List (List UInt8)} {p q : Ptr} :
      At v cs q → IsParent v p q → v.rootNode ≠ some p → At v (cs ++ [(v.nodes p).name]) p

-- A name that vfs_resolve_path looks up as it stands.
structure Proper (c : List UInt8) : Prop where
  component : Component c
  string : isCString c
  not_dot : c ≠ dotName
  not_dotdot : c ≠ dotdotName

-- A node met by a walk from the root, the names above it having a weight of n at most, or one
-- below the mount point.
def Held (m : Ptr) (g : List UInt8 → Nat) (n : Nat) (k : Kernel) (p : Ptr) : Prop :=
  Below k p ∨ OnTree m k.vfs p ∧
    ∃ cs, At k.vfs cs p ∧ (∀ c ∈ cs, Proper c) ∧ (cs.map g).sum ≤ n

section Walk

variable {m p q d : Ptr} {k k' : Kernel} {v : NodeStore} {cs : List (List UInt8)}
  {c : List UInt8} {g : List UInt8 → Nat} {n fuel : Nat} {r : Option Ptr}

theorem At.unique {cs' : List (List UInt8)} (h : At v cs p) (h' : At v cs' p) : cs = cs' := by
  induction h generalizing cs' with
  | root hr =>
    cases h' with
    | root _ => rfl
    | under _ _ hne => exact absurd hr hne
  | under _ hp hne ih =>
    cases h' with
    | root hr => exact absurd hr hne
    | under hat' hp' _ =>
      obtain rfl := Option.some.inj (hp.symm.trans hp')
      rw [ih hat']

theorem At.of_same (h : At k.vfs cs p) (hM : Mounted m k) (hon : OnTree m k.vfs p)
    (hroot : k'.vfs.rootNode = k.vfs.rootNode)
    (hsame : ∀ p, OnTree m k.vfs p → (k'.vfs.nodes p).name = (k.vfs.nodes p).name ∧
      (k'.vfs.nodes p).parent = (k.vfs.nodes p).parent) : At k'.vfs cs p := by
  induction h with
  | root hr => exact .root (hroot.trans hr)
  | @under cs p q _ hp hne ih =>
    have hp0 : p ≠ .pool 0 := fun he => hne (he ▸ hM.root)
    obtain ⟨d, hd, hpar, -, -⟩ := hM.parent p hon hp0
    obtain rfl := Option.some.inj (hp.symm.trans hpar)
    obtain ⟨hname, hparent⟩ := hsame p hon
    rw [← hname]
    exact .under (ih (.inl hd)) (hparent.trans hp) (by rwa [hroot])

theorem At.later (h : At k.vfs cs p) (hM : Mounted m k) (hon : OnTree m k.vfs p)
    (hk : Undisturbed k k') : At k'.vfs cs p :=
  h.of_same hM hon hk.root fun q hq =>
    have hs := hk.node q (hM.old hq)
    ⟨hs.same_name (hM.hung hq), hs.parent⟩

theorem Held.later (h : Held m g n k p) (hM : Mounted m k) (hk : Undisturbed k k') :
    Held m g n k' p := by
  rcases h with h | ⟨hon, cs, hat, hcs⟩
  · exact .inl (h.later hk)
  · exact .inr ⟨hk.onTree.mpr hon, cs, hat.later hM hon hk, hcs⟩

theorem Held.added {type : VfsNodeType} (h : Held m g n k p) (hM : Mounted m k)
    (hd : InUse k.vfs d) : Held m g n { k with vfs := Vfs.added k.vfs type d c } p := by
  rcases h with h | ⟨hon, cs, hat, hcs⟩
  · obtain ⟨j, hj, rfl⟩ := h.heap
    obtain ⟨i, -, rfl⟩ := hd
    have hnode : (Vfs.added k.vfs type (.pool i) c).nodes (.heap j) = k.vfs.nodes (.heap j) := by
      simp [Vfs.added]
    exact .inl ⟨⟨j, hj, rfl⟩, hnode ▸ h.ops, hnode ▸ h.parent, hnode ▸ h.no_slash,
      hnode ▸ h.length_le⟩
  · refine .inr ⟨added_onTree.mpr (.inl hon), cs, hat.of_same hM hon rfl fun p hp => ?_, hcs⟩
    obtain ⟨cs, hshape⟩ := @Mounted.added_shape _ p d k type c hM hd hp
    have hname := congrArg VfsNode.name hshape
    have hparent := congrArg VfsNode.parent hshape
    exact ⟨hname, hparent⟩

theorem held_root (hM : Mounted m k) : Held m g n k (.pool 0) :=
  .inr ⟨.inl ⟨0, hM.pos, rfl⟩, [], .root hM.root, fun _ h => (by cases h), Nat.zero_le _⟩

theorem Held.up (h : Held m g n k p) (hM : Mounted m k) : Held m g n k (up k.vfs p) := by
  rcases h with h | ⟨hon, cs, hat, hcs, hn⟩
  · rw [Vfs.up, h.parent]
    exact .inl h
  · cases hat with
    | root hr =>
      obtain rfl := Option.some.inj (hr.symm.trans hM.root)
      rw [Vfs.up, hM.top]
      exact held_root hM
    | @under cs _ q hat hp hne =>
      have hp0 : p ≠ .pool 0 := fun he => hne (he ▸ hM.root)
      obtain ⟨d, hd, hpar, -, -⟩ := hM.parent p hon hp0
      obtain rfl := Option.some.inj (hp.symm.trans hpar)
      rw [Vfs.up, hp]
      refine .inr ⟨.inl hd, cs, hat, fun c hc => hcs c (List.mem_append_left _ hc), ?_⟩
      rw [List.map_append, List.sum_append] at hn
      omega

theorem Mounted.finddir (hM : Mounted m k) (hp : InUse k.vfs p) (hcs : isCString c)
    (h : ramfsFinddir k.vfs (some p) c = some q) : IsParent k.vfs q p ∧ q ≠ .pool 0 ∧
      OnTree m k.vfs q ∧ (k.vfs.nodes q).name = c := by
  rw [ramfsFinddir] at h
  split at h
  · cases h
  · obtain ⟨hpar, hne, hon⟩ := hM.child p hp q (List.mem_of_find?_eq_some h)
    have hmatch := List.find?_some h
    exact ⟨hpar, hne, hon, (kstrcmp_eq_zero (hM.named q hon) hcs).mp (of_decide_eq_true hmatch)⟩

theorem vfsFinddir_held (hM : Mounted m k) (h : Held m g n k p) (hc : Proper c)
    (hrun : vfsFinddir fuel (some p) c k = (some r, k')) :
    Undisturbed k k' ∧ ∀ q, r = some q → Held m g (n + g c) k' q := by
  have hdisk : (k.vfs.nodes p).ops = some .disk →
      Undisturbed k k' ∧ ∀ q, r = some q → Held m g (n + g c) k' q := fun hops => by
    rw [vfsFinddir, get_bind, show opsOf k (some p) = some (p, .disk) by simp [opsOf, hops]]
      at hrun
    obtain ⟨hk, hbelow⟩ := diskFinddir_below hc.component hc.string hops hrun
    exact ⟨hk, fun q hq => .inl (hbelow q hq)⟩
  rcases h with h | ⟨hp | rfl, cs, hat, hcs, hn⟩
  · exact hdisk h.ops
  · rw [vfsFinddir, get_bind,
      show opsOf k (some p) = some (p, .ramfs) by simp [opsOf, hM.ramfs p hp]] at hrun
    obtain ⟨hr, rfl⟩ := ended_pure hrun
    refine ⟨.refl k, fun q hq => ?_⟩
    obtain ⟨hpar, hne, hon, hname⟩ := hM.finddir hp hc.string (hr.trans hq)
    have hroot : k.vfs.rootNode ≠ some q := by
      rw [hM.root]
      exact fun he => hne (Option.some.inj he).symm
    refine .inr ⟨hon, cs ++ [(k.vfs.nodes q).name], .under hat hpar hroot, ?_, ?_⟩
    · rw [hname]
      intro b hb
      rcases List.mem_append.mp hb with hb | hb
      · exact hcs b hb
      · exact List.mem_singleton.mp hb ▸ hc
    · rw [hname, List.map_append, List.sum_append]
      simpa using hn
  · exact hdisk hM.disk

theorem resolveOne_held (hM : Mounted m k) (h : Held m g n k p) (hc : Component c)
    (hcs : isCString c) (hrun : resolveOne fuel p c k = (some r, k')) :
    Undisturbed k k' ∧ ∀ q, r = some q → Held m g (n + g c) k' q := by
  have hmore : ∀ q, Held m g n k q → Held m g (n + g c) k q := fun q hq =>
    hq.imp_right fun ⟨hon, cs, hat, hcs, hn⟩ => ⟨hon, cs, hat, hcs, hn.trans (Nat.le_add_right ..)⟩
  have hdot : kstrcmp c dotName = 0 ↔ c = dotName :=
    kstrcmp_eq_zero hcs (by simp [isCString, dotName])
  have hdotdot : kstrcmp c dotdotName = 0 ↔ c = dotdotName :=
    kstrcmp_eq_zero hcs (by simp [isCString, dotdotName])
  rw [resolveOne] at hrun
  split at hrun
  · obtain ⟨rfl, rfl⟩ := ended_pure hrun
    exact ⟨.refl k, fun q hq => hmore q (Option.some.inj hq ▸ h)⟩
  split at hrun
  · rw [get_bind] at hrun
    obtain ⟨rfl, rfl⟩ := ended_pure hrun
    exact ⟨.refl k, fun q hq => hmore q (Option.some.inj hq ▸ h.up hM)⟩
  · rename_i h1 h2
    exact vfsFinddir_held hM h ⟨hc, hcs, fun he => h1 (hdot.mpr he), fun he => h2 (hdotdot.mpr he)⟩
      hrun

theorem resolveAll_held (hM : Mounted m k) (h : Held m g n k p)
    (hcs : ∀ c ∈ cs, Component c ∧ isCString c)
    (hrun : resolveAll fuel cs p k = (some r, k')) :
    Undisturbed k k' ∧ ∀ q, r = some q → Held m g (n + (cs.map g).sum) k' q := by
  induction cs generalizing k p n with
  | nil =>
    obtain ⟨rfl, rfl⟩ := ended_pure hrun
    exact ⟨.refl k, fun q hq => Option.some.inj hq ▸ h⟩
  | cons c cs ih =>
    obtain ⟨next, k₁, hone, hrest⟩ := ended_bind hrun
    obtain ⟨hc, hstr⟩ := hcs c List.mem_cons_self
    obtain ⟨hk, hnext⟩ := resolveOne_held hM h hc hstr hone
    cases next with
    | none =>
      obtain ⟨rfl, rfl⟩ := ended_pure hrest
      exact ⟨hk, fun q hq => by cases hq⟩
    | some next =>
      obtain ⟨hk', hq⟩ := ih (hM.later hk) (hnext next rfl)
        (fun d hd => hcs d (List.mem_cons_of_mem c hd)) hrest
      rw [List.map_cons, List.sum_cons, ← Nat.add_assoc]
      exact ⟨hk.trans hk', hq⟩

end Walk

-- The mount is in place, and the current directory is one that a walk has come to.
def Sane (m : Ptr) (k : Kernel) : Prop :=
  Mounted m k ∧ ∃ d, k.vfs.cwdNode = some d ∧ Held m (fun _ => 0) 0 k d

section Run

variable {m p d : Ptr} {k k' : Kernel} {path : List UInt8} {fuel : Nat} {r : Option Ptr}

theorem Sane.later (h : Sane m k) (hk : Undisturbed k k') : Sane m k' := by
  obtain ⟨hM, d, hcwd, hd⟩ := h
  exact ⟨hM.later hk, d, hk.cwd.trans hcwd, hd.later hM hk⟩

theorem componentsOf_good (hpath : isCString path) :
    ∀ c ∈ componentsOf path, Component c ∧ isCString c := fun _ hc =>
  ⟨(components_sub hc).1, fun b hb => hpath b ((components_sub hc).2 hb)⟩

theorem vfsResolvePath_held (h : Sane m k) (hpath : isCString path)
    (hrun : vfsResolvePath fuel path k = (some r, k')) :
    Undisturbed k k' ∧ ∀ q, r = some q → Held m (fun _ => 0) 0 k' q := by
  obtain ⟨hM, d, hcwd, hd⟩ := h
  have hstart : ∃ cur, startOf path k = some cur ∧ Held m (fun _ => 0) 0 k cur := by
    rw [startOf]
    split
    · exact ⟨_, hM.root, held_root hM⟩
    · exact ⟨d, hcwd, hd⟩
  obtain ⟨cur, hcur, hheld⟩ := hstart
  rw [vfsResolvePath_eq, hcur] at hrun
  have hzero : ((componentsOf path).map fun _ => 0).sum = 0 := by simp
  obtain ⟨hk, hq⟩ := resolveAll_held hM hheld (componentsOf_good hpath) hrun
  rw [hzero] at hq
  exact ⟨hk, hq⟩

theorem Mounted.inDirectory (hM : Mounted m k) (d : Ptr) : Mounted m (inDirectory k d) :=
  ⟨hM.root, hM.pos, hM.top, hM.heap, hM.ramfs, hM.disk, hM.named, hM.child, hM.parent,
    hM.siblings⟩

theorem Held.inDirectory {g : List UInt8 → Nat} {n : Nat} (h : Held m g n k p)
    (hM : Mounted m k) (d : Ptr) : Held m g n (inDirectory k d) p := by
  rcases h with h | ⟨hon, cs, hat, hcs⟩
  · exact .inl ⟨h.heap, h.ops, h.parent, h.no_slash, h.length_le⟩
  · exact .inr ⟨hon, cs, hat.of_same hM hon rfl fun _ _ => ⟨rfl, rfl⟩, hcs⟩

theorem vfsChdir_sane {x : Int} (h : Sane m k) (hpath : isCString path)
    (hrun : vfsChdir fuel path k = (some x, k')) : Sane m k' := by
  obtain ⟨r, k₁, hresolve, hrest⟩ := ended_bind hrun
  obtain ⟨hk, hheld⟩ := vfsResolvePath_held h hpath hresolve
  have h₁ := h.later hk
  cases r with
  | none =>
    obtain ⟨-, rfl⟩ := ended_pure hrest
    exact h₁
  | some t =>
    dsimp only at hrest
    rw [get_bind] at hrest
    split at hrest
    · obtain ⟨-, rfl⟩ := ended_pure hrest
      exact h₁
    · obtain ⟨-, rfl⟩ := Prod.mk.inj hrest
      exact ⟨h₁.1.inDirectory t, t, rfl, (hheld t rfl).inDirectory h₁.1 t⟩

theorem onNodes_sane {type : VfsNodeType} {name : Name} (h : Sane m k) (hd : InUse k.vfs d)
    (hrun : onNodes (fun v => ramfsAdd type v (some d) name.val) k = (some r, k')) :
    Sane m k' := by
  obtain ⟨hM, c, hcwd, hc⟩ := h
  rw [onNodes] at hrun
  rcases ramfsAdd_cases type name.val hd with he | ⟨ha, he⟩
  · rw [he] at hrun
    obtain ⟨-, rfl⟩ := Prod.mk.inj hrun
    exact ⟨hM, c, hcwd, hc⟩
  · rw [he] at hrun
    obtain ⟨-, rfl⟩ := Prod.mk.inj hrun
    exact ⟨mounted_added hM hd ha name.property.1, c, hcwd, hc.added hM hd⟩

theorem make_sane {node : Option Ptr} {ram disk : Ptr → Prog Kernel (Option Ptr)}
    (h : Sane m k) (hnode : Known k.vfs node)
    (hram : ∀ p, InUse k.vfs p → ram p k = (some r, k') → Sane m k')
    (hdisk : ∀ p, disk p k = (some r, k') → Undisturbed k k')
    (hrun : (match opsOf k node with
      | none => pure none
      | some (p, .ramfs) => ram p
      | some (p, .disk) => disk p) k = (some r, k')) : Sane m k' := by
  rcases hops : opsOf k node with _ | ⟨d, _ | _⟩
  · rw [hops] at hrun
    obtain ⟨-, rfl⟩ := ended_pure hrun
    exact h
  · rw [hops] at hrun
    obtain ⟨p, hp, hd⟩ := Option.bind_eq_some_iff.mp hops
    obtain ⟨o, ho, he⟩ := Option.map_eq_some_iff.mp hd
    obtain ⟨rfl, rfl⟩ := Prod.mk.inj he
    refine hram p ((hnode p hp).resolve_right fun hdisk => ?_) hrun
    rw [ho] at hdisk
    cases hdisk
  · rw [hops] at hrun
    exact h.later (hdisk d hrun)

theorem treeCall_sane {c : TreeCall} (h : Sane m k) (hnode : Known k.vfs c.node)
    (hrun : c.run fuel k = (some r, k')) : Sane m k' := by
  cases c with
  | mkdir node name =>
    rw [TreeCall.run, vfsMkdir, get_bind] at hrun
    refine make_sane h hnode (fun p hp he => onNodes_sane h hp he) (fun p he => ?_) hrun
    rw [diskMkdir, get_bind] at he
    exact diskAdd_undisturbed he
  | create node name =>
    rw [TreeCall.run, vfsCreate, get_bind] at hrun
    refine make_sane h hnode (fun p hp he => onNodes_sane h hp he) (fun p he => ?_) hrun
    rw [diskCreate, get_bind] at he
    exact diskAdd_undisturbed he

theorem FsStep.sane (hs : FsStep k k') (h : Sane m k) : Sane m k' := by
  cases hs with
  | make c fuel r hnode hrun => exact treeCall_sane h hnode hrun
  | write node fuel buf offset r hnode hrun => exact h.later (vfsWrite_undisturbed hrun)
  | resolve path fuel r hpath hrun => exact h.later (vfsResolvePath_held h hpath hrun).1
  | chdir path fuel r hpath hrun => exact vfsChdir_sane h hpath hrun
  | move p name e hp hs hlen he =>
    subst he
    exact h.later (undisturbed_move hp hs hlen)
  | disk w he =>
    subst he
    exact h.later (undisturbed_disk k w)

theorem run_sane (hstart : Started k) (hr : ReflTransGen FsStep k k') : ∃ m, Sane m k' := by
  obtain ⟨m, hM, hcwd⟩ := mounted_start hstart
  refine ⟨m, ?_⟩
  induction hr with
  | refl => exact ⟨hM, _, hcwd, held_root hM⟩
  | tail _ hs ih => exact hs.sane ih

end Run

end Vfs
