import SabakaOS.Vfs.NameCopies
import SabakaOS.Vfs.Resolution

namespace Vfs

open Prog Relation
open Fat32 (Fat32Entry kstrcmp kstrcmp_eq_zero kstricmp kstricmp_eq_zero isCString dotName
  dotdotName upper upper_eq_iff)

def vfsChdir (fuel : Nat) (path : List UInt8) : Prog Kernel Int := do
  let target ← vfsResolvePath fuel path
  match target with
  | none => pure (-1)
  | some target => do
    let k ← get
    if (k.vfs.nodes target).type ≠ .dir then pure (-1)
    else do
      Prog.modify fun k => { k with vfs := { k.vfs with cwdNode := some target } }
      pure 0

-- A node of the RAM tree, or one with the back end of the disk.
def Known (v : NodeStore) (node : Option Ptr) : Prop :=
  ∀ p ∈ node, InUse v p ∨ (v.nodes p).ops = some .disk

-- The calls of the VFS, what mv does to the node of a file on the disk, and anything done to the
-- disk behind them.
inductive FsStep (k k' : Kernel) : Prop
  | make (c : TreeCall) (fuel : Nat) (r : Option Ptr) :
      Known k.vfs c.node → c.run fuel k = (some r, k') → FsStep k k'
  | write (node : Option Ptr) (fuel : Nat) (buf : List UInt8) (offset : Nat) (r : Int) :
      Known k.vfs node → vfsWrite fuel node buf offset k = (some r, k') → FsStep k k'
  | resolve (path : List UInt8) (fuel : Nat) (r : Option Ptr) :
      isCString path → vfsResolvePath fuel path k = (some r, k') → FsStep k k'
  | chdir (path : List UInt8) (fuel : Nat) (r : Int) :
      isCString path → vfsChdir fuel path k = (some r, k') → FsStep k k'
  | move (p : Ptr) (name : List UInt8) (e : Fat32Entry) :
      (k.vfs.nodes p).parent = none → slash ∉ name → name.length ≤ vfsMaxName - 1 →
      k' = { k with vfs := setNode k.vfs p fun n => { n with name, data := some (.entry e) } } →
      FsStep k k'
  | disk (w : Fat32.World) : k' = { k with disk := w } → FsStep k k'

-- As the kernel starts: the disk is mounted on the empty root directory.
def Started (k : Kernel) : Prop :=
  ∃ k₀, vfsMountFat32 (slash :: diskName) (booted k₀) = (some true, k)

-- All of a node but its data and size, and its name where nothing is above it.
structure SameShape (n n' : VfsNode) : Prop where
  name : n'.name = n.name ∨
    n.parent = none ∧ slash ∉ n'.name ∧ n'.name.length ≤ vfsMaxName - 1
  type : n'.type = n.type
  ops : n'.ops = n.ops
  children : n'.children = n.children
  parent : n'.parent = n.parent

-- The heap has given out p, if it is from there.
def Old (k : Kernel) (p : Ptr) : Prop := ∀ j, p = .heap j → j < k.heapCalls

-- Nodes have come from the heap at most.
structure Undisturbed (k k' : Kernel) : Prop where
  calls : k.heapCalls ≤ k'.heapCalls
  used : k'.vfs.nodePoolUsed = k.vfs.nodePoolUsed
  root : k'.vfs.rootNode = k.vfs.rootNode
  cwd : k'.vfs.cwdNode = k.vfs.cwdNode
  node : ∀ p, Old k p → SameShape (k.vfs.nodes p) (k'.vfs.nodes p)

section Shape

variable {k k' k'' : Kernel} {n n' n'' : VfsNode} {p d : Ptr} {α β : Type}

theorem SameShape.refl (n : VfsNode) : SameShape n n := ⟨.inl rfl, rfl, rfl, rfl, rfl⟩

theorem SameShape.trans (h : SameShape n n') (h' : SameShape n' n'') : SameShape n n'' := by
  refine ⟨?_, h'.type.trans h.type, h'.ops.trans h.ops, h'.children.trans h.children,
    h'.parent.trans h.parent⟩
  rcases h'.name with he | ⟨hp, hname⟩
  · rw [he]
    exact h.name
  · exact .inr ⟨h.parent.symm.trans hp, hname⟩

theorem SameShape.same_name (h : SameShape n n') (hp : n.parent ≠ none) : n'.name = n.name :=
  h.name.resolve_right fun hr => hp hr.1

theorem Old.later (h : Old k p) (hc : k.heapCalls ≤ k'.heapCalls) : Old k' p :=
  fun j hj => (h j hj).trans_le hc

theorem old_pool (k : Kernel) (i : Nat) : Old k (.pool i) := fun _ h => by cases h

theorem InUse.old (h : InUse k.vfs p) : Old k p := by
  obtain ⟨i, -, rfl⟩ := h
  exact old_pool k i

theorem Undisturbed.refl (k : Kernel) : Undisturbed k k :=
  ⟨le_rfl, rfl, rfl, rfl, fun _ _ => .refl _⟩

theorem Undisturbed.trans (h : Undisturbed k k') (h' : Undisturbed k' k'') : Undisturbed k k'' :=
  ⟨h.calls.trans h'.calls, h'.used.trans h.used, h'.root.trans h.root, h'.cwd.trans h.cwd,
    fun p hp => (h.node p hp).trans (h'.node p (hp.later h.calls))⟩

theorem Undisturbed.inUse (h : Undisturbed k k') : InUse k'.vfs p ↔ InUse k.vfs p := by
  rw [InUse, h.used, InUse]

theorem undisturbed_disk (k : Kernel) (w : Fat32.World) : Undisturbed k { k with disk := w } :=
  ⟨le_rfl, rfl, rfl, rfl, fun _ _ => .refl _⟩

theorem undisturbed_set {f : VfsNode → VfsNode}
    (h : SameShape (k.vfs.nodes p) (f (k.vfs.nodes p)) ∨ ¬Old k p) :
    Undisturbed k { k with vfs := setNode k.vfs p f } := by
  refine ⟨le_rfl, rfl, rfl, rfl, fun q hq => ?_⟩
  by_cases hqp : q = p
  · subst hqp
    change SameShape _ ((setNode k.vfs q f).nodes q)
    rw [setNode_self]
    exact h.resolve_right fun hno => hno hq
  · change SameShape _ ((setNode k.vfs p f).nodes q)
    rw [setNode_other _ hqp]
    exact .refl _

theorem undisturbed_move {name : List UInt8} {e : Fat32Entry}
    (hp : (k.vfs.nodes p).parent = none) (hs : slash ∉ name)
    (hlen : name.length ≤ vfsMaxName - 1) : Undisturbed k { k with
      vfs := setNode k.vfs p fun n => { n with name, data := some (.entry e) } } :=
  undisturbed_set (.inl ⟨.inr ⟨hp, hs, hlen⟩, rfl, rfl, rfl, rfl⟩)

theorem undisturbed_kmalloc {ok : Bool} (h : kmalloc k = (some ok, k')) : Undisturbed k k' := by
  obtain ⟨-, rfl⟩ := Prod.mk.inj h
  exact ⟨Nat.le_succ _, rfl, rfl, rfl, fun _ _ => .refl _⟩

end Shape

-- A node that has been made since for the entry e.
def MadeFor (e : Fat32Entry) (ops : Option VfsOps) (k k' : Kernel) (p : Ptr) : Prop :=
  ∃ j, p = .heap j ∧ k.heapCalls ≤ j ∧ j < k'.heapCalls ∧
    k'.vfs.nodes p = diskNode e.name e ops

-- Such a node, or one that was there, below the mount point.
structure Below (k : Kernel) (p : Ptr) : Prop where
  heap : ∃ j < k.heapCalls, p = .heap j
  ops : (k.vfs.nodes p).ops = some .disk
  parent : (k.vfs.nodes p).parent = none
  no_slash : slash ∉ (k.vfs.nodes p).name
  length_le : (k.vfs.nodes p).name.length ≤ vfsMaxName - 1

section Make

variable {k k' : Kernel} {d p : Ptr} {node r : Option Ptr} {fuel : Nat} {c : List UInt8}

theorem makeDiskNode_made {name : List UInt8} {e : Fat32Entry} {ops : Option VfsOps}
    (h : makeDiskNode name e ops k = (some r, k')) : Undisturbed k k' ∧
      ∀ p, r = some p → p = .heap k.heapCalls ∧ k'.heapCalls = k.heapCalls + 1 ∧
        k'.vfs = setNode k.vfs p fun _ => diskNode name e ops := by
  rw [makeDiskNode, get_bind] at h
  obtain ⟨ok, k₁, hm, h⟩ := ended_bind h
  have hk := undisturbed_kmalloc hm
  obtain ⟨-, rfl⟩ := Prod.mk.inj hm
  split at h
  · obtain ⟨hr, rfl⟩ := ended_pure h
    exact ⟨hk, fun p hp => by cases hr.trans hp⟩
  · obtain ⟨hr, rfl⟩ := Prod.mk.inj h
    have hnew : ¬Old k (.heap k.heapCalls) := fun ho => Nat.lt_irrefl _ (ho _ rfl)
    refine ⟨(undisturbed_set (.inr hnew)).trans ⟨Nat.le_succ _, rfl, rfl, rfl, fun _ _ => .refl _⟩,
      fun p hp => ?_⟩
    obtain rfl := Option.some.inj ((Option.some.inj hr).trans hp)
    exact ⟨rfl, rfl, rfl⟩

theorem storedNode_made {x : Except Int Fat32Entry} (h : storedNode d x k = (some r, k')) :
    Undisturbed k k' ∧
      ∀ p, r = some p → ∃ e, x = .ok e ∧ MadeFor e (k.vfs.nodes d).ops k k' p := by
  cases x with
  | error c =>
    obtain ⟨hr, rfl⟩ := ended_pure h
    exact ⟨.refl k, fun p hp => by cases hr.trans hp⟩
  | ok e =>
    obtain ⟨ok, k₁, hm, h⟩ := ended_bind h
    have hk := undisturbed_kmalloc hm
    obtain ⟨-, rfl⟩ := Prod.mk.inj hm
    split at h
    · obtain ⟨hr, rfl⟩ := ended_pure h
      exact ⟨hk, fun p hp => by cases hr.trans hp⟩
    · obtain ⟨hk', hmade⟩ := makeDiskNode_made h
      refine ⟨hk.trans hk', fun p hp => ?_⟩
      obtain ⟨rfl, hcalls, hvfs⟩ := hmade p hp
      refine ⟨e, rfl, k.heapCalls + 1, rfl, Nat.le_succ _, ?_, ?_⟩
      · rw [hcalls]
        exact Nat.lt_succ_self _
      · rw [hvfs, setNode_self]

theorem component_of_match {a : List UInt8} (hc : Component c) (hcs : isCString c)
    (ha : isCString a) (h : kstricmp a c = 0) : Component a := by
  rw [kstricmp_eq_zero ha hcs] at h
  have hlen : a.length = c.length := by
    rw [← List.length_map (f := upper), h, List.length_map]
  have hmem : slash ∈ a → slash ∈ c := fun hs => by
    have hup := List.mem_map_of_mem (f := upper) hs
    rw [h] at hup
    obtain ⟨b, hb, hbs⟩ := List.mem_map.mp hup
    rwa [(upper_eq_iff (.inl (by decide))).mp hbs] at hb
  refine ⟨fun h0 => hc.ne_nil ?_, fun hs => hc.no_slash (hmem hs), hlen ▸ hc.length_le⟩
  rw [h0] at hlen
  exact List.length_eq_zero_iff.mp hlen.symm

theorem MadeFor.below {e : Fat32Entry} (h : MadeFor e (some .disk) k k' p)
    (hname : Component e.name) : Below k' p := by
  obtain ⟨j, rfl, -, hj, hnode⟩ := h
  refine ⟨⟨j, hj, rfl⟩, ?_, ?_, ?_, ?_⟩
  all_goals rw [hnode]
  · rfl
  · rfl
  · exact hname.no_slash
  · exact hname.length_le

theorem Below.later (h : Below k p) (hk : Undisturbed k k') : Below k' p := by
  obtain ⟨j, hj, rfl⟩ := h.heap
  have hold : Old k (.heap j) := fun i hi => Ptr.heap.inj hi ▸ hj
  have hs := hk.node _ hold
  have hname : slash ∉ (k'.vfs.nodes (.heap j)).name ∧
      (k'.vfs.nodes (.heap j)).name.length ≤ vfsMaxName - 1 := by
    rcases hs.name with he | ⟨-, hname⟩
    · rw [he]
      exact ⟨h.no_slash, h.length_le⟩
    · exact hname
  exact ⟨⟨j, hj.trans_le hk.calls, rfl⟩, hs.ops.trans h.ops, hs.parent.trans h.parent, hname.1,
    hname.2⟩

-- A lookup in a directory of the disk.
theorem diskFinddir_below (hc : Component c) (hcs : isCString c)
    (hops : (k.vfs.nodes d).ops = some .disk) (h : diskFinddir fuel d c k = (some r, k')) :
    Undisturbed k k' ∧ ∀ p, r = some p → Below k' p := by
  rw [diskFinddir, get_bind] at h
  obtain ⟨x, w, hfind, hstored⟩ := onDisk_ended h
  have hk := undisturbed_disk k w
  obtain ⟨hk', hmade⟩ := storedNode_made hstored
  refine ⟨hk.trans hk', fun p hp => ?_⟩
  obtain ⟨e, he, hnode⟩ := hmade p hp
  obtain ⟨hname, hmatch⟩ := Fat32.fat32Find_matches.result hfind e he
  change MadeFor e (k.vfs.nodes d).ops _ k' p at hnode
  rw [hops] at hnode
  exact hnode.below (component_of_match hc hcs hname hmatch)

theorem diskAdd_undisturbed {make : Fat32.Drv (Except Int Fat32Entry)}
    (h : (onDisk make >>= storedNode d) k = (some r, k')) : Undisturbed k k' := by
  obtain ⟨x, w, -, hstored⟩ := onDisk_ended h
  exact (undisturbed_disk k w).trans (storedNode_made hstored).1

theorem ramfsWrite_undisturbed (p : Ptr) (buf : List UInt8) (offset : Nat) (k : Kernel) :
    Runs (ramfsWrite p buf offset) k (fun _ k' => Undisturbed k k') (fun _ => True) := by
  have hset {f : VfsNode → VfsNode} {k₁ : Kernel} {size : Int} (hk : Undisturbed k k₁)
      (hf : ∀ n, SameShape n (f n)) : Runs (do
        Prog.modify fun k => { k with vfs := setNode k.vfs p f }
        pure size) k₁ (fun _ k' => Undisturbed k k') (fun _ => True) :=
    Runs.modify_bind (Runs.pure (hk.trans (undisturbed_set (.inl (hf _)))))
  have hbuffer {f : VfsNode → VfsNode} {size : Int} (hf : ∀ n, SameShape n (f n)) : Runs (do
        let ok ← kmalloc
        if !ok then pure (-1)
        else do
          Prog.modify fun k => { k with vfs := setNode k.vfs p f }
          pure size) k (fun _ k' => Undisturbed k k') (fun _ => True) := by
    refine (runs_ended fun ok k₁ h => undisturbed_kmalloc h).bind fun ok k₁ hk => ?_
    split
    · exact Runs.pure hk
    · exact hset hk hf
  refine Runs.get_bind ?_
  dsimp only
  split
  · exact Runs.pure (.refl k)
  split
  · exact Runs.pure (.refl k)
  rcases (k.vfs.nodes p).data with _ | b | e
  · exact hbuffer fun n => ⟨.inl rfl, rfl, rfl, rfl, rfl⟩
  · exact hset (.refl k) fun n => ⟨.inl rfl, rfl, rfl, rfl, rfl⟩
  · exact hbuffer fun n => ⟨.inl rfl, rfl, rfl, rfl, rfl⟩

theorem vfsWrite_undisturbed {buf : List UInt8} {offset : Nat} {x : Int}
    (h : vfsWrite fuel node buf offset k = (some x, k')) : Undisturbed k k' := by
  rw [vfsWrite, get_bind] at h
  rcases hops : opsOf k node with _ | ⟨p, _ | _⟩
  · rw [hops] at h
    obtain ⟨-, rfl⟩ := ended_pure h
    exact .refl k
  · rw [hops] at h
    exact (ramfsWrite_undisturbed p buf offset k).result h
  · rw [hops] at h
    dsimp only at h
    rw [diskWrite, get_bind] at h
    rcases he : getEntry (k.vfs.nodes p) with _ | e
    · rw [he] at h
      obtain ⟨-, rfl⟩ := ended_pure h
      exact .refl k
    · rw [he] at h
      obtain ⟨y, w, -, h⟩ := onDisk_ended h
      obtain ⟨-, rfl⟩ := Prod.mk.inj h
      exact (undisturbed_disk k w).trans (undisturbed_set (.inl ⟨.inl rfl, rfl, rfl, rfl, rfl⟩))

end Make

def OnTree (m : Ptr) (v : NodeStore) (p : Ptr) : Prop := InUse v p ∨ p = m

-- The nodes of the pool are a tree, as Grown says, with the mount point m hung on its root.
structure Mounted (m : Ptr) (k : Kernel) : Prop where
  root : k.vfs.rootNode = some (.pool 0)
  pos : 0 < k.vfs.nodePoolUsed
  top : IsParent k.vfs (.pool 0) (.pool 0)
  heap : ∃ j < k.heapCalls, m = .heap j
  ramfs : ∀ p, InUse k.vfs p → (k.vfs.nodes p).ops = some .ramfs
  disk : (k.vfs.nodes m).ops = some .disk
  named : ∀ p, OnTree m k.vfs p → isCString (k.vfs.nodes p).name
  child : ∀ d, InUse k.vfs d → ∀ c ∈ (k.vfs.nodes d).children,
    IsParent k.vfs c d ∧ c ≠ .pool 0 ∧ OnTree m k.vfs c
  parent : ∀ p, OnTree m k.vfs p → p ≠ .pool 0 → ∃ d, InUse k.vfs d ∧ IsParent k.vfs p d ∧
    (k.vfs.nodes d).type = .dir ∧ p ∈ (k.vfs.nodes d).children
  siblings : ∀ d, InUse k.vfs d →
    ((k.vfs.nodes d).children.map fun c => (k.vfs.nodes c).name).Nodup

section Mount

variable {m p d : Ptr} {k k' : Kernel} {type : VfsNodeType} {name : List UInt8}

theorem Mounted.old (h : Mounted m k) (hp : OnTree m k.vfs p) : Old k p := by
  rcases hp with hp | rfl
  · exact hp.old
  · obtain ⟨j, hj, rfl⟩ := h.heap
    exact fun i hi => Ptr.heap.inj hi ▸ hj

theorem Mounted.hung (h : Mounted m k) (hp : OnTree m k.vfs p) :
    (k.vfs.nodes p).parent ≠ none := by
  by_cases h0 : p = .pool 0
  · rw [h0, h.top]
    exact Option.some_ne_none _
  · obtain ⟨d, -, hpar, -, -⟩ := h.parent p hp h0
    rw [hpar]
    exact Option.some_ne_none _

theorem Undisturbed.onTree (hk : Undisturbed k k') : OnTree m k'.vfs p ↔ OnTree m k.vfs p :=
  or_congr_left hk.inUse

theorem Mounted.later (h : Mounted m k) (hk : Undisturbed k k') : Mounted m k' := by
  have hshape : ∀ p, OnTree m k.vfs p → SameShape (k.vfs.nodes p) (k'.vfs.nodes p) :=
    fun p hp => hk.node p (h.old hp)
  have hparent : ∀ p, OnTree m k.vfs p → ∀ d, IsParent k'.vfs p d ↔ IsParent k.vfs p d :=
    fun p hp d => by rw [IsParent, (hshape p hp).parent, IsParent]
  constructor
  · exact hk.root.trans h.root
  · exact hk.used ▸ h.pos
  · exact (hparent _ (.inl ⟨0, h.pos, rfl⟩) _).mpr h.top
  · obtain ⟨j, hj, hm⟩ := h.heap
    exact ⟨j, hj.trans_le hk.calls, hm⟩
  · intro p hp
    have hp := hk.inUse.mp hp
    rw [(hshape p (.inl hp)).ops, h.ramfs p hp]
  · rw [(hshape m (.inr rfl)).ops, h.disk]
  · intro p hp
    have hp := hk.onTree.mp hp
    rw [(hshape p hp).same_name (h.hung hp)]
    exact h.named p hp
  · intro d hd c hc
    have hd := hk.inUse.mp hd
    rw [(hshape d (.inl hd)).children] at hc
    obtain ⟨hp, hne, hon⟩ := h.child d hd c hc
    exact ⟨(hparent c hon d).mpr hp, hne, hk.onTree.mpr hon⟩
  · intro p hp hne
    have hp := hk.onTree.mp hp
    obtain ⟨d, hd, hpar, hdir, hmem⟩ := h.parent p hp hne
    have hs := hshape d (.inl hd)
    exact ⟨d, hk.inUse.mpr hd, (hparent p hp d).mpr hpar, hs.type.trans hdir,
      hs.children.symm ▸ hmem⟩
  · intro d hd
    have hd := hk.inUse.mp hd
    have hnames : ((k'.vfs.nodes d).children.map fun c => (k'.vfs.nodes c).name) =
        (k.vfs.nodes d).children.map fun c => (k.vfs.nodes c).name := by
      rw [(hshape d (.inl hd)).children]
      refine List.map_congr_left fun c hc => ?_
      have hon := (h.child d hd c hc).2.2
      exact (hshape c hon).same_name (h.hung hon)
    rw [hnames]
    exact h.siblings d hd

theorem added_onTree {v : NodeStore} : OnTree m (added v type d name) p ↔
    OnTree m v p ∨ p = .pool v.nodePoolUsed := by
  constructor
  · rintro (hp | rfl)
    · exact (inUse_added hp).imp_left .inl
    · exact .inl (.inr rfl)
  · rintro ((hp | rfl) | rfl)
    · exact .inl hp.added
    · exact .inr rfl
    · exact .inl ⟨_, Nat.lt_succ_self _, rfl⟩

-- A node that was there gets children at most.
theorem Mounted.added_shape (h : Mounted m k) (hd : InUse k.vfs d) (hp : OnTree m k.vfs p) :
    ∃ cs, (added k.vfs type d name).nodes p = { k.vfs.nodes p with children := cs } := by
  rcases hp with hp | rfl
  · exact added_kept type d name hp
  · obtain ⟨j, -, rfl⟩ := h.heap
    obtain ⟨i, -, rfl⟩ := hd
    refine ⟨(k.vfs.nodes (.heap j)).children, ?_⟩
    simp [added]

theorem mounted_added (h : Mounted m k) (hd : InUse k.vfs d) (ha : Admits k.vfs d name)
    (hname : isCString name) : Mounted m { k with vfs := added k.vfs type d name } := by
  have hshape : ∀ p, OnTree m k.vfs p →
      ∃ cs, (added k.vfs type d name).nodes p = { k.vfs.nodes p with children := cs } :=
    fun p hp => h.added_shape hd hp
  have hparent : ∀ p, OnTree m k.vfs p → ∀ q,
      IsParent (added k.vfs type d name) p q ↔ IsParent k.vfs p q := fun p hp q => by
    obtain ⟨cs, hcs⟩ := hshape p hp
    rw [IsParent, hcs, IsParent]
  have hnames : ∀ p, OnTree m k.vfs p →
      ((added k.vfs type d name).nodes p).name = (k.vfs.nodes p).name := fun p hp => by
    obtain ⟨cs, hcs⟩ := hshape p hp
    rw [hcs]
  have hnew : IsParent (added k.vfs type d name) (.pool k.vfs.nodePoolUsed) d := by
    rw [IsParent, added_new hd]
    rfl
  constructor
  · exact h.root
  · exact Nat.succ_pos _
  · exact (hparent _ (.inl ⟨0, h.pos, rfl⟩) _).mpr h.top
  · exact h.heap
  · intro p hp
    rcases inUse_added hp with hp | rfl
    · exact (added_ops hp).trans (h.ramfs p hp)
    · exact (congrArg VfsNode.ops (added_new hd)).trans (h.ramfs d hd)
  · obtain ⟨cs, hcs⟩ := hshape m (.inr rfl)
    exact (congrArg VfsNode.ops hcs).trans h.disk
  · intro p hp
    rcases added_onTree.mp hp with hp | rfl
    · exact (hnames p hp).symm ▸ h.named p hp
    · exact (congrArg VfsNode.name (added_new hd)).symm ▸ hname
  · intro q hq c hc
    have hkept : InUse k.vfs q → c ∈ (k.vfs.nodes q).children →
        IsParent (added k.vfs type d name) c q ∧ c ≠ .pool 0 ∧
          OnTree m (added k.vfs type d name) c := fun hq hc => by
      obtain ⟨hpar, hne, hon⟩ := h.child q hq c hc
      exact ⟨(hparent c hon q).mpr hpar, hne, added_onTree.mpr (.inl hon)⟩
    change c ∈ ((added k.vfs type d name).nodes q).children at hc
    rw [added_children hd hq] at hc
    split at hc
    · rename_i he
      subst he
      rcases List.mem_append.mp hc with hc | hc
      · exact hkept hd hc
      · obtain rfl := List.mem_singleton.mp hc
        refine ⟨hnew, fun he => ?_, added_onTree.mpr (.inr rfl)⟩
        exact h.pos.ne' (Ptr.pool.inj he)
    · split at hc
      · exact absurd hc List.not_mem_nil
      · rename_i hne
        exact hkept ((inUse_added hq).resolve_right hne) hc
  · intro p hp hne
    rcases added_onTree.mp hp with hp | rfl
    · obtain ⟨q, hq, hpar, hdir, hmem⟩ := h.parent p hp hne
      refine ⟨q, hq.added, (hparent p hp q).mpr hpar, (added_type hq).trans hdir, ?_⟩
      change p ∈ ((added k.vfs type d name).nodes q).children
      rw [added_children hd hq.added]
      split
      · rename_i he
        exact List.mem_append_left _ (he ▸ hmem)
      · rwa [if_neg hq.ne_next]
    · refine ⟨d, hd.added, hnew, (added_type hd).trans ha.dir, ?_⟩
      change _ ∈ ((added k.vfs type d name).nodes d).children
      rw [added_dir]
      simp
  · intro q hq
    exact added_siblings hd ha (fun q hq c hc => hnames c (h.child q hq c hc).2.2) h.siblings hq

-- The mount point j on the empty root directory.
def mountedOn (v : NodeStore) (j : Nat) (name : List UInt8) (e : Fat32Entry) : NodeStore :=
  setNode (setNode (setNode v (.heap j) fun _ => diskNode name e (some .disk)) (.heap j)
    fun n => { n with parent := some (.pool 0) }) (.pool 0)
    fun n => { n with children := n.children ++ [.heap j] }

theorem started_eq (h : Started k) : ∃ v j e, k.vfs = mountedOn (vfsInit v) j diskName e ∧
    j < k.heapCalls := by
  obtain ⟨k₀, h⟩ := h
  rw [vfsMountFat32, get_bind] at h
  split at h
  · cases (ended_pure h).1
  obtain ⟨ok, k₁, hm, h⟩ := ended_bind h
  obtain ⟨-, rfl⟩ := Prod.mk.inj hm
  split at h
  · cases (ended_pure h).1
  obtain ⟨r, k₂, hmake, h⟩ := ended_bind h
  have hmade := (makeDiskNode_made hmake).2
  have hroot : (booted k₀).vfs.rootNode = some (.pool 0) := rfl
  cases r with
  | none => cases (ended_pure h).1
  | some d =>
    obtain ⟨rfl, hcalls, hvfs⟩ := hmade d rfl
    simp only [hroot] at h
    obtain ⟨_, k₃, hset, h⟩ := ended_bind h
    obtain ⟨-, rfl⟩ := Prod.mk.inj hset
    rw [get_bind] at h
    split at h
    · cases (ended_pure h).1
    obtain ⟨-, rfl⟩ := Prod.mk.inj h
    refine ⟨k₀.vfs, k₀.heapCalls + 1, ⟨diskName, Fat32.attrDirectory,
      k₀.disk.mount.rootCluster, 0, 0, 0⟩, ?_, ?_⟩
    · dsimp only
      rw [hvfs]
      rfl
    · change _ < k₂.heapCalls
      rw [hcalls]
      exact Nat.lt_succ_self _

theorem mounted_start (h : Started k) :
    ∃ m, Mounted m k ∧ k.vfs.cwdNode = some (.pool 0) := by
  obtain ⟨v, j, e, hv, hj⟩ := started_eq h
  have hm : (mountedOn (vfsInit v) j diskName e).nodes (.heap j) =
      { diskNode diskName e (some .disk) with parent := some (.pool 0) } := by
    simp [mountedOn, setNode]
  have hr : (mountedOn (vfsInit v) j diskName e).nodes (.pool 0) = { blankNode with
      name := rootName
      type := .dir
      ops := some .ramfs
      children := [.heap j]
      parent := some (.pool 0) } := by
    have hne : Ptr.pool 0 ≠ .heap j := fun he => by cases he
    rw [mountedOn, setNode_self, setNode_other _ hne, setNode_other _ hne, init_root]
    rfl
  have huse : ∀ p, InUse (mountedOn (vfsInit v) j diskName e) p → p = .pool 0 :=
    fun p hp => inUse_init (v := v) hp
  have htree : ∀ p, OnTree (.heap j) (mountedOn (vfsInit v) j diskName e) p →
      p = .pool 0 ∨ p = .heap j := fun p hp => hp.imp_left (huse p)
  refine ⟨.heap j, ?_, by rw [hv]; rfl⟩
  constructor
  · rw [hv]
    rfl
  · rw [hv]
    exact Nat.one_pos
  · rw [hv, IsParent, hr]
  · exact ⟨j, hj, rfl⟩
  · rw [hv]
    intro p hp
    rw [huse p hp, hr]
  · rw [hv, hm]
    rfl
  · rw [hv]
    intro p hp
    rcases htree p hp with rfl | rfl
    · rw [hr]
      simp [isCString, rootName]
    · rw [hm]
      simp [isCString, diskNode, diskName]
  · rw [hv]
    intro d hd c hc
    rw [huse d hd, hr] at hc
    obtain rfl := List.mem_singleton.mp hc
    refine ⟨?_, fun he => (by cases he), .inr rfl⟩
    rw [IsParent, hm, huse d hd]
  · rw [hv]
    intro p hp hne
    obtain rfl := (htree p hp).resolve_left hne
    refine ⟨.pool 0, ⟨0, Nat.one_pos, rfl⟩, ?_, ?_, ?_⟩
    · rw [IsParent, hm]
    · rw [hr]
    · rw [hr]
      exact List.mem_singleton_self _
  · rw [hv]
    intro d hd
    rw [huse d hd, hr]
    exact List.nodup_singleton _

end Mount

end Vfs
