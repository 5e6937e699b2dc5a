import Mathlib.Data.List.Nodup
import Mathlib.Logic.Relation
import SabakaOS.Vfs.Calls

namespace Vfs

open Prog Relation
open Fat32 (kstrcmp isCString)

def Name := { s : List UInt8 // isCString s ∧ s.length < vfsMaxName }

inductive TreeCall where
  | mkdir (node : Option Ptr) (name : Name)
  | create (node : Option Ptr) (name : Name)

def TreeCall.node : TreeCall → Option Ptr
  | .mkdir node _ => node
  | .create node _ => node

def TreeCall.run (fuel : Nat) : TreeCall → Prog Kernel (Option Ptr)
  | .mkdir node name => vfsMkdir fuel node name.val
  | .create node name => vfsCreate fuel node name.val

def InUse (v : NodeStore) (p : Ptr) : Prop := ∃ i < v.nodePoolUsed, p = .pool i

def TreeCall.OnRam (v : NodeStore) (c : TreeCall) : Prop := ∀ p ∈ c.node, InUse v p

def TreeStep (k k' : Kernel) : Prop :=
  ∃ (c : TreeCall) (fuel : Nat) (r : Option Ptr), c.OnRam k.vfs ∧ c.run fuel k = (some r, k')

def booted (k : Kernel) : Kernel := { k with vfs := vfsInit k.vfs }

def powerOn : Kernel where
  vfs := { nodes := fun _ => blankNode, nodePoolUsed := 0, rootNode := none, cwdNode := none }
  disk := {
    disk := fun _ => 0
    present := false
    sectorCount := 0
    mount := {
      mounted := false
      fatStartLba := 0
      fatSizeSectors := 0
      dataStartLba := 0
      rootCluster := 0
      sectorsPerClust := 0
      bytesPerClust := 0 }
    fatCache := fun _ => 0
    fatCacheLba := Fat32.noLba
    fatCacheDirty := false
    ata := fun _ _ _ => true
    ataCalls := 0
    heap := fun _ _ => true
    heapCalls := 0
    trace := [] }
  heap := fun _ => true
  heapCalls := 0

def IsParent (v : NodeStore) (n d : Ptr) : Prop := (v.nodes n).parent = some d

structure RootedTree (v : NodeStore) (root : Ptr) : Prop where
  root_node : v.rootNode = some root ∧ InUse v root ∧ (v.nodes root).type = .dir
  child_used : ∀ d n, InUse v d → n ∈ (v.nodes d).children → InUse v n ∧ n ≠ root
  once : ∀ n, InUse v n → n ≠ root → ∃ d, InUse v d ∧ IsParent v n d ∧ (v.nodes d).type = .dir ∧
    (v.nodes d).children.count n = 1 ∧ ∀ d', InUse v d' → n ∈ (v.nodes d').children → d' = d
  reaches : ∀ n, InUse v n → ReflTransGen (IsParent v) n root
  siblings : ∀ d, InUse v d → ((v.nodes d).children.map fun c => (v.nodes c).name).Nodup
  children_le : ∀ d, InUse v d → (v.nodes d).children.length ≤ vfsMaxChildren
  pool_le : v.nodePoolUsed ≤ vfsMaxNodes

-- A node is made after its parent, so parents have the lower numbers.
structure Grown (v : NodeStore) : Prop where
  root : v.rootNode = some (.pool 0)
  pos : 0 < v.nodePoolUsed
  pool_le : v.nodePoolUsed ≤ vfsMaxNodes
  ramfs : ∀ p, InUse v p → (v.nodes p).ops = some .ramfs
  root_dir : (v.nodes (.pool 0)).type = .dir
  parent : ∀ i, 0 < i → i < v.nodePoolUsed → ∃ j < i, IsParent v (.pool i) (.pool j) ∧
    (v.nodes (.pool j)).type = .dir ∧ .pool i ∈ (v.nodes (.pool j)).children
  child : ∀ d, InUse v d → ∀ c ∈ (v.nodes d).children, IsParent v c d ∧
    ∃ j, 0 < j ∧ j < v.nodePoolUsed ∧ c = .pool j
  siblings : ∀ d, InUse v d → ((v.nodes d).children.map fun c => (v.nodes c).name).Nodup
  children_le : ∀ d, InUse v d → (v.nodes d).children.length ≤ vfsMaxChildren

theorem inUse_init {v : NodeStore} {p : Ptr} (h : InUse (vfsInit v) p) : p = .pool 0 := by
  obtain ⟨i, hi, rfl⟩ := h
  rw [Nat.lt_one_iff.mp hi]

theorem init_root (v : NodeStore) : (vfsInit v).nodes (.pool 0) = { blankNode with
    name := rootName, type := .dir, ops := some .ramfs, parent := some (.pool 0) } := by
  simp [vfsInit, allocNode, setNode, vfsMaxNodes]

theorem grown_init (v : NodeStore) : Grown (vfsInit v) := by
  have hused : (vfsInit v).nodePoolUsed = 1 := rfl
  constructor
  · rfl
  · exact hused ▸ Nat.one_pos
  · exact hused ▸ by decide
  · intro p hp
    rw [inUse_init hp, init_root]
  · rw [init_root]
  · intro i h0 hi
    omega
  · intro d hd c hc
    rw [inUse_init hd, init_root] at hc
    exact absurd hc List.not_mem_nil
  · intro d hd
    rw [inUse_init hd, init_root]
    exact List.nodup_nil
  · intro d hd
    rw [inUse_init hd, init_root]
    exact Nat.zero_le _

theorem Grown.reaches {v : NodeStore} (h : Grown v) (i : Nat) (hi : i < v.nodePoolUsed) :
    ReflTransGen (IsParent v) (.pool i) (.pool 0) := by
  induction i using Nat.strong_induction_on with
  | _ i ih =>
    by_cases h0 : i = 0
    · subst h0
      exact .refl
    · obtain ⟨j, hj, hp, -⟩ := h.parent i (by omega) hi
      exact .head hp (ih j hj (by omega))

theorem Grown.rootedTree {v : NodeStore} (h : Grown v) : RootedTree v (.pool 0) := by
  constructor
  · exact ⟨h.root, ⟨0, h.pos, rfl⟩, h.root_dir⟩
  · intro d n hd hn
    obtain ⟨-, j, hj, hlt, rfl⟩ := h.child d hd n hn
    refine ⟨⟨j, hlt, rfl⟩, ?_⟩
    intro he
    have := Ptr.pool.inj he
    omega
  · rintro n ⟨i, hi, rfl⟩ hne
    have hi0 : 0 < i := Nat.pos_of_ne_zero (fun h0 => hne (h0 ▸ rfl))
    obtain ⟨j, hj, hp, hdir, hmem⟩ := h.parent i hi0 hi
    have hd : InUse v (.pool j) := ⟨j, by omega, rfl⟩
    refine ⟨.pool j, hd, hp, hdir, ?_, ?_⟩
    · exact List.count_eq_one_of_mem (h.siblings _ hd).of_map hmem
    · intro d' hd' hmem'
      have hp' := (h.child d' hd' _ hmem').1
      exact Option.some.inj (hp'.symm.trans hp)
  · rintro n ⟨i, hi, rfl⟩
    exact h.reaches i hi
  · exact h.siblings
  · exact h.children_le
  · exact h.pool_le

def newNode (v : NodeStore) (type : VfsNodeType) (d : Ptr) (name : List UInt8) : VfsNode :=
  { blankNode with name := name, type := type, ops := (v.nodes d).ops, parent := some d }

def added (v : NodeStore) (type : VfsNodeType) (d : Ptr) (name : List UInt8) : NodeStore :=
  { v with
    nodes := Function.update
      (Function.update v.nodes (.pool v.nodePoolUsed) (newNode v type d name)) d
      { v.nodes d with children := (v.nodes d).children ++ [.pool v.nodePoolUsed] }
    nodePoolUsed := v.nodePoolUsed + 1 }

-- When ramfs_mkdir and ramfs_create make a node.
structure Admits (v : NodeStore) (d : Ptr) (name : List UInt8) : Prop where
  dir : (v.nodes d).type = .dir
  room : (v.nodes d).children.length < vfsMaxChildren
  fresh : ∀ c ∈ (v.nodes d).children, kstrcmp (v.nodes c).name name ≠ 0
  pool : v.nodePoolUsed < vfsMaxNodes

section Add

variable {v : NodeStore} {type : VfsNodeType} {d : Ptr} {name : List UInt8}

theorem InUse.ne_next {p : Ptr} (h : InUse v p) : p ≠ .pool v.nodePoolUsed := by
  obtain ⟨i, hi, rfl⟩ := h
  intro he
  have := Ptr.pool.inj he
  omega

theorem ramfsFinddir_none (hd : (v.nodes d).type = .dir) :
    (ramfsFinddir v d name).isSome = false ↔
      ∀ c ∈ (v.nodes d).children, kstrcmp (v.nodes c).name name ≠ 0 := by
  simp [ramfsFinddir, hd]

theorem ramfsAdd_cases (type : VfsNodeType) (name : List UInt8) (hd : InUse v d) :
    ramfsAdd type v d name = (none, v) ∨
      Admits v d name ∧
        ramfsAdd type v d name = (some (.pool v.nodePoolUsed), added v type d name) := by
  by_cases hdir : (v.nodes d).type = .dir
  swap
  · exact Or.inl (by simp [ramfsAdd, hdir])
  by_cases hroom : vfsMaxChildren ≤ (v.nodes d).children.length
  · exact Or.inl (by simp [ramfsAdd, hroom])
  cases hfind : (ramfsFinddir v d name).isSome
  swap
  · exact Or.inl (by simp [ramfsAdd, hfind])
  by_cases hpool : vfsMaxNodes ≤ v.nodePoolUsed
  · exact Or.inl (by simp [ramfsAdd, allocNode, hpool])
  · refine Or.inr ⟨⟨hdir, Nat.lt_of_not_le hroom, (ramfsFinddir_none hdir).mp hfind,
      Nat.lt_of_not_le hpool⟩, ?_⟩
    simp [ramfsAdd, allocNode, hdir, hroom, hfind, hpool, added, setNode, newNode,
      Function.update_of_ne hd.ne_next]

theorem ramfsAdd_admits (hd : InUse v d) (ha : Admits v d name) :
    ramfsAdd type v d name = (some (.pool v.nodePoolUsed), added v type d name) := by
  rcases ramfsAdd_cases type name hd with he | ⟨-, he⟩
  · have hfind := (ramfsFinddir_none ha.dir).mpr ha.fresh
    rw [ramfsAdd, if_neg (not_not.mpr ha.dir), if_neg (Nat.not_le.mpr ha.room), hfind] at he
    simp [allocNode, Nat.not_le.mpr ha.pool] at he
  · exact he

@[simp] theorem added_used : (added v type d name).nodePoolUsed = v.nodePoolUsed + 1 := rfl

theorem added_new (hd : InUse v d) :
    (added v type d name).nodes (.pool v.nodePoolUsed) = newNode v type d name := by
  simp [added, Function.update_of_ne hd.ne_next.symm]

theorem added_dir : (added v type d name).nodes d =
    { v.nodes d with children := (v.nodes d).children ++ [.pool v.nodePoolUsed] } := by
  simp [added]

theorem added_other {p : Ptr} (hp : InUse v p) (hne : p ≠ d) :
    (added v type d name).nodes p = v.nodes p := by
  simp [added, Function.update_of_ne hne, Function.update_of_ne hp.ne_next]

theorem added_kept (type : VfsNodeType) (d : Ptr) (name : List UInt8) {p : Ptr}
    (hp : InUse v p) :
    ∃ cs, (added v type d name).nodes p = { v.nodes p with children := cs } := by
  by_cases h : p = d
  · subst h
    exact ⟨_, added_dir⟩
  · exact ⟨_, added_other hp h⟩

theorem inUse_added {p : Ptr} (h : InUse (added v type d name) p) :
    InUse v p ∨ p = .pool v.nodePoolUsed := by
  obtain ⟨i, hi, rfl⟩ := h
  rcases Nat.lt_succ_iff_lt_or_eq.mp hi with hi | rfl
  · exact Or.inl ⟨i, hi, rfl⟩
  · exact Or.inr rfl

theorem InUse.added {p : Ptr} (h : InUse v p) : InUse (added v type d name) p := by
  obtain ⟨i, hi, rfl⟩ := h
  exact ⟨i, Nat.lt_succ_of_lt hi, rfl⟩

theorem kstrcmp_self (s : List UInt8) : kstrcmp s s = 0 := by
  induction s with
  | nil => rfl
  | cons c cs ih => rw [kstrcmp, if_pos rfl, ih]

theorem added_parent {p q : Ptr} (hp : InUse v p) :
    IsParent (added v type d name) p q ↔ IsParent v p q := by
  obtain ⟨cs, h⟩ := added_kept type d name hp
  rw [IsParent, h, IsParent]

theorem added_type {p : Ptr} (hp : InUse v p) :
    ((added v type d name).nodes p).type = (v.nodes p).type := by
  obtain ⟨cs, h⟩ := added_kept type d name hp
  rw [h]

theorem added_name {p : Ptr} (hp : InUse v p) :
    ((added v type d name).nodes p).name = (v.nodes p).name := by
  obtain ⟨cs, h⟩ := added_kept type d name hp
  rw [h]

theorem added_ops {p : Ptr} (hp : InUse v p) :
    ((added v type d name).nodes p).ops = (v.nodes p).ops := by
  obtain ⟨cs, h⟩ := added_kept type d name hp
  rw [h]

theorem added_children {p : Ptr} (hd : InUse v d) (hp : InUse (added v type d name) p) :
    ((added v type d name).nodes p).children =
      if p = d then (v.nodes d).children ++ [.pool v.nodePoolUsed]
      else if p = .pool v.nodePoolUsed then [] else (v.nodes p).children := by
  by_cases h : p = d
  · subst h
    rw [added_dir, if_pos rfl]
  rw [if_neg h]
  rcases inUse_added hp with hv | rfl
  · rw [added_other hv h, if_neg hv.ne_next]
  · rw [added_new hd, if_pos rfl]
    rfl

-- A node goes in under a name that its directory does not have yet.
theorem added_siblings (hd : InUse v d) (ha : Admits v d name)
    (hnames : ∀ q, InUse v q → ∀ c ∈ (v.nodes q).children,
      ((added v type d name).nodes c).name = (v.nodes c).name)
    (hsib : ∀ q, InUse v q → ((v.nodes q).children.map fun c => (v.nodes c).name).Nodup) {p : Ptr}
    (hp : InUse (added v type d name) p) :
    (((added v type d name).nodes p).children.map fun c =>
      ((added v type d name).nodes c).name).Nodup := by
  have hkept : ∀ q, InUse v q → ((v.nodes q).children.map fun c =>
      ((added v type d name).nodes c).name) =
      (v.nodes q).children.map fun c => (v.nodes c).name :=
    fun q hq => List.map_congr_left (hnames q hq)
  rw [added_children hd hp]
  split
  · rw [List.map_append, hkept d hd, List.map_singleton, added_new hd]
    refine List.nodup_append.mpr ⟨hsib d hd, by simp, ?_⟩
    intro a ha' b hb
    rw [List.mem_singleton.mp hb]
    obtain ⟨c, hc, rfl⟩ := List.mem_map.mp ha'
    intro he
    refine ha.fresh c hc ?_
    rw [he]
    exact kstrcmp_self name
  · split
    · exact List.nodup_nil
    · rename_i hne
      have hv : InUse v p := (inUse_added hp).resolve_right hne
      rw [hkept p hv]
      exact hsib p hv

theorem grown_added (h : Grown v) (hd : InUse v d) (ha : Admits v d name) :
    Grown (added v type d name) := by
  have hchild : ∀ c ∈ (v.nodes d).children, InUse v c := by
    intro c hc
    obtain ⟨-, j, -, hj, rfl⟩ := h.child d hd c hc
    exact ⟨j, hj, rfl⟩
  have hroot : InUse v (.pool 0) := ⟨0, h.pos, rfl⟩
  constructor
  · exact h.root
  · exact Nat.succ_pos _
  · exact ha.pool
  · intro p hp
    rcases inUse_added hp with hp | rfl
    · rw [added_ops hp, h.ramfs p hp]
    · rw [added_new hd]
      exact h.ramfs d hd
  · rw [added_type hroot, h.root_dir]
  · intro i h0 hi
    rcases Nat.lt_succ_iff_lt_or_eq.mp hi with hi | rfl
    · obtain ⟨j, hj, hp, hdir, hmem⟩ := h.parent i h0 hi
      have hj' : InUse v (.pool j) := ⟨j, by omega, rfl⟩
      refine ⟨j, hj, (added_parent ⟨i, hi, rfl⟩).mpr hp, by rw [added_type hj', hdir], ?_⟩
      rw [added_children hd hj'.added]
      split
      · rename_i he
        exact List.mem_append_left _ (he ▸ hmem)
      · rwa [if_neg hj'.ne_next]
    · obtain ⟨j, hj, he⟩ := id hd
      subst he
      refine ⟨j, hj, ?_, ?_, ?_⟩
      · rw [IsParent, added_new hd]
        rfl
      · rw [added_type hd, ha.dir]
      · rw [added_children hd hd.added, if_pos rfl]
        simp
  · intro p hp c hc
    rw [added_children hd hp] at hc
    split at hc
    · rename_i he
      subst he
      rcases List.mem_append.mp hc with hc | hc
      · obtain ⟨hpar, j, h0, hj, rfl⟩ := h.child p hd c hc
        exact ⟨(added_parent ⟨j, hj, rfl⟩).mpr hpar, j, h0, Nat.lt_succ_of_lt hj, rfl⟩
      · rw [List.mem_singleton.mp hc]
        refine ⟨?_, v.nodePoolUsed, h.pos, Nat.lt_succ_self _, rfl⟩
        rw [IsParent, added_new hd]
        rfl
    · split at hc
      · exact absurd hc List.not_mem_nil
      · rename_i hne
        have hv : InUse v p := (inUse_added hp).resolve_right hne
        obtain ⟨hpar, j, h0, hj, rfl⟩ := h.child p hv c hc
        exact ⟨(added_parent ⟨j, hj, rfl⟩).mpr hpar, j, h0, Nat.lt_succ_of_lt hj, rfl⟩
  · intro p hp
    refine added_siblings hd ha (fun q hq c hc => ?_) h.siblings hp
    obtain ⟨-, j, -, hj, rfl⟩ := h.child q hq c hc
    exact added_name ⟨j, hj, rfl⟩
  · intro p hp
    rw [added_children hd hp]
    split
    · rw [List.length_append, List.length_singleton]
      exact ha.room
    · split
      · exact Nat.zero_le _
      · rename_i hne
        exact h.children_le p ((inUse_added hp).resolve_right hne)

end Add

section Calls

variable {k : Kernel} {c : TreeCall}

theorem opsOf_ram (h : Grown k.vfs) {d : Ptr} (hd : InUse k.vfs d) :
    opsOf k (some d) = some (d, .ramfs) := by
  simp [opsOf, h.ramfs d hd]

-- What a call on RAM nodes does: nothing, or it adds one node.
inductive Outcome (k : Kernel) : Option Ptr → Kernel → Prop where
  | refused : Outcome k none k
  | made {type d name} : InUse k.vfs d → Admits k.vfs d name →
      Outcome k (some (.pool k.vfs.nodePoolUsed)) { k with vfs := added k.vfs type d name }

theorem onNodes_outcome {d : Ptr} (hd : InUse k.vfs d) (type : VfsNodeType)
    (name : List UInt8) : ∃ r k', onNodes (fun v => ramfsAdd type v d name) k = (some r, k') ∧
      Outcome k r k' := by
  rw [onNodes]
  rcases ramfsAdd_cases type name hd with he | ⟨ha, he⟩
  · rw [he]
    exact ⟨none, k, rfl, .refused⟩
  · rw [he]
    exact ⟨_, _, rfl, .made hd ha⟩

theorem treeCall_outcome (h : Grown k.vfs) (hc : c.OnRam k.vfs) (fuel : Nat) :
    ∃ r k', c.run fuel k = (some r, k') ∧ Outcome k r k' := by
  cases c with
  | mkdir node name =>
    cases node with
    | none => exact ⟨none, k, rfl, .refused⟩
    | some d =>
      have hd : InUse k.vfs d := hc d rfl
      rw [TreeCall.run, vfsMkdir, get_bind, opsOf_ram h hd]
      exact onNodes_outcome hd .dir name.val
  | create node name =>
    cases node with
    | none => exact ⟨none, k, rfl, .refused⟩
    | some d =>
      have hd : InUse k.vfs d := hc d rfl
      rw [TreeCall.run, vfsCreate, get_bind, opsOf_ram h hd]
      exact onNodes_outcome hd .file name.val

theorem Outcome.grown {r : Option Ptr} {k' : Kernel} (ho : Outcome k r k') (h : Grown k.vfs) :
    Grown k'.vfs := by
  cases ho with
  | refused => exact h
  | made hd ha => exact grown_added h hd ha

theorem treeStep_outcome {k k' : Kernel} (h : Grown k.vfs) (hs : TreeStep k k') :
    ∃ r, Outcome k r k' := by
  obtain ⟨c, fuel, r, hc, he⟩ := hs
  obtain ⟨r', k'', he', ho⟩ := treeCall_outcome h hc fuel
  rw [he] at he'
  rw [(Prod.mk.inj he').2]
  exact ⟨r', ho⟩

theorem treeRun_grown {k k' : Kernel} (hr : ReflTransGen TreeStep (booted k) k') :
    Grown k'.vfs := by
  induction hr with
  | refl => exact grown_init k.vfs
  | tail _ hs ih =>
    obtain ⟨r, ho⟩ := treeStep_outcome ih hs
    exact ho.grown ih

end Calls

theorem tree_kept (k k' : Kernel) (hr : ReflTransGen TreeStep (booted k) k') :
    (∃ root, RootedTree k'.vfs root) ∧
      ∀ (c : TreeCall) (fuel : Nat), c.OnRam k'.vfs →
        ∃ r k'', c.run fuel k' = (some r, k'') ∧ (r = none → k'' = k') := by
  have h := treeRun_grown hr
  refine ⟨⟨_, h.rootedTree⟩, fun c fuel hc => ?_⟩
  obtain ⟨r, k'', he, ho⟩ := treeCall_outcome h hc fuel
  refine ⟨r, k'', he, ?_⟩
  rintro rfl
  cases ho
  rfl

theorem nameA_fits : isCString [0x41] ∧ [(0x41 : UInt8)].length < vfsMaxName :=
  ⟨by simp [isCString], by decide⟩

def makeA : TreeCall := .mkdir (some (.pool 0)) ⟨[0x41], nameA_fits⟩

def madeA : Kernel := (makeA.run 0 (booted powerOn)).2

theorem tree_kept_makeA : (∃ root, RootedTree madeA.vfs root) ∧
    ∀ (c : TreeCall) (fuel : Nat), c.OnRam madeA.vfs →
      ∃ r k'', c.run fuel madeA = (some r, k'') ∧ (r = none → k'' = madeA) :=
  tree_kept powerOn madeA (.single ⟨makeA, 0, some (.pool 1),
    fun _ hp => ⟨0, Nat.one_pos, (Option.some.inj hp).symm⟩, rfl⟩)

end Vfs
