import SabakaOS.Vfs.BackEnds

namespace Vfs

open Prog NameTree
open Fat32 (Fat32Entry Env Good Vol Link IsDir Sound Consistent volume worldEnv anyRule listing dirHead
  entriesPerClust hasAttr attrDirectory)

-- The nodes in A are the RAM tree, the mount points on it and the current directory; their
-- pointers lead to nodes in A.
structure Grounded (A : Set Ptr) (k : Kernel) : Prop where
  root : ∀ p, k.vfs.rootNode = some p → p ∈ A
  cwd : ∀ p, k.vfs.cwdNode = some p → p ∈ A
  parent : ∀ p ∈ A, ∀ q, (k.vfs.nodes p).parent = some q → q ∈ A
  children : ∀ p ∈ A, ∀ q ∈ (k.vfs.nodes p).children, q ∈ A
  made : ∀ j, Ptr.heap j ∈ A → j < k.heapCalls
  dirs : ∀ p ∈ A, ∀ e, getEntry (k.vfs.nodes p) = some e → hasAttr e.attr attrDirectory = true

-- A lookup leaves the volume as it was, and every node there was.
structure Passed (E : Env) (V : Vol) (k k' : Kernel) : Prop where
  good : Good E k'.disk
  vol : E.vol k'.disk = V
  heap : k'.heap = k.heap
  calls : k.heapCalls ≤ k'.heapCalls
  pools : ∀ i, k'.vfs.nodes (.pool i) = k.vfs.nodes (.pool i)
  nodes : ∀ j < k.heapCalls, k'.vfs.nodes (.heap j) = k.vfs.nodes (.heap j)
  root : k'.vfs.rootNode = k.vfs.rootNode
  cwd : k'.vfs.cwdNode = k.vfs.cwdNode

-- The names of a path that are looked up on disk are looked up in directories.
def Through (m : Fat32.Mount) (N : Nat) (V : Vol) (fuel : Nat) :
    List (List UInt8) → Ptr → Kernel → Prop
  | [], _, _ => True
  | c :: cs, d, k =>
    (moveOf c = .down c → (k.vfs.nodes d).ops = some .disk →
      IsDir m N V (dirHead m (dirCluster k d))) ∧
    ∀ next k', resolveOne fuel d c k = (some (some next), k') → Through m N V fuel cs next k'

-- A node from make_disk_node, with an entry that a directory lists.
def Found (E : Env) (V : Vol) (b : Nat) (k : Kernel) (p : Ptr) : Prop :=
  ∃ j d ld f, p = .heap j ∧ b ≤ j ∧ j < k.heapCalls ∧
    Link E.clusters V Fat32.fat32Eof (dirHead E.mount d) ld ∧
    f ∈ listing V (entriesPerClust E.mount) d ld ∧
    k.vfs.nodes p = diskNode f.name f (some .disk)

section Lookup

variable {E : Env} {V : Vol} {A : Set Ptr} {k k' k'' : Kernel} {d p n : Ptr} {r : Option Ptr}
  {fuel b : Nat} {c path : List UInt8} {cs : List (List UInt8)}

theorem Passed.refl (hg : Good E k.disk) (hv : E.vol k.disk = V) : Passed E V k k :=
  ⟨hg, hv, rfl, le_rfl, fun _ => rfl, fun _ _ => rfl, rfl, rfl⟩

theorem Passed.trans (h : Passed E V k k') (h' : Passed E V k' k'') : Passed E V k k'' :=
  ⟨h'.good, h'.vol, h'.heap.trans h.heap, h.calls.trans h'.calls,
    fun i => (h'.pools i).trans (h.pools i),
    fun j hj => (h'.nodes j (hj.trans_le h.calls)).trans (h.nodes j hj),
    h'.root.trans h.root, h'.cwd.trans h.cwd⟩

theorem Passed.node (h : Passed E V k k') (hA : Grounded A k) (hp : p ∈ A) :
    k'.vfs.nodes p = k.vfs.nodes p := by
  cases p with
  | pool i => exact h.pools i
  | heap j => exact h.nodes j (hA.made j hp)

theorem Passed.grounded (h : Passed E V k k') (hA : Grounded A k) : Grounded A k' where
  root p hp := hA.root p (h.root ▸ hp)
  cwd p hp := hA.cwd p (h.cwd ▸ hp)
  parent p hp := by
    rw [h.node hA hp]
    exact hA.parent p hp
  children p hp := by
    rw [h.node hA hp]
    exact hA.children p hp
  made j hj := (hA.made j hj).trans_le h.calls
  dirs p hp := by
    rw [h.node hA hp]
    exact hA.dirs p hp

theorem setNode_self (v : NodeStore) (p : Ptr) (f : VfsNode → VfsNode) :
    (setNode v p f).nodes p = f (v.nodes p) := Function.update_self ..

theorem setNode_other {v : NodeStore} {q : Ptr} (f : VfsNode → VfsNode) (h : q ≠ p) :
    (setNode v p f).nodes q = v.nodes q := Function.update_of_ne h ..

theorem Found.later (h : Found E V b k p) (hp : Passed E V k k') : Found E V b k' p := by
  obtain ⟨j, d, ld, f, rfl, hb, hj, hl, hm, hnode⟩ := h
  exact ⟨j, d, ld, f, rfl, hb, hj.trans_le hp.calls, hl, hm, (hp.nodes j hj).trans hnode⟩

theorem Passed.stored {w' : Fat32.World} (hheap : ∀ n, k.heap n = true) (hg : Good E w')
    (hv : E.vol w' = V) {e : Fat32Entry}
    (hrun : storedNode d (.ok e) { k with disk := w' } = (some r, k')) :
    Passed E V k k' ∧ ∃ j, r = some (.heap j) ∧ k.heapCalls ≤ j ∧ j < k'.heapCalls ∧
      k'.vfs.nodes (.heap j) = diskNode e.name e (k.vfs.nodes d).ops := by
  obtain ⟨k₁, he, hdisk, hheap', hcalls, hvfs⟩ := @storedNode_found { k with disk := w' } hheap d e
  obtain ⟨hr, rfl⟩ := Prod.mk.inj (hrun.symm.trans he)
  refine ⟨⟨hdisk ▸ hg, hdisk ▸ hv, hheap', by rw [hcalls]; exact Nat.le_add_right .., fun i => ?_,
    fun j hj => ?_, by rw [hvfs]; rfl, by rw [hvfs]; rfl⟩, k.heapCalls + 1, Option.some.inj hr,
    Nat.le_succ _, by rw [hcalls]; exact Nat.lt_succ_self _, ?_⟩
  · rw [hvfs]
    exact setNode_other _ fun h => by cases h
  · rw [hvfs]
    exact setNode_other _ fun h => absurd (Ptr.heap.inj h) (Nat.ne_of_lt (Nat.lt_succ_of_lt hj))
  · rw [hvfs]
    exact setNode_self ..

theorem vfsFinddir_passed (hE : E.Lawful) (hloose : E.Loose)
    (hs : ∃ D H, Sound E.mount E.clusters V D H ∅) (hg : Good E k.disk) (hv : E.vol k.disk = V)
    (hheap : ∀ n, k.heap n = true)
    (hdir : (k.vfs.nodes d).ops = some .disk →
      IsDir E.mount E.clusters V (dirHead E.mount (dirCluster k d)))
    (hrun : vfsFinddir fuel (some d) c k = (some r, k')) :
    Passed E V k k' ∧ ∀ n, r = some n →
      n ∈ (k.vfs.nodes d).children ∨ Found E V k.heapCalls k' n := by
  rw [vfsFinddir, get_bind] at hrun
  rcases hops : (k.vfs.nodes d).ops with _ | ops
  · rw [show opsOf k (some d) = none by simp [opsOf, hops]] at hrun
    obtain ⟨hr, rfl⟩ := Prod.mk.inj hrun
    exact ⟨.refl hg hv, fun n hn => by cases (Option.some.inj hr).trans hn⟩
  rw [show opsOf k (some d) = some (d, ops) by simp [opsOf, hops]] at hrun
  cases ops with
  | ramfs =>
    obtain ⟨hr, rfl⟩ := Prod.mk.inj hrun
    obtain rfl := Option.some.inj hr
    refine ⟨.refl hg hv, fun n hn => .inl ?_⟩
    rw [ramfsFinddir] at hn
    split at hn
    · cases hn
    · exact List.mem_of_find?_eq_some hn
  | disk =>
    obtain ⟨D, H, hs⟩ := hs
    obtain ⟨ld, hld⟩ := hs.chain (hs.dirs (hs.isDir hE.fits.small (hdir hops)))
    have hfind := @Fat32.fat32Find_runs E k.disk (dirCluster k d) fuel ld c hE hg hloose.opens
      (hv.symm ▸ hld)
    dsimp only at hrun
    rw [diskFinddir, get_bind] at hrun
    rcases hp : Fat32.fat32Find fuel (dirCluster k d) c k.disk with ⟨x, w'⟩
    have hdisk : onDisk (Fat32.fat32Find fuel (dirCluster k d) c) k = (x, { k with disk := w' }) := by
      rw [onDisk, hp]
    cases x with
    | none =>
      rw [bind_stopped hdisk] at hrun
      cases hrun
    | some x =>
      rw [bind_ended hdisk] at hrun
      obtain ⟨hstep, hview, hx⟩ := hfind.result hp
      have hv' : E.vol w' = V := by rw [← hv, Env.vol, Env.vol, hview]
      cases x with
      | error z =>
        obtain ⟨hr, rfl⟩ := Prod.mk.inj hrun
        obtain rfl := Option.some.inj hr
        exact ⟨⟨hstep.good, hv', rfl, le_rfl, fun _ => rfl, fun _ _ => rfl, rfl, rfl⟩,
          fun n hn => by cases hn⟩
      | ok f =>
        obtain ⟨hpass, j, rfl, hb, hj, hnode⟩ := Passed.stored hheap hstep.good hv' hrun
        refine ⟨hpass, fun n hn => .inr ?_⟩
        obtain rfl := Option.some.inj hn
        obtain ⟨i, hi, -⟩ := hx
        rw [hv] at hi
        exact ⟨j, _, ld, f, rfl, hb, hj, hld, List.mem_of_getElem? hi, hops ▸ hnode⟩

theorem resolveAll_passed (hE : E.Lawful) (hloose : E.Loose)
    (hs : ∃ D H, Sound E.mount E.clusters V D H ∅) (hg : Good E k.disk) (hv : E.vol k.disk = V)
    (hheap : ∀ n, k.heap n = true) (hA : Grounded A k) (hb : b ≤ k.heapCalls)
    (hd : d ∈ A ∨ Found E V b k d) (hthrough : Through E.mount E.clusters V fuel cs d k)
    (hrun : resolveAll fuel cs d k = (some r, k')) :
    Passed E V k k' ∧ ∀ n, r = some n → n ∈ A ∨ Found E V b k' n := by
  induction cs generalizing k d with
  | nil =>
    obtain ⟨hr, rfl⟩ := Prod.mk.inj hrun
    refine ⟨.refl hg hv, fun n hn => ?_⟩
    obtain rfl := Option.some.inj ((Option.some.inj hr).trans hn)
    exact hd
  | cons c cs ih =>
    obtain ⟨hdir, hnext⟩ := hthrough
    rw [resolveAll] at hrun
    rcases hone : resolveOne fuel d c k with ⟨_ | next, k₁⟩
    · rw [bind_stopped hone] at hrun
      cases hrun
    rw [bind_ended hone] at hrun
    have hstep : Passed E V k k₁ ∧ ∀ n, next = some n → n ∈ A ∨ Found E V b k₁ n := by
      rcases moveOf_cases c with ⟨h1, -⟩ | ⟨h1, h2, -⟩ | ⟨-, -, hm⟩
      · rw [resolveOne, if_pos h1] at hone
        obtain ⟨hr, rfl⟩ := Prod.mk.inj hone
        refine ⟨.refl hg hv, fun n hn => ?_⟩
        obtain rfl := Option.some.inj ((Option.some.inj hr).trans hn)
        exact hd
      · rw [resolveOne, if_neg h1, if_pos h2] at hone
        obtain ⟨hr, rfl⟩ := Prod.mk.inj hone
        refine ⟨.refl hg hv, fun n hn => ?_⟩
        obtain rfl := Option.some.inj ((Option.some.inj hr).trans hn)
        rw [up]
        rcases hd with hd | hd
        · split
          · rename_i q hq
            exact .inl (hA.parent d hd q hq)
          · exact .inl hd
        · obtain ⟨j, dd, ld, f, hj, -, -, -, -, hnode⟩ := id hd
          rw [hnode]
          exact .inr hd
      · rw [resolveOne_down hm] at hone
        obtain ⟨hpass, hnode⟩ := vfsFinddir_passed hE hloose hs hg hv hheap (hdir hm) hone
        refine ⟨hpass, fun n hn => ?_⟩
        rcases hnode n hn with hc | ⟨j, dd, ld, f, rfl, hbj, hrest⟩
        · rcases hd with hd | ⟨j, dd, ld, f, rfl, -, -, -, -, hf⟩
          · exact .inl (hA.children d hd n hc)
          · rw [hf] at hc
            cases hc
        · exact .inr ⟨j, dd, ld, f, rfl, hb.trans hbj, hrest⟩
    obtain ⟨hpass, hnode⟩ := hstep
    cases next with
    | none =>
      obtain ⟨hr, rfl⟩ := Prod.mk.inj hrun
      exact ⟨hpass, fun n hn => by cases (Option.some.inj hr).trans hn⟩
    | some m =>
      obtain ⟨hpass', hr⟩ := ih hpass.good hpass.vol (fun n => by rw [hpass.heap]; exact hheap n)
        (hpass.grounded hA) (hb.trans hpass.calls) (hnode m rfl) (hnext m k₁ hone) hrun
      exact ⟨hpass.trans hpass', hr⟩

-- What vfs_resolve_path may come back with.
theorem vfsResolvePath_passed (hE : E.Lawful) (hloose : E.Loose)
    (hs : ∃ D H, Sound E.mount E.clusters V D H ∅) (hg : Good E k.disk) (hv : E.vol k.disk = V)
    (hheap : ∀ n, k.heap n = true) (hA : Grounded A k)
    (hthrough : ∀ cur, startOf path k = some cur →
      Through E.mount E.clusters V fuel (componentsOf path) cur k)
    (hrun : vfsResolvePath fuel path k = (some r, k')) :
    Passed E V k k' ∧ ∀ n, r = some n → n ∈ A ∨ Found E V k.heapCalls k' n := by
  rw [vfsResolvePath_eq] at hrun
  cases hstart : startOf path k with
  | none =>
    rw [hstart] at hrun
    obtain ⟨hr, rfl⟩ := Prod.mk.inj hrun
    exact ⟨.refl hg hv, fun n hn => by cases (Option.some.inj hr).trans hn⟩
  | some cur =>
    rw [hstart] at hrun
    have hcur : cur ∈ A := by
      unfold startOf at hstart
      split at hstart
      · exact hA.root cur hstart
      · exact hA.cwd cur hstart
    exact resolveAll_passed hE hloose hs hg hv hheap hA le_rfl (.inl hcur)
      (hthrough cur hstart) hrun

end Lookup

end Vfs
