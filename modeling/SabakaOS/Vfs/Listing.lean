import SabakaOS.Fat32.Removal
import SabakaOS.Vfs.Lookup

namespace Vfs

open Prog
open Fat32 (Fat32Entry Env Good Vol Link Skipped Step listing files dirHead entriesPerClust isDots
  hasAttr attrDirectory kstricmp upper)

-- A node on disk with the entry e, whose place no later node takes.
structure DiskNodeAt (k : Kernel) (p : Ptr) (e : Fat32Entry) : Prop where
  entry : (k.vfs.nodes p).data = some (.entry e)
  ops : (k.vfs.nodes p).ops = some .disk
  made : ∀ j, p = .heap j → j < k.heapCalls

def listedName (fs : List Fat32Entry) (i : Nat) : Except Int (List UInt8) :=
  match fs[i]? with
  | some f => .ok f.name
  | none => .error (-1)

section Listing

variable {E : Env} {V : Vol} {k k' k'' : Kernel} {p : Ptr} {d g : Fat32Entry}
  {fuel turns c i r index : Nat} {l : List Nat} {es : List Fat32Entry} {name : List UInt8}

-- A call of the driver with turns to spare ends.
theorem onDisk_runs {α : Type} {q : Fat32.Drv α} {Q : α → Fat32.World → Prop}
    {S : Fat32.World → Prop} (h : Runs q k.disk Q S) (hS : ∀ w, ¬S w) : Runs (onDisk q) k
      (fun a k' => k' = { k with disk := k'.disk } ∧ Q a k'.disk) (fun _ => False) := by
  unfold Runs at *
  rcases hq : q k.disk with ⟨_ | a, w⟩
  · rw [hq] at h
    exact absurd h (hS w)
  · rw [hq] at h
    rw [onDisk, hq]
    exact ⟨rfl, h⟩

theorem Passed.diskNode (h : Passed E V k k') (hp : DiskNodeAt k p d) : DiskNodeAt k' p d := by
  have hnode : k'.vfs.nodes p = k.vfs.nodes p := by
    cases p with
    | pool i => exact h.pools i
    | heap j => exact h.nodes j (hp.made j rfl)
  refine ⟨?_, ?_, fun j hj => (hp.made j hj).trans_le h.calls⟩
  · rw [hnode]
    exact hp.entry
  · rw [hnode]
    exact hp.ops

theorem DiskNodeAt.getEntry (h : DiskNodeAt k p d) : getEntry (k.vfs.nodes p) = some d := by
  rw [Vfs.getEntry, h.entry]

theorem DiskNodeAt.dirCluster (h : DiskNodeAt k p d) : dirCluster k p = d.cluster := by
  rw [Vfs.dirCluster, h.getEntry]

theorem DiskNodeAt.opsOf (h : DiskNodeAt k p d) : opsOf k (some p) = some (p, .disk) := by
  simp [Vfs.opsOf, h.ops]

theorem Passed.step {w' : Fat32.World} (hs : Step E k.disk w')
    (hv : Fat32.view w' = Fat32.view k.disk) (hvol : E.vol k.disk = V)
    (hk : k' = { k with disk := w' }) : Passed E V k k' := by
  subst hk
  refine ⟨hs.good, ?_, rfl, le_rfl, fun _ => rfl, fun _ _ => rfl, rfl, rfl⟩
  rw [← hvol, Env.vol, Env.vol, hv]

theorem kstricmp_self (s : List UInt8) : kstricmp s s = 0 := by
  induction s with
  | nil => rfl
  | cons a s ih =>
    unfold kstricmp
    rw [if_neg (not_not.mpr rfl)]
    exact ih

-- r of the entries before i are not '.' or '..'.
theorem diskReaddirFrom_lists (hE : E.Lawful) (hloose : E.Loose) (hq : E.Quiet)
    (hg : Good E k.disk) (hv : E.vol k.disk = V)
    (hl : Link E.clusters V Fat32.fat32Eof (dirHead E.mount c) l)
    (hes : listing V (entriesPerClust E.mount) c l = es) (hfuel : E.turns < fuel)
    (hn : es.length < turns + i) (hi : i ≤ es.length) (hr : r ≤ index) :
    Runs (diskReaddirFrom fuel c index turns i r) k (fun a k' => Passed E V k k' ∧
      a = listedName ((es.drop i).filter fun e => !isDots e.name) (index - r))
      (fun _ => False) := by
  have hlist := hq.list
  have hturns := (Fat32.turns_le hE.fits hl).1
  induction turns generalizing k i r with
  | zero => omega
  | succ turns ih =>
    unfold diskReaddirFrom
    refine (onDisk_runs (Fat32.fat32Readdir_runs hE hg hloose.opens (hv.symm ▸ hl) (.inl rfl))
      fun _ h => Nat.not_le.mpr hfuel (h.2.trans hturns)).bind ?_
    rintro x k1 ⟨hk1, hs1, hv1, hx⟩
    obtain rfl := hx.resolve_right fun h => hlist h.2
    have hpass : Passed E V k k1 := .step hs1 hv1 hv hk1
    rw [hv, hes]
    rcases hget : es[i]? with _ | f
    · rw [List.drop_eq_nil_of_le (List.getElem?_eq_none_iff.mp hget)]
      exact Runs.pure ⟨hpass, rfl⟩
    · obtain ⟨hlt, hf⟩ := List.getElem?_eq_some_iff.mp hget
      have hgo : ∀ r' ≤ index, listedName ((es.drop (i + 1)).filter fun e => !isDots e.name)
          (index - r') = listedName ((es.drop i).filter fun e => !isDots e.name) (index - r) →
          Runs (diskReaddirFrom fuel c index turns (i + 1) r') k1 (fun a k' => Passed E V k k' ∧
            a = listedName ((es.drop i).filter fun e => !isDots e.name) (index - r))
            (fun _ => False) := by
        intro r' hr' heq
        refine (ih hpass.good hpass.vol (by omega) hlt hr').mono ?_ (fun _ h => h)
        rintro a k2 ⟨hpass2, ha⟩
        exact ⟨hpass.trans hpass2, ha.trans heq⟩
      rw [List.drop_eq_getElem_cons hlt, hf] at hgo ⊢
      change Runs (if isDots f.name = true then diskReaddirFrom fuel c index turns (i + 1) r
        else if r = index then pure (.ok f.name)
        else diskReaddirFrom fuel c index turns (i + 1) (r + 1)) k1 _ _
      split
      · rename_i hd
        refine hgo r hr ?_
        rw [List.filter_cons_of_neg (by simp [hd])]
      · rename_i hd
        rw [List.filter_cons_of_pos (by simp [hd])] at hgo ⊢
        split
        · rename_i heq
          rw [heq, Nat.sub_self]
          exact Runs.pure ⟨hpass, rfl⟩
        · rename_i hne
          refine hgo (r + 1) (by omega) ?_
          rw [show index - r = index - (r + 1) + 1 by omega]
          rfl

theorem vfsReaddir_lists (hE : E.Lawful) (hloose : E.Loose) (hq : E.Quiet)
    (hg : Good E k.disk) (hv : E.vol k.disk = V) (hp : DiskNodeAt k p d)
    (hl : Link E.clusters V Fat32.fat32Eof (dirHead E.mount d.cluster) l)
    (hfuel : E.turns < fuel) : Runs (vfsReaddir fuel (some p) index) k (fun a k' =>
      Passed E V k k' ∧ a = listedName (files V (entriesPerClust E.mount) d.cluster l) index)
      (fun _ => False) := by
  unfold vfsReaddir
  refine Runs.get_bind ?_
  rw [hp.opsOf]
  unfold diskReaddir
  refine Runs.get_bind ?_
  rw [hp.dirCluster]
  have hlen := (@Fat32.length_le_slots E d.cluster l V hE.fits).2
  have hturns := (Fat32.turns_le hE.fits hl).2
  exact diskReaddirFrom_lists hE hloose hq hg hv hl rfl hfuel
    (Nat.lt_of_le_of_lt (hlen.trans hturns) hfuel) (Nat.zero_le _) (Nat.zero_le _)

-- Under the name of a listed file, some listed file is found.
theorem vfsFinddir_lists (hE : E.Lawful) (hloose : E.Loose) (hq : E.Quiet)
    (hg : Good E k.disk) (hv : E.vol k.disk = V) (hheap : ∀ n, k.heap n = true)
    (hp : DiskNodeAt k p d)
    (hl : Link E.clusters V Fat32.fat32Eof (dirHead E.mount d.cluster) l)
    (hmem : g ∈ files V (entriesPerClust E.mount) d.cluster l) (hfuel : E.turns < fuel) :
    Runs (vfsFinddir fuel (some p) g.name) k (fun a k' => Passed E V k k' ∧
      ∃ f ∈ files V (entriesPerClust E.mount) d.cluster l, ∃ j, a = some (.heap j) ∧
        k'.vfs.nodes (.heap j) = diskNode f.name f (some .disk)) (fun _ => False) := by
  have hlist := hq.list
  have hturns := (Fat32.turns_le hE.fits hl).2
  obtain ⟨hlisted, hnd⟩ := Fat32.mem_files.mp hmem
  unfold vfsFinddir
  refine Runs.get_bind ?_
  rw [hp.opsOf]
  unfold diskFinddir
  refine Runs.get_bind ?_
  rw [hp.dirCluster]
  refine (onDisk_runs (Fat32.fat32Find_runs hE hg hloose.opens (hv.symm ▸ hl))
    fun _ h => Nat.not_le.mpr hfuel (h.2.trans hturns)).bind ?_
  rintro x k1 ⟨hk1, hs1, hv1, hx⟩
  rw [hv] at hx
  cases x with
  | error z =>
    have hskip := hx.resolve_right hlist g hlisted
    rcases hskip with hd | hne
    · cases hnd.symm.trans hd
    · exact absurd (kstricmp_self g.name) hne
  | ok f =>
    obtain ⟨n, hget, -, hskip⟩ := hx
    rw [hk1]
    have hvol : E.vol k1.disk = V := by rw [← hv, Env.vol, Env.vol, hv1]
    obtain ⟨k2, hrun, -⟩ := @storedNode_found { k with disk := k1.disk } hheap p f
    obtain ⟨hpass, j, hj, -, -, hnode⟩ := Passed.stored hheap hs1.good hvol hrun
    unfold Runs
    rw [hrun]
    refine ⟨hpass, f, Fat32.mem_files.mpr ⟨List.mem_of_getElem? hget, ?_⟩, j, hj, ?_⟩
    · exact Bool.eq_false_iff.mpr fun h => hskip (.inl h)
    · rw [hnode, hp.ops]

end Listing

end Vfs
