import SabakaOS.Vfs.FileNodes

namespace Fat32

open Prog

section Names

variable {w : World} {fuel n i dirCluster index : Nat} {name a b : List UInt8}

theorem ucs2ToAscii_ne_zero (c : Nat) : ucs2ToAscii c ≠ 0 := by
  unfold ucs2ToAscii
  split
  · rename_i h
    intro h0
    have h1 := congrArg UInt8.toNat h0
    rw [UInt8.toNat_ofNat', Nat.mod_eq_of_lt (by omega)] at h1
    change c = 0 at h1
    omega
  · decide

theorem slotName_cString (lfns : List Slot) (s : Slot) : isCString (slotName lfns s) := by
  intro c hc
  unfold slotName at hc
  split at hc
  · obtain ⟨x, -, rfl⟩ := List.mem_map.mp hc
    exact ucs2ToAscii_ne_zero x
  · intro h0
    have := List.mem_takeWhile_imp hc
    simp [h0] at this

theorem readdirSlots_cString {st : Scan} {buf : Buffer} {e : Fat32Entry}
    (h : readdirSlots dirCluster index buf n i st = .found e) : isCString e.name := by
  induction n generalizing i st with
  | zero => cases h
  | succ n ih =>
    unfold readdirSlots at h
    dsimp only at h
    split at h
    · cases h
    split at h
    · exact ih h
    split at h
    · exact ih h
    split at h
    · exact ih h
    split at h
    · obtain rfl := Scanned.found.inj h
      exact slotName_cString _ _
    · exact ih h

theorem fat32Readdir_cString : Runs (fat32Readdir fuel dirCluster index) w
    (fun r _ => ∀ e, r = .ok e → isCString e.name) (fun _ => True) := by
  refine Runs.get_bind ?_
  split
  · exact Runs.pure fun e h => (by cases h)
  refine (runs_any _ _).bind fun ok w1 _ => ?_
  split
  · exact Runs.pure fun e h => (by cases h)
  generalize dirHead w.mount dirCluster = cur
  generalize scanStart = st
  induction fuel generalizing cur st w1 with
  | zero => exact Runs.stopped trivial
  | succ fuel ih =>
    unfold readdirFrom
    split
    · refine (runs_any _ _).bind fun r w2 _ => ?_
      cases r with
      | none => exact Runs.pure fun e h => (by cases h)
      | some buf =>
        refine Runs.get_bind ?_
        split
        · exact Runs.pure fun e h => (by cases h)
        · rename_i e he
          refine Runs.pure fun e' h => ?_
          obtain rfl := Except.ok.inj h
          exact readdirSlots_cString he
        · exact (runs_any _ _).bind fun cur w3 _ => ih w3 cur _
    · exact Runs.pure fun e h => (by cases h)

theorem kstricmp_length (ha : isCString a) (h : kstricmp a b = 0) : a.length ≤ b.length := by
  induction a generalizing b with
  | nil => exact Nat.zero_le _
  | cons x a ih =>
    have hx : x.toNat ≠ 0 := fun h => ha x List.mem_cons_self (UInt8.toNat_inj.mp h)
    cases b with
    | nil => exact absurd (Int.ofNat.inj h) hx
    | cons y b =>
      rw [kstricmp] at h
      split at h
      · rename_i hne
        exact absurd (charVal_inj (Int.sub_eq_zero.mp h)) hne
      · exact Nat.succ_le_succ (ih (fun c hc => ha c (List.mem_cons_of_mem x hc)) h)

theorem fat32Find_matches : Runs (fat32Find fuel dirCluster name) w
    (fun r _ => ∀ e, r = .ok e → isCString e.name ∧ kstricmp e.name name = 0)
    (fun _ => True) := by
  unfold fat32Find
  generalize 0 = i
  suffices h : ∀ turns, Runs (findFrom fuel dirCluster name turns i) w
      (fun r _ => ∀ e, r = .ok e → isCString e.name ∧ kstricmp e.name name = 0)
      (fun _ => True) from h fuel
  intro turns
  induction turns generalizing i w with
  | zero => exact Runs.stopped trivial
  | succ turns ih =>
    unfold findFrom
    refine fat32Readdir_cString.bind fun r w1 hr => ?_
    cases r with
    | error c => exact Runs.pure fun e h => (by cases h)
    | ok f =>
      dsimp only
      split
      · exact ih _
      split
      · rename_i hmatch
        refine Runs.pure fun e h => ?_
        obtain rfl := Except.ok.inj h
        exact ⟨hr f rfl, hmatch⟩
      · exact ih _

-- An entry is found under a name as long as its own.
theorem fat32Find_length : Runs (fat32Find fuel dirCluster name) w
    (fun r _ => ∀ e, r = .ok e → e.name.length ≤ name.length) (fun _ => True) :=
  fat32Find_matches.mono (fun _ _ h e he => kstricmp_length (h e he).1 (h e he).2) (fun _ h => h)

theorem fat32Create_name : Runs (fat32Create fuel dirCluster name) w
    (fun r _ => ∀ e, r = .ok e → e.name = name) (fun _ => True) :=
  fat32Create_entry.mono (fun _ _ h e he => by
    obtain ⟨i, rfl⟩ := h e he
    rfl) (fun _ h => h)

theorem fat32Mkdir_name : Runs (fat32Mkdir fuel dirCluster name) w
    (fun r _ => ∀ e, r = .ok e → e.name = name) (fun _ => True) := by
  refine Runs.get_bind ?_
  split
  · exact Runs.pure fun e h => (by cases h)
  refine (runs_any _ _).bind fun r w1 _ => ?_
  cases r with
  | ok _ => exact Runs.pure fun e h => (by cases h)
  | error _ =>
    refine (runs_any _ _).bind fun newC w2 _ => ?_
    split
    · exact Runs.pure fun e h => (by cases h)
    refine (runs_any _ _).bind fun ok w3 _ => ?_
    split
    · exact (runs_any _ _).bind fun _ w4 _ => Runs.pure fun e h => (by cases h)
    refine (runs_any _ _).bind fun _ w4 _ => (runs_any _ _).bind fun r w5 _ => ?_
    cases r with
    | error _ => exact (runs_any _ _).bind fun _ w6 _ => Runs.pure fun e h => (by cases h)
    | ok _ => exact Runs.pure fun e h => by rw [← Except.ok.inj h]

end Names

end Fat32

namespace Vfs

open Prog
open Fat32 (Fat32Entry Drv fat32Readdir isDots)

-- kstrcpy writes the bytes of the string and its terminator.
def copyBytes (name : List UInt8) : Nat := name.length + 1

-- What the shell commands and sys_open ask of the VFS that comes with a name; list is one turn of
-- the loops of ls and rm -r, which read a name into a buffer and look it up.
inductive NameCall where
  | resolve (path : List UInt8)
  | mkdir (node : Option Ptr) (name : List UInt8)
  | create (node : Option Ptr) (name : List UInt8)
  | list (node : Option Ptr) (index : Nat)

-- The name left in the name buffer, for the calls that have one.
def NameCall.run (fuel : Nat) : NameCall → Prog Kernel (Option (List UInt8))
  | .resolve path => do
    let _ ← vfsResolvePath fuel path
    pure none
  | .mkdir node name => do
    let _ ← vfsMkdir fuel node name
    pure none
  | .create node name => do
    let _ ← vfsCreate fuel node name
    pure none
  | .list node index => do
    let r ← vfsReaddir fuel node index
    match r with
    | .error _ => pure none
    | .ok name => do
      let _ ← vfsFinddir fuel node name
      pure (some name)

-- Every name that was copied into a node, and the one copied into the buffer, had room there.
structure CopiesFit (buffer : Option (List UInt8)) (k : Kernel) : Prop where
  nodes : ∀ p, copyBytes (k.vfs.nodes p).name ≤ vfsMaxName
  buffer : ∀ name, buffer = some name → copyBytes name ≤ vfsMaxName

-- The call of fat32_create or fat32_mkdir makes an entry and there is memory for its node, or the
-- RAM directory takes a node.
def MakesNode (make : Nat → Drv (Except Int Fat32Entry)) (node : Option Ptr) (name : List UInt8)
    (k : Kernel) : Prop :=
  match opsOf k node with
  | none => False
  | some (d, .ramfs) => Admits k.vfs d name
  | some (d, .disk) => k.heap k.heapCalls = true ∧ k.heap (k.heapCalls + 1) = true ∧
      ∃ e w, make (dirCluster k d) k.disk = (some (.ok e), w)

-- The entry with the index among those that fat32_readdir lists from entry i on, not counting dots.
inductive Listed (fuel dirCluster : Nat) : Nat → Nat → Fat32.World → Fat32Entry → Prop
  | dots {i index : Nat} {w w' : Fat32.World} {e f : Fat32Entry} :
      fat32Readdir fuel dirCluster i w = (some (.ok e), w') → isDots e.name = true →
      Listed fuel dirCluster (i + 1) index w' f → Listed fuel dirCluster i index w f
  | here {i : Nat} {w w' : Fat32.World} {e : Fat32Entry} :
      fat32Readdir fuel dirCluster i w = (some (.ok e), w') → isDots e.name = false →
      Listed fuel dirCluster i 0 w e
  | later {i index : Nat} {w w' : Fat32.World} {e f : Fat32Entry} :
      fat32Readdir fuel dirCluster i w = (some (.ok e), w') → isDots e.name = false →
      Listed fuel dirCluster (i + 1) index w' f → Listed fuel dirCluster i (index + 1) w f

def NameCall.Short (fuel : Nat) (k : Kernel) : NameCall → Prop
  | .resolve _ => True
  | .mkdir node name => MakesNode (fun d => Fat32.fat32Mkdir fuel d name) node name k →
      copyBytes name ≤ vfsMaxName
  | .create node name => MakesNode (fun d => Fat32.fat32Create fuel d name) node name k →
      copyBytes name ≤ vfsMaxName
  | .list node index => ∀ d e, opsOf k node = some (d, .disk) →
      Listed fuel (dirCluster k d) 0 index k.disk e → copyBytes e.name ≤ vfsMaxName

section Copies

variable {k k' : Kernel} {node : Option Ptr} {d p : Ptr} {fuel i n index : Nat}
  {name path : List UInt8} {e : Fat32Entry} {c : NameCall} {r : Option Ptr}
  {b : Option (List UInt8)} {m : Nat → Drv (Except Int Fat32Entry)}

def NamesFit (v : NodeStore) : Prop := ∀ p, copyBytes (v.nodes p).name ≤ vfsMaxName

theorem NamesFit.set {v : NodeStore} (h : NamesFit v) {f : VfsNode → VfsNode}
    (hf : copyBytes (f (v.nodes p)).name ≤ vfsMaxName) : NamesFit (setNode v p f) := by
  intro q
  by_cases hq : q = p
  · rw [hq, setNode_self]
    exact hf
  · rw [setNode_other _ hq]
    exact h q

theorem NamesFit.stored {x : Except Int Fat32Entry} (h : NamesFit k.vfs)
    (hname : ∀ e, x = .ok e → copyBytes e.name ≤ vfsMaxName)
    (hrun : storedNode d x k = (some r, k')) : NamesFit k'.vfs := by
  rcases storedNode_vfs hrun with ⟨-, hv⟩ | ⟨e, j, he, -, hv⟩
  · rw [hv]
    exact h
  · rw [hv]
    exact h.set (hname e he)

theorem opsOf_some {ops : VfsOps} (h : opsOf k node = some (d, ops)) :
    (k.vfs.nodes d).ops = some ops := by
  obtain ⟨p, -, hp⟩ := Option.bind_eq_some_iff.mp h
  obtain ⟨o, ho, he⟩ := Option.map_eq_some_iff.mp hp
  obtain ⟨rfl, rfl⟩ := Prod.mk.inj he
  exact ho

theorem vfsFinddir_fit (h : NamesFit k.vfs) (hlen : copyBytes name ≤ vfsMaxName)
    (hrun : vfsFinddir fuel node name k = (some r, k')) : NamesFit k'.vfs := by
  rw [vfsFinddir, get_bind] at hrun
  rcases hops : opsOf k node with _ | ⟨d, _ | _⟩
  · rw [hops] at hrun
    obtain ⟨-, rfl⟩ := Prod.mk.inj hrun
    exact h
  · rw [hops] at hrun
    obtain ⟨-, rfl⟩ := Prod.mk.inj hrun
    exact h
  · rw [hops] at hrun
    dsimp only at hrun
    rw [diskFinddir, get_bind] at hrun
    obtain ⟨x, w, hfind, hstored⟩ := onDisk_ended hrun
    exact NamesFit.stored (k := { k with disk := w }) h (fun e he =>
      (Nat.succ_le_succ (Fat32.fat32Find_length.result hfind e he)).trans hlen) hstored

-- vfs_resolve_path cuts its components to what a node's name holds.
theorem vfsResolvePath_fit (h : NamesFit k.vfs)
    (hrun : vfsResolvePath fuel path k = (some node, k')) : NamesFit k'.vfs :=
  @vfsResolvePath_keeps (fun k => NamesFit k.vfs) fuel path node k k' (fun _ _ _ _ _ hc h hone =>
    vfsFinddir_fit h (Nat.succ_le_of_lt (Nat.lt_of_le_of_lt hc.length_le (by decide))) hone) h hrun

theorem NamesFit.added {v : NodeStore} {type : VfsNodeType} (h : NamesFit v) (hd : InUse v d) :
    NamesFit (added v type d name) ↔ copyBytes name ≤ vfsMaxName := by
  constructor
  · intro hfit
    have := hfit (.pool v.nodePoolUsed)
    rwa [added_new hd] at this
  · intro hname p
    unfold Vfs.added
    dsimp only
    by_cases h1 : p = d
    · rw [h1, Function.update_self]
      exact h d
    · rw [Function.update_of_ne h1]
      by_cases h2 : p = .pool v.nodePoolUsed
      · rw [h2, Function.update_self]
        exact hname
      · rw [Function.update_of_ne h2]
        exact h p

theorem ramAdd_fit {type : VfsNodeType} (hd : InUse k.vfs d) (h : NamesFit k.vfs)
    (hrun : onNodes (fun v => ramfsAdd type v (some d) name) k = (some r, k')) :
    NamesFit k'.vfs ↔ (Admits k.vfs d name → copyBytes name ≤ vfsMaxName) := by
  obtain ⟨-, rfl⟩ := Prod.mk.inj hrun
  change NamesFit (ramfsAdd type k.vfs (some d) name).2 ↔ _
  by_cases ha : Admits k.vfs d name
  · rw [ramfsAdd_admits hd ha, h.added hd]
    exact ⟨fun hn _ => hn, fun hn => hn ha⟩
  · rcases ramfsAdd_cases type name hd with he | ⟨ha', -⟩
    · rw [he]
      exact iff_of_true h fun ha' => absurd ha' ha
    · exact absurd ha' ha

theorem storedNode_memory (hrun : storedNode d (.ok e) k = (some (some p), k')) :
    k.heap k.heapCalls = true ∧ k.heap (k.heapCalls + 1) = true := by
  rcases hm : kmalloc k with ⟨_ | ok, k₁⟩
  · cases (Prod.mk.inj hm).1
  rw [storedNode, bind_ended hm] at hrun
  obtain ⟨hok, rfl⟩ := Prod.mk.inj hm
  obtain rfl := Option.some.inj hok
  split at hrun
  · cases (Prod.mk.inj hrun).1
  rename_i h1
  rw [get_bind, makeDiskNode, get_bind] at hrun
  generalize hk : ({ k with heapCalls := k.heapCalls + 1 } : Kernel) = k₁ at hrun
  rcases hm' : kmalloc k₁ with ⟨_ | ok, k₂⟩
  · cases (Prod.mk.inj hm').1
  rw [bind_ended hm'] at hrun
  obtain ⟨hok, -⟩ := Prod.mk.inj hm'
  obtain rfl := Option.some.inj hok
  split at hrun
  · cases (Prod.mk.inj hrun).1
  · rename_i h2
    rw [← hk] at h2
    exact ⟨by simpa using h1, by simpa using h2⟩

theorem diskAdd_fit (h : NamesFit k.vfs) (hname : ∀ w, Runs (m (dirCluster k d)) w
      (fun r _ => ∀ e, r = .ok e → e.name = name) (fun _ => True))
    (hrun : (onDisk (m (dirCluster k d)) >>= storedNode d) k = (some r, k')) :
    NamesFit k'.vfs ↔ (k.heap k.heapCalls = true ∧ k.heap (k.heapCalls + 1) = true ∧
      (∃ e w, m (dirCluster k d) k.disk = (some (.ok e), w)) →
        copyBytes name ≤ vfsMaxName) := by
  obtain ⟨x, w, hmake, hstored⟩ := onDisk_ended hrun
  have hnamed : ∀ e, x = .ok e → e.name = name := (hname k.disk).result hmake
  constructor
  · rintro hfit ⟨h1, h2, e, w', he⟩
    obtain rfl : x = .ok e := Option.some.inj (congrArg Prod.fst (hmake.symm.trans he))
    obtain ⟨k₁, hmade, -, -, -, hv⟩ := @storedNode_makes { k with disk := w } h1 h2 d e
    obtain rfl : k' = k₁ := congrArg Prod.snd (hstored.symm.trans hmade)
    have := hfit (.heap (k.heapCalls + 1))
    rw [hv, setNode_self] at this
    exact hnamed e rfl ▸ this
  · intro hshort
    rcases storedNode_vfs hstored with ⟨-, hv⟩ | ⟨e, j, rfl, rfl, hv⟩
    · rw [hv]
      exact h
    · rw [hv]
      refine NamesFit.set h ?_
      change copyBytes e.name ≤ vfsMaxName
      rw [hnamed e rfl]
      obtain ⟨h1, h2⟩ := storedNode_memory hstored
      exact hshort ⟨h1, h2, e, w, hmake⟩

theorem vfsMkdir_fit (hpool : RamInPool k.vfs) (h : NamesFit k.vfs)
    (hrun : vfsMkdir fuel node name k = (some r, k')) : NamesFit k'.vfs ↔
      (MakesNode (fun d => Fat32.fat32Mkdir fuel d name) node name k →
        copyBytes name ≤ vfsMaxName) := by
  unfold MakesNode
  rw [vfsMkdir, get_bind] at hrun
  rcases hops : opsOf k node with _ | ⟨d, _ | _⟩
  · rw [hops] at hrun
    obtain ⟨-, rfl⟩ := Prod.mk.inj hrun
    exact iff_of_true h False.elim
  · rw [hops] at hrun
    exact ramAdd_fit (hpool d (opsOf_some hops)) h hrun
  · rw [hops] at hrun
    exact diskAdd_fit (m := fun d => Fat32.fat32Mkdir fuel d name) h
      (fun w => Fat32.fat32Mkdir_name) hrun

theorem vfsCreate_fit (hpool : RamInPool k.vfs) (h : NamesFit k.vfs)
    (hrun : vfsCreate fuel node name k = (some r, k')) : NamesFit k'.vfs ↔
      (MakesNode (fun d => Fat32.fat32Create fuel d name) node name k →
        copyBytes name ≤ vfsMaxName) := by
  unfold MakesNode
  rw [vfsCreate, get_bind] at hrun
  rcases hops : opsOf k node with _ | ⟨d, _ | _⟩
  · rw [hops] at hrun
    obtain ⟨-, rfl⟩ := Prod.mk.inj hrun
    exact iff_of_true h False.elim
  · rw [hops] at hrun
    exact ramAdd_fit (hpool d (opsOf_some hops)) h hrun
  · rw [hops] at hrun
    exact diskAdd_fit (m := fun d => Fat32.fat32Create fuel d name) h
      (fun w => Fat32.fat32Create_name) hrun

-- disk_readdir copies the name of the entry listed, and finds one if there is one.
theorem diskReaddirFrom_listed {dirCluster turns realIndex : Nat} {x : Except Int (List UInt8)}
    (hreal : realIndex + n = index)
    (hrun : diskReaddirFrom fuel dirCluster index turns i realIndex k = (some x, k')) :
    k'.vfs = k.vfs ∧
      (∀ name, x = .ok name → ∃ e, Listed fuel dirCluster i n k.disk e ∧
        name = e.name) ∧
      ∀ e, Listed fuel dirCluster i n k.disk e → x = .ok e.name := by
  induction turns generalizing i n realIndex k with
  | zero => cases (Prod.mk.inj hrun).1
  | succ turns ih =>
    rw [diskReaddirFrom] at hrun
    obtain ⟨r, w, hread, hrest⟩ := onDisk_ended hrun
    have hdet : ∀ {e w'}, fat32Readdir fuel dirCluster i k.disk = (some (.ok e), w') →
        r = .ok e ∧ w = w' := fun h => by
      obtain ⟨he, rfl⟩ := Prod.mk.inj (hread.symm.trans h)
      exact ⟨Option.some.inj he, rfl⟩
    cases r with
    | error c =>
      obtain ⟨hx, rfl⟩ := Prod.mk.inj hrest
      obtain rfl := Option.some.inj hx
      refine ⟨rfl, fun name h => (by cases h), fun e hl => ?_⟩
      cases hl with
      | dots h => cases (hdet h).1
      | here h => cases (hdet h).1
      | later h => cases (hdet h).1
    | ok e =>
      dsimp only at hrest
      split at hrest
      · rename_i hdots
        obtain ⟨hv, hto, hfrom⟩ := ih hreal hrest
        refine ⟨hv, fun name h => ?_, fun f hl => hfrom f ?_⟩
        · obtain ⟨f, hl, hname⟩ := hto name h
          exact ⟨f, .dots hread hdots hl, hname⟩
        · cases hl with
          | dots h _ hl =>
            obtain ⟨he, rfl⟩ := hdet h
            exact hl
          | here h hno =>
            obtain rfl := Except.ok.inj (hdet h).1
            cases hno.symm.trans hdots
          | later h hno =>
            obtain rfl := Except.ok.inj (hdet h).1
            cases hno.symm.trans hdots
      rename_i hdots
      rw [Bool.not_eq_true] at hdots
      split at hrest
      · obtain ⟨hx, rfl⟩ := Prod.mk.inj hrest
        obtain rfl := Option.some.inj hx
        obtain rfl : n = 0 := by omega
        refine ⟨rfl, fun name h => ⟨e, .here hread hdots, (Except.ok.inj h).symm⟩, fun f hl => ?_⟩
        cases hl with
        | dots h hyes =>
          obtain rfl := Except.ok.inj (hdet h).1
          cases hdots.symm.trans hyes
        | here h => rw [Except.ok.inj (hdet h).1]
      · rename_i hindex
        obtain ⟨n, rfl⟩ : ∃ m, n = m + 1 := ⟨n - 1, by omega⟩
        have hnext : realIndex + 1 + n = index := by omega
        obtain ⟨hv, hto, hfrom⟩ := ih hnext hrest
        refine ⟨hv, fun name h => ?_, fun f hl => hfrom f ?_⟩
        · obtain ⟨f, hl, hname⟩ := hto name h
          exact ⟨f, .later hread hdots hl, hname⟩
        · cases hl with
          | dots h hyes =>
            obtain rfl := Except.ok.inj (hdet h).1
            cases hdots.symm.trans hyes
          | later h _ hl =>
            obtain ⟨he, rfl⟩ := hdet h
            exact hl

theorem vfsReaddir_fit {x : Except Int (List UInt8)} (h : NamesFit k.vfs)
    (hrun : vfsReaddir fuel node index k = (some x, k')) : k'.vfs = k.vfs ∧
      ((∀ name, x = .ok name → copyBytes name ≤ vfsMaxName) ↔
        ∀ d e, opsOf k node = some (d, .disk) → Listed fuel (dirCluster k d) 0 index k.disk e →
          copyBytes e.name ≤ vfsMaxName) := by
  rw [vfsReaddir, get_bind] at hrun
  rcases hops : opsOf k node with _ | ⟨d, _ | _⟩
  · rw [hops] at hrun
    obtain ⟨hx, rfl⟩ := Prod.mk.inj hrun
    obtain rfl := Option.some.inj hx
    exact ⟨rfl, iff_of_true (fun name he => (by cases he)) fun d e he => (by cases he)⟩
  · rw [hops] at hrun
    obtain ⟨hx, rfl⟩ := Prod.mk.inj hrun
    obtain rfl := Option.some.inj hx
    refine ⟨rfl, iff_of_true (fun name he => ?_) fun d e he => (by cases Option.some.inj he)⟩
    unfold ramfsReaddir at he
    dsimp only at he
    split at he
    · cases he
    split at he
    · cases he
    · rw [← Except.ok.inj he]
      exact h _
  · rw [hops] at hrun
    dsimp only at hrun
    rw [diskReaddir, get_bind] at hrun
    obtain ⟨hv, hto, hfrom⟩ := diskReaddirFrom_listed (Nat.zero_add index) hrun
    refine ⟨hv, fun hfit d' e he hl => ?_, fun hshort name hx => ?_⟩
    · obtain ⟨rfl, -⟩ := Prod.mk.inj (Option.some.inj he)
      exact hfit _ (hfrom e hl)
    · obtain ⟨e, hl, rfl⟩ := hto name hx
      exact hshort d e rfl hl

theorem name_copies_fit_iff (hpool : RamInPool k.vfs) (h : NamesFit k.vfs)
    (hrun : c.run fuel k = (some b, k')) : CopiesFit b k' ↔ c.Short fuel k := by
  cases c with
  | resolve path =>
    obtain ⟨r, k₁, hres, he⟩ := ended_bind hrun
    obtain ⟨rfl, rfl⟩ := ended_pure he
    exact iff_of_true ⟨vfsResolvePath_fit h hres, fun name hb => (by cases hb)⟩ trivial
  | mkdir node name =>
    obtain ⟨r, k₁, hmk, he⟩ := ended_bind hrun
    obtain ⟨rfl, rfl⟩ := ended_pure he
    refine Iff.trans ⟨fun hfit => hfit.nodes, fun hfit => ?_⟩ (vfsMkdir_fit hpool h hmk)
    exact ⟨hfit, fun name hb => (by cases hb)⟩
  | create node name =>
    obtain ⟨r, k₁, hcreate, he⟩ := ended_bind hrun
    obtain ⟨rfl, rfl⟩ := ended_pure he
    refine Iff.trans ⟨fun hfit => hfit.nodes, fun hfit => ?_⟩ (vfsCreate_fit hpool h hcreate)
    exact ⟨hfit, fun name hb => (by cases hb)⟩
  | list node index =>
    obtain ⟨x, k₁, hread, hrest⟩ := ended_bind hrun
    obtain ⟨hv, hiff⟩ := vfsReaddir_fit h hread
    refine Iff.trans ?_ hiff
    cases x with
    | error z =>
      obtain ⟨rfl, rfl⟩ := ended_pure hrest
      refine iff_of_true ⟨fun p => ?_, fun name hb => (by cases hb)⟩ fun name he => (by cases he)
      rw [hv]
      exact h p
    | ok name =>
      obtain ⟨r, k₂, hfind, he⟩ := ended_bind hrest
      obtain ⟨rfl, rfl⟩ := ended_pure he
      constructor
      · intro hfit name' he
        exact hfit.buffer name' (congrArg some (Except.ok.inj he))
      · intro hname
        exact ⟨vfsFinddir_fit (hv.symm ▸ h) (hname name rfl) hfind, fun name' hb =>
          hname name' (congrArg Except.ok (Option.some.inj hb))⟩

-- 64 letters, for which a node has one byte too few.
def longName : List UInt8 := List.replicate 64 0x41

theorem booted_other {q : Ptr} (h : q ≠ .pool 0) :
    (booted powerOn).vfs.nodes q = blankNode := by
  simp [booted, powerOn, vfsInit, allocNode, setNode, vfsMaxNodes, Function.update_of_ne h]

theorem booted_pool : RamInPool (booted powerOn).vfs := by
  intro q hq
  by_cases h : q = .pool 0
  · exact ⟨0, Nat.one_pos, h⟩
  · rw [booted_other h] at hq
    cases hq

theorem booted_fit : NamesFit (booted powerOn).vfs := by
  intro q
  by_cases h : q = .pool 0
  · rw [h]
    decide
  · rw [booted_other h]
    decide

theorem name_copies_fit_root : ∃ b k', (NameCall.create (some (.pool 0)) longName).run 0
    (booted powerOn) = (some b, k') ∧
    (CopiesFit b k' ↔ (NameCall.create (some (.pool 0)) longName).Short 0 (booted powerOn)) := by
  obtain ⟨b, k', hrun⟩ : ∃ b k', (NameCall.create (some (.pool 0)) longName).run 0
      (booted powerOn) = (some b, k') := ⟨_, _, rfl⟩
  exact ⟨b, k', hrun, name_copies_fit_iff booted_pool booted_fit hrun⟩

theorem long_name_copied : ¬∀ (k k' : Kernel) (fuel : Nat) (c : NameCall)
    (b : Option (List UInt8)), RamInPool k.vfs → NamesFit k.vfs → c.run fuel k = (some b, k') →
    CopiesFit b k' := by
  intro h
  have hfit := h (booted powerOn) _ 0 (.create (some (.pool 0)) longName) _ booted_pool booted_fit
    rfl
  exact absurd (hfit.nodes (.pool 1)) (by decide +kernel)

end Copies

end Vfs
