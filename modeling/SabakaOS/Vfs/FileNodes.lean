import SabakaOS.Fat32.ReadClamp
import SabakaOS.Vfs.Descriptors
import SabakaOS.Vfs.SharedFile

namespace Fat32

open Word ByteMemory Prog

section Sizes

variable {w : World} {e : Fat32Entry} {data : List UInt8} {fuel off : Nat}

theorem writeLoop_counts (fuel cluster clustOff : Nat) (data : List UInt8) (written : Nat)
    (w : World) : Runs (writeLoop fuel cluster clustOff data written) w
      (fun r _ => (∃ c, r = .error c ∧ c < 0) ∨ ∃ n ≤ data.length, r = .ok (written + n))
      (fun _ => True) := by
  induction fuel generalizing cluster clustOff data written w with
  | zero => exact Runs.stopped trivial
  | succ fuel ih =>
    unfold writeLoop
    split
    · exact Runs.pure (.inr ⟨0, Nat.zero_le _, rfl⟩)
    refine (runs_any _ _).bind fun r w1 _ => ?_
    cases r with
    | none => exact Runs.pure (.inl ⟨_, rfl, by decide⟩)
    | some buf =>
      refine Runs.get_bind ?_
      dsimp only
      have hle : (if data.length < sub32 w1.mount.bytesPerClust clustOff then data.length
          else sub32 w1.mount.bytesPerClust clustOff) ≤ data.length := by
        split
        · exact le_rfl
        · omega
      generalize (if data.length < sub32 w1.mount.bytesPerClust clustOff then data.length
        else sub32 w1.mount.bytesPerClust clustOff) = toWrite at hle ⊢
      refine (runs_any _ _).bind fun ok w2 _ => ?_
      split
      · exact Runs.pure (.inl ⟨_, rfl, by decide⟩)
      split
      · exact Runs.pure (.inr ⟨toWrite, hle, rfl⟩)
      refine (runs_any _ _).bind fun next w3 _ => ?_
      cases next with
      | none => exact Runs.pure (.inr ⟨toWrite, hle, rfl⟩)
      | some next =>
        refine (ih next 0 (data.drop toWrite) (written + toWrite) w3).mono ?_ (fun _ h => h)
        rintro r w4 (h | ⟨n, hn, rfl⟩)
        · exact .inl h
        · rw [List.length_drop] at hn
          exact .inr ⟨toWrite + n, by omega, by rw [Nat.add_assoc]⟩

-- What fat32_write makes of the entry's size, whatever fails on the way.
theorem fat32Write_counts : Runs (fat32Write fuel e data off) w (fun r _ =>
    (r.1 < 0 ∧ r.2.size = e.size) ∨
      ∃ n ≤ data.length, r.1 = n ∧ r.2.size = max e.size (u32 (off + n))) (fun _ => True) := by
  refine Runs.get_bind ?_
  split
  · exact Runs.pure (.inl ⟨(show fat32ErrInval < 0 by decide), rfl⟩)
  split
  · exact Runs.pure (.inl ⟨(show fat32ErrIsdir < 0 by decide), rfl⟩)
  refine (runs_any _ _).bind fun ok w1 _ => ?_
  split
  · exact Runs.pure (.inl ⟨(show fat32ErrIo < 0 by decide), rfl⟩)
  have hfirst : Runs (firstCluster e) w1 (fun r _ => ∀ e', r = some e' → e'.size = e.size)
      (fun _ => True) := by
    unfold firstCluster
    split
    · refine (runs_any _ _).bind fun c w2 _ => ?_
      split
      · exact Runs.pure fun e' h => (by cases h)
      · refine (runs_any _ _).bind fun _ w3 _ => Runs.pure fun e' h => ?_
        rw [← Option.some.inj h]
    · exact Runs.pure fun e' h => by rw [← Option.some.inj h]
  refine hfirst.bind fun r w2 h2 => ?_
  cases r with
  | none => exact Runs.pure (.inl ⟨(show fat32ErrNospace < 0 by decide), rfl⟩)
  | some e' =>
    have hsize := h2 e' rfl
    refine (runs_any _ _).bind fun r w3 _ => ?_
    cases r with
    | none => exact Runs.pure (.inl ⟨(show fat32ErrNospace < 0 by decide), hsize⟩)
    | some cluster =>
      refine (writeLoop_counts _ _ _ _ _ w3).bind ?_
      rintro r w4 (⟨c, rfl, hc⟩ | ⟨n, hn, rfl⟩)
      · exact Runs.pure (.inl ⟨hc, hsize⟩)
      · refine (runs_any _ _).bind fun _ w5 _ => Runs.pure (.inr ⟨n, hn, ?_, ?_⟩)
        · rw [Nat.zero_add]
        · rw [Nat.zero_add, ← hsize]
          change (if e'.size < u32 (off + n) then u32 (off + n) else e'.size) = _
          split
          · omega
          · omega

theorem readLoop_counts (fuel cluster clustOff size : Nat) (got : List UInt8) (w : World) :
    Runs (readLoop fuel cluster clustOff size got) w
      (fun r _ => ∀ bytes, r = .ok bytes → bytes.length ≤ got.length + size) (fun _ => True) := by
  induction fuel generalizing cluster clustOff size got w with
  | zero => exact Runs.stopped trivial
  | succ fuel ih =>
    unfold readLoop
    split
    · refine (runs_any _ _).bind fun r w1 _ => ?_
      cases r with
      | none => exact Runs.pure fun bytes h => (by cases h)
      | some buf =>
        refine Runs.get_bind ((runs_any _ _).bind fun next w2 _ => ?_)
        refine (ih _ _ _ _ w2).mono (fun r _ h bytes hr => (h bytes hr).trans ?_) (fun _ h => h)
        rw [List.length_append, readBytes_length]
        split
        · omega
        · omega
    · exact Runs.pure fun bytes h => by cases h; exact Nat.le_add_right _ _

theorem fat32Read_counts {size : Nat} : Runs (fat32Read fuel e off size) w
    (fun r _ => ∀ bytes, r = .ok bytes → bytes ≠ [] → off < e.size ∧ bytes.length ≤ size)
    (fun _ => True) := by
  refine Runs.get_bind ?_
  split
  · exact Runs.pure fun bytes h => (by cases h)
  split
  · exact Runs.pure fun bytes h => (by cases h)
  split
  · exact Runs.pure fun bytes h hne => absurd (Except.ok.inj h).symm hne
  next hin =>
  dsimp only
  have hle : (if e.size < u32 (off + size) then e.size - off else size) ≤ size := by
    have hwrap : u32 (off + size) ≤ off + size := Nat.mod_le _ _
    split
    · omega
    · exact le_rfl
  generalize (if e.size < u32 (off + size) then e.size - off else size) = n at hle ⊢
  split
  · exact Runs.pure fun bytes h hne => absurd (Except.ok.inj h).symm hne
  refine (runs_any _ _).bind fun ok w1 _ => ?_
  split
  · exact Runs.pure fun bytes h => (by cases h)
  refine (runs_any _ _).bind fun cluster w2 _ => ?_
  refine (readLoop_counts _ _ _ _ _ w2).mono (fun r _ h bytes hr _ => ⟨by omega, ?_⟩)
    (fun _ h => h)
  have hlen := h bytes hr
  rw [List.length_nil, Nat.zero_add] at hlen
  exact hlen.trans hle

theorem fat32Create_entry {dirCluster : Nat} {name : List UInt8} :
    Runs (fat32Create fuel dirCluster name) w
      (fun r _ => ∀ e, r = .ok e → ∃ i, e = newEntry dirCluster name attrArchive 0 i)
      (fun _ => True) := by
  refine Runs.get_bind ?_
  split
  · exact Runs.pure fun e h => (by cases h)
  refine (runs_any _ _).bind fun r w1 _ => ?_
  cases r with
  | ok _ => exact Runs.pure fun e h => (by cases h)
  | error _ =>
    refine (runs_any _ _).bind fun r w2 _ => ?_
    cases r with
    | error _ => exact Runs.pure fun e h => (by cases h)
    | ok i => exact Runs.pure fun e h => ⟨i, (Except.ok.inj h).symm⟩

end Sizes

end Fat32

namespace Vfs

open Word ByteMemory Prog OpenFiles
open Fat32 (Fat32Entry)

def RamNode (n : VfsNode) : Prop :=
  n.ops = some .ramfs ∧ (∀ e, n.data ≠ some (.entry e)) ∧ FileOk n

def DiskNode (n : VfsNode) : Prop :=
  n.ops = some .disk ∧ ∃ e, n.data = some (.entry e) ∧ e.size = n.size

-- A file that records as many bytes as are stored in it.
structure FileNode (n : VfsNode) : Prop where
  file : n.type = .file
  size_lt : n.size < 2 ^ 32
  stored : RamNode n ∨ DiskNode n

-- The nodes of the RAM file system are those of the pool.
def RamInPool (v : NodeStore) : Prop := ∀ p, (v.nodes p).ops = some .ramfs → InUse v p

section Write

variable {k k' : Kernel} {p : Ptr} {fuel off : Nat} {chunk : List UInt8} {w : Int}

theorem not_ram_disk {n : VfsNode} (h : DiskNode n) : ¬RamNode n := fun h' =>
  by cases h.1.symm.trans h'.1

theorem ramNode_written {n : VfsNode} (h : RamNode n) {d : List UInt8}
    (hd : off + d.length ≤ vfsMaxFileData) : RamNode (written off d n) :=
  ⟨h.1, fun _ he => (by cases Option.some.inj he), fileOk_written h.2.2 hd⟩

-- What a write stores, or that it fails and stores nothing.
inductive WriteEnd (chunk : List UInt8) : Int → Nat → Prop
  | failed {w : Int} : w < 0 → WriteEnd chunk w 0
  | stored {n : Nat} : n ≤ chunk.length → WriteEnd chunk n n

theorem WriteEnd.all {n : Nat} (h : WriteEnd chunk chunk.length n) : n = chunk.length := by
  generalize hw : (chunk.length : Int) = w at h
  cases h with
  | failed hneg => omega
  | stored _ => exact (Int.ofNat.inj hw).symm

theorem kmalloc_nodes (k : Kernel) : Runs kmalloc k (fun _ k' => k'.vfs = k.vfs) (fun _ => False) :=
  rfl

theorem ramfsWrite_counts (hn : RamNode (k.vfs.nodes p)) (hoff : off ≤ vfsMaxFileData)
    (hlen : chunk.length ≤ 512) : Runs (ramfsWrite (some p) chunk off) k (fun w k' =>
      (w < 0 ∧ k'.vfs = k.vfs) ∨ ∃ n ≤ chunk.length, w = n ∧ off + n ≤ vfsMaxFileData ∧
        k'.vfs = setNode k.vfs p (written off (chunk.take n))) (fun _ => True) := by
  have hsum : u32 (off + chunk.length) = off + chunk.length :=
    u32_of_lt (by unfold vfsMaxFileData at hoff; omega)
  refine Runs.get_bind ?_
  dsimp only
  rw [hsum]
  split
  · exact Runs.pure (.inl ⟨by decide, rfl⟩)
  split
  · exact Runs.pure (.inl ⟨by decide, rfl⟩)
  have hlast : (if vfsMaxFileData < off + chunk.length then vfsMaxFileData
      else off + chunk.length) = off + min chunk.length (vfsMaxFileData - off) := by
    split
    · omega
    · omega
  have hsize : (if vfsMaxFileData < off + chunk.length then vfsMaxFileData - off
      else chunk.length) = min chunk.length (vfsMaxFileData - off) := by
    split
    · omega
    · omega
  rw [hlast, hsize]
  have htake : (chunk.take (min chunk.length (vfsMaxFileData - off))).length =
      min chunk.length (vfsMaxFileData - off) := by
    rw [List.length_take]
    omega
  have hstored : ∀ (k1 : Kernel) (b : Nat → UInt8), k1.vfs = k.vfs →
      bufferOf (k.vfs.nodes p) = b → setNode k1.vfs p (fun n => { n with
        data := some (.bytes (writeBytes b off
          (chunk.take (min chunk.length (vfsMaxFileData - off)))))
        size := if n.size < off + min chunk.length (vfsMaxFileData - off) then
          off + min chunk.length (vfsMaxFileData - off) else n.size }) =
      setNode k.vfs p (written off (chunk.take (min chunk.length (vfsMaxFileData - off)))) := by
    rintro k1 b hk rfl
    rw [hk]
    unfold setNode written
    rw [htake]
  have hle : min chunk.length (vfsMaxFileData - off) ≤ chunk.length := Nat.min_le_left _ _
  cases hd : (k.vfs.nodes p).data with
  | none =>
    refine (kmalloc_nodes k).then fun ok k1 hk => ?_
    split
    · exact Runs.pure (.inl ⟨by decide, hk⟩)
    · exact Runs.modify_bind (Runs.pure
        (.inr ⟨_, hle, rfl, by omega, hstored k1 _ hk (by rw [bufferOf, hd])⟩))
  | some x =>
    cases x with
    | entry e => exact absurd hd (hn.2.1 e)
    | bytes b =>
      exact Runs.modify_bind (Runs.pure
        (.inr ⟨_, hle, rfl, by omega, hstored k b rfl (by rw [bufferOf, hd])⟩))

-- What a write makes of the node: its size follows the bytes stored, whichever back end it is on.
structure Written (off : Nat) (chunk : List UInt8) (k : Kernel) (p : Ptr) (n : Nat) (k' : Kernel) :
    Prop where
  file : FileNode (k'.vfs.nodes p)
  size : (k'.vfs.nodes p).size = max (k.vfs.nodes p).size (u32 (off + n))
  buffer : RamNode (k.vfs.nodes p) → bufferOf (k'.vfs.nodes p) =
    writeBytes (bufferOf (k.vfs.nodes p)) off (chunk.take n)
  ops : (k'.vfs.nodes p).ops = (k.vfs.nodes p).ops
  others : ∀ q, q ≠ p → k'.vfs.nodes q = k.vfs.nodes q

theorem Written.moved {k₁ : Kernel} {n : Nat} (h : Written off chunk k₁ p n k')
    (hv : k₁.vfs = k.vfs) : Written off chunk k p n k' := by
  obtain ⟨h1, h2, h3, h4, h5⟩ := h
  rw [hv] at h2 h3 h4 h5
  exact ⟨h1, h2, h3, h4, h5⟩

def stamped (x : Int × Fat32Entry) (n : VfsNode) : VfsNode :=
  { n with
    data := some (.entry x.2)
    size := if 0 < x.1 then x.2.size else n.size }

theorem noted_node (x : Int × Fat32Entry) (w : Fat32.World) (k : Kernel) (p : Ptr) :
    (noted p x w k).vfs.nodes p = stamped x (k.vfs.nodes p) := by
  rw [noted, setNode_self]
  rfl

theorem vfsWrite_counts (hn : FileNode (k.vfs.nodes p)) (hoff : off ≤ (k.vfs.nodes p).size)
    (hlen : chunk.length ≤ 512) (hrun : vfsWrite fuel (some p) chunk off k = (some w, k')) :
    ∃ n, WriteEnd chunk w n ∧ Written off chunk k p n k' := by
  have hzero : u32 (off + 0) ≤ off + 0 := Nat.mod_le _ _
  obtain ⟨htype, hlt, hram | ⟨hops, e, he, hsize⟩⟩ := hn
  · have hops : opsOf k (some p) = some (p, .ramfs) := by simp [opsOf, hram.1]
    have hmax : off ≤ vfsMaxFileData := hoff.trans hram.2.2.size_le
    rw [vfsWrite, get_bind, hops] at hrun
    rcases (ramfsWrite_counts hram hmax hlen).result hrun with ⟨hw, hk⟩ | ⟨n, hn, rfl, hfit, hk⟩
    · refine ⟨0, .failed hw, hk ▸ ⟨htype, hlt, .inl hram⟩, by rw [hk]; omega, fun _ => ?_,
        by rw [hk], fun q _ => by rw [hk]⟩
      rw [hk, List.take_zero, writeBytes_nil]
    · have hself : k'.vfs.nodes p = written off (chunk.take n) (k.vfs.nodes p) := by
        rw [hk, setNode_self]
      have htake : (chunk.take n).length = n := by
        rw [List.length_take]
        omega
      have hram' : RamNode (k'.vfs.nodes p) := by
        rw [hself]
        exact ramNode_written hram (by rw [htake]; exact hfit)
      have hsmall := hram'.2.2.size_le
      unfold vfsMaxFileData at hsmall
      refine ⟨n, .stored hn, ⟨hself ▸ htype, by omega, .inl hram'⟩, ?_,
        fun _ => by rw [hself]; rfl, by rw [hself]; rfl, fun q hq => by rw [hk, setNode_other _ hq]⟩
      · rw [hself, written_size, htake, u32_of_lt (by unfold vfsMaxFileData at hfit; omega)]
  · have hc : getEntry (k.vfs.nodes p) = some e := by rw [getEntry, he]
    obtain ⟨x, w, hw, rfl, rfl⟩ := vfsWrite_ended hops hc hrun
    have hstored : ∀ n, x.2.size = max e.size (u32 (off + n)) →
        (if 0 < x.1 then x.2.size else (k.vfs.nodes p).size) = x.2.size →
        Written off chunk k p n (noted p x w k) := by
      intro n hentry hif
      have hd : DiskNode ((noted p x w k).vfs.nodes p) := by
        rw [noted_node]
        exact ⟨hops, x.2, rfl, hif.symm⟩
      have hnew : ((noted p x w k).vfs.nodes p).size =
          max (k.vfs.nodes p).size (u32 (off + n)) := by
        rw [noted_node, ← hsize, ← hentry, ← hif]
        rfl
      have hwrap : u32 (off + n) < 2 ^ 32 := Nat.mod_lt _ (by decide)
      refine ⟨⟨?_, by omega, .inr hd⟩, hnew, fun h => absurd h (not_ram_disk ⟨hops, e, he, hsize⟩),
        noted_self.2, fun q hq => noted_other hq⟩
      rw [noted_node]
      exact htype
    rcases Fat32.fat32Write_counts.result hw with ⟨hneg, hsame⟩ | ⟨n, hn, hpos, hsame⟩
    · refine ⟨0, .failed hneg, hstored 0 (by omega) ?_⟩
      rw [if_neg (by omega), hsame, hsize]
    · refine ⟨n, hpos ▸ .stored hn, hstored n hsame ?_⟩
      split
      · rfl
      · obtain rfl : n = 0 := by omega
        omega

end Write

section Read

variable {k k' : Kernel} {p : Ptr} {fuel off : Nat} {r : Except Int (List UInt8)}

theorem ramfsRead_counts {size : Nat} (hfile : (k.vfs.nodes p).type = .file)
    (hn : RamNode (k.vfs.nodes p)) : ∃ bytes, ramfsRead k.vfs (some p) off size = .ok bytes ∧
      bytes = readBytes (bufferOf (k.vfs.nodes p)) (min size ((k.vfs.nodes p).size - off)) off := by
  rw [ramfsRead_eq hfile hn.2.2]
  refine ⟨_, rfl, ?_⟩
  by_cases hoff : (k.vfs.nodes p).size ≤ off
  · rw [List.drop_eq_nil_of_le (by rw [hn.2.2.content_length]; exact hoff), List.take_nil,
      Nat.sub_eq_zero_of_le hoff, Nat.min_zero]
    rfl
  · obtain ⟨b, hb⟩ := hn.2.2.buffer.resolve_left (by omega)
    rw [content, bufferOf, hb, readBytes_drop b 0 (Nat.le_of_not_le hoff), readBytes_take,
      Nat.zero_add]

-- A read that delivers bytes starts inside the file, and leaves every node as it is.
theorem vfsRead_counts {size : Nat} (hn : FileNode (k.vfs.nodes p))
    (hrun : vfsRead fuel (some p) off size k = (some r, k')) :
    k'.vfs = k.vfs ∧ ∀ bytes, r = .ok bytes → bytes ≠ [] →
      off < (k.vfs.nodes p).size ∧ bytes.length ≤ size ∧
      (RamNode (k.vfs.nodes p) → off + bytes.length ≤ (k.vfs.nodes p).size ∧
        bytes = readBytes (bufferOf (k.vfs.nodes p)) bytes.length off) := by
  obtain ⟨htype, hlt, hram | ⟨hops, e, he, hsize⟩⟩ := hn
  · have hops : opsOf k (some p) = some (p, .ramfs) := by simp [opsOf, hram.1]
    obtain ⟨d, hd, heq⟩ :
      ∃ d, ramfsRead k.vfs (some p) off size = .ok d ∧ _ := ramfsRead_counts htype hram
    rw [vfsRead, get_bind, hops] at hrun
    obtain ⟨hr, rfl⟩ := Prod.mk.inj hrun
    refine ⟨rfl, fun bytes hbytes hne => ?_⟩
    obtain rfl : d = bytes := Except.ok.inj (hd.symm.trans ((Option.some.inj hr).trans hbytes))
    have hlen : d.length = min size ((k.vfs.nodes p).size - off) := by rw [heq, readBytes_length]
    have hpos : 0 < d.length := List.length_pos_iff.mpr hne
    exact ⟨by omega, by omega, fun _ => ⟨by omega, hlen ▸ heq⟩⟩
  · have hc : getEntry (k.vfs.nodes p) = some e := by rw [getEntry, he]
    rw [vfsRead_node hops hc, onDisk] at hrun
    obtain ⟨hr, rfl⟩ := Prod.mk.inj hrun
    refine ⟨rfl, fun bytes hbytes hne => ?_⟩
    subst hbytes
    have hended : Fat32.fat32Read fuel e off size k.disk = (some (.ok bytes), _) :=
      Prod.ext hr rfl
    obtain ⟨hoff, hlen⟩ := Fat32.fat32Read_counts.result hended bytes rfl hne
    exact ⟨hsize ▸ hoff, hlen, fun h => absurd h (not_ram_disk ⟨hops, e, he, hsize⟩)⟩

end Read

section Create

variable {k k' : Kernel} {d p : Ptr} {r : Option Ptr} {fuel : Nat} {name path : List UInt8}

-- storedNode makes one node, with the back end of the directory, or none.
theorem storedNode_vfs {x : Except Int Fat32Entry}
    (hrun : storedNode d x k = (some r, k')) : (r = none ∧ k'.vfs = k.vfs) ∨
      ∃ e j, x = .ok e ∧ r = some (.heap j) ∧
        k'.vfs = setNode k.vfs (.heap j) fun _ => diskNode e.name e (k.vfs.nodes d).ops := by
  have hnew : Runs (storedNode d x) k (fun r k' => (r = none ∧ k'.vfs = k.vfs) ∨
      ∃ e j, x = .ok e ∧ r = some (.heap j) ∧
        k'.vfs = setNode k.vfs (.heap j) fun _ => diskNode e.name e (k.vfs.nodes d).ops)
      (fun _ => True) := by
    cases x with
    | error _ => exact Runs.pure (.inl ⟨rfl, rfl⟩)
    | ok e =>
      refine (kmalloc_nodes k).then fun ok k1 h1 => ?_
      split
      · exact Runs.pure (.inl ⟨rfl, h1⟩)
      refine Runs.get_bind (Runs.get_bind ((kmalloc_nodes k1).then fun ok k2 h2 => ?_))
      split
      · exact Runs.pure (.inl ⟨rfl, h2.trans h1⟩)
      · refine Runs.modify_bind (Runs.pure (.inr ⟨e, k1.heapCalls, rfl, rfl, ?_⟩))
        dsimp only
        rw [h2, h1]
  exact hnew.result hrun

theorem onDisk_ended {α β : Type} {q : Fat32.Drv α} {f : α → Prog Kernel β} {b : β}
    (hrun : (onDisk q >>= f) k = (some b, k')) :
    ∃ a w, q k.disk = (some a, w) ∧ f a { k with disk := w } = (some b, k') := by
  rcases hq : q k.disk with ⟨_ | a, w⟩
  · have hstop : onDisk q k = (none, { k with disk := w }) := by rw [onDisk, hq]
    rw [bind_stopped hstop] at hrun
    cases hrun
  · have hend : onDisk q k = (some a, { k with disk := w }) := by rw [onDisk, hq]
    rw [bind_ended hend] at hrun
    exact ⟨a, w, rfl, hrun⟩

theorem RamInPool.heap {v : NodeStore} {j : Nat} {n : VfsNode} (h : RamInPool v)
    (hn : n.ops ≠ some .ramfs) : RamInPool (setNode v (.heap j) fun _ => n) := by
  intro q hq
  by_cases hj : q = .heap j
  · rw [hj, setNode_self] at hq
    exact absurd hq hn
  · rw [setNode_other _ hj] at hq
    exact h q hq

theorem vfsFinddir_pool (h : RamInPool k.vfs)
    (hrun : vfsFinddir fuel (some d) name k = (some r, k')) : RamInPool k'.vfs := by
  rw [vfsFinddir, get_bind] at hrun
  rcases hops : (k.vfs.nodes d).ops with _ | _ | _
  · rw [show opsOf k (some d) = none by simp [opsOf, hops]] at hrun
    obtain ⟨-, rfl⟩ := Prod.mk.inj hrun
    exact h
  · rw [show opsOf k (some d) = some (d, .ramfs) by simp [opsOf, hops]] at hrun
    obtain ⟨-, rfl⟩ := Prod.mk.inj hrun
    exact h
  · rw [show opsOf k (some d) = some (d, .disk) by simp [opsOf, hops]] at hrun
    dsimp only at hrun
    rw [diskFinddir, get_bind] at hrun
    obtain ⟨a, w, -, hstored⟩ := onDisk_ended hrun
    rcases storedNode_vfs hstored with ⟨-, hv⟩ | ⟨e, j, -, -, hv⟩
    · rw [hv]
      exact h
    · rw [hv]
      refine RamInPool.heap h ?_
      simp only [diskNode, hops]
      exact fun h => by cases h

theorem vfsResolvePath_pool (h : RamInPool k.vfs)
    (hrun : vfsResolvePath fuel path k = (some r, k')) : RamInPool k'.vfs :=
  @vfsResolvePath_keeps (fun k => RamInPool k.vfs) fuel path r k k'
    (fun _ _ _ _ _ _ h hone => vfsFinddir_pool h hone) h hrun

-- A file that has just been made has no bytes on either back end.
theorem vfsCreate_empty (h : RamInPool k.vfs)
    (hrun : vfsCreate fuel (some d) name k = (some (some p), k')) :
    FileNode (k'.vfs.nodes p) ∧ (k'.vfs.nodes p).size = 0 ∧
      bufferOf (k'.vfs.nodes p) = fun _ => 0 := by
  rw [vfsCreate, get_bind] at hrun
  rcases hops : (k.vfs.nodes d).ops with _ | _ | _
  · rw [show opsOf k (some d) = none by simp [opsOf, hops]] at hrun
    cases (Prod.mk.inj hrun).1
  · rw [show opsOf k (some d) = some (d, .ramfs) by simp [opsOf, hops]] at hrun
    have hd := h d hops
    obtain ⟨hr, rfl⟩ := Prod.mk.inj hrun
    have hr : (ramfsAdd .file k.vfs (some d) name).1 = some p := Option.some.inj hr
    change FileNode ((ramfsAdd .file k.vfs (some d) name).2.nodes p) ∧
      ((ramfsAdd .file k.vfs (some d) name).2.nodes p).size = 0 ∧
      bufferOf ((ramfsAdd .file k.vfs (some d) name).2.nodes p) = fun _ => 0
    rcases ramfsAdd_cases .file name hd with he | ⟨-, he⟩
    · rw [he] at hr
      cases hr
    · rw [he] at hr ⊢
      obtain rfl := Option.some.inj hr
      dsimp only
      rw [added_new hd]
      exact ⟨⟨rfl, (by decide : 0 < 2 ^ 32), .inl ⟨hops, fun e he => (by cases he),
        Nat.zero_le _, .inl rfl⟩⟩, rfl, rfl⟩
  · rw [show opsOf k (some d) = some (d, .disk) by simp [opsOf, hops]] at hrun
    dsimp only at hrun
    rw [diskCreate, get_bind] at hrun
    obtain ⟨a, w, hcreate, hstored⟩ := onDisk_ended hrun
    rcases storedNode_vfs hstored with ⟨hnone, -⟩ | ⟨e, j, rfl, hp, hv⟩
    · cases hnone
    · obtain rfl := Option.some.inj hp
      obtain ⟨i, rfl⟩ := Fat32.fat32Create_entry.result hcreate e rfl
      rw [hv, setNode_self]
      have hfile : Fat32.hasAttr Fat32.attrArchive Fat32.attrDirectory = false := by decide
      refine ⟨⟨?_, (by decide : 0 < 2 ^ 32), .inr ⟨?_, _, rfl, rfl⟩⟩, rfl, rfl⟩
      · simp only [diskNode, Fat32.newEntry, hfile]
        rfl
      · simp only [diskNode, hops]
        rfl

end Create

end Vfs
