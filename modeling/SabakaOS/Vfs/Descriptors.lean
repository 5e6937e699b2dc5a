import SabakaOS.Library.OpenFiles
import SabakaOS.Vfs.Syscalls
import SabakaOS.Vfs.Tree

namespace Vfs

open Word ByteMemory Prog Relation OpenFiles
open Fat32 (isCString)

def content (n : VfsNode) : List UInt8 :=
  match n.data with
  | some (.bytes b) => readBytes b n.size 0
  | _ => []

-- A file of the RAM file system has its buffer as soon as it has bytes.
structure FileOk (n : VfsNode) : Prop where
  size_le : n.size ≤ vfsMaxFileData
  buffer : n.size = 0 ∨ ∃ b, n.data = some (.bytes b)

def bufferOf (n : VfsNode) : Nat → UInt8 :=
  match n.data with
  | some (.bytes b) => b
  | _ => fun _ => 0

-- The node of a file after d is stored at off.
def written (off : Nat) (d : List UInt8) (n : VfsNode) : VfsNode :=
  { n with
    data := some (.bytes (writeBytes (bufferOf n) off d))
    size := if n.size < off + d.length then off + d.length else n.size }

theorem written_size (off : Nat) (d : List UInt8) (n : VfsNode) :
    (written off d n).size = max n.size (off + d.length) := by
  simp only [written]
  split <;> omega

theorem FileOk.content_length {n : VfsNode} (h : FileOk n) : (content n).length = n.size := by
  rcases h.buffer with h0 | ⟨b, hb⟩
  · rw [content, h0]
    split <;> rfl
  · rw [content, hb, readBytes_length]

theorem kmalloc_bind {α : Type} {k : Kernel} (h : k.heap k.heapCalls = true)
    (f : Bool → Prog Kernel α) :
    (kmalloc >>= f) k = f true { k with heapCalls := k.heapCalls + 1 } := by
  refine bind_ended ?_
  rw [kmalloc, h]

section Ramfs

variable {k : Kernel} {p : Ptr} {off len : Nat} {buf : List UInt8}

theorem ramfsRead_eq {v : NodeStore} (hfile : (v.nodes p).type = .file)
    (hok : FileOk (v.nodes p)) :
    ramfsRead v p off len = .ok (((content (v.nodes p)).drop off).take len) := by
  simp only [ramfsRead, hfile, ne_eq, not_true, if_false]
  by_cases hoff : (v.nodes p).size ≤ off
  · rw [if_pos hoff, List.drop_eq_nil_of_le (by rw [hok.content_length]; exact hoff),
      List.take_nil]
  · obtain ⟨b, hb⟩ := hok.buffer.resolve_left (by omega)
    rw [if_neg hoff, content, hb]
    simp only [readBytes_drop b 0 (Nat.le_of_not_le hoff), readBytes_take, Nat.zero_add]
    congr 2
    split <;> omega

theorem content_written {n : VfsNode} (hok : FileOk n) (hoff : off ≤ n.size) (d : List UInt8) :
    content (written off d n) = overwrite (content n) off d := by
  have hold : content n = readBytes (bufferOf n) n.size 0 := by
    rcases hok.buffer with h0 | ⟨b, hb⟩
    · rw [h0, List.eq_nil_of_length_eq_zero (hok.content_length.trans h0)]
      rfl
    · rw [content, bufferOf, hb]
  have hsize : (if n.size < off + d.length then off + d.length else n.size) =
      max n.size (off + d.length) := by
    split <;> omega
  rw [hold, overwrite, ← readBytes_overwritten hoff fun k _ => rfl]
  simp only [content, written, hsize]

theorem fileOk_written {n : VfsNode} (hok : FileOk n) {d : List UInt8}
    (hd : off + d.length ≤ vfsMaxFileData) : FileOk (written off d n) where
  size_le := by
    rw [written_size]
    exact Nat.max_le.mpr ⟨hok.size_le, hd⟩
  buffer := Or.inr ⟨_, rfl⟩

theorem ramfsWrite_full (buf : List UInt8) (hfile : (k.vfs.nodes p).type = .file) (hbuf : buf ≠ [])
    (hlen : buf.length ≤ 65536) :
    ramfsWrite p buf vfsMaxFileData k = (some (-1), k) := by
  have hsum : vfsMaxFileData < u32 (vfsMaxFileData + buf.length) := by
    have hpos := List.length_pos_iff.mpr hbuf
    rw [u32_of_lt (by unfold vfsMaxFileData; omega)]
    omega
  rw [ramfsWrite, get_bind]
  simp [hfile, hsum]
  rfl

theorem ramfsWrite_stores (off : Nat) (hfile : (k.vfs.nodes p).type = .file) (hheap : ∀ n, k.heap n = true)
    (hoff : off ≤ vfsMaxFileData) (hlen : buf.length ≤ 65536)
    (hroom : off < vfsMaxFileData ∨ buf = []) :
    ∃ calls, ramfsWrite p buf off k =
      (some ((buf.take (vfsMaxFileData - off)).length : Int), { k with
        vfs := setNode k.vfs p (written off (buf.take (vfsMaxFileData - off)))
        heapCalls := calls }) := by
  have hsum : u32 (off + buf.length) = off + buf.length := by
    refine u32_of_lt ?_
    unfold vfsMaxFileData at hoff
    omega
  have hsize : (if vfsMaxFileData < off + buf.length then vfsMaxFileData - off else buf.length) =
      (buf.take (vfsMaxFileData - off)).length := by
    rw [List.length_take]
    split <;> omega
  have hlast : (if vfsMaxFileData < off + buf.length then vfsMaxFileData else off + buf.length) =
      off + (buf.take (vfsMaxFileData - off)).length := by
    rw [List.length_take]
    split <;> omega
  have htake : buf.take (buf.take (vfsMaxFileData - off)).length =
      buf.take (vfsMaxFileData - off) := by
    rw [List.length_take, ← List.take_take, List.take_length]
  have hgo : ¬(vfsMaxFileData < off + buf.length ∧ vfsMaxFileData ≤ off) := by
    rintro ⟨h1, h2⟩
    rcases hroom with h | h
    · omega
    · rw [h, List.length_nil] at h1
      omega
  rw [ramfsWrite, get_bind]
  simp only [hsum, hfile, ne_eq, not_true, if_false, hgo, hsize, hlast, htake]
  have hset : ∀ b, bufferOf (k.vfs.nodes p) = b → (setNode k.vfs p fun n => { n with
      data := some (.bytes (writeBytes b off (buf.take (vfsMaxFileData - off))))
      size := if n.size < off + (buf.take (vfsMaxFileData - off)).length then
        off + (buf.take (vfsMaxFileData - off)).length else n.size }) =
      setNode k.vfs p (written off (buf.take (vfsMaxFileData - off))) := by
    rintro b rfl
    rfl
  cases hd : (k.vfs.nodes p).data with
  | none =>
    refine ⟨k.heapCalls + 1, ?_⟩
    simp only [kmalloc_bind (hheap _)]
    rw [← hset _ (by rw [bufferOf, hd])]
    rfl
  | some x =>
    cases x with
    | bytes b =>
      refine ⟨k.heapCalls, ?_⟩
      rw [← hset b (by rw [bufferOf, hd])]
      rfl
    | entry e =>
      refine ⟨k.heapCalls + 1, ?_⟩
      simp only [kmalloc_bind (hheap _)]
      rw [← hset _ (by rw [bufferOf, hd])]
      rfl

end Ramfs

def RamFile (v : NodeStore) (i : Nat) : Prop :=
  i < v.nodePoolUsed ∧ (v.nodes (.pool i)).type = .file ∧ (v.nodes (.pool i)).ops = some .ramfs

-- No kmalloc fails, and every file of the RAM file system holds at most 4096 bytes.
structure Ready (k : Kernel) : Prop where
  heap : ∀ n, k.heap n = true
  files : ∀ i, RamFile k.vfs i → FileOk (k.vfs.nodes (.pool i))

section Resolve

-- Walking a path makes nodes of the disk at most.
structure Kept (k k' : Kernel) : Prop where
  heap : k'.heap = k.heap
  used : k'.vfs.nodePoolUsed = k.vfs.nodePoolUsed
  pool : ∀ i, k'.vfs.nodes (.pool i) = k.vfs.nodes (.pool i)

theorem Kept.refl (k : Kernel) : Kept k k := ⟨rfl, rfl, fun _ => rfl⟩

theorem Kept.trans {a b c : Kernel} (h : Kept a b) (h' : Kept b c) : Kept a c :=
  ⟨h'.heap.trans h.heap, h'.used.trans h.used, fun i => (h'.pool i).trans (h.pool i)⟩

def Keeps {α : Type} (p : Prog Kernel α) : Prop :=
  ∀ k, Runs p k (fun _ k' => Kept k k') (fun _ => True)

variable {α β : Type}

theorem keeps_pure (a : α) : Keeps (pure a) := fun k => Runs.pure (Kept.refl k)

theorem keeps_get : Keeps (Prog.get : Prog Kernel Kernel) := fun k => Kept.refl k

theorem Keeps.bind {p : Prog Kernel α} {f : α → Prog Kernel β} (hp : Keeps p)
    (hf : ∀ a, Keeps (f a)) : Keeps (p >>= f) := fun k =>
  (hp k).bind fun a k' h => (hf a k').mono (fun _ _ h' => h.trans h') (fun _ h' => h')

theorem keeps_of {p : Prog Kernel α} (h : ∀ k, Kept k (p k).2) : Keeps p := by
  intro k
  have hk := h k
  unfold Runs
  split
  · rename_i he
    rwa [he] at hk
  · trivial

theorem keeps_onDisk (p : Fat32.Drv α) : Keeps (onDisk p) :=
  keeps_of fun _ => ⟨rfl, rfl, fun _ => rfl⟩

theorem keeps_kmalloc : Keeps kmalloc := keeps_of fun _ => ⟨rfl, rfl, fun _ => rfl⟩

theorem keeps_makeDiskNode (name : List UInt8) (e : Fat32.Fat32Entry) (ops : Option VfsOps) :
    Keeps (makeDiskNode name e ops) := by
  refine keeps_get.bind fun k => keeps_kmalloc.bind fun ok => ?_
  split
  · exact keeps_pure none
  · refine Keeps.bind (keeps_of fun k' => ⟨rfl, rfl, fun i => ?_⟩) fun _ => keeps_pure _
    simp [Prog.modify, setNode]

theorem keeps_storedNode (node : Ptr) (r : Except Int Fat32.Fat32Entry) :
    Keeps (storedNode node r) := by
  cases r with
  | error e => exact keeps_pure none
  | ok found =>
    refine keeps_kmalloc.bind fun ok => ?_
    split
    · exact keeps_pure none
    · exact keeps_get.bind fun k => keeps_makeDiskNode _ _ _

theorem keeps_vfsFinddir (fuel : Nat) (node : Option Ptr) (name : List UInt8) :
    Keeps (vfsFinddir fuel node name) := by
  refine keeps_get.bind fun k => ?_
  split
  · exact keeps_pure none
  · exact keeps_pure _
  · exact keeps_get.bind fun k => (keeps_onDisk _).bind fun r => keeps_storedNode _ r

theorem keeps_resolveFrom (fuel n : Nat) (path : List UInt8) (cur : Ptr) :
    Keeps (resolveFrom fuel n path cur) := by
  induction n generalizing path cur with
  | zero => exact keeps_pure _
  | succ n ih =>
    rw [resolveFrom]
    dsimp only
    split
    · exact keeps_pure _
    split
    · exact ih _ _
    split
    · exact keeps_get.bind fun k => ih _ _
    · refine (keeps_vfsFinddir _ _ _).bind fun next => ?_
      split
      · exact keeps_pure none
      · exact ih _ _

theorem keeps_vfsResolvePath (fuel : Nat) (path : List UInt8) :
    Keeps (vfsResolvePath fuel path) := by
  refine keeps_get.bind fun k => ?_
  cases path with
  | nil => exact keeps_pure _
  | cons c rest =>
    dsimp only
    split
    · exact keeps_pure none
    · split
      · exact keeps_resolveFrom _ _ _ _
      · exact keeps_resolveFrom _ _ _ _

end Resolve

def descEntry (e : FDEntry) : Option (Nat × Nat) :=
  if e.used then
    match e.node with
    | some (.pool i) => some (i, e.offset)
    | _ => none
  else none

def abs (s : Machine) : Table Nat UInt8 where
  files i := content (s.kernel.vfs.nodes (.pool i))
  descs fd := if fd < maxFd then descEntry (s.fdTable fd) else none

def ramLimits : Limits where
  first := 3
  last := maxFd
  cap := vfsMaxFileData
  chunk := 65536

inductive SysCall where
  | open (path : List UInt8) (flags : Nat)
  | read (fd len : Nat)
  | write (fd addr : Nat) (buf : List UInt8)
  | close (fd : Nat)

def readReply : Except Int (List UInt8) → Reply UInt8
  | .error e => ⟨e, []⟩
  | .ok bytes => ⟨(bytes.length : Int), bytes⟩

def SysCall.run (fuel : Nat) (mapped : Nat → Bool) : SysCall → Prog Machine (Reply UInt8)
  | .open path flags => do
    let r ← sysOpen fuel path flags
    pure ⟨r, []⟩
  | .read fd len => do
    let r ← sysRead fuel fd len
    pure (readReply r)
  | .write fd addr buf => do
    let r ← sysWrite fuel mapped fd addr buf
    pure ⟨r, []⟩
  | .close fd => do
    let r ← sysClose fd
    pure ⟨r, []⟩

-- A call of the kernel and the call of the reference model it stands for.
inductive Means (fuel : Nat) (s : Machine) : SysCall → Call Nat UInt8 → Prop where
  | opens {path flags i} : (vfsResolvePath fuel path s.kernel).1 = some (some (.pool i)) →
      RamFile s.kernel.vfs i → Means fuel s (.open path flags) (.open i)
  | reads {fd len} : 3 ≤ fd → Means fuel s (.read fd len) (.read fd len)
  | writes {fd addr buf} : 3 ≤ fd → Means fuel s (.write fd addr buf) (.write fd buf)
  | closes {fd} : 3 ≤ fd → Means fuel s (.close fd) (.close fd)

inductive SysRun (s₀ : Machine) : List (Call Nat UInt8 × Reply UInt8) → Machine → Prop where
  | nil : SysRun s₀ [] s₀
  | snoc {tr s c a r s'} (fuel : Nat) (mapped : Nat → Bool) : SysRun s₀ tr s → Means fuel s c a →
      c.run fuel mapped s = (some r, s') → SysRun s₀ (tr ++ [(a, r)]) s'

structure Consistent (s : Machine) : Prop where
  ready : Ready s.kernel
  descs : ∀ fd < maxFd, (s.fdTable fd).used = true → ∃ i, (s.fdTable fd).node = some (.pool i) ∧
    RamFile s.kernel.vfs i ∧ (s.fdTable fd).offset ≤ (s.kernel.vfs.nodes (.pool i)).size

section Table

variable {s : Machine} {fd i off : Nat}

theorem abs_setFd (hfd : fd < maxFd) (e : FDEntry) :
    abs (setFd s fd e) = (abs s).setDesc fd (descEntry e) := by
  simp only [abs, setFd, Table.setDesc, Table.mk.injEq, true_and]
  funext j
  by_cases hj : j = fd
  · subst hj
    simp [hfd]
  · simp [hj]

theorem abs_setNode (f : VfsNode → VfsNode) (calls : Nat) :
    abs { s with kernel := { s.kernel with
      vfs := setNode s.kernel.vfs (.pool i) f
      heapCalls := calls } } =
      (abs s).setFile i (content (f (s.kernel.vfs.nodes (.pool i)))) := by
  simp only [abs, setNode, Table.setFile, Table.mk.injEq, and_true]
  funext j
  by_cases hj : j = i
  · subst hj
    simp
  · simp [hj]

theorem descs_closed (h : ¬(fd < maxFd ∧ (s.fdTable fd).used = true)) :
    (abs s).descs fd = none := by
  simp only [abs, descEntry]
  by_cases hfd : fd < maxFd
  · rw [if_pos hfd, if_neg (fun hu => h ⟨hfd, hu⟩)]
  · rw [if_neg hfd]

theorem Consistent.opened (h : Consistent s) (hfd : fd < maxFd)
    (hu : (s.fdTable fd).used = true) :
    ∃ i, (s.fdTable fd).node = some (.pool i) ∧ RamFile s.kernel.vfs i ∧
      (s.fdTable fd).offset ≤ (s.kernel.vfs.nodes (.pool i)).size ∧
      FileOk (s.kernel.vfs.nodes (.pool i)) ∧
      (abs s).descs fd = some (i, (s.fdTable fd).offset) := by
  obtain ⟨i, hn, hr, ho⟩ := h.descs fd hfd hu
  refine ⟨i, hn, hr, ho, h.ready.files i hr, ?_⟩
  simp only [abs, descEntry]
  rw [if_pos hfd, if_pos hu, hn]

theorem Consistent.setFd (h : Consistent s) {e : FDEntry}
    (he : e.used = true → ∃ i, e.node = some (.pool i) ∧ RamFile s.kernel.vfs i ∧
      e.offset ≤ (s.kernel.vfs.nodes (.pool i)).size) : Consistent (setFd s fd e) where
  ready := h.ready
  descs j hj hu := by
    by_cases hjf : j = fd
    · subst hjf
      simp only [Vfs.setFd, Function.update_self] at hu ⊢
      exact he hu
    · simp only [Vfs.setFd, Function.update_of_ne hjf] at hu ⊢
      exact h.descs j hj hu

theorem ramFile_setNode {v : NodeStore} {f : VfsNode → VfsNode} {j : Nat}
    (hf : ∀ n, (f n).type = n.type ∧ (f n).ops = n.ops) :
    RamFile (setNode v (.pool i) f) j ↔ RamFile v j := by
  by_cases hj : j = i
  · subst hj
    simp [RamFile, setNode, hf]
  · simp [RamFile, setNode, hj]

theorem Consistent.stored (h : Consistent s) {f : VfsNode → VfsNode} (calls : Nat)
    (hf : ∀ n, (f n).type = n.type ∧ (f n).ops = n.ops)
    (hok : FileOk (f (s.kernel.vfs.nodes (.pool i))))
    (hsize : (s.kernel.vfs.nodes (.pool i)).size ≤ (f (s.kernel.vfs.nodes (.pool i))).size) :
    Consistent { s with kernel := { s.kernel with
      vfs := setNode s.kernel.vfs (.pool i) f
      heapCalls := calls } } where
  ready.heap := h.ready.heap
  ready.files j hj := by
    by_cases hji : j = i
    · subst hji
      simpa [setNode] using hok
    · simpa [setNode, hji] using h.ready.files j ((ramFile_setNode hf).mp hj)
  descs fd hfd hu := by
    obtain ⟨j, hn, hr, ho⟩ := h.descs fd hfd hu
    refine ⟨j, hn, (ramFile_setNode hf).mpr hr, ?_⟩
    by_cases hji : j = i
    · subst hji
      simpa [setNode] using le_trans ho hsize
    · simpa [setNode, hji] using ho

theorem Consistent.kept (h : Consistent s) {k : Kernel} (hk : Kept s.kernel k) :
    Consistent { s with kernel := k } ∧ abs { s with kernel := k } = abs s := by
  have hram : ∀ j, RamFile k.vfs j ↔ RamFile s.kernel.vfs j := fun j => by
    rw [RamFile, hk.used, hk.pool, RamFile]
  refine ⟨⟨⟨?_, ?_⟩, ?_⟩, ?_⟩
  · intro n
    change k.heap n = true
    rw [hk.heap]
    exact h.ready.heap n
  · intro j hj
    change FileOk (k.vfs.nodes (.pool j))
    rw [hk.pool]
    exact h.ready.files j ((hram j).mp hj)
  · intro fd hfd hu
    obtain ⟨j, hn, hr, ho⟩ := h.descs fd hfd hu
    refine ⟨j, hn, (hram j).mpr hr, ?_⟩
    change (s.fdTable fd).offset ≤ (k.vfs.nodes (.pool j)).size
    rwa [hk.pool]
  · simp only [abs, hk.pool]

end Table

section Calls

variable {s : Machine} {fuel fd i off len : Nat} {mapped : Nat → Bool}

theorem inKernel_bind {α β : Type} {p : Prog Kernel α} {a : α} {k : Kernel}
    (hp : p s.kernel = (some a, k)) (f : α → Prog Machine β) :
    (inKernel p >>= f) s = f a { s with kernel := k } := by
  refine bind_ended ?_
  rw [inKernel, hp]

theorem vfsRead_ram {k : Kernel} (hr : RamFile k.vfs i) (off len : Nat) :
    vfsRead fuel (some (.pool i)) off len k = (some (ramfsRead k.vfs (some (.pool i)) off len), k) := by
  have hops : opsOf k (some (.pool i)) = some (.pool i, .ramfs) := by simp [opsOf, hr.2.2]
  rw [vfsRead, get_bind, hops]
  rfl

theorem vfsWrite_ram {k : Kernel} (hr : RamFile k.vfs i) (buf : List UInt8) (off : Nat) :
    vfsWrite fuel (some (.pool i)) buf off k = ramfsWrite (some (.pool i)) buf off k := by
  have hops : opsOf k (some (.pool i)) = some (.pool i, .ramfs) := by simp [opsOf, hr.2.2]
  rw [vfsWrite, get_bind, hops]

theorem setDesc_self {t : Table Nat UInt8} {d : Nat × Nat} (h : t.descs fd = some d) :
    t.setDesc fd (some d) = t := by
  rw [Table.setDesc, ← h, Function.update_eq_self]

def advanced (s : Machine) (fd n : Nat) : Machine :=
  if 0 < n then setFd s fd { s.fdTable fd with offset := u32 ((s.fdTable fd).offset + n) } else s

theorem Consistent.advanced (h : Consistent s) (hfd : fd < maxFd)
    (hu : (s.fdTable fd).used = true) (hn : (s.fdTable fd).node = some (.pool i))
    (hr : RamFile s.kernel.vfs i) {n : Nat}
    (hle : (s.fdTable fd).offset + n ≤ (s.kernel.vfs.nodes (.pool i)).size) :
    Consistent (advanced s fd n) ∧
      abs (advanced s fd n) = (abs s).setDesc fd (some (i, (s.fdTable fd).offset + n)) := by
  have hsize := (h.ready.files i hr).size_le
  have hu32 : u32 ((s.fdTable fd).offset + n) = (s.fdTable fd).offset + n :=
    u32_of_lt (by unfold vfsMaxFileData at hsize; omega)
  rw [Vfs.advanced, hu32]
  by_cases hn0 : 0 < n
  · rw [if_pos hn0]
    refine ⟨h.setFd fun _ => ⟨i, hn, hr, hle⟩, ?_⟩
    rw [abs_setFd hfd]
    simp [descEntry, hu, hn]
  · rw [if_neg hn0, Nat.eq_zero_of_not_pos hn0]
    obtain ⟨j, hn', -, -, -, hd⟩ := h.opened hfd hu
    have hij : j = i := Ptr.pool.inj (Option.some.inj (hn'.symm.trans hn))
    exact ⟨h, (setDesc_self (hij ▸ hd)).symm⟩

theorem sysRead_refines (h : Consistent s) (h3 : 3 ≤ fd) :
    ∃ r s', sysRead fuel fd len s = (some r, s') ∧ Consistent s' ∧
      Step ramLimits (.read fd len) (readReply r) (abs s) (abs s') := by
  have h0 : fd ≠ 0 := by omega
  by_cases hopen : fd < maxFd ∧ (s.fdTable fd).used = true
  swap
  · refine ⟨.error (-1), s, ?_, h, .readClosed (descs_closed hopen)⟩
    rw [sysRead, get_bind, if_neg h0, if_neg hopen]
    rfl
  obtain ⟨hfd, hu⟩ := hopen
  obtain ⟨i, hn, hr, ho, hok, hd⟩ := h.opened hfd hu
  obtain ⟨bytes, hb⟩ : ∃ bytes, bytes = ((content (s.kernel.vfs.nodes (.pool i))).drop
      (s.fdTable fd).offset).take len := ⟨_, rfl⟩
  have hrun : sysRead fuel fd len s = (some (.ok bytes), advanced s fd bytes.length) := by
    rw [sysRead, get_bind, if_neg h0, if_pos ⟨hfd, hu⟩, hn, inKernel_bind (vfsRead_ram hr _ _),
      ramfsRead_eq hr.2.1 hok, ← hb]
    dsimp only
    rw [advanced]
    split <;> rfl
  have hle : (s.fdTable fd).offset + bytes.length ≤ (s.kernel.vfs.nodes (.pool i)).size := by
    rw [hb, List.length_take, List.length_drop, hok.content_length]
    omega
  obtain ⟨hc, habs⟩ := h.advanced hfd hu hn hr hle
  refine ⟨_, _, hrun, hc, ?_⟩
  rw [habs]
  exact .read hd hb

theorem stored_eq (off : Nat) (buf : List UInt8) :
    stored ramLimits off buf = (buf.take 65536).take (vfsMaxFileData - off) := by
  rw [stored, List.take_take, ramLimits]
  dsimp only
  by_cases hl : buf.length ≤ min (vfsMaxFileData - off) 65536
  · rw [List.take_of_length_le hl, List.take_of_length_le (by omega)]
  · congr 1
    omega

theorem sysWrite_refines (h : Consistent s) (h3 : 3 ≤ fd) (addr : Nat) (buf : List UInt8) :
    ∃ r s', sysWrite fuel mapped fd addr buf s = (some r, s') ∧ Consistent s' ∧
      Step ramLimits (.write fd buf) ⟨r, []⟩ (abs s) (abs s') := by
  have h12 : ¬(fd = 1 ∨ fd = 2) := by omega
  by_cases hopen : fd < maxFd ∧ (s.fdTable fd).used = true
  swap
  · refine ⟨-1, s, ?_, h, .writeClosed (descs_closed hopen)⟩
    rw [sysWrite, get_bind, if_neg h12, if_neg hopen]
    rfl
  obtain ⟨hfd, hu⟩ := hopen
  obtain ⟨i, hn, hr, ho, hok, hd⟩ := h.opened hfd hu
  have hsize := hok.size_le
  have hlen : (buf.take 65536).length ≤ 65536 := List.length_take_le _ _
  by_cases hfull : (s.fdTable fd).offset = vfsMaxFileData ∧ buf ≠ []
  · obtain ⟨hoff, hne⟩ := hfull
    refine ⟨-1, s, ?_, h, .noRoom (hoff ▸ hd) hne⟩
    have hw := ramfsWrite_full (k := s.kernel) (buf.take 65536) hr.2.1 (by simpa using hne) hlen
    rw [sysWrite, get_bind, if_neg h12, if_pos ⟨hfd, hu⟩, hn, hoff,
      inKernel_bind ((vfsWrite_ram hr _ _).trans hw)]
    rfl
  have hroom : (s.fdTable fd).offset < vfsMaxFileData ∨ buf = [] := by
    by_cases hb : buf = []
    · exact Or.inr hb
    · exact Or.inl (by
        have : (s.fdTable fd).offset ≠ vfsMaxFileData := fun he => hfull ⟨he, hb⟩
        omega)
  obtain ⟨calls, hw⟩ := ramfsWrite_stores (k := s.kernel) (s.fdTable fd).offset hr.2.1
    h.ready.heap (le_trans ho hsize) hlen (hroom.imp_right fun hb => by rw [hb, List.take_nil])
  rw [← stored_eq] at hw
  obtain ⟨d, hdef⟩ : ∃ d, d = stored ramLimits (s.fdTable fd).offset buf := ⟨_, rfl⟩
  have hfit : (s.fdTable fd).offset + d.length ≤ vfsMaxFileData := by
    rw [hdef, stored_eq, List.length_take]
    omega
  rw [← hdef] at hw
  have hc := h.stored (f := written (s.fdTable fd).offset d) calls (fun _ => ⟨rfl, rfl⟩)
    (fileOk_written hok hfit) (by rw [written_size]; exact Nat.le_max_left _ _)
  have habs := abs_setNode (s := s) (i := i) (written (s.fdTable fd).offset d) calls
  rw [content_written hok ho d] at habs
  generalize hs₁ : ({ s with kernel := { s.kernel with
    vfs := setNode s.kernel.vfs (.pool i) (written (s.fdTable fd).offset d)
    heapCalls := calls } } : Machine) = s₁ at hc habs
  have hfds : s₁.fdTable = s.fdTable := by rw [← hs₁]
  have hnode : s₁.kernel.vfs.nodes (.pool i) =
      written (s.fdTable fd).offset d (s.kernel.vfs.nodes (.pool i)) := by
    rw [← hs₁]
    simp [setNode]
  have hr₁ : RamFile s₁.kernel.vfs i := by
    rw [← hs₁]
    exact (ramFile_setNode (f := written _ d) fun _ => ⟨rfl, rfl⟩).mpr hr
  have hrun : sysWrite fuel mapped fd addr buf s =
      (some (d.length : Int), advanced s₁ fd d.length) := by
    rw [sysWrite, get_bind, if_neg h12, if_pos ⟨hfd, hu⟩, hn,
      inKernel_bind ((vfsWrite_ram hr _ _).trans hw), hs₁, advanced]
    by_cases hpos : 0 < d.length
    · rw [if_pos hpos, if_pos (by omega)]
      rfl
    · rw [if_neg hpos, if_neg (by omega)]
      rfl
  obtain ⟨hc', habs'⟩ := hc.advanced hfd (hfds ▸ hu) (hfds ▸ hn) hr₁ (n := d.length) (by
    rw [hnode, hfds, written_size]
    exact Nat.le_max_right _ _)
  refine ⟨_, _, hrun, hc', ?_⟩
  rw [habs', habs, hfds, hdef]
  exact .write hd hroom

theorem sysClose_refines (h : Consistent s) (h3 : 3 ≤ fd) :
    ∃ r s', sysClose fd s = (some r, s') ∧ Consistent s' ∧
      Step ramLimits (.close fd) ⟨r, []⟩ (abs s) (abs s') := by
  by_cases hopen : fd < maxFd ∧ (s.fdTable fd).used = true
  swap
  · refine ⟨-1, s, ?_, h, .closeClosed (descs_closed hopen)⟩
    rw [sysClose, if_pos]
    rw [not_and, Bool.not_eq_true] at hopen
    by_cases hfd : fd < maxFd
    · exact Or.inr (Or.inr (hopen hfd))
    · exact Or.inr (Or.inl (Nat.le_of_not_lt hfd))
  obtain ⟨hfd, hu⟩ := hopen
  obtain ⟨i, -, -, -, -, hd⟩ := h.opened hfd hu
  refine ⟨0, setFd s fd { s.fdTable fd with used := false }, ?_, h.setFd (fun he => by cases he), ?_⟩
  · rw [sysClose, if_neg]
    rintro (hlt | hge | hu')
    · omega
    · omega
    · rw [hu] at hu'
      cases hu'
  · rw [abs_setFd hfd]
    exact .close hd

theorem sysOpen_refines (h : Consistent s) {path : List UInt8} (flags : Nat)
    (hres : (vfsResolvePath fuel path s.kernel).1 = some (some (.pool i)))
    (hr : RamFile s.kernel.vfs i) :
    ∃ r s', sysOpen fuel path flags s = (some r, s') ∧ Consistent s' ∧
      Step ramLimits (.open i) ⟨r, []⟩ (abs s) (abs s') := by
  obtain ⟨k, hk⟩ : ∃ k, vfsResolvePath fuel path s.kernel = (some (some (.pool i)), k) :=
    ⟨_, Prod.ext hres rfl⟩
  have hkept : Kept s.kernel k := (keeps_vfsResolvePath fuel path s.kernel).result hk
  obtain ⟨hc, habs⟩ := h.kept hkept
  have hr₁ : RamFile ({ s with kernel := k } : Machine).kernel.vfs i := by
    rw [RamFile, hkept.used, hkept.pool]
    exact hr
  have hrun : sysOpen fuel path flags s = allocFd (some (.pool i)) { s with kernel := k } := by
    rw [sysOpen, inKernel_bind hk]
    rfl
  generalize ({ s with kernel := k } : Machine) = s₁ at hc habs hrun hr₁
  rw [← habs, hrun, allocFd]
  cases hfree : freeFd s₁ with
  | none =>
    refine ⟨-1, s₁, rfl, hc, .noneFree fun fd h3 hlt => ?_⟩
    have hmem : fd ∈ List.range' 3 (maxFd - 3) := by
      simp only [ramLimits] at h3 hlt
      rw [List.mem_range'_1]
      unfold maxFd at hlt ⊢
      omega
    have hu : (s₁.fdTable fd).used = true := by
      simpa using List.find?_eq_none.mp hfree fd hmem
    obtain ⟨j, -, -, -, -, hd⟩ := hc.opened hlt hu
    rw [hd]
    exact fun he => by cases he
  | some fd =>
    have hfd : 3 ≤ fd ∧ fd < maxFd := by
      have hmem := List.mem_of_find?_eq_some hfree
      rw [List.mem_range'_1] at hmem
      unfold maxFd at hmem ⊢
      omega
    have hu : ¬(fd < maxFd ∧ (s₁.fdTable fd).used = true) := by
      have := List.find?_some hfree
      simp_all
    refine ⟨(fd : Int), _, rfl, hc.setFd fun _ => ⟨i, rfl, hr₁, Nat.zero_le _⟩, ?_⟩
    rw [abs_setFd hfd.2]
    exact .opened hfd.1 hfd.2 (descs_closed hu)

theorem sysCall_refines (mapped : Nat → Bool) (h : Consistent s) {c : SysCall} {a : Call Nat UInt8}
    (hm : Means fuel s c a) :
    ∃ r s', c.run fuel mapped s = (some r, s') ∧ Consistent s' ∧
      Step ramLimits a r (abs s) (abs s') := by
  cases hm with
  | opens hres hr =>
    obtain ⟨r, s', he, hs⟩ := sysOpen_refines h _ hres hr
    exact ⟨_, s', by rw [SysCall.run, bind_ended he]; rfl, hs⟩
  | reads h3 =>
    obtain ⟨r, s', he, hs⟩ := sysRead_refines h h3
    exact ⟨_, s', by rw [SysCall.run, bind_ended he]; rfl, hs⟩
  | writes h3 =>
    obtain ⟨r, s', he, hs⟩ := sysWrite_refines h h3 _ _
    exact ⟨_, s', by rw [SysCall.run, bind_ended he]; rfl, hs⟩
  | closes h3 =>
    obtain ⟨r, s', he, hs⟩ := sysClose_refines h h3
    exact ⟨_, s', by rw [SysCall.run, bind_ended he]; rfl, hs⟩

theorem sysRun_refines {s₀ : Machine} (h : Consistent s₀)
    {tr : List (Call Nat UInt8 × Reply UInt8)} (hr : SysRun s₀ tr s) :
    Consistent s ∧ Run ramLimits tr (abs s₀) (abs s) := by
  induction hr with
  | nil => exact ⟨h, .nil _⟩
  | @snoc tr s c a r s' fuel mapped _ hm he ih =>
    obtain ⟨r', s'', he', hc, hs⟩ := sysCall_refines mapped ih.1 hm
    rw [he] at he'
    obtain ⟨hr', rfl⟩ := Prod.mk.inj he'
    rw [← Option.some.inj hr'] at hs
    exact ⟨hc, ih.2.snoc hs⟩

end Calls

theorem consistent_syscallInit {s : Machine} (h : Ready s.kernel) :
    Consistent (syscallInit s) where
  ready := h
  descs fd hfd hu := by
    simp [syscallInit, hfd] at hu

theorem abs_syscallInit (s : Machine) (fd : Nat) : (abs (syscallInit s)).descs fd = none := by
  simp only [abs, syscallInit, descEntry]
  split <;> simp

def Unwritten (k : Kernel) : Prop :=
  ∀ p, InUse k.vfs p → (k.vfs.nodes p).size = 0 ∧ (k.vfs.nodes p).data = none

theorem Outcome.unwritten {k k' : Kernel} {r : Option Ptr} (ho : Outcome k r k')
    (h : Unwritten k) : Unwritten k' := by
  cases ho with
  | refused => exact h
  | @made type d name hd ha =>
    intro p hp
    rcases inUse_added hp with hv | rfl
    · obtain ⟨cs, hk⟩ := added_kept type d name hv
      rw [hk]
      exact h p hv
    · rw [added_new hd]
      exact ⟨rfl, rfl⟩

theorem treeRun_ready {k k' : Kernel} (hheap : ∀ n, k.heap n = true)
    (hr : ReflTransGen TreeStep (booted k) k') : Ready k' := by
  have h : Unwritten k' ∧ k'.heap = k.heap := by
    induction hr with
    | refl =>
      refine ⟨?_, rfl⟩
      rintro p ⟨i, hi, rfl⟩
      have h0 : i = 0 := Nat.lt_one_iff.mp hi
      subst h0
      exact ⟨rfl, rfl⟩
    | tail hprev hs ih =>
      obtain ⟨r, ho⟩ := treeStep_outcome (treeRun_grown hprev) hs
      refine ⟨ho.unwritten ih.1, ?_⟩
      cases ho <;> exact ih.2
  refine ⟨fun n => by rw [h.2, hheap], fun i hi => ?_⟩
  obtain ⟨hsize, -⟩ := h.1 (.pool i) ⟨i, hi.1, rfl⟩
  exact ⟨by rw [hsize]; exact Nat.zero_le _, Or.inl hsize⟩

theorem syscalls_refine (s₀ s : Machine) (tr : List (Call Nat UInt8 × Reply UInt8))
    (h : Ready s₀.kernel) (hr : SysRun (syscallInit s₀) tr s) :
    (∀ fd, (abs (syscallInit s₀)).descs fd = none) ∧
    Run ramLimits tr (abs (syscallInit s₀)) (abs s) ∧
    (∀ i, RamFile s.kernel.vfs i → ((abs s).files i).length ≤ vfsMaxFileData) ∧
    ∀ (fuel : Nat) (mapped : Nat → Bool) (c : SysCall) (a : Call Nat UInt8), Means fuel s c a →
      ∃ r s', c.run fuel mapped s = (some r, s') := by
  obtain ⟨hc, hrun⟩ := sysRun_refines (consistent_syscallInit h) hr
  refine ⟨abs_syscallInit s₀, hrun, fun i hi => ?_, fun fuel mapped c a hm => ?_⟩
  · have hok := hc.ready.files i hi
    exact le_of_eq_of_le hok.content_length hok.size_le
  obtain ⟨r, s', he, -, -⟩ := sysCall_refines mapped hc hm
  exact ⟨r, s', he⟩

def createA : TreeCall := .create (some (.pool 0)) ⟨[0x41], nameA_fits⟩

def machineA : Machine where
  kernel := (createA.run 0 (booted powerOn)).2
  fdTable := fun _ => { used := false, node := none, offset := 0 }
  terminal := []

theorem ready_machineA : Ready machineA.kernel :=
  treeRun_ready (k := powerOn) (fun _ => rfl) (.single ⟨createA, 0, some (.pool 1),
    fun _ hp => ⟨0, Nat.one_pos, (Option.some.inj hp).symm⟩, rfl⟩)

def openA : SysCall := .open [0x2F, 0x41] 0

def openedA : Machine := (openA.run 0 (fun _ => false) (syscallInit machineA)).2

def writeA : SysCall := .write 3 0 [0x68, 0x69]

def writtenA : Machine := (writeA.run 0 (fun _ => false) openedA).2

theorem syscalls_refine_writeA :
    (∀ fd, (abs (syscallInit machineA)).descs fd = none) ∧
    Run ramLimits [(.open 1, ⟨3, []⟩), (.write 3 [0x68, 0x69], ⟨2, []⟩)]
      (abs (syscallInit machineA)) (abs writtenA) ∧
    (∀ i, RamFile writtenA.kernel.vfs i → ((abs writtenA).files i).length ≤ vfsMaxFileData) ∧
    ∀ (fuel : Nat) (mapped : Nat → Bool) (c : SysCall) (a : Call Nat UInt8),
      Means fuel writtenA c a → ∃ r s', c.run fuel mapped writtenA = (some r, s') :=
  syscalls_refine machineA writtenA _ ready_machineA
    (.snoc 0 (fun _ => false) (.snoc 0 (fun _ => false) .nil
      (show Means 0 (syscallInit machineA) openA (.open 1) from
        .opens rfl ⟨by decide, rfl, rfl⟩)
      (show openA.run 0 (fun _ => false) (syscallInit machineA) = (some ⟨3, []⟩, openedA) from rfl))
      (show Means 0 openedA writeA (.write 3 [0x68, 0x69]) from .writes (by decide))
      (show writeA.run 0 (fun _ => false) openedA = (some ⟨2, []⟩, writtenA) from rfl))

end Vfs
