import SabakaOS.Vfs.FileNodes
import SabakaOS.Vfs.Syscalls

namespace Shell

open Word ByteMemory Prog Vfs

def pathBasename : List UInt8 → List UInt8 := lastComponent

def isDir (k : Kernel) (node : Option Ptr) : Bool :=
  node.any fun p => (k.vfs.nodes p).type = .dir

-- The directory of the new file, and its name.
def cpParent (fuel : Nat) (srcPath dstPath : List UInt8) :
    Prog Kernel (Option Ptr × List UInt8) := do
  let dstDirNode ← vfsResolvePath fuel dstPath
  let k ← get
  if isDir k dstDirNode then pure (dstDirNode, pathBasename srcPath)
  else
    let base := pathBasename dstPath
    let parentLen := dstPath.length - base.length
    if parentLen = 0 then pure (k.vfs.cwdNode, base)
    else do
      let dstParent ← vfsResolvePath fuel (dstPath.take parentLen)
      pure (dstParent, base)

-- cmd_cp up to the copying, with the line it prints where it gives up.
def cpOpen (fuel : Nat) (args : List (List UInt8)) : Prog Kernel (Except String (Ptr × Ptr)) :=
  match args with
  | _ :: srcPath :: dstPath :: _ => do
    let src ← vfsResolvePath fuel srcPath
    let k ← get
    match src with
    | none => pure (.error "cp: source not found")
    | some src =>
      if (k.vfs.nodes src).type = .dir then pure (.error "cp: source is a directory")
      else do
        let (dstParent, newName) ← cpParent fuel srcPath dstPath
        let k ← get
        if !isDir k dstParent then pure (.error "cp: destination directory not found")
        else do
          let dst ← vfsCreate fuel dstParent newName
          match dst with
          | none => pure (.error "cp: cannot create destination file")
          | some dst => pure (.ok (src, dst))
  | _ => pure (.error "Usage: cp <src> <dst>")

-- The bytes that the reads have delivered and that the writes have stored, each at its offset.
structure Copying where
  failed : Bool
  got : Nat → UInt8
  put : Nat → UInt8

def bufSize : Nat := 512

def cpLoop (fuel : Nat) (src dst : Ptr) :
    Nat → Nat → (Nat → UInt8) → (Nat → UInt8) → Prog Kernel Copying
  | 0, _, _, _ => stopped
  | turns + 1, offset, got, put => do
    let r ← vfsRead fuel (some src) offset bufSize
    match r with
    | .error _ => pure ⟨false, got, put⟩
    | .ok bytes =>
      if bytes = [] then pure ⟨false, got, put⟩
      else do
        let w ← vfsWrite fuel (some dst) bytes offset
        let got := writeBytes got offset bytes
        let put := writeBytes put offset (bytes.take w.toNat)
        if w ≠ bytes.length then pure ⟨true, got, put⟩
        else cpLoop fuel src dst turns (u32 (offset + bytes.length)) got put

inductive CpEnd where
  | refused (line : String)
  | outOfMemory (dst : Ptr)
  | copied (src dst : Ptr) (c : Copying) (stored : Nat)

def CpEnd.lines : CpEnd → List String
  | refused line => [line]
  | outOfMemory _ => ["cp: out of memory"]
  | copied _ _ c _ => (if c.failed then ["cp: write error"] else []) ++ ["cp: done"]

def copySize (src dst : Ptr) (k : Kernel) : Kernel :=
  { k with vfs := setNode k.vfs dst fun n => { n with size := (k.vfs.nodes src).size } }

-- stored is the size that the writes have given the new file.
def cmdCp (fuel turns : Nat) (args : List (List UInt8)) : Prog Kernel CpEnd := do
  let r ← cpOpen fuel args
  match r with
  | .error line => pure (.refused line)
  | .ok (src, dst) => do
    let ok ← kmalloc
    if !ok then pure (.outOfMemory dst)
    else do
      let c ← cpLoop fuel src dst turns 0 (fun _ => 0) (fun _ => 0)
      let k ← get
      Prog.modify (copySize src dst)
      pure (.copied src dst c (k.vfs.nodes dst).size)

-- A byte of a RAM file is in its buffer; one of a disk file is what passed through the driver.
def byteAt (n : VfsNode) (passed : Nat → UInt8) (i : Nat) : UInt8 :=
  if n.ops = some .ramfs then bufferOf n i else passed i

def CpEnd.dest : CpEnd → Option (Ptr × Nat)
  | refused _ => none
  | outOfMemory dst => some (dst, 0)
  | copied _ dst _ stored => some (dst, stored)

def SameContents (k : Kernel) (src dst : Ptr) (c : Copying) (stored : Nat) : Prop :=
  stored = (k.vfs.nodes src).size ∧ ∀ i < stored,
    byteAt (k.vfs.nodes dst) c.put i = byteAt (k.vfs.nodes src) c.got i

structure CpEnd.Kept (r : CpEnd) (k : Kernel) : Prop where
  contents : "cp: done" ∈ r.lines →
    ∃ src dst c stored, r = .copied src dst c stored ∧ SameContents k src dst c stored
  size : ∀ dst stored, r.dest = some (dst, stored) → (k.vfs.nodes dst).size = stored

-- The reads go on to the end of the source and the writes store all of it.
inductive CopiesAll (fuel : Nat) (src dst : Ptr) : Nat → Kernel → Prop
  | last {offset : Nat} {k k₁ : Kernel} {r : Except Int (List UInt8)} :
      vfsRead fuel (some src) offset bufSize k = (some r, k₁) →
      (∀ bytes, r = .ok bytes → bytes = []) →
      offset = (k.vfs.nodes src).size → CopiesAll fuel src dst offset k
  | full {offset : Nat} {k k₁ k₂ : Kernel} {bytes : List UInt8} :
      vfsRead fuel (some src) offset bufSize k = (some (.ok bytes), k₁) → bytes ≠ [] →
      vfsWrite fuel (some dst) bytes offset k₁ = (some (bytes.length : Int), k₂) →
      CopiesAll fuel src dst (u32 (offset + bytes.length)) k₂ → CopiesAll fuel src dst offset k
  | short {offset : Nat} {k k₁ k₂ : Kernel} {bytes : List UInt8} {w : Int} :
      vfsRead fuel (some src) offset bufSize k = (some (.ok bytes), k₁) → bytes ≠ [] →
      vfsWrite fuel (some dst) bytes offset k₁ = (some w, k₂) → w ≠ bytes.length →
      offset + w.toNat = (k.vfs.nodes src).size → CopiesAll fuel src dst offset k

-- Between two turns of the loop: img holds what was delivered and stored, the same bytes so far.
structure CpInv (src dst : Ptr) (offset : Nat) (img : Nat → UInt8) (k : Kernel) : Prop where
  source : FileNode (k.vfs.nodes src)
  dest : FileNode (k.vfs.nodes dst)
  distinct : src ≠ dst ∨ (k.vfs.nodes src).size = 0
  reached : (k.vfs.nodes dst).size = offset ∨
    offset < (k.vfs.nodes dst).size ∧ (k.vfs.nodes dst).size < (k.vfs.nodes src).size
  srcBytes : RamNode (k.vfs.nodes src) → ∀ i < offset, bufferOf (k.vfs.nodes src) i = img i
  dstBytes : RamNode (k.vfs.nodes dst) → bufferOf (k.vfs.nodes dst) = img

section Loop

variable {k k₁ k₂ k' : Kernel} {src dst : Ptr} {fuel turns offset i n : Nat} {img : Nat → UInt8}
  {bytes : List UInt8} {c : Copying} {w : Int}

theorem byteAt_eq {m : VfsNode} (hm : FileNode m) (h : RamNode m → bufferOf m i = img i) :
    byteAt m img i = img i := by
  unfold byteAt
  split
  · rename_i hops
    rcases hm.stored with hram | hdisk
    · exact h hram
    · cases hops.symm.trans hdisk.1
  · rfl

theorem writeBytes_take (hi : i < offset + n) (hn : n ≤ bytes.length) :
    writeBytes img offset (bytes.take n) i = writeBytes img offset bytes i := by
  have hlen : (bytes.take n).length = n := by
    rw [List.length_take]
    omega
  rw [writeBytes_eq, writeBytes_eq, hlen]
  by_cases h : offset ≤ i
  · rw [if_pos ⟨h, hi⟩, if_pos ⟨h, by omega⟩, List.getD_eq_getElem?_getD,
      List.getD_eq_getElem?_getD, List.getElem?_take_of_lt (by omega)]
  · rw [if_neg (fun h' => h h'.1), if_neg (fun h' => h h'.1)]

-- What the source holds up to the end of the bytes just read.
theorem CpInv.delivered (h : CpInv src dst offset img k) (hram : RamNode (k.vfs.nodes src))
    (hbytes : bytes = readBytes (bufferOf (k.vfs.nodes src)) bytes.length offset)
    (hi : i < offset + bytes.length) :
    bufferOf (k.vfs.nodes src) i = writeBytes img offset bytes i := by
  rw [writeBytes_eq]
  by_cases hoff : offset ≤ i
  · rw [if_pos ⟨hoff, hi⟩, hbytes, List.getD_eq_getElem?_getD, readBytes_getElem? _ hoff hi]
    rfl
  · rw [if_neg (fun h' => hoff h'.1)]
    exact h.srcBytes hram i (Nat.lt_of_not_le hoff)

theorem CpInv.moved (h : CpInv src dst offset img k) (hv : k₁.vfs = k.vfs) :
    CpInv src dst offset img k₁ := by
  obtain ⟨h1, h2, h3, h4, h5, h6⟩ := h
  rw [← hv] at h1 h2 h3 h4 h5 h6
  exact ⟨h1, h2, h3, h4, h5, h6⟩

theorem CpInv.stored (h : CpInv src dst offset img k) (hnew : Written offset bytes k dst n k₂)
    (hram : RamNode (k₂.vfs.nodes dst)) :
    bufferOf (k₂.vfs.nodes dst) = writeBytes img offset (bytes.take n) := by
  have hold : RamNode (k.vfs.nodes dst) := by
    rcases h.dest.stored with hold | hdisk
    · exact hold
    · cases (hnew.ops.symm.trans hram.1).symm.trans hdisk.1
  rw [hnew.buffer hold, h.dstBytes hold]

-- A read that delivers nothing ends the copy well at the end of the source, and only there.
theorem CpInv.last (h : CpInv src dst offset img k) {r : Except Int (List UInt8)}
    (hread : vfsRead fuel (some src) offset bufSize k = (some r, k₁)) (hv : k₁.vfs = k.vfs)
    (hend : ∀ bytes, r = .ok bytes → bytes = []) :
    (CopiesAll fuel src dst offset k → SameContents k₁ src dst ⟨false, img, img⟩
      (k₁.vfs.nodes dst).size) ∧
      ((k₁.vfs.nodes dst).size = (k₁.vfs.nodes src).size → CopiesAll fuel src dst offset k) := by
  rw [hv]
  constructor
  · intro hall
    cases hall with
    | last _ _ hsize =>
      have hdst : (k.vfs.nodes dst).size = offset := by
        rcases h.reached with hr | ⟨h1, h2⟩
        · exact hr
        · omega
      rw [hdst]
      refine ⟨hv ▸ hsize, fun i hi => ?_⟩
      rw [hv, byteAt_eq h.dest fun hram => by rw [h.dstBytes hram],
        byteAt_eq h.source fun hram => h.srcBytes hram i hi]
    | full hread' hne => exact absurd (hend _ (ended_unique hread hread')) hne
    | short hread' hne => exact absurd (hend _ (ended_unique hread hread')) hne
  · intro hsize
    refine .last hread hend ?_
    rcases h.reached with hr | ⟨h1, h2⟩
    · omega
    · omega

-- A write that stores less than it was given ends the copy well where that was all there was.
theorem CpInv.short (h : CpInv src dst offset img k) (hread : vfsRead fuel (some src) offset bufSize
    k = (some (.ok bytes), k₁)) (hv : k₁.vfs = k.vfs) (hne : bytes ≠ [])
    (hoff : offset < (k.vfs.nodes src).size) (hlen : bytes.length ≤ bufSize)
    (hgot : RamNode (k.vfs.nodes src) →
      bytes = readBytes (bufferOf (k.vfs.nodes src)) bytes.length offset)
    (hwrite : vfsWrite fuel (some dst) bytes offset k₁ = (some w, k₂)) (hw : w ≠ bytes.length)
    (hend : WriteEnd bytes w n) (hnew : Written offset bytes k dst n k₂) :
    (CopiesAll fuel src dst offset k → SameContents k₂ src dst
      ⟨true, writeBytes img offset bytes, writeBytes img offset (bytes.take w.toNat)⟩
      (k₂.vfs.nodes dst).size) ∧
      ((k₂.vfs.nodes dst).size = (k₂.vfs.nodes src).size → CopiesAll fuel src dst offset k) := by
  have hdist : src ≠ dst := h.distinct.resolve_right (by omega)
  have hsrc : k₂.vfs.nodes src = k.vfs.nodes src := hnew.others src hdist
  have hn : n = w.toNat ∧ n ≤ bytes.length := by
    cases hend with
    | failed hneg => exact ⟨by omega, Nat.zero_le _⟩
    | stored hle => exact ⟨by omega, hle⟩
  have hsmall := h.source.size_lt
  have hdst := h.dest.size_lt
  have hsize := hnew.size
  have hreached := h.reached
  unfold u32 at hsize
  unfold bufSize at hlen
  rw [hsrc]
  constructor
  · intro hall
    have hsum : offset + n = (k.vfs.nodes src).size := by
      cases hall with
      | last hread' hend' => exact absurd (hend' _ (ended_unique hread' hread)) hne
      | full hread' _ hwrite' =>
        obtain rfl := ended_same hread' hread
        obtain rfl := Except.ok.inj (ended_unique hread' hread)
        exact absurd (ended_unique hwrite hwrite') hw
      | short hread' _ hwrite' _ hsum =>
        obtain rfl := ended_same hread' hread
        obtain rfl := Except.ok.inj (ended_unique hread' hread)
        obtain rfl := ended_unique hwrite hwrite'
        omega
    have hall : (k₂.vfs.nodes dst).size = (k.vfs.nodes src).size := by omega
    rw [hall]
    refine ⟨by rw [hsrc], fun i hi => ?_⟩
    rw [hsrc, byteAt_eq hnew.file fun hram => ?_, byteAt_eq h.source fun hram => ?_]
    · rw [← hn.1]
      exact writeBytes_take (by omega) hn.2
    · exact h.delivered hram (hgot hram) (by omega)
    · rw [h.stored hnew hram, hn.1]
  · intro hall
    exact .short hread hne hwrite hw (by omega)

-- A write that stores all it was given carries the invariant to the next turn.
theorem CpInv.full (h : CpInv src dst offset img k) (hoff : offset < (k.vfs.nodes src).size)
    (hgot : RamNode (k.vfs.nodes src) →
      offset + bytes.length ≤ (k.vfs.nodes src).size ∧
      bytes = readBytes (bufferOf (k.vfs.nodes src)) bytes.length offset)
    (hnew : Written offset bytes k dst bytes.length k₂) :
    CpInv src dst (u32 (offset + bytes.length)) (writeBytes img offset bytes) k₂ := by
  have hdist : src ≠ dst := h.distinct.resolve_right (by omega)
  have hsrc : k₂.vfs.nodes src = k.vfs.nodes src := hnew.others src hdist
  have hsize := hnew.size
  have hdst := h.dest.size_lt
  have hreached := h.reached
  unfold u32 at hsize ⊢
  refine ⟨hsrc ▸ h.source, hnew.file, .inl hdist, ?_, fun hram i hi => ?_, fun hram => ?_⟩
  · rw [hsrc]
    omega
  · rw [hsrc] at hram ⊢
    have hlt := hram.2.2.size_le
    unfold vfsMaxFileData at hlt
    exact h.delivered hram (hgot hram).2 (hi.trans_le (Nat.mod_le _ _))
  · rw [h.stored hnew hram, List.take_length]

theorem cpLoop_copies (h : CpInv src dst offset img k)
    (hrun : cpLoop fuel src dst turns offset img img k = (some c, k')) :
    (CopiesAll fuel src dst offset k → SameContents k' src dst c (k'.vfs.nodes dst).size) ∧
      ((k'.vfs.nodes dst).size = (k'.vfs.nodes src).size → CopiesAll fuel src dst offset k) := by
  induction turns generalizing offset img k with
  | zero => cases (Prod.mk.inj hrun).1
  | succ turns ih =>
    rw [cpLoop] at hrun
    rcases hread : vfsRead fuel (some src) offset bufSize k with ⟨_ | r, k₁⟩
    · rw [bind_stopped hread] at hrun
      cases (Prod.mk.inj hrun).1
    rw [bind_ended hread] at hrun
    obtain ⟨hv, hr⟩ := vfsRead_counts h.source hread
    rcases r with e | bytes
    · obtain ⟨hc, rfl⟩ := Prod.mk.inj hrun
      obtain rfl := Option.some.inj hc
      exact h.last hread hv fun bytes hb => (by cases hb)
    dsimp only at hrun
    split at hrun
    · rename_i hnil
      obtain ⟨hc, rfl⟩ := Prod.mk.inj hrun
      obtain rfl := Option.some.inj hc
      exact h.last hread hv fun bytes hb => (Except.ok.inj hb) ▸ hnil
    rename_i hne
    obtain ⟨hoff, hlen, hgot⟩ := hr bytes rfl hne
    rcases hwrite : vfsWrite fuel (some dst) bytes offset k₁ with ⟨_ | w, k₂⟩
    · rw [bind_stopped hwrite] at hrun
      cases (Prod.mk.inj hrun).1
    rw [bind_ended hwrite] at hrun
    have h₁ := h.moved hv
    obtain ⟨n, hend, hnew⟩ := vfsWrite_counts h₁.dest (by have := h₁.reached; omega) hlen hwrite
    split at hrun
    · rename_i hw
      obtain ⟨hc, rfl⟩ := Prod.mk.inj hrun
      obtain rfl := Option.some.inj hc
      exact h.short hread hv hne hoff hlen (fun hram => (hgot hram).2) hwrite hw hend
        (hnew.moved hv)
    · rename_i hw
      obtain rfl : w = bytes.length := not_not.mp hw
      obtain rfl : n = bytes.length := hend.all
      rw [Int.toNat_natCast, List.take_length] at hrun
      obtain ⟨hto, hfrom⟩ := ih (h.full hoff hgot (hnew.moved hv)) hrun
      refine ⟨fun hall => hto ?_, fun hsize => .full hread hne hwrite (hfrom hsize)⟩
      cases hall with
      | last hread' hend' => exact absurd (hend' _ (ended_unique hread' hread)) hne
      | full hread' _ hwrite' hall =>
        obtain rfl := ended_same hread' hread
        obtain rfl := Except.ok.inj (ended_unique hread' hread)
        obtain rfl := ended_same hwrite' hwrite
        exact hall
      | short hread' _ hwrite' hw' _ =>
        obtain rfl := ended_same hread' hread
        obtain rfl := Except.ok.inj (ended_unique hread' hread)
        exact absurd (ended_unique hwrite' hwrite) hw'

end Loop

section Command

variable {k k₁ k' : Kernel} {src dst : Ptr} {fuel turns : Nat} {args : List (List UInt8)}
  {r : CpEnd}

theorem resolve_runs (h : RamInPool k.vfs) (path : List UInt8) :
    Runs (vfsResolvePath fuel path) k (fun _ k' => RamInPool k'.vfs) (fun _ => True) :=
  runs_ended fun _ _ => vfsResolvePath_pool h

theorem cpParent_runs (h : RamInPool k.vfs) (srcPath dstPath : List UInt8) :
    Runs (cpParent fuel srcPath dstPath) k (fun _ k' => RamInPool k'.vfs) (fun _ => True) := by
  refine (resolve_runs h dstPath).bind fun d k₁ h₁ => Runs.get_bind ?_
  split
  · exact Runs.pure h₁
  dsimp only
  split
  · exact Runs.pure h₁
  · exact (resolve_runs h₁ _).bind fun p k₂ h₂ => Runs.pure h₂

-- What cmd_cp opens is a new file; where it gives up, it does not say it is done.
def OpenEnd (k : Kernel) : Except String (Ptr × Ptr) → Prop
  | .error line => line ≠ "cp: done"
  | .ok (_, dst) => FileNode (k.vfs.nodes dst) ∧ (k.vfs.nodes dst).size = 0 ∧
      bufferOf (k.vfs.nodes dst) = fun _ => 0

theorem cpOpen_runs (h : RamInPool k.vfs) :
    Runs (cpOpen fuel args) k (fun r k' => OpenEnd k' r) (fun _ => True) := by
  unfold cpOpen
  split
  · refine (resolve_runs h _).bind fun s k₁ h₁ => Runs.get_bind ?_
    cases s with
    | none => exact Runs.pure (show _ ≠ _ by decide)
    | some s =>
      dsimp only
      split
      · exact Runs.pure (show _ ≠ _ by decide)
      refine (cpParent_runs h₁ _ _).bind fun ⟨parent, newName⟩ k₂ h₂ => Runs.get_bind ?_
      split
      · exact Runs.pure (show _ ≠ _ by decide)
      cases parent with
      | none => exact absurd rfl ‹_›
      | some d =>
        refine (runs_ended fun r k₃ hr => hr).bind fun r k₃ hcreate => ?_
        cases r with
        | none => exact Runs.pure (show _ ≠ _ by decide)
        | some p => exact Runs.pure (vfsCreate_empty h₂ hcreate)
  · exact Runs.pure (show _ ≠ _ by decide)

theorem copySize_self (k : Kernel) (src dst : Ptr) :
    ((copySize src dst k).vfs.nodes dst).size = (k.vfs.nodes src).size := by
  rw [copySize, setNode_self]

theorem copySize_src (k : Kernel) (src dst : Ptr) :
    ((copySize src dst k).vfs.nodes src).size = (k.vfs.nodes src).size := by
  by_cases h : src = dst
  · subst h
    exact copySize_self k src src
  · rw [copySize, setNode_other _ h]

theorem byteAt_copySize (k : Kernel) (src dst q : Ptr) (passed : Nat → UInt8) (i : Nat) :
    byteAt ((copySize src dst k).vfs.nodes q) passed i = byteAt (k.vfs.nodes q) passed i := by
  by_cases h : q = dst
  · subst h
    rw [copySize, setNode_self]
    rfl
  · rw [copySize, setNode_other _ h]

theorem sameContents_copySize (k : Kernel) (src dst : Ptr) (c : Copying) (stored : Nat) :
    SameContents (copySize src dst k) src dst c stored ↔ SameContents k src dst c stored := by
  unfold SameContents
  simp only [copySize_src, byteAt_copySize]

theorem cpInv_start (hfresh : OpenEnd k₁ (.ok (src, dst))) (hsrc : FileNode (k₁.vfs.nodes src))
    (hv : k.vfs = k₁.vfs) : CpInv src dst 0 (fun _ => 0) k := by
  obtain ⟨hdst, hsize, hbuf⟩ := hfresh
  rw [← hv] at hsrc hdst hsize hbuf
  refine ⟨hsrc, hdst, ?_, .inl hsize, fun _ i hi => absurd hi (Nat.not_lt_zero i), fun _ => hbuf⟩
  by_cases h : src = dst
  · exact .inr (h ▸ hsize)
  · exact .inl h

theorem copied_kept {c : Copying} (hinv : CpInv src dst 0 (fun _ => 0) k)
    (hloop : cpLoop fuel src dst turns 0 (fun _ => 0) (fun _ => 0) k = (some c, k₁)) :
    (CpEnd.copied src dst c (k₁.vfs.nodes dst).size).Kept (copySize src dst k₁) ↔
      CopiesAll fuel src dst 0 k := by
  obtain ⟨hto, hfrom⟩ := cpLoop_copies hinv hloop
  constructor
  · intro h
    have hdone : "cp: done" ∈ (CpEnd.copied src dst c (k₁.vfs.nodes dst).size).lines :=
      List.mem_append_right _ List.mem_cons_self
    obtain ⟨src', dst', c', stored, he, hsame, -⟩ := h.contents hdone
    cases he
    rw [copySize_src] at hsame
    exact hfrom hsame
  · intro hall
    have hsame := hto hall
    refine ⟨fun _ => ⟨src, dst, c, _, rfl, (sameContents_copySize ..).mpr hsame⟩,
      fun p stored he => ?_⟩
    obtain ⟨rfl, rfl⟩ := Prod.mk.inj (Option.some.inj he)
    rw [copySize_self]
    exact hsame.1.symm

theorem cp_copies_iff (hpool : RamInPool k.vfs)
    (hsrc : ∀ src dst k₁, cpOpen fuel args k = (some (.ok (src, dst)), k₁) →
      FileNode (k₁.vfs.nodes src))
    (hrun : cmdCp fuel turns args k = (some r, k')) :
    r.Kept k' ↔ ∀ src dst k₁ k₂, cpOpen fuel args k = (some (.ok (src, dst)), k₁) →
      kmalloc k₁ = (some true, k₂) → CopiesAll fuel src dst 0 k₂ := by
  have hopen := @cpOpen_runs k fuel args hpool
  rw [cmdCp] at hrun
  rcases ho : cpOpen fuel args k with ⟨_ | x, k₁⟩
  · rw [bind_stopped ho] at hrun
    cases (Prod.mk.inj hrun).1
  rw [bind_ended ho] at hrun
  have hfresh := hopen.result ho
  rcases x with line | ⟨src, dst⟩
  · obtain ⟨hr, rfl⟩ := Prod.mk.inj hrun
    obtain rfl := Option.some.inj hr
    refine iff_of_true ⟨fun hdone => absurd (List.mem_singleton.mp hdone).symm hfresh,
      fun dst stored he => (by cases he)⟩ fun src dst k₂ k₃ he => ?_
    cases (Prod.mk.inj he).1
  dsimp only at hrun
  rcases hm : kmalloc k₁ with ⟨_ | ok, k₂⟩
  · cases (Prod.mk.inj hm).1
  have hv : k₂.vfs = k₁.vfs := (kmalloc_nodes k₁).result hm
  rw [bind_ended hm] at hrun
  have hunique : ∀ {src' dst' k₁' k₂'}, (some (Except.ok (src, dst)), k₁) =
      ((some (.ok (src', dst')), k₁') : Option (Except String (Ptr × Ptr)) × Kernel) →
      kmalloc k₁' = (some true, k₂') → ok = true ∧ src = src' ∧ dst = dst' ∧ k₂ = k₂' := by
    intro src' dst' k₁' k₂' he hm'
    obtain ⟨hx, rfl⟩ := Prod.mk.inj he
    obtain ⟨rfl, rfl⟩ := Prod.mk.inj (Except.ok.inj (Option.some.inj hx))
    exact ⟨ended_unique hm hm', rfl, rfl, ended_same hm hm'⟩
  cases ok with
  | false =>
    obtain ⟨hr, rfl⟩ := Prod.mk.inj hrun
    obtain rfl := Option.some.inj hr
    refine iff_of_true ⟨fun hdone => absurd (List.mem_singleton.mp hdone) (by decide),
      fun p stored he => ?_⟩ fun _ _ _ _ he hm' => by cases (hunique he hm').1
    obtain ⟨rfl, rfl⟩ := Prod.mk.inj (Option.some.inj he)
    rw [hv]
    exact hfresh.2.1
  | true =>
    rcases hloop : cpLoop fuel src dst turns 0 (fun _ => 0) (fun _ => 0) k₂ with ⟨_ | c, k₃⟩
    · rw [if_neg (by decide), bind_stopped hloop] at hrun
      cases (Prod.mk.inj hrun).1
    rw [if_neg (by decide), bind_ended hloop] at hrun
    obtain ⟨hr, rfl⟩ := Prod.mk.inj hrun
    obtain rfl := Option.some.inj hr
    refine (copied_kept (cpInv_start hfresh (hsrc src dst k₁ ho) hv) hloop).trans ?_
    constructor
    · intro hall src' dst' k₁' k₂' he hm'
      obtain ⟨-, rfl, rfl, rfl⟩ := hunique he hm'
      exact hall
    · intro hall
      exact hall src dst k₁ k₂ rfl hm

-- "hi" in the file "A" of the root directory.
def copyFile : VfsNode where
  name := [0x41]
  type := .file
  size := 2
  data := some (.bytes fun i => if i = 0 then 0x68 else 0x69)
  ops := some .ramfs
  children := []
  parent := some (.pool 0)

def copyNodes : Ptr → VfsNode
  | .pool 0 => { blankNode with
      name := rootName
      type := .dir
      ops := some .ramfs
      children := [.pool 1]
      parent := some (.pool 0) }
  | .pool 1 => copyFile
  | _ => blankNode

def copyKernel (heap : Nat → Bool) : Kernel :=
  { powerOn with
    heap := heap
    vfs := {
      nodes := copyNodes
      nodePoolUsed := 2
      rootNode := some (.pool 0)
      cwdNode := some (.pool 0) } }

-- cp A B
def copyArgs : List (List UInt8) := [[0x63, 0x70], [0x41], [0x42]]

theorem copyKernel_pool (heap : Nat → Bool) : RamInPool (copyKernel heap).vfs := by
  intro p hp
  change (copyNodes p).ops = some .ramfs at hp
  unfold copyNodes at hp
  split at hp
  · exact ⟨0, (by decide : 0 < 2), rfl⟩
  · exact ⟨1, (by decide : 1 < 2), rfl⟩
  · cases hp

theorem copyFile_node : FileNode copyFile :=
  ⟨rfl, by decide, .inl ⟨rfl, fun _ h => (by cases Option.some.inj h), by decide, .inr ⟨_, rfl⟩⟩⟩

theorem copyOpen (heap : Nat → Bool) : ∃ k₁, cpOpen 0 copyArgs (copyKernel heap) =
    (some (.ok (.pool 1, .pool 2)), k₁) ∧ k₁.vfs.nodes (.pool 1) = copyFile := ⟨_, rfl, rfl⟩

theorem copyOpened {heap : Nat → Bool} {src dst : Ptr}
    (h : cpOpen 0 copyArgs (copyKernel heap) = (some (.ok (src, dst)), k)) :
    src = .pool 1 ∧ FileNode (k.vfs.nodes src) := by
  obtain ⟨k₁, hopen, hfile⟩ := copyOpen heap
  obtain rfl := ended_same hopen h
  obtain ⟨rfl, rfl⟩ := Prod.mk.inj (Except.ok.inj (ended_unique hopen h))
  exact ⟨rfl, hfile ▸ copyFile_node⟩

theorem cp_copies_hi : ∃ r k', cmdCp 0 2 copyArgs (copyKernel fun _ => true) = (some r, k') ∧
    (r.Kept k' ↔ ∀ src dst k₁ k₂,
      cpOpen 0 copyArgs (copyKernel fun _ => true) = (some (.ok (src, dst)), k₁) →
      kmalloc k₁ = (some true, k₂) → CopiesAll 0 src dst 0 k₂) := by
  obtain ⟨r, k', hrun⟩ : ∃ r k', cmdCp 0 2 copyArgs (copyKernel fun _ => true) = (some r, k') :=
    ⟨_, _, rfl⟩
  exact ⟨r, k', hrun, cp_copies_iff (copyKernel_pool _) (fun _ _ _ h => (copyOpened h).2) hrun⟩

-- There is memory for the buffer of cp, but none for the bytes of the new file.
theorem cp_done_without_copy : ¬∀ (k k' : Kernel) (fuel turns : Nat) (args : List (List UInt8))
    (r : CpEnd), RamInPool k.vfs →
    (∀ src dst k₁, cpOpen fuel args k = (some (.ok (src, dst)), k₁) →
      FileNode (k₁.vfs.nodes src)) →
    cmdCp fuel turns args k = (some r, k') → r.Kept k' := by
  intro h
  have hkept := h (copyKernel fun n => n = 0) _ 0 1 copyArgs _ (copyKernel_pool _)
    (fun _ _ _ ho => (copyOpened ho).2) rfl
  exact absurd (hkept.size (.pool 2) 0 rfl) (by decide +kernel)

end Command

end Shell
