import SabakaOS.Vfs.Descriptors
import SabakaOS.Vfs.Resolution

namespace Vfs

open Prog Relation
open Fat32 (kstrcmp kstrcmp_eq_zero isCString dotName dotdotName)

-- The path without its last component.
def dirPart (path : List UInt8) : List UInt8 := (path.reverse.dropWhile (· != slash)).reverse

-- A descriptor of sys_open is one of the node that the path leads to; without one, no node is new.
def OpensRight (fuel : Nat) (path : List UInt8) (flags : Nat) (s : Machine) : Prop :=
  ∃ r s', sysOpen fuel path flags s = (some r, s') ∧
    (r = -1 → s'.kernel.vfs.nodePoolUsed = s.kernel.vfs.nodePoolUsed) ∧
    (r ≠ -1 → ∃ n, (s'.fdTable r.toNat).used = true ∧ (s'.fdTable r.toNat).node = some n ∧
      (vfsResolvePath fuel path s'.kernel).1 = some (some n))

section Names

variable {path c : List UInt8}

theorem dirPart_append (path : List UInt8) : dirPart path ++ lastComponent path = path := by
  rw [dirPart, lastComponent, ← List.reverse_append, List.takeWhile_append_dropWhile,
    List.reverse_reverse]

theorem lastComponent_no_slash (path : List UInt8) : slash ∉ lastComponent path := by
  intro h
  have := List.mem_takeWhile_imp (List.mem_reverse.mp h)
  simp at this

-- It ends at the last slash.
theorem dirPart_cases (path : List UInt8) :
    dirPart path = [] ∨ ∃ p, dirPart path = p ++ [slash] := by
  rw [dirPart]
  cases hd : path.reverse.dropWhile (· != slash) with
  | nil => exact Or.inl rfl
  | cons b rest =>
    have hb : b = slash := by
      have := List.head_dropWhile_not (fun b => b != slash) (l := path.reverse) (by rw [hd]; simp)
      simpa [hd] using this
    exact Or.inr ⟨rest.reverse, by rw [hb, List.reverse_cons]⟩

theorem parts_last_eq (h : slash ∉ c) : parts c = if c = [] then [] else [c] := by
  split_ifs with hc
  · rw [hc]
    rfl
  · exact parts_last hc h

theorem parts_append (p c : List UInt8) : parts (p ++ slash :: c) = parts p ++ parts c := by
  rw [parts, List.splitOn_append_cons_self, List.filter_append, parts, parts]

theorem parts_dirPart (path : List UInt8) : parts path =
    parts (dirPart path) ++ if lastComponent path = [] then [] else [lastComponent path] := by
  have happ := dirPart_append path
  have hlast := parts_last_eq (lastComponent_no_slash path)
  rcases dirPart_cases path with hd | ⟨p, hd⟩
  · rw [hd] at happ ⊢
    rw [← hlast]
    exact congrArg parts happ.symm
  · have hp : parts (p ++ [slash]) = parts p := by
      rw [parts_append]
      exact List.append_nil _
    rw [hd, hp, ← hlast, ← parts_append]
    rw [hd, List.append_assoc] at happ
    exact congrArg parts happ.symm

theorem startNode_dirPart (v : NodeStore) (path : List UInt8) :
    startNode v (dirPart path) = startNode v path := by
  have happ := dirPart_append path
  rcases dirPart_cases path with hd | ⟨p, hd⟩
  · have hno := lastComponent_no_slash path
    rw [hd, List.nil_append] at happ
    rw [happ] at hno
    have hhead : path.head? ≠ some slash := fun h => hno (List.mem_of_mem_head? h)
    rw [hd, startNode, startNode, if_neg (by simp), if_neg hhead]
  · rw [hd, List.append_assoc] at happ
    have hhead : (dirPart path).head? = path.head? := by
      rw [hd, ← congrArg List.head? happ]
      cases p <;> rfl
    rw [startNode, startNode, hhead]

theorem reference_dirPart (v : NodeStore) (path : List UInt8) : reference v path =
    (reference v (dirPart path)).bind fun x =>
      if lastComponent path = [] then some x else stepTo v x (lastComponent path) := by
  rw [reference, reference, startNode_dirPart, Option.bind_assoc, parts_dirPart path]
  refine Option.bind_congr fun cur _ => ?_
  rw [List.foldlM_append]
  refine Option.bind_congr fun x _ => ?_
  split_ifs
  · rfl
  · rw [List.foldlM_cons]
    cases stepTo v x (lastComponent path) <;> rfl

theorem lastComponent_short (h : Short path) :
    (lastComponent path).length ≤ vfsMaxName - 1 := by
  by_cases hlast : lastComponent path = []
  · rw [hlast]
    exact Nat.zero_le _
  · rw [Short, parts_dirPart, if_neg hlast] at h
    exact h _ (List.mem_append_right _ (List.mem_singleton.mpr rfl))

theorem lastComponent_isCString (h : isCString path) : isCString (lastComponent path) := by
  intro b hb
  refine h b ?_
  rw [← dirPart_append path]
  exact List.mem_append_right _ hb

end Names

section Created

variable {v : NodeStore} {k : Kernel} {d cur next : Ptr} {name c : List UInt8}
  {cs : List (List UInt8)}

-- The new file is met by no step that looks up another name, or none.
theorem stepTo_added (h : Grown v) (hd : InUse v d) (hc : InUse v cur)
    (hne : c = name → c = dotName ∨ c = dotdotName) :
    stepTo (added v .file d name) cur c = stepTo v cur c := by
  have hparent : ((added v .file d name).nodes cur).parent = (v.nodes cur).parent := by
    obtain ⟨cs, hcs⟩ := added_kept .file d name hc
    rw [hcs]
  rw [stepTo, stepTo]
  split_ifs with hdot hdotdot
  · rfl
  · rw [parentOf, parentOf, hparent]
    rfl
  · have hname : name ≠ c := fun he => (hne he.symm).elim hdot hdotdot
    have hold : (v.nodes cur).children.find?
          (fun n => decide (((added v .file d name).nodes n).name = c)) =
        (v.nodes cur).children.find? (fun n => decide ((v.nodes n).name = c)) := by
      refine List.find?_congr fun n hn => ?_
      obtain ⟨-, j, -, hj, rfl⟩ := h.child cur hc n hn
      rw [added_name ⟨j, hj, rfl⟩]
    rw [added_children hd hc.added, if_neg hc.ne_next]
    split_ifs with hcur
    · subst hcur
      rw [List.find?_append, hold, List.find?_singleton, added_new hd, if_neg]
      · exact Option.or_none
      · exact ne_true_of_eq_false (decide_eq_false hname)
    · exact hold

theorem foldlM_added (h : Grown v) (hd : InUse v d) (hc : InUse v cur)
    (hne : ∀ c ∈ cs, c = name → c = dotName ∨ c = dotdotName) :
    cs.foldlM (stepTo (added v .file d name)) cur = cs.foldlM (stepTo v) cur := by
  induction cs generalizing cur with
  | nil => rfl
  | cons c cs ih =>
    rw [List.foldlM_cons, List.foldlM_cons, stepTo_added h hd hc (hne c List.mem_cons_self)]
    cases hstep : stepTo v cur c with
    | none => rfl
    | some next =>
      exact ih (stepTo_inUse h hc hstep) fun e he => hne e (List.mem_cons_of_mem c he)

-- The last step to the new file starts in its directory.
theorem stepTo_new (h : Grown v) (hd : InUse v d) (ha : Admits v d name)
    (hnames : ∀ p, InUse v p → isCString (v.nodes p).name) (hcs : isCString name)
    (hdot : name ≠ dotName) (hdotdot : name ≠ dotdotName)
    (hc : InUse (added v .file d name) cur) :
    stepTo (added v .file d name) cur name = some (.pool v.nodePoolUsed) ↔ cur = d := by
  have hg : Grown (added v .file d name) := grown_added h hd ha
  have hnew : (added v .file d name).nodes (.pool v.nodePoolUsed) = newNode v .file d name :=
    added_new hd
  rw [stepTo, if_neg hdot, if_neg hdotdot]
  constructor
  · intro hfind
    have hparent := (hg.child cur hc _ (List.mem_of_find?_eq_some hfind)).1
    rw [IsParent, hnew] at hparent
    exact (Option.some.inj hparent).symm
  · rintro rfl
    have hold : (v.nodes cur).children.find?
        (fun n => decide (((added v .file cur name).nodes n).name = name)) = none := by
      refine List.find?_eq_none.mpr fun n hn => ?_
      obtain ⟨-, j, -, hj, rfl⟩ := h.child cur hd n hn
      have hfresh := ha.fresh _ hn
      rw [added_name ⟨j, hj, rfl⟩, decide_eq_true_eq]
      exact mt (kstrcmp_eq_zero (hnames _ ⟨j, hj, rfl⟩) hcs).mpr hfresh
    rw [added_children hd hc, if_pos rfl, List.find?_append, hold, List.find?_singleton, hnew]
    simp [newNode]

theorem foldlM_inUse (h : Grown v) (hc : InUse v cur) (hr : cs.foldlM (stepTo v) cur = some next) :
    InUse v next := by
  induction cs generalizing cur with
  | nil => exact Option.some.inj hr ▸ hc
  | cons c cs ih =>
    rw [List.foldlM_cons] at hr
    obtain ⟨x, hx, hrest⟩ := Option.bind_eq_some_iff.mp hr
    exact ih (stepTo_inUse h hc hx) hrest

theorem startNode_inUse {path : List UInt8} (h : Grown v) (hcwd : v.cwdNode = some d)
    (hd : InUse v d) (hs : startNode v path = some cur) : InUse v cur := by
  rw [startNode] at hs
  split_ifs at hs
  · exact Option.some.inj (h.root.symm.trans hs) ▸ ⟨0, h.pos, rfl⟩
  · exact Option.some.inj (hcwd.symm.trans hs) ▸ hd

theorem reference_inUse {path : List UInt8} (h : Grown v) (hcwd : v.cwdNode = some d)
    (hd : InUse v d) (hr : reference v path = some next) : InUse v next := by
  obtain ⟨cur, hs, hrest⟩ := Option.bind_eq_some_iff.mp hr
  exact foldlM_inUse h (startNode_inUse h hcwd hd hs) hrest

-- A file that no component can name leaves every path as it was.
theorem reference_unnamed {path : List UInt8} (h : Grown v) (hcwd : v.cwdNode = some d)
    (hd : InUse v d) (hname : name = [] ∨ name = dotName ∨ name = dotdotName) :
    reference (added v .file d name) path = reference v path := by
  rw [reference, reference]
  refine Option.bind_congr fun cur hs => ?_
  refine foldlM_added h hd (startNode_inUse h hcwd hd hs) fun c hc he => ?_
  rw [he] at hc ⊢
  refine hname.resolve_left fun hnil => ?_
  have hne := (List.mem_filter.mp hc).2
  simp [hnil] at hne

-- After sys_open has made the file, its path leads to it just when the part before its name
-- leads to the current directory.
theorem reference_new {path : List UInt8} (h : Grown v) (hn : Named v) (hcwd : v.cwdNode = some d)
    (hd : InUse v d) (ha : Admits v d (lastComponent path)) (hpath : isCString path)
    (hmissing : reference v path = none) :
    reference (added v .file d (lastComponent path)) path = some (.pool v.nodePoolUsed) ↔
      reference (added v .file d (lastComponent path)) (dirPart path) = some d := by
  have hg : Grown (added v .file d (lastComponent path)) := grown_added h hd ha
  by_cases hspecial : lastComponent path = [] ∨ lastComponent path = dotName ∨
      lastComponent path = dotdotName
  · have hdir : reference v (dirPart path) = none := by
      by_contra hne
      obtain ⟨x, hx⟩ := Option.ne_none_iff_exists'.mp hne
      rw [reference_dirPart, hx, Option.bind_some] at hmissing
      rcases hspecial with hlast | hlast | hlast <;> simp [hlast, stepTo, dotName, dotdotName]
        at hmissing
    rw [reference_unnamed h hcwd hd hspecial, reference_unnamed h hcwd hd hspecial, hmissing, hdir]
    exact iff_of_false (fun h => by cases h) fun h => by cases h
  · obtain ⟨hnil, hdots⟩ := not_or.mp hspecial
    obtain ⟨hdot, hdotdot⟩ := not_or.mp hdots
    have hnew {x : Ptr} (hx : InUse (added v .file d (lastComponent path)) x) :=
      stepTo_new h hd ha (fun p hp => (hn.name p hp).1) (lastComponent_isCString hpath) hdot
        hdotdot hx
    rw [reference_dirPart, Option.bind_eq_some_iff]
    simp only [if_neg hnil]
    constructor
    · rintro ⟨x, hx, hstep⟩
      rw [hx, (hnew (reference_inUse hg hcwd hd.added hx)).mp hstep]
    · intro hx
      exact ⟨d, hx, (hnew hd.added).mpr rfl⟩

end Created

section Open

variable {fuel flags : Nat} {path : List UInt8} {s s₁ : Machine} {n d : Ptr}

theorem setFd_fdTable (s : Machine) (fd : Nat) (e : FDEntry) : (setFd s fd e).fdTable fd = e :=
  Function.update_self ..

theorem opensRight_alloc (hrun : sysOpen fuel path flags s = allocFd (some n) s₁) :
    OpensRight fuel path flags s ↔
      if (freeFd s₁).isSome then (vfsResolvePath fuel path s₁.kernel).1 = some (some n)
      else s₁.kernel.vfs.nodePoolUsed = s.kernel.vfs.nodePoolUsed := by
  cases hfree : freeFd s₁ with
  | none =>
    have hret : sysOpen fuel path flags s = (some (-1), s₁) := by rw [hrun, allocFd, hfree]
    refine ⟨?_, fun hsame => ⟨-1, s₁, hret, fun _ => hsame, ?_⟩⟩
    · rintro ⟨r, s', he, hfull, -⟩
      rw [hret] at he
      obtain ⟨hr, rfl⟩ := Prod.mk.inj he
      exact hfull (Option.some.inj hr).symm
    · exact fun h => absurd rfl h
  | some fd =>
    have hret : sysOpen fuel path flags s =
        (some (fd : Int), setFd s₁ fd { used := true, node := some n, offset := 0 }) := by
      rw [hrun, allocFd, hfree]
    have hfd : (fd : Int) ≠ -1 := by omega
    refine ⟨?_, fun hpath => ⟨fd, _, hret, fun h => absurd h hfd, fun _ => ⟨n, ?_, ?_, hpath⟩⟩⟩
    · rintro ⟨r, s', he, -, hopen⟩
      rw [hret] at he
      obtain ⟨hr, rfl⟩ := Prod.mk.inj he
      obtain rfl := Option.some.inj hr
      obtain ⟨m, -, hm, hpath⟩ := hopen hfd
      rw [Int.toNat_natCast, setFd_fdTable] at hm
      rw [Option.some.inj hm]
      exact hpath
    · rw [Int.toNat_natCast, setFd_fdTable]
    · rw [Int.toNat_natCast, setFd_fdTable]

theorem vfsResolvePath_reference {k : Kernel} (h : Grown k.vfs) (hn : Named k.vfs)
    (hcwd : k.vfs.cwdNode = some d) (hd : InUse k.vfs d) (hpath : isCString path)
    (hshort : Short path) (fuel : Nat) :
    vfsResolvePath fuel path k = (some (reference k.vfs path), k) := by
  rw [vfsResolvePath_stepTo h hn hcwd hd hpath fuel, ← reference_cut, reference_short hshort]

theorem sysOpen_found (hres : vfsResolvePath fuel path s.kernel = (some (some n), s.kernel))
    (flags : Nat) : sysOpen fuel path flags s = allocFd (some n) s := by
  rw [sysOpen, inKernel_bind hres]
  rfl

theorem sysOpen_missing (hres : vfsResolvePath fuel path s.kernel = (some none, s.kernel))
    (hflag : flags.testBit 6 = true) {r : Option Ptr} {k : Kernel}
    (hmade : vfsCreate fuel s.kernel.vfs.cwdNode (lastComponent path) s.kernel = (some r, k)) :
    sysOpen fuel path flags s = if r.isNone then (some (-1), { s with kernel := k })
      else allocFd r { s with kernel := k } := by
  rw [sysOpen, inKernel_bind hres, get_bind]
  have hcreate : ((none : Option Ptr).isNone && flags.testBit 6) = true := by rw [hflag]; rfl
  rw [if_pos hcreate, inKernel_bind hmade]
  cases r <;> rfl

theorem vfsCreate_ram {k : Kernel} (h : Grown k.vfs) (hd : InUse k.vfs d) (fuel : Nat)
    (name : List UInt8) : vfsCreate fuel (some d) name k =
      (some (ramfsAdd .file k.vfs (some d) name).1,
        { k with vfs := (ramfsAdd .file k.vfs (some d) name).2 }) := by
  rw [vfsCreate, get_bind, opsOf_ram h hd]
  rfl

end Open

-- sys_open with the create flag, from every current directory of every tree grown from vfs_init.
theorem sys_open_iff (k k' : Kernel) (hr : ReflTransGen TreeStep (booted k) k') (d : Ptr)
    (hd : InUse k'.vfs d) (path : List UInt8) (hpath : isCString path) (hshort : Short path)
    (flags : Nat) (hflag : flags.testBit 6 = true) (fuel : Nat) (s : Machine)
    (hs : s.kernel = inDirectory k' d) :
    OpensRight fuel path flags s ↔ reference s.kernel.vfs path ≠ none ∨
      ¬Admits s.kernel.vfs d (lastComponent path) ∨
      (freeFd s).isSome = true ∧
        reference (added s.kernel.vfs .file d (lastComponent path)) (dirPart path) = some d := by
  have h : Grown s.kernel.vfs := hs ▸ (treeRun_grown hr).inDirectory d
  have hnamed := treeRun_named hr
  have hn : Named s.kernel.vfs := hs ▸ ⟨hnamed.name, hnamed.root⟩
  have hcwd : s.kernel.vfs.cwdNode = some d := hs ▸ rfl
  have hd' : InUse s.kernel.vfs d := hs ▸ hd
  have hres := vfsResolvePath_reference h hn hcwd hd' hpath hshort fuel
  cases hfound : reference s.kernel.vfs path with
  | some n =>
    rw [hfound] at hres
    rw [opensRight_alloc (sysOpen_found hres flags), hres]
    simp
  | none =>
    rw [hfound] at hres
    have hcreate := vfsCreate_ram h hd' fuel (lastComponent path)
    rw [← hcwd] at hcreate
    by_cases ha : Admits s.kernel.vfs d (lastComponent path)
    · rw [hcwd, ramfsAdd_admits hd' ha, ← hcwd] at hcreate
      have hrun := sysOpen_missing hres hflag hcreate
      rw [Option.isNone_some, if_neg Bool.false_ne_true] at hrun
      have hg : Grown (added s.kernel.vfs .file d (lastComponent path)) := grown_added h hd' ha
      have hn' : Named (added s.kernel.vfs .file d (lastComponent path)) :=
        named_added hn h hd' ⟨lastComponent path, lastComponent_isCString hpath,
          Nat.lt_of_le_of_lt (lastComponent_short hshort) (by decide)⟩
      have hres' := vfsResolvePath_reference (k := { s.kernel with
        vfs := added s.kernel.vfs .file d (lastComponent path) }) hg hn' hcwd hd'.added hpath hshort
        fuel
      have hnew := reference_new h hn hcwd hd' ha hpath hfound
      have hfree : freeFd { s with kernel := { s.kernel with
        vfs := added s.kernel.vfs .file d (lastComponent path) } } = freeFd s := rfl
      rw [opensRight_alloc hrun, hres', hfree]
      simp only [Option.some.injEq, hnew, ne_eq, not_true, false_or, ha]
      split_ifs with hroom
      · simp [hroom]
      · simp [hroom]
    · have hrefused := (ramfsAdd_cases .file (lastComponent path) hd').resolve_right fun h => ha h.1
      rw [hcwd, hrefused, ← hcwd] at hcreate
      have hrun := sysOpen_missing hres hflag hcreate
      rw [Option.isNone_none, if_pos rfl] at hrun
      refine iff_of_true ⟨-1, s, hrun, fun _ => rfl, fun h => absurd rfl h⟩ (Or.inr (Or.inl ha))

def bootMachine : Machine where
  kernel := inDirectory (booted powerOn) (.pool 0)
  fdTable := fun _ => { used := false, node := none, offset := 0 }
  terminal := []

theorem sys_open_file : OpensRight 0 [0x66] 0x40 bootMachine :=
  (sys_open_iff powerOn (booted powerOn) .refl (.pool 0) ⟨0, by decide, rfl⟩ [0x66]
    (by simp [isCString]) (by decide) 0x40 (by decide) 0 bootMachine rfl).mpr
    (Or.inr (Or.inr ⟨by decide, by decide⟩))

-- The path x/f, with no directory x: a file f is made in the root.
theorem sys_open_fails : ¬OpensRight 0 [0x78, 0x2F, 0x66] 0x40 bootMachine := by
  rintro ⟨r, s', he, -, hopen⟩
  have hret : (sysOpen 0 [0x78, 0x2F, 0x66] 0x40 bootMachine).1 = some 3 := by decide
  have hpath : (vfsResolvePath 0 [0x78, 0x2F, 0x66]
      (sysOpen 0 [0x78, 0x2F, 0x66] 0x40 bootMachine).2.kernel).1 = some none := by decide
  rw [he] at hret hpath
  obtain ⟨n, -, -, hn⟩ := hopen (Option.some.inj hret ▸ by decide)
  cases (hpath.symm.trans hn)

end Vfs
