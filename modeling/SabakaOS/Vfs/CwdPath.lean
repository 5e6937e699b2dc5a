import SabakaOS.Vfs.BackEnds
import SabakaOS.Vfs.MountedWalks

namespace Vfs

open Prog Relation
open Fat32 (Fat32Entry kstrcmp kstrcmp_eq_zero isCString)

-- The nodes on the stack of vfs_get_cwd_path, the current directory first, with room for n more.
def cwdStack (v : NodeStore) : Nat → Option Ptr → List Ptr
  | 0, _ => []
  | _ + 1, none => []
  | n + 1, some p =>
    if v.rootNode = some p then [] else p :: cwdStack v n (v.nodes p).parent

def putByte (bufsize : Nat) (buf : List UInt8) (b : UInt8) : List UInt8 :=
  if buf.length + 1 < bufsize then buf ++ [b] else buf

def putName (bufsize : Nat) (buf name : List UInt8) : List UInt8 :=
  name.foldl (putByte bufsize) (putByte bufsize buf slash)

-- What is in the buffer before the NUL, nothing being written to one of no size.
def vfsGetCwdPath (v : NodeStore) (bufsize : Nat) : Option (List UInt8) :=
  if bufsize = 0 then none
  else
    let stack := cwdStack v 63 v.cwdNode
    if stack = [] then some [slash]
    else some (stack.reverse.foldl (fun buf p => putName bufsize buf (v.nodes p).name) [])

-- A lookup on the disk makes a node of its own, so there the directory entry counts.
def SameDirectory (v : NodeStore) (p q : Ptr) : Prop :=
  p = q ∨ (v.nodes p).parent = none ∧ (v.nodes q).parent = none ∧
    getEntry (v.nodes p) = getEntry (v.nodes q)

-- What vfs_get_cwd_path spells is absolute, and leads back to the current directory.
def RoundTrip (fuel : Nat) (k : Kernel) : Prop :=
  ∃ path d, vfsGetCwdPath k.vfs 256 = some path ∧ path.head? = some slash ∧
    k.vfs.cwdNode = some d ∧
    ∃ p k', vfsResolvePath fuel path k = (some (some p), k') ∧ SameDirectory k'.vfs d p

def spelled (cs : List (List UInt8)) : List UInt8 := cs.flatMap (slash :: ·)

section Spelled

variable {c p : List UInt8} {cs : List (List UInt8)} {n : Nat}

theorem componentsOf_slash (p : List UInt8) : componentsOf (slash :: p) = componentsOf p :=
  components_slash (Nat.lt_succ_self _)

theorem componentsOf_word (hc : Component c) : componentsOf c = [c] := by
  have hparts := parts_last hc.ne_nil hc.no_slash
  have hshort : Short c := fun d hd => by
    rw [hparts] at hd
    exact List.mem_singleton.mp hd ▸ hc.length_le
  rw [componentsOf, components_short le_rfl hshort, hparts]

theorem spelled_cons (c : List UInt8) (cs : List (List UInt8)) :
    spelled (c :: cs) = slash :: (c ++ spelled cs) := rfl

theorem componentsOf_before (hc : Component c) (cs : List (List UInt8)) (n : Nat) :
    componentsOf (c ++ (spelled cs).take n) = c :: componentsOf ((spelled cs).take n) := by
  cases cs with
  | nil =>
    rw [show (spelled []).take n = [] from List.take_nil, List.append_nil, componentsOf_word hc]
    rfl
  | cons d cs =>
    cases n with
    | zero =>
      rw [List.take_zero, List.append_nil, componentsOf_word hc]
      rfl
    | succ n =>
      rw [spelled_cons, List.take_succ_cons, componentsOf_slash]
      exact components_append hc le_rfl

theorem componentsOf_spelled (hcs : ∀ c ∈ cs, Component c) : componentsOf (spelled cs) = cs := by
  induction cs with
  | nil => rfl
  | cons c cs ih =>
    have hbefore := componentsOf_before (hcs c List.mem_cons_self) cs (spelled cs).length
    rw [List.take_length, ih fun d hd => hcs d (List.mem_cons_of_mem c hd)] at hbefore
    rw [spelled_cons, componentsOf_slash, hbefore]

-- A cut path has no more components, and they and their slashes no more bytes than are left.
theorem componentsOf_cut (hcs : ∀ c ∈ cs, Component c) (n : Nat) :
    (componentsOf ((spelled cs).take n)).length ≤ cs.length ∧
      ((componentsOf ((spelled cs).take n)).map fun c => c.length + 1).sum ≤ n := by
  induction cs generalizing n with
  | nil =>
    rw [show (spelled []).take n = [] from List.take_nil]
    exact ⟨Nat.zero_le _, Nat.zero_le _⟩
  | cons c cs ih =>
    have hc := hcs c List.mem_cons_self
    cases n with
    | zero => exact ⟨Nat.zero_le _, Nat.zero_le _⟩
    | succ n =>
      rw [spelled_cons, List.take_succ_cons, componentsOf_slash, List.take_append]
      rcases Nat.le_total n c.length with hn | hn
      · rw [Nat.sub_eq_zero_of_le hn, List.take_zero, List.append_nil]
        rcases Nat.eq_zero_or_pos n with rfl | hpos
        · exact ⟨Nat.zero_le _, Nat.zero_le _⟩
        · have hpart : Component (c.take n) := by
            refine ⟨?_, fun h => hc.no_slash (List.mem_of_mem_take h), ?_⟩
            · exact List.ne_nil_of_length_pos (by rw [List.length_take]; omega)
            · exact (List.length_take_le' _ _).trans hc.length_le
          rw [componentsOf_word hpart]
          simp
      · obtain ⟨hlen, hsum⟩ := ih (fun d hd => hcs d (List.mem_cons_of_mem c hd)) (n - c.length)
        rw [List.take_of_length_le hn, componentsOf_before hc, List.map_cons, List.sum_cons]
        simp only [List.length_cons]
        omega

theorem foldl_putByte {bufsize : Nat} {buf : List UInt8} (h : buf.length + 1 ≤ bufsize)
    (bs : List UInt8) :
    bs.foldl (putByte bufsize) buf = (buf ++ bs).take (bufsize - 1) := by
  induction bs generalizing buf with
  | nil =>
    rw [List.append_nil, List.take_of_length_le (by omega)]
    rfl
  | cons b bs ih =>
    rw [List.foldl_cons, putByte]
    split
    · rename_i hroom
      rw [ih (by rw [List.length_append, List.length_singleton]; omega), List.append_assoc,
        List.singleton_append]
    · rw [ih h, List.take_append_of_le_length (by omega), List.take_append_of_le_length (by omega)]

theorem spelled_length (cs : List (List UInt8)) :
    (spelled cs).length = (cs.map fun c => c.length + 1).sum := by
  simp [spelled, List.length_flatMap]

end Spelled

section Shown

variable {m d p : Ptr} {k k' : Kernel} {v : NodeStore} {cs : List (List UInt8)} {fuel n : Nat}
  {g : List UInt8 → Nat}

theorem cwdStack_at (h : At v cs p) (n : Nat) :
    ((cwdStack v n (some p)).reverse.map fun p => (v.nodes p).name) =
      cs.drop (cs.length - n) := by
  induction h generalizing n with
  | root hr =>
    cases n with
    | zero => rfl
    | succ n =>
      rw [cwdStack, if_pos hr]
      exact List.drop_nil.symm
  | @under cs p q _ hp hne ih =>
    cases n with
    | zero =>
      rw [Nat.sub_zero, List.drop_length]
      rfl
    | succ n =>
      rw [cwdStack, if_neg hne, hp, List.reverse_cons, List.map_append, ih n, List.length_append,
        List.length_singleton, Nat.add_sub_add_right,
        List.drop_append_of_le_length (Nat.sub_le _ _)]
      rfl

theorem foldl_putName (stack : List Ptr) : stack.foldl
    (fun buf p => putName 256 buf (v.nodes p).name) [] =
      (spelled (stack.map fun p => (v.nodes p).name)).take 255 := by
  have hput := @foldl_putByte 256 [] (by decide) (spelled (stack.map fun p => (v.nodes p).name))
  rw [List.nil_append, spelled, List.foldl_flatMap, List.foldl_map] at hput
  exact hput

theorem vfsGetCwdPath_at (h : At v cs d) (hcwd : v.cwdNode = some d) :
    vfsGetCwdPath v 256 =
      some (if cs = [] then [slash] else (spelled (cs.drop (cs.length - 63))).take 255) := by
  have hstack := cwdStack_at h 63
  rw [vfsGetCwdPath, if_neg (by decide), hcwd]
  dsimp only
  rw [foldl_putName, hstack]
  split
  · rename_i hnil
    rw [hnil] at hstack
    have hlen := congrArg List.length hstack
    rw [List.length_drop] at hlen
    have hcs : cs = [] := by
      refine List.length_eq_zero_iff.mp ?_
      change 0 = _ at hlen
      omega
    rw [if_pos hcs]
  · rename_i hne
    rw [if_neg]
    rintro rfl
    exact hne (List.reverse_eq_nil_iff.mp (List.map_eq_nil_iff.mp hstack))

-- Nothing is above a directory of the disk.
theorem vfsGetCwdPath_below (h : Below k d) (hroot : k.vfs.rootNode ≠ some d)
    (hcwd : k.vfs.cwdNode = some d) :
    vfsGetCwdPath k.vfs 256 = some (slash :: (k.vfs.nodes d).name) := by
  have hstack : cwdStack k.vfs 63 (some d) = [d] := by
    rw [cwdStack, if_neg hroot, h.parent]
    rfl
  have hlen : (spelled [(k.vfs.nodes d).name]).length ≤ 255 := by
    rw [spelled_length, List.map_singleton, List.sum_singleton]
    exact Nat.succ_le_succ (h.length_le.trans (by decide))
  rw [vfsGetCwdPath, if_neg (by decide), hcwd]
  dsimp only
  rw [hstack, if_neg (List.cons_ne_nil _ _), foldl_putName, List.reverse_singleton,
    List.map_singleton, List.take_of_length_le hlen]
  simp [spelled]

theorem Mounted.finddir_child (hM : Mounted m k) (hd : InUse k.vfs d)
    (hdir : (k.vfs.nodes d).type = .dir) (hp : p ∈ (k.vfs.nodes d).children) :
    ramfsFinddir k.vfs (some d) (k.vfs.nodes p).name = some p := by
  have hname : ∀ c ∈ (k.vfs.nodes d).children, isCString (k.vfs.nodes c).name :=
    fun c hc => hM.named c (hM.child d hd c hc).2.2
  have hself : kstrcmp (k.vfs.nodes p).name (k.vfs.nodes p).name = 0 :=
    (kstrcmp_eq_zero (hname p hp) (hname p hp)).mpr rfl
  rcases hfind : ramfsFinddir k.vfs (some d) (k.vfs.nodes p).name with _ | c
  · have hnone := (ramfsFinddir_none hdir).mp (Option.isSome_eq_false_iff.mpr (by rw [hfind]; rfl))
    exact absurd hself (hnone p hp)
  · rw [ramfsFinddir, if_neg (not_not.mpr hdir)] at hfind
    have hc := List.mem_of_find?_eq_some hfind
    have hmatch := List.find?_some hfind
    rw [List.inj_on_of_nodup_map (hM.siblings d hd) hc hp
      ((kstrcmp_eq_zero (hname c hc) (hname p hp)).mp (of_decide_eq_true hmatch))]

theorem resolveOne_proper {c : List UInt8} (hc : Proper c) :
    resolveOne fuel d c = vfsFinddir fuel (some d) c := by
  rw [resolveOne, if_neg, if_neg]
  · exact fun he => hc.not_dotdot ((kstrcmp_eq_zero hc.string
      (by simp [isCString, Fat32.dotdotName])).mp he)
  · exact fun he => hc.not_dot ((kstrcmp_eq_zero hc.string
      (by simp [isCString, Fat32.dotName])).mp he)

theorem resolveAll_at (hM : Mounted m k) (h : At k.vfs cs p) (hon : OnTree m k.vfs p)
    (hcs : ∀ c ∈ cs, Proper c) : resolveAll fuel cs (.pool 0) k = (some (some p), k) := by
  induction h with
  | root hr =>
    obtain rfl := Option.some.inj (hM.root.symm.trans hr)
    rfl
  | @under cs p q _ hp hne ih =>
    have hp0 : p ≠ .pool 0 := fun he => hne (he ▸ hM.root)
    obtain ⟨d, hd, hpar, hdir, hchild⟩ := hM.parent p hon hp0
    obtain rfl := Option.some.inj (hp.symm.trans hpar)
    have hone : resolveOne fuel q (k.vfs.nodes p).name k = (some (some p), k) := by
      rw [resolveOne_proper (hcs _ (List.mem_append_right _ (List.mem_singleton_self _))),
        vfsFinddir, get_bind, show opsOf k (some q) = some (q, .ramfs) by
          simp [opsOf, hM.ramfs q hd]]
      exact congrArg (fun r => (some r, k)) (hM.finddir_child hd hdir hchild)
    rw [resolveAll_append (ih (.inl hd) fun c hc => hcs c (List.mem_append_left _ hc)), resolveAll,
      bind_ended hone]
    rfl

-- One component leads from the root to its children at most.
theorem resolveAll_near (hM : Mounted m k) (hcs : cs.length ≤ 1)
    (hrun : resolveAll fuel cs (.pool 0) k = (some (some p), k')) :
    k' = k ∧ OnTree m k.vfs p := by
  have hroot : InUse k.vfs (.pool 0) := ⟨0, hM.pos, rfl⟩
  match cs, hcs with
  | [], _ =>
    obtain ⟨he, rfl⟩ := ended_pure hrun
    exact ⟨rfl, .inl (Option.some.inj he ▸ hroot)⟩
  | [c], _ =>
    obtain ⟨next, k₁, hone, hrest⟩ := ended_bind hrun
    cases next with
    | none => cases (ended_pure hrest).1
    | some next =>
      obtain ⟨he, rfl⟩ := ended_pure hrest
      obtain rfl := Option.some.inj he
      rw [resolveOne] at hone
      split at hone
      · obtain ⟨he, rfl⟩ := ended_pure hone
        exact ⟨rfl, .inl (Option.some.inj he ▸ hroot)⟩
      split at hone
      · rw [get_bind] at hone
        obtain ⟨he, rfl⟩ := ended_pure hone
        rw [up, hM.top] at he
        exact ⟨rfl, .inl (Option.some.inj he ▸ hroot)⟩
      · rw [vfsFinddir, get_bind, show opsOf k (some (.pool 0)) = some (.pool 0, .ramfs) by
          simp [opsOf, hM.ramfs _ hroot]] at hone
        obtain ⟨hr, rfl⟩ := ended_pure hone
        refine ⟨rfl, ?_⟩
        rw [ramfsFinddir] at hr
        split at hr
        · cases hr
        · exact (hM.child _ hroot _ (List.mem_of_find?_eq_some hr)).2.2

end Shown

section Back

variable {m d p : Ptr} {k k' : Kernel} {path : List UInt8} {cs : List (List UInt8)} {fuel n : Nat}
  {g : List UInt8 → Nat}

theorem resolved_held (hM : Mounted m k) (hpath : isCString path)
    (habs : path.head? = some slash)
    (hrun : vfsResolvePath fuel path k = (some (some p), k')) :
    Undisturbed k k' ∧ Held m g ((componentsOf path).map g).sum k' p := by
  rw [vfsResolvePath_eq, startOf, if_pos habs, hM.root] at hrun
  obtain ⟨hk, hheld⟩ := resolveAll_held hM (held_root (n := 0) hM) (componentsOf_good hpath) hrun
  rw [Nat.zero_add] at hheld
  exact ⟨hk, hheld p rfl⟩

-- Only the walk over all the names of a directory of the tree leads to it.
theorem Held.same (h : Held m g n k p) (hM : Mounted m k) (hon : OnTree m k.vfs d)
    (hat : At k.vfs cs d) (hsame : SameDirectory k.vfs d p) : (cs.map g).sum ≤ n := by
  rcases hsame with rfl | ⟨hparent, -⟩
  · rcases h with h | ⟨-, cs', hat', -, hn⟩
    · exact absurd h.parent (hM.hung hon)
    · rwa [hat.unique hat']
  · exact absurd hparent (hM.hung hon)

theorem At.not_below (h : At k.vfs cs d) (hM : Mounted m k) : ¬Below k d := fun hb => by
  obtain ⟨j, -, rfl⟩ := hb.heap
  cases h with
  | root hr => cases hM.root.symm.trans hr
  | under _ hp _ => cases hb.parent.symm.trans hp

theorem roundTrip_tree (hM : Mounted m k) (hcwd : k.vfs.cwdNode = some d)
    (hon : OnTree m k.vfs d) (hat : At k.vfs cs d) (hcs : ∀ c ∈ cs, Proper c) (fuel : Nat) :
    RoundTrip fuel k ↔ cs.length ≤ 63 ∧ (cs.map fun c => c.length + 1).sum ≤ 255 := by
  have hshown := vfsGetCwdPath_at hat hcwd
  constructor
  · rintro ⟨path, d', hpath, habs, hcwd', p, k₁, hrun, hsame⟩
    obtain rfl := Option.some.inj (hcwd.symm.trans hcwd')
    obtain rfl := Option.some.inj (hshown.symm.trans hpath)
    by_cases hnil : cs = []
    · subst hnil
      exact ⟨Nat.zero_le _, Nat.zero_le _⟩
    rw [if_neg hnil] at habs hrun
    have hns : ∀ c ∈ cs.drop (cs.length - 63), Proper c :=
      fun c hc => hcs c (List.mem_of_mem_drop hc)
    have hstr : isCString ((spelled (cs.drop (cs.length - 63))).take 255) := fun b hb => by
      obtain ⟨c, hc, hb⟩ := List.mem_flatMap.mp (List.mem_of_mem_take hb)
      rcases List.mem_cons.mp hb with rfl | hb
      · decide
      · exact (hns c hc).string b hb
    have hweight : ∀ g : List UInt8 → Nat, (cs.map g).sum ≤
        ((componentsOf ((spelled (cs.drop (cs.length - 63))).take 255)).map g).sum := fun g => by
      obtain ⟨hk, hheld⟩ := resolved_held hM hstr habs hrun
      exact hheld.same (hM.later hk) (hk.onTree.mpr hon) (hat.later hM hon hk) hsame
    obtain ⟨hlen, hsum⟩ := componentsOf_cut (fun c hc => (hns c hc).component) 255
    have hdepth := hweight fun _ => 1
    simp only [List.map_const', List.sum_replicate_nat, Nat.mul_one] at hdepth
    rw [List.length_drop] at hlen
    exact ⟨by omega, (hweight fun c => c.length + 1).trans hsum⟩
  · rintro ⟨hlen, hsum⟩
    rw [Nat.sub_eq_zero_of_le hlen, List.drop_zero,
      List.take_of_length_le ((spelled_length cs).trans_le hsum)] at hshown
    have hcomponents : componentsOf (if cs = [] then [slash] else spelled cs) = cs := by
      split
      · rename_i hnil
        rw [hnil]
        rfl
      · exact componentsOf_spelled fun c hc => (hcs c hc).component
    have habs : (if cs = [] then [slash] else spelled cs).head? = some slash := by
      cases cs with
      | nil => rfl
      | cons c cs => rfl
    refine ⟨_, d, hshown, habs, hcwd, d, k, ?_, .inl rfl⟩
    rw [vfsResolvePath_eq, startOf, if_pos habs, hM.root, hcomponents]
    exact resolveAll_at hM hat hon hcs

theorem roundTrip_below (hM : Mounted m k) (hcwd : k.vfs.cwdNode = some d) (h : Below k d) :
    ¬RoundTrip fuel k := by
  rintro ⟨path, d', hpath, habs, hcwd', p, k₁, hrun, hsame⟩
  obtain rfl := Option.some.inj (hcwd.symm.trans hcwd')
  have hroot : k.vfs.rootNode ≠ some d := fun he => (At.root he).not_below hM h
  obtain rfl := Option.some.inj ((vfsGetCwdPath_below h hroot hcwd).symm.trans hpath)
  have hone : (componentsOf (slash :: (k.vfs.nodes d).name)).length ≤ 1 := by
    rw [componentsOf_slash]
    by_cases hnil : (k.vfs.nodes d).name = []
    · rw [hnil]
      exact Nat.zero_le _
    · rw [componentsOf_word ⟨hnil, h.no_slash, h.length_le⟩]
      rfl
  rw [vfsResolvePath_eq, startOf, if_pos habs, hM.root] at hrun
  obtain ⟨rfl, hon⟩ := resolveAll_near hM hone hrun
  rcases hsame with rfl | ⟨-, hparent, -⟩
  · exact hM.hung hon h.parent
  · exact hM.hung hon hparent

-- Nothing is above the directory, so the path starts at its own name.
theorem roundTrip_lost (hstart : Started k) (hr : ReflTransGen FsStep k k')
    (hcwd : k'.vfs.cwdNode = some d) (h : (k'.vfs.nodes d).parent = none) :
    ¬RoundTrip fuel k' := by
  obtain ⟨m, hM, d', hcwd', hheld⟩ := run_sane hstart hr
  obtain rfl := Option.some.inj (hcwd.symm.trans hcwd')
  rcases hheld with hb | ⟨hon, -⟩
  · exact roundTrip_below hM hcwd hb
  · exact absurd h (hM.hung hon)

theorem cwd_path_iff (hstart : Started k) (hr : ReflTransGen FsStep k k') (fuel : Nat) :
    RoundTrip fuel k' ↔ ∃ d cs, k'.vfs.cwdNode = some d ∧ At k'.vfs cs d ∧ cs.length ≤ 63 ∧
      (cs.map fun c => c.length + 1).sum ≤ 255 := by
  obtain ⟨m, hM, d, hcwd, hheld⟩ := run_sane hstart hr
  rcases hheld with hb | ⟨hon, cs, hat, hcs, -⟩
  · refine iff_of_false (roundTrip_below hM hcwd hb) ?_
    rintro ⟨d', cs, hcwd', hat, -⟩
    obtain rfl := Option.some.inj (hcwd.symm.trans hcwd')
    exact hat.not_below hM hb
  · rw [roundTrip_tree hM hcwd hon hat hcs fuel]
    constructor
    · rintro ⟨hlen, hsum⟩
      exact ⟨d, cs, hcwd, hat, hlen, hsum⟩
    · rintro ⟨d', cs', hcwd', hat', hlen, hsum⟩
      obtain rfl := Option.some.inj (hcwd.symm.trans hcwd')
      rw [hat.unique hat']
      exact ⟨hlen, hsum⟩

end Back

def shellStart : Kernel := (vfsMountFat32 (slash :: diskName) (booted (twinStart twinDisk))).2

theorem shellStart_started : Started shellStart := ⟨twinStart twinDisk, rfl⟩


-- cd /disk
def inDisk : Kernel := (vfsChdir 100 (slash :: diskName) shellStart).2

theorem cwd_path_disk : RoundTrip 100 inDisk := by
  have hrun : FsStep shellStart inDisk :=
    .chdir (slash :: diskName) 100 0 (by simp [isCString, slash, diskName]) rfl
  have hat : At inDisk.vfs [(inDisk.vfs.nodes (.heap 1)).name] (.heap 1) :=
    .under (.root rfl) rfl (by decide)
  exact (cwd_path_iff shellStart_started (.single hrun) 100).mpr
    ⟨.heap 1, _, rfl, hat, by decide, by decide⟩

-- cd /disk/A
def inDiskA : Kernel := (vfsChdir 100 (slash :: diskName ++ slash :: nameA) shellStart).2

theorem cwd_path_disk_below : ¬∀ (k k' : Kernel) (fuel : Nat), Started k →
    ReflTransGen FsStep k k' → RoundTrip fuel k' := fun h => by
  have hrun : vfsChdir 100 (slash :: diskName ++ slash :: nameA) shellStart =
      (some 0, inDiskA) := by
    have hzero : (vfsChdir 100 (slash :: diskName ++ slash :: nameA) shellStart).1 = some 0 := by
      decide +kernel
    rw [← hzero, inDiskA]
  have hstep : FsStep shellStart inDiskA :=
    .chdir _ 100 0 (by simp [isCString, slash, diskName, nameA]) hrun
  have hlost : inDiskA.vfs.cwdNode.map (fun d => (inDiskA.vfs.nodes d).parent) = some none := by
    decide +kernel
  obtain ⟨d, hcwd, hparent⟩ := Option.map_eq_some_iff.mp hlost
  exact roundTrip_lost shellStart_started (.single hstep) hcwd hparent
    (h _ _ 100 shellStart_started (.single hstep))

end Vfs
