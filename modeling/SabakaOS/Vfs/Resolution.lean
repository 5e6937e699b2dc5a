import Mathlib.Data.List.Find
import SabakaOS.Vfs.Paths
import SabakaOS.Vfs.Tree

namespace Vfs

open Prog Relation
open Fat32 (kstrcmp kstrcmp_eq_zero isCString dotName dotdotName)

-- What a path means: its components, split at the slashes, lead from node to node.
def parts (path : List UInt8) : List (List UInt8) := (path.splitOn slash).filter (· ≠ [])

def parentOf (v : NodeStore) (cur : Ptr) : Ptr :=
  if some cur = v.rootNode then cur else (v.nodes cur).parent.getD cur

def stepTo (v : NodeStore) (cur : Ptr) (c : List UInt8) : Option Ptr :=
  if c = dotName then some cur
  else if c = dotdotName then some (parentOf v cur)
  else (v.nodes cur).children.find? fun n => (v.nodes n).name = c

def startNode (v : NodeStore) (path : List UInt8) : Option Ptr :=
  if path.head? = some slash then v.rootNode else v.cwdNode

def reference (v : NodeStore) (path : List UInt8) : Option Ptr :=
  (startNode v path).bind fun cur => (parts path).foldlM (stepTo v) cur

-- A slash put into each component wherever vfsMaxName - 1 bytes of it have passed.
def cutFrom : Nat → List UInt8 → List UInt8
  | _, [] => []
  | 0, b :: path =>
    slash :: if b = slash then cutFrom (vfsMaxName - 1) path
      else b :: cutFrom (vfsMaxName - 2) path
  | room + 1, b :: path => b :: cutFrom (if b = slash then vfsMaxName - 1 else room) path

def cut (path : List UInt8) : List UInt8 := cutFrom (vfsMaxName - 1) path

def Short (path : List UInt8) : Prop := ∀ c ∈ parts path, c.length ≤ vfsMaxName - 1

instance : DecidablePred Short := fun path =>
  inferInstanceAs (Decidable (∀ c ∈ parts path, c.length ≤ vfsMaxName - 1))

section Parts

variable {path c w : List UInt8} {b : UInt8} {n room : Nat}

theorem parts_slash (path : List UInt8) : parts (slash :: path) = parts path := by
  rw [parts, List.splitOn_cons_eq_if_modifyHead, if_pos (beq_self_eq_true _),
    List.filter_cons_of_neg (by simp), parts]

theorem parts_dropWhile (path : List UInt8) : parts (path.dropWhile (· = slash)) = parts path := by
  induction path with
  | nil => rfl
  | cons b path ih =>
    by_cases hb : b = slash
    · subst hb
      rw [List.dropWhile_cons_of_pos (by simp), ih, parts_slash]
    · rw [List.dropWhile_cons_of_neg (by simpa using hb)]

theorem parts_word (hc : c ≠ []) (hs : slash ∉ c) (path : List UInt8) :
    parts (c ++ slash :: path) = c :: parts path := by
  rw [parts, List.splitOn_append_cons_self_of_not_mem hs,
    List.filter_cons_of_pos (by simpa using hc), parts]

theorem parts_last (hc : c ≠ []) (hs : slash ∉ c) : parts c = [c] := by
  rw [parts, List.splitOn_eq_singleton hs, List.filter_cons_of_pos (by simpa using hc),
    List.filter_nil]

-- The first component of a path that starts with one, and the rest.
theorem parts_cons (hb : b ≠ slash) (path : List UInt8) :
    parts (b :: path) = (b :: path).takeWhile (· != slash) ::
      parts ((b :: path).dropWhile (· != slash)) := by
  have hne : (b :: path).takeWhile (· != slash) ≠ [] := by
    rw [List.takeWhile_cons_of_pos (by simpa using hb)]
    exact List.cons_ne_nil _ _
  have hno : slash ∉ (b :: path).takeWhile (· != slash) := fun h => by
    have := List.mem_takeWhile_imp h
    simp at this
  have happ := List.takeWhile_append_dropWhile (p := (· != slash)) (l := b :: path)
  cases hd : (b :: path).dropWhile (· != slash) with
  | nil =>
    rw [hd, List.append_nil] at happ
    have hlast := parts_last hne hno
    rw [happ] at hlast ⊢
    exact hlast
  | cons s rest =>
    have hs : s = slash := by
      have := List.head_dropWhile_not (fun b => b != slash) (l := b :: path) (by rw [hd]; simp)
      simpa [hd] using this
    subst hs
    have hword := parts_word hne hno rest
    rw [← hd, happ] at hword
    rw [hword, parts_slash]

-- With short components the loop copies each of them whole.
theorem components_short (hn : path.length ≤ n) (hshort : Short path) :
    components n path = parts path := by
  induction n generalizing path with
  | zero =>
    rw [List.length_eq_zero_iff.mp (Nat.le_zero.mp hn)]
    rfl
  | succ n ih =>
    rw [components, ← parts_dropWhile]
    split
    · rename_i hnil
      rw [hnil]
      rfl
    · rename_i hne
      obtain ⟨b, rest, hp, hb⟩ := dropWhile_head hne
      have hlen :=
        (List.dropWhile_suffix (fun b : UInt8 => decide (b = slash)) (l := path)).length_le
      have hparts := parts_cons hb rest
      rw [← hp, parts_dropWhile] at hparts
      rw [Short, hparts, hp] at hshort
      have hword : pathComponent (b :: rest) = (b :: rest).takeWhile (· != slash) :=
        List.take_of_length_le (hshort _ List.mem_cons_self)
      have hdrop : (b :: rest).drop ((b :: rest).takeWhile (· != slash)).length =
          (b :: rest).dropWhile (· != slash) := by
        have happ := List.takeWhile_append_dropWhile (p := (· != slash)) (l := b :: rest)
        have hleft := @List.drop_left _ ((b :: rest).takeWhile (· != slash))
          ((b :: rest).dropWhile (· != slash))
        rwa [happ] at hleft
      have hrest : ((b :: rest).dropWhile (· != slash)).length ≤ n := by
        have hle := (List.dropWhile_suffix (fun b : UInt8 => b != slash) (l := rest)).length_le
        rw [List.dropWhile_cons_of_pos (by simpa using hb)]
        rw [hp, List.length_cons] at hlen
        omega
      rw [parts_dropWhile, hparts, hp, hword, hdrop,
        ih hrest fun c hc => hshort c (List.mem_cons_of_mem _ hc)]

-- The bytes w have been taken already, room more fit.
theorem parts_cutFrom (hw : w ≠ []) (hs : slash ∉ w) (room : Nat) (path : List UInt8) :
    parts (w ++ cutFrom room path) = (w ++ (path.takeWhile (· != slash)).take room) ::
      parts (cut (path.drop ((path.takeWhile (· != slash)).take room).length)) := by
  induction path generalizing w room with
  | nil =>
    rw [cutFrom.eq_1, List.append_nil, parts_last hw hs]
    simp [cut, cutFrom, parts]
  | cons b path ih =>
    by_cases hb : b = slash
    · subst hb
      have hcut : cutFrom room (slash :: path) = slash :: cut path := by
        cases room <;> simp [cutFrom, cut]
      have hcut' : cut (slash :: path) = slash :: cut path := by
        simp [cutFrom, cut, vfsMaxName]
      rw [hcut, parts_word hw hs, List.takeWhile_cons_of_neg (by simp), List.take_nil,
        List.append_nil, List.length_nil, List.drop_zero, hcut', parts_slash]
    · cases room with
      | zero =>
        have hcut : cutFrom 0 (b :: path) = slash :: cut (b :: path) := by
          simp [cutFrom, cut, vfsMaxName, hb]
        rw [hcut, parts_word hw hs, List.take_zero, List.append_nil, List.length_nil,
          List.drop_zero]
      | succ room =>
        have hs' : slash ∉ w ++ [b] := fun h => by
          rcases List.mem_append.mp h with h | h
          · exact hs h
          · exact hb (List.mem_singleton.mp h).symm
        have hstep := ih (w := w ++ [b]) (by simp) hs' room
        rw [cutFrom, if_neg hb, List.takeWhile_cons_of_pos (by simpa using hb), List.take_succ_cons,
          List.length_cons, List.drop_succ_cons]
        simpa using hstep

-- The loop cuts a path as cut does.
theorem parts_cut (hn : path.length ≤ n) : parts (cut path) = components n path := by
  induction n generalizing path with
  | zero =>
    rw [List.length_eq_zero_iff.mp (Nat.le_zero.mp hn)]
    rfl
  | succ n ih =>
    have hskip : parts (cut path) = parts (cut (path.dropWhile (· = slash))) := by
      clear hn
      induction path with
      | nil => rfl
      | cons b path ih =>
        by_cases hb : b = slash
        · subst hb
          have hcut : cut (slash :: path) = slash :: cut path := by
            simp [cutFrom, cut, vfsMaxName]
          rw [List.dropWhile_cons_of_pos (by simp), hcut, parts_slash, ih]
        · rw [List.dropWhile_cons_of_neg (by simpa using hb)]
    rw [hskip, components]
    split
    · rename_i hnil
      rw [hnil]
      rfl
    · rename_i hne
      obtain ⟨b, rest, hp, hb⟩ := dropWhile_head hne
      have hlen :=
        (List.dropWhile_suffix (fun b : UInt8 => decide (b = slash)) (l := path)).length_le
      have hs : slash ∉ [b] := fun h => hb (List.mem_singleton.mp h).symm
      have hword : pathComponent (b :: rest) =
          b :: (rest.takeWhile (· != slash)).take (vfsMaxName - 2) := by
        rw [pathComponent, List.takeWhile_cons_of_pos (by simpa using hb)]
        rfl
      have hcut : cut (b :: rest) = [b] ++ cutFrom (vfsMaxName - 2) rest := by
        simp [cut, cutFrom, vfsMaxName, hb]
      have hrest : (rest.drop ((rest.takeWhile (· != slash)).take (vfsMaxName - 2)).length).length
          ≤ n := by
        rw [hp, List.length_cons] at hlen
        rw [List.length_drop]
        omega
      rw [hp, hcut, parts_cutFrom (List.cons_ne_nil _ _) hs, hword, List.length_cons,
        List.drop_succ_cons, ih hrest]
      rfl

end Parts

-- What every name and the root of a tree grown from vfs_init have besides.
structure Named (v : NodeStore) : Prop where
  name : ∀ p, InUse v p → isCString (v.nodes p).name ∧ (v.nodes p).name.length ≤ vfsMaxName - 1
  root : (v.nodes (.pool 0)).parent = some (.pool 0)

section Tree

variable {v : NodeStore} {k k' : Kernel} {cur next d : Ptr} {path c : List UInt8}
  {cs : List (List UInt8)} {fuel : Nat}

theorem named_init (v : NodeStore) : Named (vfsInit v) := by
  refine ⟨fun p hp => ?_, by rw [init_root]⟩
  rw [inUse_init hp, init_root]
  exact ⟨by simp [isCString, rootName], by decide⟩

theorem named_added (h : Named v) (hg : Grown v) {type : VfsNodeType} {d : Ptr} (hd : InUse v d)
    (name : Name) : Named (added v type d name.val) := by
  refine ⟨fun p hp => ?_, ?_⟩
  · rcases inUse_added hp with hp | rfl
    · rw [added_name hp]
      exact h.name p hp
    · rw [added_new hd]
      exact ⟨name.property.1, Nat.le_sub_one_of_lt name.property.2⟩
  · exact (added_parent ⟨0, hg.pos, rfl⟩).mpr h.root

theorem treeStep_added (h : Grown k.vfs) (hs : TreeStep k k') : k' = k ∨ ∃ type d, ∃ name : Name,
    InUse k.vfs d ∧ k' = { k with vfs := added k.vfs type d name.val } := by
  obtain ⟨c, fuel, r, hc, he⟩ := hs
  have hcall (type : VfsNodeType) (d : Ptr) (name : Name) (hd : InUse k.vfs d)
      (he : onNodes (fun v => ramfsAdd type v d name.val) k = (some r, k')) : k' = k ∨
        ∃ type d, ∃ name : Name,
          InUse k.vfs d ∧ k' = { k with vfs := added k.vfs type d name.val } := by
    rw [onNodes] at he
    rcases ramfsAdd_cases type name.val hd with hadd | ⟨-, hadd⟩
    · rw [hadd] at he
      exact Or.inl (Prod.mk.inj he).2.symm
    · rw [hadd] at he
      exact Or.inr ⟨type, d, name, hd, (Prod.mk.inj he).2.symm⟩
  cases c with
  | mkdir node name =>
    cases node with
    | none => exact Or.inl (Prod.mk.inj he).2.symm
    | some d =>
      have hd : InUse k.vfs d := hc d rfl
      rw [TreeCall.run, vfsMkdir, get_bind, opsOf_ram h hd] at he
      exact hcall .dir d name hd he
  | create node name =>
    cases node with
    | none => exact Or.inl (Prod.mk.inj he).2.symm
    | some d =>
      have hd : InUse k.vfs d := hc d rfl
      rw [TreeCall.run, vfsCreate, get_bind, opsOf_ram h hd] at he
      exact hcall .file d name hd he

theorem treeRun_named (hr : ReflTransGen TreeStep (booted k) k') : Named k'.vfs := by
  induction hr with
  | refl => exact named_init k.vfs
  | tail hr hs ih =>
    have hg := treeRun_grown hr
    rcases treeStep_added hg hs with rfl | ⟨type, d, name, hd, rfl⟩
    · exact ih
    · exact named_added ih hg hd name

theorem Grown.file_children (h : Grown v) (hc : InUse v cur) (hfile : (v.nodes cur).type ≠ .dir) :
    (v.nodes cur).children = [] := by
  refine List.eq_nil_iff_forall_not_mem.mpr fun n hn => hfile ?_
  obtain ⟨hparent, j, hj, hlt, rfl⟩ := h.child cur hc n hn
  obtain ⟨i, -, hparent', hdir, -⟩ := h.parent j hj hlt
  rwa [← Option.some.inj (hparent'.symm.trans hparent)]

theorem up_parentOf (h : Grown v) (hn : Named v) (cur : Ptr) : up v cur = parentOf v cur := by
  rw [parentOf, h.root]
  split_ifs with hroot
  · rw [Option.some.inj hroot, up, hn.root]
  · rw [up]
    cases (v.nodes cur).parent <;> rfl

theorem stepTo_inUse (h : Grown v) (hc : InUse v cur) (hs : stepTo v cur c = some next) :
    InUse v next := by
  rw [stepTo] at hs
  split_ifs at hs
  · exact Option.some.inj hs ▸ hc
  · rw [← Option.some.inj hs, parentOf]
    split_ifs with hroot
    · exact hc
    · obtain ⟨i, hi, rfl⟩ := hc
      have hi0 : 0 < i := Nat.pos_of_ne_zero fun h0 => hroot (by rw [h0, h.root])
      obtain ⟨j, hj, hp, -⟩ := h.parent i hi0 hi
      rw [hp]
      exact ⟨j, by omega, rfl⟩
  · obtain ⟨-, j, -, hj, rfl⟩ := h.child cur hc next (List.mem_of_find?_eq_some hs)
    exact ⟨j, hj, rfl⟩

-- One turn of the loop is one step of the reference.
theorem resolveOne_stepTo (h : Grown k.vfs) (hn : Named k.vfs) (hc : InUse k.vfs cur)
    (hcs : isCString c) : resolveOne fuel cur c k = (some (stepTo k.vfs cur c), k) := by
  have hdot : kstrcmp c dotName = 0 ↔ c = dotName :=
    kstrcmp_eq_zero hcs (by simp [isCString, dotName])
  have hdotdot : kstrcmp c dotdotName = 0 ↔ c = dotdotName :=
    kstrcmp_eq_zero hcs (by simp [isCString, dotdotName])
  rw [resolveOne, stepTo]
  simp only [hdot, hdotdot]
  split_ifs
  · rfl
  · rw [get_bind, up_parentOf h hn]
    rfl
  · rw [vfsFinddir, get_bind, opsOf_ram h hc]
    refine Prod.ext (congrArg some ?_) rfl
    rw [ramfsFinddir]
    split_ifs with hfile
    · rw [h.file_children hc hfile]
      rfl
    · refine List.find?_congr fun n hn' => ?_
      obtain ⟨-, j, -, hj, rfl⟩ := h.child cur hc n hn'
      rw [decide_eq_decide]
      exact kstrcmp_eq_zero (hn.name _ ⟨j, hj, rfl⟩).1 hcs

theorem resolveAll_stepTo (h : Grown k.vfs) (hn : Named k.vfs) (hc : InUse k.vfs cur)
    (hcs : ∀ c ∈ cs, isCString c) :
    resolveAll fuel cs cur k = (some (cs.foldlM (stepTo k.vfs) cur), k) := by
  induction cs generalizing cur with
  | nil => rfl
  | cons c cs ih =>
    have hone := @resolveOne_stepTo k cur c fuel h hn hc (hcs c List.mem_cons_self)
    rw [resolveAll, bind_ended hone, List.foldlM_cons]
    cases hstep : stepTo k.vfs cur c with
    | none => rfl
    | some next =>
      exact ih (stepTo_inUse h hc hstep) fun d hd => hcs d (List.mem_cons_of_mem c hd)

theorem vfsResolvePath_stepTo (h : Grown k.vfs) (hn : Named k.vfs)
    (hcwd : k.vfs.cwdNode = some d) (hd : InUse k.vfs d) (hpath : isCString path) (fuel : Nat) :
    vfsResolvePath fuel path k =
      (some ((startNode k.vfs path).bind fun cur => (componentsOf path).foldlM (stepTo k.vfs) cur),
        k) := by
  have hcs : ∀ c ∈ componentsOf path, isCString c := fun c hc b hb =>
    hpath b ((components_sub hc).2 hb)
  have hroot : InUse k.vfs (.pool 0) := ⟨0, h.pos, rfl⟩
  have hstart : startOf path k = startNode k.vfs path := rfl
  rw [vfsResolvePath_eq, hstart, startNode]
  split_ifs
  · rw [h.root]
    exact resolveAll_stepTo h hn hroot hcs
  · rw [hcwd]
    exact resolveAll_stepTo h hn hd hcs

-- No node has a name that is too long.
theorem stepTo_long (h : Grown v) (hn : Named v) (hc : InUse v cur)
    (hlong : vfsMaxName - 1 < c.length) : stepTo v cur c = none := by
  have hne (name : List UInt8) (hname : name.length ≤ vfsMaxName - 1) : c ≠ name := by
    rintro rfl
    omega
  rw [stepTo, if_neg (hne _ (by decide)), if_neg (hne _ (by decide))]
  refine List.find?_eq_none.mpr fun n hmem => ?_
  obtain ⟨-, j, -, hj, rfl⟩ := h.child cur hc n hmem
  simpa using (hne _ (hn.name _ ⟨j, hj, rfl⟩).2).symm

theorem foldlM_long (h : Grown v) (hn : Named v) (hc : InUse v cur)
    (hlong : ∃ c ∈ cs, vfsMaxName - 1 < c.length) : cs.foldlM (stepTo v) cur = none := by
  induction cs generalizing cur with
  | nil =>
    obtain ⟨c, hc, -⟩ := hlong
    exact absurd hc List.not_mem_nil
  | cons c cs ih =>
    rw [List.foldlM_cons]
    cases hstep : stepTo v cur c with
    | none => rfl
    | some next =>
      refine ih (stepTo_inUse h hc hstep) ?_
      obtain ⟨d, hd, hdlong⟩ := hlong
      rcases List.mem_cons.mp hd with rfl | hd
      · rw [stepTo_long h hn hc hdlong] at hstep
        cases hstep
      · exact ⟨d, hd, hdlong⟩

end Tree

def inDirectory (k : Kernel) (d : Ptr) : Kernel :=
  { k with vfs := { k.vfs with cwdNode := some d } }

theorem Grown.inDirectory {k : Kernel} (h : Grown k.vfs) (d : Ptr) :
    Grown (inDirectory k d).vfs :=
  ⟨h.root, h.pos, h.pool_le, h.ramfs, h.root_dir, h.parent, h.child, h.siblings, h.children_le⟩

-- Cut into short components, the path means what the code takes it for.
theorem reference_cut (v : NodeStore) (path : List UInt8) : reference v (cut path) =
    (startNode v path).bind fun cur => (componentsOf path).foldlM (stepTo v) cur := by
  have hstart : startNode v (cut path) = startNode v path := by
    cases path <;> rfl
  rw [reference, hstart, parts_cut le_rfl]
  rfl

theorem reference_short {path : List UInt8} (h : Short path) (v : NodeStore) :
    reference v (cut path) = reference v path := by
  rw [reference_cut, componentsOf, components_short le_rfl h]
  rfl

theorem reference_long {v : NodeStore} {d : Ptr} {path : List UInt8} (h : Grown v) (hn : Named v)
    (hcwd : v.cwdNode = some d) (hd : InUse v d) (hlong : ¬Short path) :
    reference v path = none := by
  have hlong' : ∃ c ∈ parts path, vfsMaxName - 1 < c.length := by
    rw [Short] at hlong
    push Not at hlong
    exact hlong
  rw [reference, startNode]
  split_ifs
  · rw [h.root]
    exact foldlM_long h hn ⟨0, h.pos, rfl⟩ hlong'
  · rw [hcwd]
    exact foldlM_long h hn hd hlong'

-- In every tree grown from vfs_init, from every current directory.
theorem resolve_reference_iff (k k' : Kernel) (hr : ReflTransGen TreeStep (booted k) k') (d : Ptr)
    (hd : InUse k'.vfs d) (path : List UInt8) (hpath : isCString path) (fuel : Nat) :
    vfsResolvePath fuel path (inDirectory k' d) =
        (some (reference (inDirectory k' d).vfs path), inDirectory k' d) ↔
      Short path ∨ reference (inDirectory k' d).vfs (cut path) = none := by
  have h := (treeRun_grown hr).inDirectory d
  have hnamed := treeRun_named hr
  have hn : Named (inDirectory k' d).vfs := ⟨hnamed.name, hnamed.root⟩
  have hcode := vfsResolvePath_stepTo h hn rfl hd hpath fuel
  rw [← reference_cut] at hcode
  rw [hcode, Prod.mk.injEq, Option.some.injEq, and_iff_left rfl]
  by_cases hshort : Short path
  · exact iff_of_true (reference_short hshort _) (Or.inl hshort)
  · rw [reference_long h hn rfl hd hshort, or_iff_right hshort]

def fullName : List UInt8 := List.replicate (vfsMaxName - 1) 0x61

def makeLong : TreeCall :=
  .mkdir (some (.pool 0)) ⟨fullName, by simp [isCString, fullName], by decide⟩

def madeLong : Kernel := (makeLong.run 0 (booted powerOn)).2

theorem madeLong_run : ReflTransGen TreeStep (booted powerOn) madeLong :=
  .single ⟨makeLong, 0, some (.pool 1),
    fun _ hp => ⟨0, Nat.one_pos, (Option.some.inj hp).symm⟩, rfl⟩

theorem resolve_reference_parent :
    vfsResolvePath 0 (fullName ++ [slash] ++ dotdotName) (inDirectory madeLong (.pool 0)) =
      (some (reference (inDirectory madeLong (.pool 0)).vfs (fullName ++ [slash] ++ dotdotName)),
        inDirectory madeLong (.pool 0)) :=
  (resolve_reference_iff powerOn madeLong madeLong_run (.pool 0) ⟨0, by decide, rfl⟩ _
    (by simp [isCString, fullName, slash, dotdotName, vfsMaxName]) 0).mpr (Or.inl (by decide))

-- A name and a dot: the directory of that name is found.
theorem resolve_reference_dot :
    vfsResolvePath 0 (fullName ++ dotName) (inDirectory madeLong (.pool 0)) ≠
      (some (reference (inDirectory madeLong (.pool 0)).vfs (fullName ++ dotName)),
        inDirectory madeLong (.pool 0)) := by
  intro h
  have hfound : (vfsResolvePath 0 (fullName ++ dotName) (inDirectory madeLong (.pool 0))).1 =
    some (some (.pool 1)) := by decide
  have hnone : reference (inDirectory madeLong (.pool 0)).vfs (fullName ++ dotName) = none := by
    decide
  rw [h, hnone] at hfound
  cases hfound

end Vfs
