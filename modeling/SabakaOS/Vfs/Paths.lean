import SabakaOS.Fat32.ShortNames
import SabakaOS.Library.NameTree
import SabakaOS.Vfs.Calls

namespace Vfs

open Prog NameTree
open Fat32 (kstrcmp kstrcmp_eq_zero isCString dotName dotdotName upper Fits83)

-- The components that the loop of vfs_resolve_path copies out of a path.
def components : Nat → List UInt8 → List (List UInt8)
  | 0, _ => []
  | n + 1, path =>
    let path := path.dropWhile (· = slash)
    if path = [] then []
    else pathComponent path :: components n (path.drop (pathComponent path).length)

def componentsOf (path : List UInt8) : List (List UInt8) := components path.length path

def resolveOne (fuel : Nat) (cur : Ptr) (component : List UInt8) : Prog Kernel (Option Ptr) :=
  if kstrcmp component dotName = 0 then pure (some cur)
  else if kstrcmp component dotdotName = 0 then do
    let k ← get
    pure (some (up k.vfs cur))
  else vfsFinddir fuel cur component

def resolveAll (fuel : Nat) : List (List UInt8) → Ptr → Prog Kernel (Option Ptr)
  | [], cur => pure (some cur)
  | c :: cs, cur => do
    let next ← resolveOne fuel cur c
    match next with
    | none => pure none
    | some next => resolveAll fuel cs next

theorem resolveFrom_eq (fuel n : Nat) (path : List UInt8) (cur : Ptr) :
    resolveFrom fuel n path cur = resolveAll fuel (components n path) cur := by
  induction n generalizing path cur with
  | zero => rfl
  | succ n ih =>
    rw [resolveFrom, components]
    dsimp only
    split
    · rfl
    · rw [resolveAll, resolveOne]
      split
      · rw [ih]
        rfl
      · split
        · funext k
          exact congrFun (ih _ _) k
        · refine congrArg _ (funext fun next => ?_)
          cases next with
          | none => rfl
          | some next => exact ih _ _

-- What a component copied out of a path is.
structure Component (c : List UInt8) : Prop where
  ne_nil : c ≠ []
  no_slash : slash ∉ c
  length_le : c.length ≤ vfsMaxName - 1

section Components

variable {n m : Nat} {path p c : List UInt8} {cs : List (List UInt8)}

theorem dropWhile_head (h : path.dropWhile (· = slash) ≠ []) :
    ∃ b rest, path.dropWhile (· = slash) = b :: rest ∧ b ≠ slash := by
  cases hd : path.dropWhile (· = slash) with
  | nil => exact absurd hd h
  | cons b rest =>
    have hb := List.head_dropWhile_not (fun b => decide (b = slash)) h
    simp only [hd, List.head_cons, decide_eq_false_iff_not] at hb
    exact ⟨b, rest, rfl, hb⟩

theorem component_pathComponent {b : UInt8} {rest : List UInt8} (hb : b ≠ slash) :
    Component (pathComponent (b :: rest)) := by
  have htake : (b :: rest).takeWhile (· != slash) = b :: rest.takeWhile (· != slash) := by
    simp [hb]
  refine ⟨?_, fun h => ?_, List.length_take_le _ _⟩
  · rw [pathComponent, htake]
    exact List.cons_ne_nil _ _
  · have := List.mem_takeWhile_imp (List.mem_of_mem_take h)
    simp at this

theorem pathComponent_subset : pathComponent path ⊆ path := fun _ h =>
  (List.takeWhile_prefix _).subset (List.mem_of_mem_take h)

theorem components_sub (hc : c ∈ components n path) : Component c ∧ c ⊆ path := by
  induction n generalizing path with
  | zero => exact absurd hc (List.not_mem_nil)
  | succ n ih =>
    have hsub : path.dropWhile (· = slash) ⊆ path := (List.dropWhile_suffix _).subset
    rw [components] at hc
    split at hc
    · exact absurd hc (List.not_mem_nil)
    · rename_i hne
      obtain ⟨b, rest, hp, hb⟩ := dropWhile_head hne
      rcases List.mem_cons.mp hc with rfl | hc
      · refine ⟨?_, fun b hb => hsub (pathComponent_subset hb)⟩
        rw [hp]
        exact component_pathComponent hb
      · exact ⟨(ih hc).1, fun b hb => hsub (List.drop_subset _ _ ((ih hc).2 hb))⟩

theorem components_enough (hn : path.length ≤ n) (hm : path.length ≤ m) :
    components n path = components m path := by
  induction n generalizing path m with
  | zero =>
    obtain rfl := List.length_eq_zero_iff.mp (Nat.le_zero.mp hn)
    cases m with
    | zero => rfl
    | succ m => rfl
  | succ n ih =>
    cases m with
    | zero =>
      obtain rfl := List.length_eq_zero_iff.mp (Nat.le_zero.mp hm)
      rfl
    | succ m =>
      rw [components, components]
      split
      · rfl
      · rename_i hne
        obtain ⟨b, rest, hp, hb⟩ := dropWhile_head hne
        have hlen := (List.dropWhile_suffix (fun b : UInt8 => decide (b = slash)) (l := path)).length_le
        have hpos : 0 < (pathComponent (path.dropWhile (· = slash))).length := by
          rw [hp]
          exact List.length_pos_iff.mpr (component_pathComponent hb).ne_nil
        have hdrop : ((path.dropWhile (· = slash)).drop
            (pathComponent (path.dropWhile (· = slash))).length).length ≤ path.length - 1 := by
          rw [List.length_drop]
          omega
        rw [@ih m _ (hdrop.trans (by omega)) (hdrop.trans (by omega))]

theorem components_slash (hn : path.length < n) :
    components n (slash :: path) = componentsOf path := by
  obtain ⟨k, rfl⟩ := Nat.exists_eq_succ_of_ne_zero (Nat.ne_of_gt (Nat.zero_lt_of_lt hn))
  rw [componentsOf, ← components_enough (show path.length ≤ k + 1 by omega) le_rfl, components,
    components, List.dropWhile_cons_of_pos (by simp)]

theorem pathComponent_append (hc : Component c) (path : List UInt8) :
    pathComponent (c ++ slash :: path) = c := by
  have htake : (c ++ slash :: path).takeWhile (· != slash) = c := by
    rw [List.takeWhile_append_of_pos fun b hb => ?_]
    · simp
    · exact bne_iff_ne.mpr fun hs => hc.no_slash (hs ▸ hb)
  rw [pathComponent, htake, List.take_of_length_le hc.length_le]

theorem components_append (hc : Component c) (hn : (c ++ slash :: path).length ≤ n) :
    components n (c ++ slash :: path) = c :: componentsOf path := by
  obtain ⟨b, rest, rfl⟩ := List.exists_cons_of_ne_nil hc.ne_nil
  have hb : b ≠ slash := fun h => hc.no_slash (h ▸ List.mem_cons_self)
  rw [List.length_append, List.length_cons, List.length_cons] at hn
  obtain ⟨k, rfl⟩ := Nat.exists_eq_succ_of_ne_zero (show n ≠ 0 by omega)
  have hdrop : (b :: rest ++ slash :: path).dropWhile (· = slash) = b :: rest ++ slash :: path := by
    rw [List.cons_append, List.dropWhile_cons_of_neg (by simpa using hb)]
  rw [components, hdrop, if_neg (by simp), pathComponent_append hc, List.drop_left,
    components_slash (by omega)]

def joined (cs : List (List UInt8)) : List UInt8 := cs.flatMap fun c => c ++ [slash]

theorem componentsOf_joined (hcs : ∀ c ∈ cs, Component c) : componentsOf (joined cs) = cs := by
  induction cs with
  | nil => rfl
  | cons c cs ih =>
    have hj : joined (c :: cs) = c ++ slash :: joined cs := by simp [joined]
    rw [componentsOf, hj, components_append (hcs c List.mem_cons_self) le_rfl,
      ih fun d hd => hcs d (List.mem_cons_of_mem c hd)]

end Components

theorem resolveAll_append {fuel : Nat} {k k' : Kernel} {d d' : Ptr} {cs cs' : List (List UInt8)}
    (h : resolveAll fuel cs d k = (some (some d'), k')) :
    resolveAll fuel (cs ++ cs') d k = resolveAll fuel cs' d' k' := by
  induction cs generalizing d k with
  | nil =>
    obtain ⟨hd, rfl⟩ := Prod.mk.inj h
    rw [Option.some.inj (Option.some.inj hd)]
    rfl
  | cons c cs ih =>
    rw [resolveAll] at h
    rw [List.cons_append, resolveAll]
    rcases hone : resolveOne fuel d c k with ⟨_ | r, k₁⟩
    · rw [bind_stopped hone] at h
      cases h
    · rw [bind_ended hone] at h ⊢
      cases r with
      | none => cases h
      | some d₁ => exact ih h

def startOf (path : List UInt8) (k : Kernel) : Option Ptr :=
  if path.head? = some slash then k.vfs.rootNode else k.vfs.cwdNode

theorem vfsResolvePath_eq (fuel : Nat) (path : List UInt8) (k : Kernel) :
    vfsResolvePath fuel path k = match startOf path k with
      | none => (some none, k)
      | some cur => resolveAll fuel (componentsOf path) cur k := by
  rw [vfsResolvePath, get_bind]
  cases path with
  | nil =>
    change (some k.vfs.cwdNode, k) = _
    rw [startOf, if_neg (by simp)]
    cases k.vfs.cwdNode with
    | none => rfl
    | some cur => rfl
  | cons b rest =>
    rw [startOf, List.head?_cons]
    by_cases hb : b = slash
    · rw [if_pos (congrArg some hb)]
      simp only [if_pos hb]
      cases k.vfs.rootNode with
      | none => rfl
      | some cur =>
        dsimp only
        rw [resolveFrom_eq, hb, componentsOf, List.length_cons, components_slash (Nat.lt_succ_self _)]
        rfl
    · rw [if_neg (fun h => hb (Option.some.inj h))]
      simp only [if_neg hb]
      cases k.vfs.cwdNode with
      | none => rfl
      | some cur => exact congrFun (resolveFrom_eq ..) k

-- A walk keeps what each lookup keeps.
theorem resolveAll_keeps {P : Kernel → Prop} {fuel : Nat} {cs : List (List UInt8)} {d : Ptr}
    {r : Option Ptr} {k k' : Kernel} (hstep : ∀ (d : Ptr) (c : List UInt8) (r : Option Ptr)
      (k k' : Kernel), Component c → P k → vfsFinddir fuel (some d) c k = (some r, k') → P k')
    (h : P k) (hcs : ∀ c ∈ cs, Component c) (hrun : resolveAll fuel cs d k = (some r, k')) :
    P k' := by
  induction cs generalizing k d with
  | nil =>
    obtain ⟨-, rfl⟩ := ended_pure hrun
    exact h
  | cons c cs ih =>
    obtain ⟨next, k₁, hone, hrest⟩ := ended_bind hrun
    have h₁ : P k₁ := by
      rw [resolveOne] at hone
      split at hone
      · obtain ⟨-, rfl⟩ := ended_pure hone
        exact h
      split at hone
      · rw [get_bind] at hone
        obtain ⟨-, rfl⟩ := ended_pure hone
        exact h
      · exact hstep d c next k k₁ (hcs c List.mem_cons_self) h hone
    cases next with
    | none =>
      obtain ⟨-, rfl⟩ := ended_pure hrest
      exact h₁
    | some d' => exact ih h₁ (fun c hc => hcs c (List.mem_cons_of_mem _ hc)) hrest

theorem vfsResolvePath_keeps {P : Kernel → Prop} {fuel : Nat} {path : List UInt8} {r : Option Ptr}
    {k k' : Kernel} (hstep : ∀ (d : Ptr) (c : List UInt8) (r : Option Ptr) (k k' : Kernel),
      Component c → P k → vfsFinddir fuel (some d) c k = (some r, k') → P k')
    (h : P k) (hrun : vfsResolvePath fuel path k = (some r, k')) : P k' := by
  rw [vfsResolvePath_eq] at hrun
  split at hrun
  · obtain ⟨-, rfl⟩ := ended_pure hrun
    exact h
  · exact resolveAll_keeps hstep h (fun c hc => (components_sub hc).1) hrun

-- An absolute path whose first component is name.
def under (name p : List UInt8) : List UInt8 := slash :: (name ++ slash :: p)

theorem vfsResolvePath_under {k : Kernel} {root : Ptr} {name : List UInt8} (hname : Component name)
    (hroot : k.vfs.rootNode = some root) (fuel : Nat) (p : List UInt8) :
    vfsResolvePath fuel (under name p) k =
      resolveAll fuel (name :: componentsOf p) root k := by
  rw [vfsResolvePath, get_bind, under, ← components_append hname le_rfl, ← resolveFrom_eq]
  simp only [hroot, if_true]

abbrev FileTree := NameTree (List UInt8) VfsNodeType .dir

def moveOf (c : List UInt8) : Move (List UInt8) :=
  if kstrcmp c dotName = 0 then .here
  else if kstrcmp c dotdotName = 0 then .up
  else .down c

def movesOf (p : List UInt8) : List (Move (List UInt8)) := (componentsOf p).map moveOf

-- Every name of the tree is an upper-case 8.3 name.
def ShortNamed (T : FileTree) : Prop :=
  ∀ s n, T.Has (s ++ [n]) → isCString n ∧ Fits83 n ∧ n.map upper = n

-- The tree stands in the RAM file system under the name; pos gives the pool index of each node.
structure InRam (T : FileTree) (name : List UInt8) (v : NodeStore) (pos : List (List UInt8) → Nat) :
    Prop where
  root : ∃ root, v.rootNode = some root ∧ (v.nodes root).ops = some .ramfs ∧
    ramfsFinddir v root name = some (.pool (pos []))
  typed : ∀ s ty, T.kind s = some ty →
    (v.nodes (.pool (pos s))).type = ty ∧ (v.nodes (.pool (pos s))).ops = some .ramfs
  named : ∀ s n, T.Has (s ++ [n]) → (v.nodes (.pool (pos (s ++ [n])))).name = n ∧
    (v.nodes (.pool (pos (s ++ [n])))).parent = some (.pool (pos s))
  children : ∀ s, T.kind s = some .dir → ∀ c, c ∈ (v.nodes (.pool (pos s))).children ↔
    ∃ n, T.Has (s ++ [n]) ∧ c = .pool (pos (s ++ [n]))
  distinct : ∀ s t, T.Has s → T.Has t → pos s = pos t → s = t

section Ram

variable {T : FileTree} {name c : List UInt8} {k : Kernel} {pos : List (List UInt8) → Nat}
  {s t : List (List UInt8)} {fuel : Nat} {cs : List (List UInt8)}

theorem InRam.finddir (h : InRam T name k.vfs pos) (hT : ShortNamed T) (hs : T.Has s)
    (hc : isCString c) : ramfsFinddir k.vfs (Ptr.pool (pos s)) c =
      if T.Has (s ++ [c]) then some (.pool (pos (s ++ [c]))) else none := by
  obtain ⟨ty, hty⟩ := Option.isSome_iff_exists.mp hs
  have htype := (h.typed s ty hty).1
  cases ty with
  | file =>
    have hno : ¬T.Has (s ++ [c]) := fun hh => by
      rw [T.parent s c hh] at hty
      cases hty
    rw [ramfsFinddir, if_pos (by rw [htype]; decide), if_neg hno]
  | dir =>
    have hkids := h.children s hty
    have hname : ∀ n, T.Has (s ++ [n]) →
        (kstrcmp (k.vfs.nodes (.pool (pos (s ++ [n])))).name c = 0 ↔ n = c) := fun n hn => by
      rw [(h.named s n hn).1, kstrcmp_eq_zero (hT s n hn).1 hc]
    rw [ramfsFinddir, if_neg (by rw [htype]; decide)]
    cases hf : (k.vfs.nodes (.pool (pos s))).children.find?
        (fun d => decide (kstrcmp (k.vfs.nodes d).name c = 0)) with
    | none =>
      rw [if_neg]
      intro hh
      have := List.find?_eq_none.mp hf _ ((hkids _).mpr ⟨c, hh, rfl⟩)
      exact this (decide_eq_true ((hname c hh).mpr rfl))
    | some d =>
      obtain ⟨n, hn, rfl⟩ := (hkids d).mp (List.mem_of_find?_eq_some hf)
      have hfound := List.find?_some hf
      obtain rfl := (hname n hn).mp (of_decide_eq_true hfound)
      rw [if_pos hn]

theorem InRam.resolveOne (h : InRam T name k.vfs pos) (hT : ShortNamed T) (hs : T.Has s)
    (hc : isCString c) (hin : T.Inside s [moveOf c]) :
    resolveOne fuel (.pool (pos s)) c k =
      (some ((T.step s (moveOf c)).map fun t => Ptr.pool (pos t)), k) := by
  unfold Vfs.resolveOne
  unfold moveOf at hin ⊢
  split
  · rfl
  · rename_i hdot
    rw [if_neg hdot] at hin
    split
    · rename_i hup
      rw [if_pos hup] at hin
      obtain ⟨u, n, rfl⟩ := (List.eq_nil_or_concat s).resolve_left hin.1
      rw [List.concat_eq_append] at hs ⊢
      rw [get_bind, up, (h.named u n hs).2, NameTree.step, List.dropLast_concat]
      rfl
    · obtain ⟨ty, hty⟩ := Option.isSome_iff_exists.mp hs
      have hops : opsOf k (some (.pool (pos s))) = some (.pool (pos s), .ramfs) := by
        simp [opsOf, (h.typed s ty hty).2]
      rw [vfsFinddir, get_bind, hops]
      dsimp only
      rw [h.finddir hT hs hc, NameTree.step]
      split
      · rfl
      · rfl

theorem InRam.resolveAll (h : InRam T name k.vfs pos) (hT : ShortNamed T) (hs : T.Has s)
    (hcs : ∀ c ∈ cs, isCString c) (hin : T.Inside s (cs.map moveOf)) :
    resolveAll fuel cs (.pool (pos s)) k =
      (some ((T.follow s (cs.map moveOf)).map fun t => Ptr.pool (pos t)), k) := by
  induction cs generalizing s with
  | nil => rfl
  | cons c cs ih =>
    have hone := @InRam.resolveOne T name c k pos s fuel h hT hs (hcs c List.mem_cons_self)
      (inside_left (cs.map moveOf) hin)
    rw [Vfs.resolveAll, bind_ended hone, List.map_cons, follow_cons]
    cases hstep : T.step s (moveOf c) with
    | none => rfl
    | some t =>
      exact ih (step_has hs hstep) (fun d hd => hcs d (List.mem_cons_of_mem c hd))
        (inside_step hin hstep)

end Ram

end Vfs
