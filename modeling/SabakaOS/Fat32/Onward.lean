import SabakaOS.Fat32.Driver

namespace Fat32

open Prog

-- No function of the driver but fat32_init changes the mount, and none takes back what is on record.
structure Onwards (w w' : World) : Prop where
  mount : w'.mount = w.mount
  trace : w.trace <:+ w'.trace

def Onward {α : Type} (p : Drv α) : Prop := ∀ w, Onwards w (p w).2

theorem Onwards.refl (w : World) : Onwards w w := ⟨rfl, List.suffix_rfl⟩

theorem Onwards.trans {w w1 w2 : World} (h : Onwards w w1) (h' : Onwards w1 w2) : Onwards w w2 :=
  ⟨h'.mount.trans h.mount, h.trace.trans h'.trace⟩

section Rules

variable {α β : Type} {p q : Drv α} {f : α → Drv β}

theorem Onward.pure (a : α) : Onward (pure a : Drv α) := .refl

theorem Onward.get : Onward (get : Drv World) := .refl

theorem Onward.stopped : Onward (stopped : Drv α) := .refl

theorem Onward.bind (hp : Onward p) (hf : ∀ a, Onward (f a)) : Onward (p >>= f) := by
  intro w
  have hfirst := hp w
  rcases hr : p w with ⟨_ | a, w'⟩
  · rw [bind_stopped hr]
    rwa [hr] at hfirst
  · rw [bind_ended hr]
    rw [hr] at hfirst
    exact hfirst.trans (hf a w')

theorem Onward.modify_bind {g : World → World} {f : Unit → Drv β} (h : ∀ w, Onwards w (g w))
    (hf : ∀ u, Onward (f u)) : Onward (Prog.modify g >>= f) :=
  Onward.bind (p := Prog.modify g) h hf

theorem Onward.ite {c : Prop} [Decidable c] (hp : Onward p) (hq : Onward q) :
    Onward (if c then p else q) := by
  split
  · exact hp
  · exact hq

theorem Onward.runs (h : Onward p) (w : World) :
    Runs p w (fun _ w' => Onwards w w') (fun w' => Onwards w w') := by
  have hfirst := h w
  unfold Runs
  split
  · next hp => rwa [hp] at hfirst
  · next hp => rwa [hp] at hfirst

end Rules

section Table

variable {s : Site} {x : Xfer}

theorem onward_log (e : Event) : Onward (log e) := fun _ => ⟨rfl, List.suffix_cons ..⟩

theorem onward_kmalloc : Onward (kmalloc s) := fun _ => ⟨rfl, List.suffix_rfl⟩

theorem onward_ataRead (lba : Nat) : Onward (ataReadSectors s x lba) := by
  intro w
  unfold ataReadSectors
  dsimp only
  split
  · exact ⟨rfl, List.suffix_rfl⟩
  · exact ⟨rfl, List.suffix_rfl⟩

theorem onward_ataWrite (lba : Nat) (buf : Buffer) : Onward (ataWriteSectors s x lba buf) := by
  intro w
  unfold ataWriteSectors
  dsimp only
  split
  · exact ⟨rfl, List.suffix_cons ..⟩
  · exact ⟨rfl, List.suffix_rfl⟩

theorem onward_fatFlushCache : Onward (fatFlushCache s) :=
  Onward.get.bind fun _ => .ite (.pure _) ((onward_ataWrite _ _).bind fun _ =>
    .ite (.pure _) (.modify_bind (fun _ => ⟨rfl, List.suffix_rfl⟩) fun _ => .pure _))

theorem onward_fatReadSector (lba : Nat) : Onward (fatReadSector s lba) := by
  refine Onward.get.bind fun w => .ite (.pure _) (onward_fatFlushCache.bind fun ok =>
    .ite (.pure _) ((onward_ataRead _).bind fun r => ?_))
  cases r with
  | none => exact .pure _
  | some sector => exact .modify_bind (fun _ => ⟨rfl, List.suffix_rfl⟩) fun _ => .pure _

theorem onward_fatGet (cluster : Nat) : Onward (fatGet s cluster) :=
  (onward_log _).bind fun _ => Onward.get.bind fun _ => (onward_fatReadSector _).bind fun _ =>
    .ite (.pure _) (Onward.get.bind fun _ => .pure _)

theorem onward_fatSetCopy (cluster value fatNum : Nat) :
    Onward (fatSetCopy s cluster value fatNum) :=
  Onward.get.bind fun _ => (onward_fatReadSector _).bind fun _ =>
    .ite (.pure _) (.modify_bind (fun _ => ⟨rfl, List.suffix_rfl⟩) fun _ => onward_fatFlushCache)

theorem onward_fatSet (cluster value : Nat) : Onward (fatSet s cluster value) :=
  (onward_log _).bind fun _ => (onward_fatSetCopy _ _ _).bind fun _ =>
    .ite (.pure _) (onward_fatSetCopy _ _ _)

theorem onward_fatAllocFrom (n c : Nat) : Onward (fatAllocFrom n c) := by
  induction n generalizing c with
  | zero => exact .pure _
  | succ n ih =>
    exact (onward_fatGet _).bind fun _ => .ite (.modify_bind
      (fun _ => ⟨rfl, List.suffix_cons ..⟩) fun _ => (onward_fatSet _ _).bind fun _ => .pure _)
      (ih _)

theorem onward_fatAllocCluster : Onward fatAllocCluster :=
  Onward.get.bind fun _ => onward_fatAllocFrom _ _

theorem onward_fatFreeChain (fuel start : Nat) : Onward (fatFreeChain fuel start) := by
  induction fuel generalizing start with
  | zero => exact .stopped
  | succ fuel ih =>
    exact .ite ((onward_fatGet _).bind fun _ => (onward_fatSet _ _).bind fun _ => ih _) (.pure _)

theorem onward_clusterReadFrom (lba n i : Nat) (buf : Buffer) :
    Onward (clusterReadFrom s lba n i buf) := by
  induction n generalizing i buf with
  | zero => exact .pure _
  | succ n ih =>
    refine (onward_ataRead _).bind fun r => ?_
    cases r with
    | none => exact .pure _
    | some sector => exact ih _ _

theorem onward_clusterRead (cluster : Nat) : Onward (clusterRead s cluster) :=
  (onward_log _).bind fun _ => Onward.get.bind fun _ => onward_clusterReadFrom _ _ _ _

theorem onward_clusterWriteFrom (lba n i : Nat) (buf : Buffer) :
    Onward (clusterWriteFrom s lba buf n i) := by
  induction n generalizing i with
  | zero => exact .pure _
  | succ n ih => exact (onward_ataWrite _ _).bind fun _ => .ite (.pure _) (ih _)

theorem onward_clusterWrite (cluster : Nat) (buf : Buffer) : Onward (clusterWrite s cluster buf) :=
  (onward_log _).bind fun _ => Onward.get.bind fun _ => onward_clusterWriteFrom _ _ _ _

end Table

section Directory

variable {s : Site}

theorem onward_readdirFrom (dirCluster index fuel cur : Nat) (st : Scan) :
    Onward (readdirFrom dirCluster index fuel cur st) := by
  induction fuel generalizing cur st with
  | zero => exact .stopped
  | succ fuel ih =>
    refine .ite ((onward_clusterRead _).bind fun r => ?_) (.pure _)
    cases r with
    | none => exact .pure _
    | some buf =>
      refine Onward.get.bind fun w => ?_
      split
      · exact .pure _
      · exact .pure _
      · exact (onward_fatGet _).bind fun _ => ih _ _

theorem onward_readdir (fuel dirCluster index : Nat) :
    Onward (fat32Readdir fuel dirCluster index) :=
  Onward.get.bind fun _ => .ite (.pure _) (onward_kmalloc.bind fun _ =>
    .ite (.pure _) (onward_readdirFrom _ _ _ _ _))

theorem onward_findFrom (fuel dirCluster : Nat) (name : List UInt8) (n i : Nat) :
    Onward (findFrom fuel dirCluster name n i) := by
  induction n generalizing i with
  | zero => exact .stopped
  | succ n ih =>
    refine (onward_readdir _ _ _).bind fun r => ?_
    cases r with
    | error e => exact .pure _
    | ok e => exact .ite (ih _) (.ite (.pure _) (ih _))

theorem onward_find (fuel dirCluster : Nat) (name : List UInt8) :
    Onward (fat32Find fuel dirCluster name) := onward_findFrom _ _ _ _ _

theorem onward_rmdirScan (fuel cluster n i : Nat) : Onward (rmdirScan fuel cluster n i) := by
  induction n generalizing i with
  | zero => exact .stopped
  | succ n ih =>
    refine (onward_readdir _ _ _).bind fun r => ?_
    cases r with
    | error e => exact .pure _
    | ok e => exact .ite (ih _) (.pure _)

theorem onward_walkTo (n cur : Nat) : Onward (walkTo s n cur) := by
  induction n generalizing cur with
  | zero => exact .pure _
  | succ n ih => exact (onward_fatGet _).bind fun _ => .ite (.pure _) (ih _)

theorem onward_editSlot (dirCluster rawIdx : Nat) (edit : Buffer → Nat → Buffer) :
    Onward (editSlot s dirCluster rawIdx edit) := by
  refine Onward.get.bind fun w => (onward_walkTo _ _).bind fun r => ?_
  cases r with
  | none => exact .pure _
  | some cur =>
    refine onward_kmalloc.bind fun _ => .ite (.pure _) ((onward_clusterRead _).bind fun r => ?_)
    cases r with
    | none => exact .pure _
    | some buf => exact (onward_clusterWrite _ _).bind fun _ => .pure _

theorem onward_writeDirEntryFrom (slot : List UInt8) (fuel cur rawIdx : Nat) :
    Onward (writeDirEntryFrom slot fuel cur rawIdx) := by
  induction fuel generalizing cur rawIdx with
  | zero => exact .stopped
  | succ fuel ih =>
    refine .ite ((onward_clusterRead _).bind fun r => ?_) (.pure _)
    cases r with
    | none => exact .pure _
    | some buf =>
      refine Onward.get.bind fun w => ?_
      split
      · exact (onward_clusterWrite _ _).bind fun _ => .pure _
      · exact (onward_fatGet _).bind fun _ => .ite (onward_fatAllocCluster.bind fun _ =>
          .ite (.pure _) ((onward_clusterWrite _ _).bind fun _ => (onward_fatSet _ _).bind fun _ =>
            ih _ _)) (ih _ _)

end Directory

section File

theorem onward_skipClusters (n cluster : Nat) : Onward (skipClusters n cluster) := by
  induction n generalizing cluster with
  | zero => exact .pure _
  | succ n ih => exact .ite ((onward_fatGet _).bind fun _ => ih _) (.pure _)

theorem onward_readLoop (fuel cluster clustOff size : Nat) (got : List UInt8) :
    Onward (readLoop fuel cluster clustOff size got) := by
  induction fuel generalizing cluster clustOff size got with
  | zero => exact .stopped
  | succ fuel ih =>
    refine .ite ((onward_clusterRead _).bind fun r => ?_) (.pure _)
    cases r with
    | none => exact .pure _
    | some buf => exact Onward.get.bind fun _ => (onward_fatGet _).bind fun _ => ih _ _ _ _

theorem onward_nextOrNew (cur : Nat) : Onward (nextOrNew cur) :=
  (onward_fatGet _).bind fun _ => .ite (onward_fatAllocCluster.bind fun _ =>
    .ite (.pure _) ((onward_fatSet _ _).bind fun _ => .pure _)) (.pure _)

theorem onward_seekOrGrow (n cur : Nat) : Onward (seekOrGrow n cur) := by
  induction n generalizing cur with
  | zero => exact .pure _
  | succ n ih =>
    refine (onward_nextOrNew _).bind fun r => ?_
    cases r with
    | none => exact .pure _
    | some next => exact ih _

theorem onward_writeLoop (fuel cluster clustOff : Nat) (data : List UInt8) (written : Nat) :
    Onward (writeLoop fuel cluster clustOff data written) := by
  induction fuel generalizing cluster clustOff data written with
  | zero => exact .stopped
  | succ fuel ih =>
    refine .ite (.pure _) ((onward_clusterRead _).bind fun r => ?_)
    cases r with
    | none => exact .pure _
    | some buf =>
      refine Onward.get.bind fun w => (onward_clusterWrite _ _).bind fun _ =>
        .ite (.pure _) (.ite (.pure _) ((onward_nextOrNew _).bind fun r => ?_))
      cases r with
      | none => exact .pure _
      | some next => exact ih _ _ _ _

end File

end Fat32
