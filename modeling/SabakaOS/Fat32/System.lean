import SabakaOS.Fat32.Operations

namespace Fat32

open Word ByteMemory Prog Chain

inductive Op where
  | create (dirCluster : Nat) (name : List UInt8)
  | mkdir (dirCluster : Nat) (name : List UInt8)
  | write (entry : Fat32Entry) (data : List UInt8) (offset : Nat)
  | unlink (entry : Fat32Entry)
  | rmdir (entry : Fat32Entry)
  | rename (entry : Fat32Entry) (newDirCluster : Nat) (newName : List UInt8)

def codeOf {α : Type} : Except Int α → Int
  | .ok _ => fat32Ok
  | .error e => e

-- An operation and the number it returns, fat32_write's being that of the bytes written.
def Op.run (fuel : Nat) : Op → Drv Int
  | .create d name => do
    let r ← fat32Create fuel d name
    pure (codeOf r)
  | .mkdir d name => do
    let r ← fat32Mkdir fuel d name
    pure (codeOf r)
  | .write e data offset => do
    let r ← fat32Write fuel e data offset
    pure r.1
  | .unlink e => fat32Unlink fuel e
  | .rmdir e => fat32Rmdir fuel e
  | .rename e d name => do
    let r ← fat32Rename fuel e d name
    pure r.1

-- The directories named exist and the entries passed are up to date.
def Op.Valid (m : Mount) (N : Nat) (V : Vol) : Op → Prop
  | .create d _ => IsDir m N V (dirHead m d)
  | .mkdir d _ => IsDir m N V (dirHead m d)
  | .write e _ _ => Current m N V e
  | .unlink e => Current m N V e
  | .rmdir e => Current m N V e
  | .rename e d _ => Current m N V e ∧ IsDir m N V (dirHead m d)

-- Every cluster the operation may come to allocate lies within the volume.
def Op.Roomy (E : Env) (V : Vol) : Op → Prop
  | .create d name => ∀ l, Link E.clusters V fat32Eof (dirHead E.mount d) l →
      E.Taken V d name l ∨ E.HasSlot V l ∨ Room E.limit E.clusters V 1
  | .mkdir d name => ∀ l, Link E.clusters V fat32Eof (dirHead E.mount d) l →
      E.Taken V d name l ∨ E.MkdirRoom V l
  | .write e data offset =>
      hasAttr e.attr attrDirectory = false → E.WriteRoom V e offset data.length
  | .unlink _ => True
  | .rmdir _ => True
  | .rename _ d _ => ∀ l, Link E.clusters V fat32Eof (dirHead E.mount d) l →
      E.HasSlot V l ∨ Room E.limit E.clusters V 1

-- The failures the operation survives: none where it allocates or clears a cluster, where it
-- stores an entry that it would have to take back, or where it drops one it has already freed.
def Op.Safe (E : Env) (V : Vol) : Op → Prop
  | .create d name => ∀ l, Link E.clusters V fat32Eof (dirHead E.mount d) l →
      E.Taken V d name l ∨ E.HasSlot V l ∨
        (¬E.fatFails .alloc ∧ ¬E.ataFails .extendDir .clusterWrite)
  | .mkdir d name => ∀ l, Link E.clusters V fat32Eof (dirHead E.mount d) l →
      E.Taken V d name l ∨ E.MkdirSafe V l
  | .write e data offset =>
      hasAttr e.attr attrDirectory = false → E.WriteSteady V e offset data.length
  | .unlink e => e.cluster = 0 ∨ ¬E.deleteFails e.dirIndex
  | .rmdir e => e.cluster = 0 ∨ ¬E.deleteFails e.dirIndex
  | .rename e d _ =>
      (∀ l, Link E.clusters V fat32Eof (dirHead E.mount d) l → E.HasSlot V l ∨
        (¬E.fatFails .alloc ∧ ¬E.ataFails .extendDir .clusterWrite)) ∧
      (e.cluster = 0 ∨ (¬E.deleteFails e.dirIndex ∧ ¬E.ataFails .writeDirEntry .clusterWrite))

def Op.bytes : Op → Nat
  | .write _ data _ => data.length
  | _ => 0

section

variable {E : Env} {w : World} {fuel : Nat} {α : Type}

theorem code_runs {p : Drv α} {f : α → Int} {Q T : World → Prop}
    (h : Runs p w (fun _ w' => Q w') T) :
    Runs (do
      let r ← p
      pure (f r)) w (fun _ w' => Q w') T :=
  h.bind (fun _ _ hq => Runs.pure hq)

theorem Op.run_sound (hE : E.Lawful) (hg : Good E w) (hloose : E.Loose) (op : Op)
    (hc : Consistent E.mount E.clusters (E.vol w)) (hv : op.Valid E.mount E.clusters (E.vol w))
    (hroom : op.Roomy E (E.vol w)) (hsafe : op.Safe E (E.vol w)) :
    Runs (op.run fuel) w (fun _ w' => Step E w w' ∧ Consistent E.mount E.clusters (E.vol w'))
      (fun w' => Good E w' ∧ fuel ≤ E.turns + op.bytes) := by
  obtain ⟨D, H, hs⟩ := hc
  have hN := hE.fits.small
  have hle : ∀ w', Good E w' ∧ fuel ≤ E.turns → Good E w' ∧ fuel ≤ E.turns + op.bytes :=
    fun w' h => ⟨h.1, by omega⟩
  cases op with
  | create d name =>
    have hd := hs.isDir hN hv
    obtain ⟨l, hl⟩ := hs.chain (hs.dirs hd)
    have hgrow : E.Taken (E.vol w) d name l ∨ E.HasSlot (E.vol w) l ∨ E.CanGrow (E.vol w) := by
      rcases hroom l hl with h | h | h
      · exact .inl h
      · exact .inr (.inl h)
      · exact (hsafe l hl).imp_right (Or.imp_right (fun hno => ⟨h, hno⟩))
    exact code_runs ((fat32Create_sound hE hg hloose hs hd hl hgrow).mono (fun _ _ h => h) hle)
  | mkdir d name =>
    have hd := hs.isDir hN hv
    obtain ⟨l, hl⟩ := hs.chain (hs.dirs hd)
    have hboth : E.Taken (E.vol w) d name l ∨
        (E.MkdirRoom (E.vol w) l ∧ E.MkdirSafe (E.vol w) l) := by
      rcases hroom l hl with h | h
      · exact .inl h
      · exact (hsafe l hl).imp_right (fun hno => ⟨h, hno⟩)
    exact code_runs ((fat32Mkdir_sound hE hg hloose hs hd hl hboth).mono (fun _ _ h => h) hle)
  | write e data offset =>
    obtain ⟨hd, l, x, he⟩ := hv
    exact code_runs ((fat32Write_sound hE hg hloose hs (hs.isDir hN hd) he hsafe hroom).mono
      (fun _ _ h => ⟨h.1, D, h.2⟩) (fun w' h => ⟨h.1, h.2.trans (Nat.le_add_left ..)⟩))
  | unlink e =>
    obtain ⟨hd, l, x, he⟩ := hv
    exact (fat32Unlink_sound hE hg hloose hs hd he hsafe).mono (fun _ _ h => h) hle
  | rmdir e =>
    obtain ⟨hd, l, x, he⟩ := hv
    exact (fat32Rmdir_sound hE hg hloose hs hd he hsafe).mono (fun _ _ h => h) hle
  | rename e d name =>
    obtain ⟨⟨hd, l, x, he⟩, hd'⟩ := hv
    have hd' := hs.isDir hN hd'
    obtain ⟨l', hl'⟩ := hs.chain (hs.dirs hd')
    have hgrow : E.HasSlot (E.vol w) l' ∨ E.CanGrow (E.vol w) := by
      rcases hroom l' hl' with h | h
      · exact .inl h
      · exact (hsafe.1 l' hl').imp_right (fun hno => ⟨h, hno⟩)
    exact code_runs ((fat32Rename_sound hE hg hloose hs (hs.isDir hN hd) he hd' hl' hgrow
      hsafe.2 name).mono (fun _ _ h => h) hle)

end

end Fat32
