import SabakaOS.Fat32.FileContents
import SabakaOS.Fat32.Divisors
import SabakaOS.Fat32.FaultTolerance
import SabakaOS.Vfs.Node

namespace Fat32

open Word ByteMemory Prog Chain

-- The int that fat32_read returns: an error, or the number of bytes copied.
def readResult : Except Int (List UInt8) → Int
  | .error e => e
  | .ok bytes => (BitVec.ofNat 32 bytes.length).toInt

theorem readResult_ok {bytes : List UInt8} (h : bytes.length < 2 ^ 32) :
    readResult (.ok bytes) = bytes.length ↔ bytes.length < 2 ^ 31 := by
  change (BitVec.ofNat 32 bytes.length).toInt = _ ↔ _
  rw [BitVec.toInt_ofNat', Int.bmod_def]
  split
  · omega
  · omega

theorem Keeps.runs {α : Type} {p : Drv α} (h : Keeps p) (w : World) :
    Runs p w (fun _ w' => w'.mount = w.mount) (fun _ => True) := by
  have hmount := h w
  unfold Runs
  split
  · next hp => rwa [hp] at hmount
  · trivial

section Loop

variable {E : Env} {w : World} {l : List Nat} {c d fuel j m n off size : Nat} {got : List UInt8}

theorem readLoop_grows : Runs (readLoop fuel c off size got) w
    (fun r _ => ∀ bytes, r = .ok bytes → got.length ≤ bytes.length) (fun _ => True) := by
  induction fuel generalizing w c off size got with
  | zero => exact Runs.stopped trivial
  | succ fuel ih =>
    unfold readLoop
    split
    · refine (runs_any _ _).bind fun r w1 _ => ?_
      cases r with
      | none => exact Runs.pure fun bytes h => by cases h
      | some buf =>
        refine Runs.get_bind ((runs_any _ _).bind fun next w2 _ => ?_)
        refine (ih (w := w2)).mono (fun r _ h bytes hr => ?_) (fun _ h => h)
        exact le_trans (by rw [List.length_append]; omega) (h bytes hr)
    · exact Runs.pure fun bytes h => by cases h; exact le_rfl

theorem readLoop_longer (hbpc : 0 < w.mount.bytesPerClust ∧ w.mount.bytesPerClust < 2 ^ 32)
    (hsize : 0 < size) (hc : 2 ≤ c ∧ c < fat32Eof) : Runs (readLoop fuel c 0 size got) w
    (fun r _ => ∀ bytes, r = .ok bytes → got.length < bytes.length) (fun _ => True) := by
  cases fuel with
  | zero => exact Runs.stopped trivial
  | succ fuel =>
    unfold readLoop
    rw [if_pos ⟨hsize, hc⟩]
    refine ((onward_clusterRead _).keeps.runs _).bind fun r w1 hm1 => ?_
    cases r with
    | none => exact Runs.pure fun bytes h => by cases h
    | some buf =>
      refine Runs.get_bind ((runs_any _ _).bind fun next w2 _ => ?_)
      refine readLoop_grows.mono (fun r _ h bytes hr => ?_) (fun _ h => h)
      refine lt_of_lt_of_le ?_ (h bytes hr)
      rw [hm1, sub32_of_le hbpc.2 (Nat.zero_le _), List.length_append, readBytes_length]
      split
      · omega
      · omega

-- A read that asks for at least the rest of the clusters l copies it and goes on at the link after
-- them.
theorem readLoop_through {Q : Except Int (List UInt8) → World → Prop} {S : World → Prop}
    (hE : E.Lawful) (hq : E.Quiet) (hg : Good E w) (hopen : E.Opens .read l)
    (hl : Link E.clusters (E.vol w) m d l) (hc : l[j]? = some c)
    (hoff : off < E.mount.bytesPerClust)
    (hsize : l.length * E.mount.bytesPerClust ≤ j * E.mount.bytesPerClust + off + size)
    (hzero : ∀ w', fuel ≤ size → S w')
    (hrest : ∀ w' fuel', Step E w w' → (fuel' = 0 → fuel ≤ size) →
      Runs (readLoop fuel' m 0
        (size - (l.length * E.mount.bytesPerClust - (j * E.mount.bytesPerClust + off)))
        (got ++ readBytes (fileByte E.mount.bytesPerClust (E.vol w) l)
          (l.length * E.mount.bytesPerClust - (j * E.mount.bytesPerClust + off))
          (j * E.mount.bytesPerClust + off))) w' Q S) :
    Runs (readLoop fuel c off size got) w Q S := by
  have hbpc := bpc_bounds hE.fits
  induction fuel generalizing w c j off size got with
  | zero => exact Runs.stopped (hzero w (Nat.zero_le _))
  | succ fuel ih =>
    have hj := (List.getElem?_eq_some_iff.mp hc).1
    have hmul : (j + 1) * E.mount.bytesPerClust = j * E.mount.bytesPerClust +
        E.mount.bytesPerClust := Nat.succ_mul ..
    have hlmul : (j + 1) * E.mount.bytesPerClust ≤ l.length * E.mount.bytesPerClust :=
      Nat.mul_le_mul_right _ hj
    refine readLoop_turn hE hq hg hopen hl hc (by omega) hoff fun w2 next hs2 hv2 hnext => ?_
    have hvol2 : E.vol w2 = E.vol w := E.vol_congr hv2
    rw [Nat.min_eq_right (by omega)]
    rcases hnext with ⟨hget, -⟩ | ⟨hlen, rfl⟩
    · refine ih (j := j + 1) hs2.good (hvol2 ▸ hl) hget hbpc.1 (by omega)
        (fun w' h => hzero w' (by omega)) fun w3 fuel' hs3 hfuel => ?_
      have hsum : size - (E.mount.bytesPerClust - off) - (l.length * E.mount.bytesPerClust -
          ((j + 1) * E.mount.bytesPerClust + 0)) =
          size - (l.length * E.mount.bytesPerClust - (j * E.mount.bytesPerClust + off)) := by
        omega
      have hpos : (j + 1) * E.mount.bytesPerClust + 0 =
          j * E.mount.bytesPerClust + off + (E.mount.bytesPerClust - off) := by omega
      have hlen : l.length * E.mount.bytesPerClust - (j * E.mount.bytesPerClust + off) =
          (E.mount.bytesPerClust - off) + (l.length * E.mount.bytesPerClust -
            ((j + 1) * E.mount.bytesPerClust + 0)) := by omega
      have hrun := hrest w3 fuel' (hs2.trans hs3) fun h => by have := hfuel h; omega
      rw [hsum, hvol2, List.append_assoc]
      rw [hlen, readBytes_append, ← hpos] at hrun
      rwa [← hlen] at hrun
    · have hlen' : l.length * E.mount.bytesPerClust - (j * E.mount.bytesPerClust + off) =
          E.mount.bytesPerClust - off := by
        rw [hlen]
        omega
      have hrun := hrest w2 fuel hs2 fun h => by omega
      rwa [hlen'] at hrun

end Loop

-- The bytes of the file from off on, size of them or as many as there are, and their number; a RAM
-- file with the same bytes is read alike.
structure ReadsFile (file : Nat → UInt8) (e : Fat32Entry) (off size : Nat)
    (r : Except Int (List UInt8)) : Prop where
  value : readResult r = ((min size (e.size - off) : Nat) : Int)
  copied : r = .ok (readBytes file (min size (e.size - off)) off)
  ram : ∀ v p b, (v.nodes p).type = .file → (v.nodes p).size = e.size →
    (v.nodes p).data = some (.bytes b) → (∀ k < e.size, b k = file k) →
    Vfs.ramfsRead v (some p) off size = r

theorem ramfsRead_file {v : Vfs.NodeStore} {p : Vfs.Ptr} {b file : Nat → UInt8} {n off size : Nat}
    (htype : (v.nodes p).type = .file) (hn : (v.nodes p).size = n)
    (hdata : (v.nodes p).data = some (.bytes b)) (hb : ∀ k < n, b k = file k) :
    Vfs.ramfsRead v (some p) off size = .ok (readBytes file (min size (n - off)) off) := by
  unfold Vfs.ramfsRead
  simp only [htype, hn, hdata, ne_eq, not_true_eq_false, if_false]
  split
  · next hpast =>
    rw [Nat.sub_eq_zero_of_le hpast, Nat.min_zero]
    rfl
  · have hcut : (if n - off < size then n - off else size) = min size (n - off) := by
      split
      · omega
      · omega
    rw [hcut]
    exact congrArg _ (readBytes_congr fun k h1 h2 => (hb k (by omega)).symm).symm

theorem readsFile_ok {file : Nat → UInt8} {e : Fat32Entry} {off size : Nat}
    (hlt : min size (e.size - off) < 2 ^ 31) :
    ReadsFile file e off size (.ok (readBytes file (min size (e.size - off)) off)) := by
  refine ⟨?_, rfl, fun v p b htype hn hdata hb => ramfsRead_file htype hn hdata hb⟩
  rw [(readResult_ok (by rw [readBytes_length]; omega)).mpr (by rwa [readBytes_length]),
    readBytes_length]

section Clamp

variable {N m fuel off size : Nat} {w w' : World} {e : Fat32Entry} {l : List Nat}
  {r : Except Int (List UInt8)}

theorem ReadsFile.small {file : Nat → UInt8} (h : ReadsFile file e off size r)
    (hsize : size < 2 ^ 32) : min size (e.size - off) < 2 ^ 31 := by
  obtain ⟨hvalue, rfl, -⟩ := h
  have hlen := readBytes_length file (min size (e.size - off)) off
  have hres := (readResult_ok (by rw [hlen]; omega)).mp (hvalue.trans (by rw [hlen]))
  rwa [hlen] at hres

theorem unclamped (hwrap : 2 ^ 32 ≤ off + size) (hsize : size < 2 ^ 32) (hoff : off < e.size)
    (he : e.size < 2 ^ 32) :
    (if e.size < u32 (off + size) then e.size - off else size) = size := by
  refine if_neg ?_
  unfold u32
  omega

theorem read_wrapped_ends (hm : MountedAt N w) (hcalm : Calm w)
    (hc : (worldEnv N w anyRule).Clusters (volume N w) m e l)
    (ha : hasAttr e.attr attrDirectory = false) (he : e.size < 2 ^ 32) (hsize : size < 2 ^ 32)
    (hfuel : size < fuel) (hwrap : 2 ^ 32 ≤ off + size) (hoff : off < e.size)
    (hroom : l.length * w.mount.bytesPerClust = e.size) (hstop : ¬(2 ≤ m ∧ m < fat32Eof)) :
    ∃ w', fat32Read fuel e off size w = (some (.ok (readBytes
      (fileByte w.mount.bytesPerClust (volume N w) l) (e.size - off) off)), w') := by
  have hg := hm.good (legal_any w.trace)
  have hbpc := bpc_bounds hm.lawful.fits
  have hdiv := Nat.div_add_mod' off w.mount.bytesPerClust
  have hruns : Runs (fat32Read fuel e off size) w (fun r _ => r = .ok (readBytes
      (fileByte w.mount.bytesPerClust (volume N w) l) (e.size - off) off)) (fun _ => False) := by
    refine fat32Read_seek hm.lawful hcalm.quiet hg loose_any.opens hc ha hroom.ge hoff
      (unclamped hwrap hsize hoff he) (by omega) fun w2 c hs2 hv2 hl hc2 => ?_
    have hvol2 : (worldEnv N w anyRule).vol w2 = volume N w := by
      rw [Env.vol, hv2]
      rfl
    refine readLoop_through hm.lawful hcalm.quiet hs2.good loose_any.opens hl hc2
      (Nat.mod_lt _ hbpc.1) ?_ (fun _ h => by omega) fun w3 fuel' hs3 hfuel' => ?_
    · change l.length * w.mount.bytesPerClust ≤ off / w.mount.bytesPerClust *
        w.mount.bytesPerClust + off % w.mount.bytesPerClust + size
      omega
    · change Runs (readLoop fuel' m 0 _ ([] ++ readBytes (fileByte w.mount.bytesPerClust _ l)
        (l.length * w.mount.bytesPerClust - (off / w.mount.bytesPerClust * w.mount.bytesPerClust +
        off % w.mount.bytesPerClust)) (off / w.mount.bytesPerClust * w.mount.bytesPerClust +
        off % w.mount.bytesPerClust))) _ _ _
      rw [hdiv, hroom, hvol2, List.nil_append]
      cases fuel' with
      | zero => exact absurd (hfuel' rfl) (by omega)
      | succ fuel' =>
        unfold readLoop
        rw [if_neg fun h => hstop h.2]
        exact Runs.pure rfl
  obtain ⟨_, w', hrun, rfl⟩ := hruns.ends
  exact ⟨w', hrun⟩

theorem read_wrapped_covers (hm : MountedAt N w) (hcalm : Calm w)
    (hc : (worldEnv N w anyRule).Clusters (volume N w) m e l)
    (ha : hasAttr e.attr attrDirectory = false)
    (hroom : e.size ≤ l.length * w.mount.bytesPerClust) (he : e.size < 2 ^ 32)
    (hsize : size < 2 ^ 32) (hwrap : 2 ^ 32 ≤ off + size) (hoff : off < e.size) :
    Runs (fat32Read fuel e off size) w (fun r _ => ∀ bytes, r = .ok bytes →
      bytes.length = e.size - off → l.length * w.mount.bytesPerClust = e.size ∧
        ¬(2 ≤ m ∧ m < fat32Eof)) (fun _ => True) := by
  have hg := hm.good (legal_any w.trace)
  have hbpc : 0 < w.mount.bytesPerClust ∧ w.mount.bytesPerClust < 2 ^ 32 :=
    bpc_bounds hm.lawful.fits
  have hdiv := Nat.div_add_mod' off w.mount.bytesPerClust
  refine fat32Read_seek hm.lawful hcalm.quiet hg loose_any.opens hc ha hroom hoff
    (unclamped hwrap hsize hoff he) (by omega) fun w2 c hs2 hv2 hl hc2 => ?_
  by_cases hcap : l.length * w.mount.bytesPerClust ≤ off + size
  · refine readLoop_through hm.lawful hcalm.quiet hs2.good loose_any.opens hl hc2
      (Nat.mod_lt _ hbpc.1) ?_ (fun _ _ => trivial) fun w3 fuel' hs3 _ => ?_
    · change l.length * w.mount.bytesPerClust ≤ off / w.mount.bytesPerClust *
        w.mount.bytesPerClust + off % w.mount.bytesPerClust + size
      rwa [hdiv]
    · change Runs (readLoop fuel' m 0 (size - (l.length * w.mount.bytesPerClust -
        (off / w.mount.bytesPerClust * w.mount.bytesPerClust + off % w.mount.bytesPerClust)))
        (_ ++ readBytes _ (l.length * w.mount.bytesPerClust - (off / w.mount.bytesPerClust *
        w.mount.bytesPerClust + off % w.mount.bytesPerClust)) _)) _ _ _
      rw [hdiv, List.nil_append]
      have hmount : w3.mount = w.mount := hs3.good.mount
      by_cases hgoes : 2 ≤ m ∧ m < fat32Eof
      · by_cases hmore : l.length * w.mount.bytesPerClust = off + size
        · refine readLoop_grows.mono (fun r _ h bytes hr hlen => ?_) (fun _ h => h)
          have := h bytes hr
          rw [readBytes_length] at this
          omega
        · refine (readLoop_longer (hmount ▸ hbpc) (by omega) hgoes).mono
            (fun r _ h bytes hr hlen => ?_) (fun _ h => h)
          have := h bytes hr
          rw [readBytes_length] at this
          omega
      · refine readLoop_grows.mono (fun r _ h bytes hr hlen => ⟨?_, hgoes⟩) (fun _ h => h)
        have := h bytes hr
        rw [readBytes_length] at this
        omega
  · refine (readLoop_exact hm.lawful hcalm.quiet hs2.good loose_any.opens hl (.inr hc2)
      (Nat.mod_lt _ hbpc.1) ?_).mono (fun r _ h bytes hr hlen => ?_) (fun _ _ => trivial)
    · change off / w.mount.bytesPerClust * w.mount.bytesPerClust + off % w.mount.bytesPerClust +
        size ≤ l.length * w.mount.bytesPerClust
      omega
    · obtain ⟨-, -, rfl⟩ := h
      obtain rfl := Except.ok.inj hr
      rw [List.nil_append, readBytes_length] at hlen
      omega

end Clamp

theorem fat32_read_clamps_iff {N m fuel off size : Nat} {w : World} {e : Fat32Entry} {l : List Nat}
    (hm : MountedAt N w) (hcalm : Calm w)
    (hc : (worldEnv N w anyRule).Clusters (volume N w) m e l)
    (ha : hasAttr e.attr attrDirectory = false)
    (hroom : e.size ≤ l.length * w.mount.bytesPerClust) (he : e.size < 2 ^ 32)
    (hsize : size < 2 ^ 32) (hfuel : size < fuel) :
    (∃ r w', fat32Read fuel e off size w = (some r, w') ∧
      ReadsFile (fileByte w.mount.bytesPerClust (volume N w) l) e off size r) ↔
    min size (e.size - off) < 2 ^ 31 ∧ (off + size < 2 ^ 32 ∨ e.size ≤ off ∨
      (l.length * w.mount.bytesPerClust = e.size ∧ ¬(2 ≤ m ∧ m < fat32Eof))) := by
  have hg := hm.good (legal_any w.trace)
  constructor
  · rintro ⟨r, w', hrun, h⟩
    refine ⟨h.small hsize, or_iff_not_imp_left.mpr fun hwrap =>
      or_iff_not_imp_left.mpr fun hin => ?_⟩
    rw [Nat.not_lt] at hwrap
    rw [Nat.not_le] at hin
    refine (read_wrapped_covers hm hcalm hc ha hroom he hsize hwrap hin).result hrun _ h.copied ?_
    rw [readBytes_length]
    omega
  · rintro ⟨hlt, hcond⟩
    suffices hrun : ∃ w', fat32Read fuel e off size w = (some (.ok (readBytes
        (fileByte w.mount.bytesPerClust (volume N w) l) (min size (e.size - off)) off)), w') by
      obtain ⟨w', hrun⟩ := hrun
      exact ⟨_, w', hrun, readsFile_ok hlt⟩
    by_cases hpast : e.size ≤ off
    · rw [Nat.sub_eq_zero_of_le hpast, Nat.min_zero]
      exact ⟨w, fat32Read_none hm.lawful hg ha (.inl hpast)⟩
    · by_cases hwrap : off + size < 2 ^ 32
      · obtain ⟨_, w', hrun, -, -, rfl⟩ := ((fat32Read_exact hm.lawful hcalm.quiet hg
          loose_any.opens hc ha hroom hwrap).mono (fun _ _ h => h)
          (fun _ h => absurd h (Nat.not_le.mpr hfuel))).ends
        exact ⟨w', hrun⟩
      · obtain ⟨hcap, hstop⟩ := (hcond.resolve_left hwrap).resolve_left hpast
        rw [show min size (e.size - off) = e.size - off by omega]
        exact read_wrapped_ends hm hcalm hc ha he hsize hfuel (by omega) (by omega) hcap hstop

def fileWorld : World := diskWorld fileDisk (fun _ _ _ => true)

theorem file_clusters {n : Nat} : (worldEnv 5 fileWorld anyRule).Clusters (volume 5 fileWorld)
    fat32Eof { fileEntry with size := n } [3] := by
  rw [Env.Clusters, if_neg (show ¬fileEntry.cluster = 0 by decide)]
  exact ⟨show Valid 5 3 by decide, file_chain⟩

theorem fat32_read_clamps_file : ∃ r w', fat32Read 6 fileEntry 0 5 fileWorld = (some r, w') ∧
    ReadsFile (fileByte fileWorld.mount.bytesPerClust (volume 5 fileWorld) [3]) fileEntry 0 5 r :=
  (fat32_read_clamps_iff (disk_mounted ..) ⟨fun _ _ _ => rfl, fun _ _ => rfl⟩
    file_clusters (by decide) (by decide) (by decide) (by decide) (by decide)).mpr
    ⟨by decide, .inl (by decide)⟩

def shortEntry : Fat32Entry := { fileEntry with size := 2 }

-- From the second byte of two on, 2 ^ 32 - 1 bytes.
theorem fat32_read_past_end : ¬∀ (N m off size : Nat) (w : World) (e : Fat32Entry) (l : List Nat),
    MountedAt N w → Calm w → (worldEnv N w anyRule).Clusters (volume N w) m e l →
    hasAttr e.attr attrDirectory = false → e.size ≤ l.length * w.mount.bytesPerClust →
    e.size < 2 ^ 32 → off < 2 ^ 32 → size < 2 ^ 32 →
    ∃ r w', fat32Read (2 ^ 32) e off size w = (some r, w') ∧
      ReadsFile (fileByte w.mount.bytesPerClust (volume N w) l) e off size r := by
  intro h
  obtain ⟨r, w', hrun, hvalue, -⟩ := h 5 fat32Eof 1 0xFFFFFFFF fileWorld shortEntry [3]
    (disk_mounted ..) ⟨fun _ _ _ => rfl, fun _ _ => rfl⟩ file_clusters
    (by decide) (by decide) (by decide) (by decide) (by decide)
  have hread : (fat32Read (2 ^ 32) shortEntry 1 0xFFFFFFFF fileWorld).1.map readResult =
      some 511 := by decide +kernel
  rw [hrun, Option.map_some, hvalue] at hread
  exact absurd hread (by decide)

end Fat32
