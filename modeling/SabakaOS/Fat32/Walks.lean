import SabakaOS.Fat32.Primitives
import SabakaOS.Fat32.Consistency

namespace Fat32

open Word ByteMemory Prog Chain

def Event.site : Event → Option (Site × Nat)
  | .fatGet s c => some (s, c)
  | .fatSet s c _ => some (s, c)
  | .clusterRead s c => some (s, c)
  | .clusterWrite s c => some (s, c)
  | .alloc _ _ => none
  | .sectorWrite _ _ => none

-- At s the rule allows any access to the clusters in l and to those allocated by then.
def Env.Opens (E : Env) (s : Site) (l : List Nat) : Prop :=
  ∀ t e x, e.site = some (s, x) → (x ∈ l ∨ .alloc x 0 ∈ t) → E.rule t e

-- The rule says nothing of reads, writes and table accesses as such.
def Env.Loose (E : Env) : Prop := ∀ t e, e.site ≠ none → E.rule t e

def Env.limit (E : Env) : Nat := E.sectorCount / E.mount.sectorsPerClust

section Table

variable {E : Env} {w : World} {s : Site} {c e n fuel : Nat} {l : List Nat}

theorem Env.Loose.opens (h : E.Loose) : E.Opens s l :=
  fun t e x he _ => h t e (by rw [he]; exact Option.some_ne_none _)

theorem Env.Opens.mono {l' : List Nat} (h : E.Opens s l) (hs : ∀ x ∈ l', x ∈ l) : E.Opens s l' :=
  fun t e x he hx => h t e x he (hx.imp_left (hs x))

theorem Env.Opens.of_mem (h : E.Opens s l) (hc : c ∈ l) {t : List Event} {e : Event}
    (he : e.site = some (s, c)) : E.rule t e :=
  h t e c he (.inl hc)

theorem Env.Opens.at (h : E.Opens s l) {t t' : List Event} (hc : c ∈ l ∨ .alloc c 0 ∈ t)
    (ht : t <:+ t') {e : Event} (he : e.site = some (s, c)) : E.rule t' e :=
  h t' e c he (hc.imp_right (fun hm => ht.subset hm))

theorem fatAllocCluster_runs (hE : E.Lawful) (hg : Good E w) (hfail : ¬E.fatFails .alloc)
    (hroom : Room E.limit E.clusters (E.vol w) 1) :
    Runs fatAllocCluster w (fun r w' => Step E w w' ∧
      ((r = 0 ∧ view w' = view w ∧ spare E.limit E.clusters (E.vol w) = 0) ∨
        (r ≠ 0 ∧ E.ok r ∧ r < E.limit ∧ (E.vol w).fat r = 0 ∧ .alloc r 0 ∈ w'.trace ∧
          E.vol w' = (E.vol w).setFat r fat32Eof))) (fun _ => False) := by
  unfold fatAllocCluster
  refine Runs.get_bind ?_
  rw [hg.sectorCount, hg.mount]
  have hlim : E.sectorCount / E.mount.sectorsPerClust = E.limit := rfl
  rw [hlim]
  have hbound := hE.fits.root
  refine (fatAllocFrom_runs hE hg hfail le_rfl ?_).mono ?_ (fun _ he => he)
  · refine hroom.imp (fun h => ?_) (fun h => ?_)
    · unfold Valid at hbound
      omega
    · obtain ⟨x, h1, h2, h3, h4⟩ := exists_spare h
      exact ⟨x, h1, by omega, h3, h4⟩
  · rintro r w1 ⟨hs, ⟨rfl, hv, hnone⟩ | ⟨h1, h2, hok, h3⟩⟩
    · exact ⟨hs, .inl ⟨rfl, hv, spare_eq_zero (fun x h1 h2 => hnone x h1 (by omega))⟩⟩
    · exact ⟨hs, .inr ⟨by omega, hok, by omega, h3⟩⟩

theorem fatFreeChain_stop (hc : ¬(2 ≤ c ∧ c < fat32Eof)) :
    Runs (fatFreeChain fuel c) w (fun _ w' => w' = w) (fun w' => w' = w ∧ fuel = 0) := by
  cases fuel with
  | zero => exact Runs.stopped ⟨rfl, rfl⟩
  | succ fuel =>
    unfold fatFreeChain
    rw [if_neg hc]
    exact Runs.pure rfl

theorem Fits.lt_eof (hf : Fits E.mount E.clusters) (hc : E.ok c) : 2 ≤ c ∧ c < fat32Eof := by
  have h1 := hf.small
  have h2 : 2 ≤ c ∧ c < E.clusters := hc
  unfold fat32Eof
  omega

theorem fatFreeChain_runs (hE : E.Lawful) (hg : Good E w) (hopen : E.Opens .freeChain l)
    (hl : Link E.clusters (E.vol w) fat32Eof c l) :
    Runs (fatFreeChain fuel c) w (fun _ w' => Step E w w' ∧
      (E.vol w').data = (E.vol w).data ∧ (∀ x, x ∉ l → (E.vol w').fat x = (E.vol w).fat x) ∧
      (∀ x ∈ l, (E.vol w').fat x = (E.vol w).fat x ∨ (E.vol w').fat x = 0) ∧
      (¬E.fatFails .freeChain → ∀ x ∈ l, (E.vol w').fat x = 0))
      (fun w' => Good E w' ∧ fuel ≤ l.length) := by
  induction fuel generalizing w c l with
  | zero => exact Runs.stopped ⟨hg, Nat.zero_le _⟩
  | succ fuel ih =>
    cases l with
    | nil =>
      have hstop : ¬(2 ≤ c ∧ c < fat32Eof) := fun h => absurd (show c = fat32Eof from hl) (by omega)
      refine (fatFreeChain_stop hstop).mono ?_ (fun _ he => by cases he.2)
      rintro - w1 rfl
      exact ⟨hg.step, rfl, fun _ _ => rfl, fun x hx => absurd hx (by simp),
        fun _ x hx => absurd hx (by simp)⟩
    | cons x l =>
      have hnodup := hl.nodup (eof_stops hE.fits.small)
      obtain ⟨rfl, hok, hl⟩ := hl
      have hx : x ∉ l := (List.nodup_cons.mp hnodup).1
      have hrule := fun t (e : Event) => hopen.of_mem (List.mem_cons_self ..) (t := t) (e := e)
      unfold fatFreeChain
      rw [if_pos (hE.fits.lt_eof hok)]
      refine (fatGet_runs hE hg hok (hrule _ _ rfl)).then ?_
      rintro next w1 ⟨hs1, hv1, -, hnext⟩
      have hvol1 : E.vol w1 = E.vol w := E.vol_congr hv1
      refine (fatSet_runs hE hs1.good hok (show 0 < 0x10000000 by decide)
        (hrule _ _ rfl)).then ?_
      rintro r w2 ⟨hs2, -, hfail2, hset⟩
      rw [hvol1] at hset
      have hs := hs1.trans hs2
      have hdata2 : (E.vol w2).data = (E.vol w).data := by
        rcases hset with h | ⟨-, h⟩
        · rw [h]
          rfl
        · rw [h]
      have hother : ∀ y, y ≠ x → (E.vol w2).fat y = (E.vol w).fat y := by
        intro y hy
        rcases hset with h | ⟨-, h⟩
        · rw [h]
          exact Function.update_of_ne hy _ _
        · rw [h]
      have hself : (E.vol w2).fat x = (E.vol w).fat x ∨ (E.vol w2).fat x = 0 := by
        rcases hset with h | ⟨-, h⟩
        · rw [h]
          exact .inr (Function.update_self ..)
        · exact .inl (by rw [h])
      rcases hnext with rfl | ⟨rfl, hfail⟩
      · have hl2 : Link E.clusters (E.vol w2) fat32Eof ((E.vol w).fat x) l :=
          hl.congr (fun y hy => hother y (ne_of_mem_of_not_mem hy hx))
        refine (ih hs2.good (hopen.mono (fun y hy => List.mem_cons_of_mem _ hy)) hl2).mono ?_
          (fun w' he => ⟨he.1, by simpa using he.2⟩)
        rintro - w3 ⟨hs3, hdata3, hout3, hin3, hall3⟩
        refine ⟨hs.trans hs3, hdata3.trans hdata2, fun y hy => ?_, fun y hy => ?_,
          fun hno y hy => ?_⟩
        · rw [List.mem_cons, not_or] at hy
          rw [hout3 y hy.2, hother y hy.1]
        · rcases List.mem_cons.mp hy with rfl | hy
          · rw [hout3 y hx]
            exact hself
          · rw [← hother y (ne_of_mem_of_not_mem hy hx)]
            exact hin3 y hy
        · rcases List.mem_cons.mp hy with rfl | hy
          · rw [hout3 y hx]
            rcases hset with h | ⟨hr, -⟩
            · rw [h]
              exact Function.update_self ..
            · exact absurd (hfail2 hr) hno
          · exact hall3 hno y hy
      · -- the table could not be read: the rest of the chain is left as it is
        refine (fatFreeChain_stop (show ¬(2 ≤ 0 ∧ 0 < fat32Eof) by decide)).mono ?_ ?_
        · rintro - w3 rfl
          refine ⟨hs, hdata2, fun y hy => hother y (fun he => hy (he ▸ List.mem_cons_self ..)),
            fun y hy => ?_, fun hno => absurd hfail hno⟩
          by_cases hyx : y = x
          · rw [hyx]
            exact hself
          · exact .inl (hother y hyx)
        · rintro w3 ⟨rfl, rfl⟩
          exact ⟨hs2.good, by simp⟩

theorem walkTo_runs (hE : E.Lawful) (hg : Good E w) (hopen : E.Opens s l) (hc : E.ok c)
    (hl : Link E.clusters (E.vol w) e c l) (he : ¬E.ok e) (hn : n < l.length ∨ e = fat32Eof) :
    Runs (walkTo s n c) w (fun r w' => Step E w w' ∧ view w' = view w ∧
      (r = l[n]? ∨ (r = none ∧ 0 < n ∧ E.fatFails s))) (fun _ => False) := by
  induction n generalizing w c l with
  | zero =>
    cases l with
    | nil => exact absurd (show c = e from hl) (fun h => he (h ▸ hc))
    | cons x l => exact Runs.pure ⟨hg.step, rfl, .inl (by rw [hl.1]; rfl)⟩
  | succ n ih =>
    cases l with
    | nil => exact absurd (show c = e from hl) (fun h => he (h ▸ hc))
    | cons x l =>
      obtain ⟨rfl, -, hl⟩ := hl
      unfold walkTo
      refine (fatGet_runs hE hg hc (hopen.of_mem (List.mem_cons_self ..) rfl)).then ?_
      rintro next w1 ⟨hs1, hv1, -, hnext⟩
      have hvol1 : E.vol w1 = E.vol w := E.vol_congr hv1
      rcases hnext with rfl | ⟨rfl, hfail⟩
      · cases l with
        | nil =>
          have hend : (E.vol w).fat x = e := hl
          have hnone : e = fat32Eof := hn.resolve_left (by simp)
          rw [hend, hnone, if_pos (by decide)]
          exact Runs.pure ⟨hs1, hv1, .inl rfl⟩
        | cons y l =>
          have hok := hl.2.1
          have hlt := hE.fits.lt_eof hok
          rw [if_neg (by omega)]
          refine (ih hs1.good (hopen.mono (fun z hz => List.mem_cons_of_mem _ hz)) hok
            (hvol1 ▸ hl) (hn.imp_left (fun h => by simpa using h))).mono ?_ (fun _ h => h)
          rintro r w2 ⟨hs2, hv2, hr⟩
          exact ⟨hs1.trans hs2, hv2.trans hv1, hr.imp_right (fun h => ⟨h.1, Nat.succ_pos n, h.2.2⟩)⟩
      · rw [if_pos (by decide)]
        exact Runs.pure ⟨hs1, hv1, .inr ⟨rfl, Nat.succ_pos n, hfail⟩⟩

end Table

-- A change to slot i only, byte by byte.
structure SlotEdit (i : Nat) (g : Buffer → Buffer) : Prop where
  outside : ∀ b j, ¬(32 * i ≤ j ∧ j < 32 * i + 32) → g b j = b j
  bytes : ∀ b b' j, b j = b' j → g b j = g b' j

theorem writeLE_bytes {b b' : Buffer} {j : Nat} (h : b j = b' j) (n a v : Nat) :
    writeLE b n a v j = writeLE b' n a v j := by
  induction n generalizing a v with
  | zero => exact h
  | succ n ih =>
    rw [writeLE, writeLE]
    by_cases hj : j = a
    · rw [hj, Function.update_self, Function.update_self]
    · rw [Function.update_of_ne hj, Function.update_of_ne hj]
      exact ih (a + 1) (v / 256)

theorem slotEdit_update (i cluster size : Nat) :
    SlotEdit i (fun b => updateSlot cluster size b i) := by
  refine ⟨fun b j hj => ?_, fun b b' j h => ?_⟩
  · unfold updateSlot
    rw [writeLE_of_not_mem _ _ _ _ (by omega), writeLE_of_not_mem _ _ _ _ (by omega),
      writeLE_of_not_mem _ _ _ _ (by omega)]
  · exact writeLE_bytes (writeLE_bytes (writeLE_bytes h _ _ _) _ _ _) _ _ _

theorem slotEdit_delete (i : Nat) : SlotEdit i (fun b => deleteSlot b i) := by
  refine ⟨fun b j hj => ?_, fun b b' j h => ?_⟩
  · exact Function.update_of_ne (by omega) _ _
  · unfold deleteSlot
    by_cases hj : j = 32 * i
    · rw [hj, Function.update_self, Function.update_self]
    · rw [Function.update_of_ne hj, Function.update_of_ne hj]
      exact h

theorem slotEdit_fill (i : Nat) {slot : List UInt8} (hs : slot.length = 32) :
    SlotEdit i (fun b => writeBytes b (32 * i) slot) := by
  refine ⟨fun b j hj => writeBytes_of_not_mem _ _ _ (by omega), fun b b' j h => ?_⟩
  unfold writeBytes
  rw [h]

section Slots

variable {E : Env} {w : World} {s : Site} {c d e i k x fuel : Nat} {l : List Nat}
  {g : Buffer → Buffer}

-- A slot lies in one sector, so that writing any first part of the cluster stores all of the
-- change or nothing of it.
theorem setData_edit (hE : E.Lawful) (hg : SlotEdit i g)
    (hi : i < entriesPerClust E.mount) {b : Buffer}
    (hb : ∀ j < E.mount.bytesPerClust, b j = (E.vol w).data x j)
    (hk : k ≤ E.mount.sectorsPerClust) :
    ((E.vol w).setData x (fun j => if j < 512 * k then g b j else (E.vol w).data x j) =
      (E.vol w).setData x (g ((E.vol w).data x))) ∨
    (k ≠ E.mount.sectorsPerClust ∧
      (E.vol w).setData x (fun j => if j < 512 * k then g b j else (E.vol w).data x j) =
        E.vol w) := by
  have hbpc := hE.fits.bpc
  have hepc := hE.fits.epc_eq
  have heq : ∀ j < 512 * k, g b j = g ((E.vol w).data x) j := fun j hj =>
    hg.bytes _ _ _ (hb j (by omega))
  by_cases hin : 32 * i + 32 ≤ 512 * k
  · refine .inl (congrArg _ (funext fun j => ?_))
    by_cases hj : j < 512 * k
    · rw [if_pos hj, heq j hj]
    · rw [if_neg hj, hg.outside _ _ (by omega)]
  · refine .inr ⟨by omega, ?_⟩
    have hsame : (fun j => if j < 512 * k then g b j else (E.vol w).data x j) =
        (E.vol w).data x := funext fun j => by
      by_cases hj : j < 512 * k
      · rw [if_pos hj, heq j hj, hg.outside _ _ (by omega)]
      · rw [if_neg hj]
    rw [hsame, Vol.setData, Function.update_eq_self]

theorem clusterWrite_edit (hE : E.Lawful) (hgood : Good E w) (hx : E.ok x) (hg : SlotEdit i g)
    (hi : i < entriesPerClust E.mount) {b : Buffer}
    (hb : ∀ j < E.mount.bytesPerClust, b j = (E.vol w).data x j)
    (hr : E.rule w.trace (.clusterWrite s x)) :
    Runs (clusterWrite s x (g b)) w (fun r w' => Step E w w' ∧
      (E.vol w' = (E.vol w).setData x (g ((E.vol w).data x)) ∨
        (r = false ∧ E.vol w' = E.vol w)) ∧ (r = false → E.ataFails s .clusterWrite))
      (fun _ => False) := by
  refine (clusterWrite_runs hE hgood hx (g b) hr).mono ?_ (fun _ he => he)
  rintro r w1 ⟨hs1, -, k, hk, hvol, hr⟩
  refine ⟨hs1, ?_, fun hf => ?_⟩
  · rw [hvol]
    rcases setData_edit (w := w) (x := x) hE hg hi hb hk with h | ⟨hne, h⟩
    · exact .inl h
    · refine .inr ⟨?_, h⟩
      rcases hr with ⟨-, hfull⟩ | ⟨hrf, -⟩
      · exact absurd hfull hne
      · exact hrf
  · rcases hr with ⟨hrt, -⟩ | ⟨-, hfail⟩
    · rw [hrt] at hf
      cases hf
    · exact hfail

theorem editSlot_runs (hE : E.Lawful) (hgood : Good E w) (hopen : E.Opens s l)
    {dirCluster rawIdx : Nat} (hd : E.ok (dirHead E.mount dirCluster))
    (hl : Link E.clusters (E.vol w) e (dirHead E.mount dirCluster) l) (he : ¬E.ok e)
    (hn : rawIdx / entriesPerClust E.mount < l.length ∨ e = fat32Eof)
    {edit : Buffer → Nat → Buffer}
    (hg : SlotEdit (rawIdx % entriesPerClust E.mount)
      (fun b => edit b (rawIdx % entriesPerClust E.mount))) :
    Runs (editSlot s dirCluster rawIdx edit) w (fun r w' => Step E w w' ∧
      ((∃ x, l[rawIdx / entriesPerClust E.mount]? = some x ∧
        E.vol w' = (E.vol w).setData x
          (edit ((E.vol w).data x) (rawIdx % entriesPerClust E.mount)) ∧
        (r = fat32Ok ∨ E.ataFails s .clusterWrite)) ∨
      (E.vol w' = E.vol w ∧ r ≠ fat32Ok ∧
        (l[rawIdx / entriesPerClust E.mount]? = none ∨
          (0 < rawIdx / entriesPerClust E.mount ∧ E.fatFails s) ∨ E.heapFails s ∨
          E.ataFails s .clusterRead ∨ E.ataFails s .clusterWrite)))) (fun _ => False) := by
  unfold editSlot
  refine Runs.get_bind ?_
  rw [hgood.mount]
  refine (walkTo_runs hE hgood hopen hd hl he hn).then ?_
  rintro r w1 ⟨hs1, hv1, hr⟩
  have hvol1 : E.vol w1 = E.vol w := E.vol_congr hv1
  cases r with
  | none =>
    refine Runs.pure ⟨hs1, .inr ⟨hvol1, by decide, ?_⟩⟩
    rcases hr with hr | ⟨-, hr⟩
    · exact .inl hr.symm
    · exact .inr (.inl hr)
  | some x =>
    have hx : l[rawIdx / entriesPerClust E.mount]? = some x :=
      (hr.resolve_right (fun h => by cases h.1)).symm
    have hmem : x ∈ l := List.mem_of_getElem? hx
    have hok : E.ok x := hl.ok_of_mem x hmem
    refine (kmalloc_runs hs1.good).then ?_
    rintro ok w2 ⟨hs2, hv2, hheap⟩
    have hvol2 : E.vol w2 = E.vol w := by rw [← hvol1, Env.vol, Env.vol, hv2]
    cases ok with
    | false =>
      exact Runs.pure ⟨hs1.trans hs2, .inr ⟨hvol2, by decide, .inr (.inr (.inl (hheap rfl)))⟩⟩
    | true =>
      simp only [Bool.not_true, Bool.false_eq_true, if_false]
      refine (clusterRead_runs hE hs2.good hok (hopen.of_mem hmem rfl)).then ?_
      rintro r w3 ⟨hs3, hv3, -, hbuf⟩
      have hvol3 : E.vol w3 = E.vol w := by rw [← hvol2, Env.vol, Env.vol, hv3]
      have hs := (hs1.trans hs2).trans hs3
      rcases hbuf with ⟨b, rfl, hb⟩ | ⟨rfl, hfail⟩
      · rw [hvol2, ← hvol3] at hb
        refine (clusterWrite_edit hE hs3.good hok hg (Nat.mod_lt _ hE.fits.epc_pos) hb
          (hopen.of_mem hmem rfl)).then ?_
        rintro ok w4 ⟨hs4, hvol4, hfail4⟩
        rw [hvol3] at hvol4
        rcases hvol4 with hvol4 | ⟨rfl, hvol4⟩
        · refine Runs.pure ⟨hs.trans hs4, .inl ⟨x, hx, hvol4, ?_⟩⟩
          cases ok with
          | false => exact .inr (hfail4 rfl)
          | true => exact .inl rfl
        · exact Runs.pure ⟨hs.trans hs4, .inr ⟨hvol4, by decide,
            .inr (.inr (.inr (.inr (hfail4 rfl))))⟩⟩
      · exact Runs.pure ⟨hs, .inr ⟨hvol3, by decide, .inr (.inr (.inr (.inl hfail)))⟩⟩

end Slots

end Fat32
