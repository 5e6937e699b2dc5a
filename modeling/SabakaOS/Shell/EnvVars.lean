import Mathlib.Data.Finset.Card
import SabakaOS.Fat32.ShortNames
import SabakaOS.Library.Fold
import SabakaOS.Library.SlotTable

namespace EnvVars

open Fat32 SlotTable

-- A string whose bytes stay as they are while the table points to it.
abbrev Key := { s : List UInt8 // isCString s }

-- What a value points to; none is the null pointer.
abbrev Value := Option (List UInt8)

def envVarMax : Nat := 32

structure EnvVar where
  key : Key
  value : Value

-- vars goes on behind the array, where a store past its end ends up.
-- used records the indices with which the array is accessed.
structure EnvTable where
  vars : Nat → EnvVar
  envCount : Nat
  used : List Nat

-- The loop over the slots from i on, left of them being below env_count.
def scan (key : Key) (vars : Nat → EnvVar) : Nat → Nat → Option Nat × List Nat
  | 0, _ => (none, [])
  | left + 1, i =>
    if kstrcmp (vars i).key.1 key.1 = 0 then (some i, [i])
    else
      let (found, used) := scan key vars left (i + 1)
      (found, i :: used)

def find (key : Key) (t : EnvTable) : Option Nat × EnvTable :=
  let (found, used) := scan key t.vars t.envCount 0
  (found, { t with used := used ++ t.used })

def envGet (key : Key) (t : EnvTable) : Value × EnvTable :=
  match find key t with
  | (some i, t) => ((t.vars i).value, t)
  | (none, t) => (none, t)

def setValue (t : EnvTable) (i : Nat) (value : Value) : EnvTable :=
  { t with vars := Function.update t.vars i { t.vars i with value := value } }

def envSet (key : Key) (value : Value) (t : EnvTable) : EnvTable :=
  match find key t with
  | (some i, t) => setValue t i value
  | (none, t) =>
    { vars := Function.update t.vars t.envCount { key := key, value := value }
      envCount := t.envCount + 1
      used := t.envCount :: t.used }

def envUnset (key : Key) (t : EnvTable) : EnvTable :=
  match find key t with
  | (some i, t) => setValue t i none
  | (none, t) => t

inductive Call
  | get (key : Key)
  | set (key : Key) (value : Value)
  | unset (key : Key)

def step (t : EnvTable) : Call → EnvTable
  | .get key => (envGet key t).2
  | .set key value => envSet key value t
  | .unset key => envUnset key t

def boot (vars : Nat → EnvVar) : EnvTable := { vars := vars, envCount := 0, used := [] }

def run (vars : Nat → EnvVar) (calls : List Call) : EnvTable := calls.foldl step (boot vars)

-- The value of the latest set, the calls being listed latest first.
def latest : List Call → Key → Value
  | [], _ => none
  | .get _ :: older, x => latest older x
  | .set key value :: older, x => if x = key then value else latest older x
  | .unset key :: older, x => if x = key then none else latest older x

structure EnvLaw (t : EnvTable) (calls : List Call) : Prop where
  bounded : ∀ i ∈ t.used, i < envVarMax
  distinct : ∀ i < t.envCount, ∀ j < t.envCount, (t.vars i).key = (t.vars j).key → i = j
  latest : ∀ key, (envGet key t).1 = latest calls.reverse key

def Call.setKey : Call → Option Key
  | .set key _ => some key
  | _ => none

def setKeys (calls : List Call) : Finset Key := (calls.filterMap Call.setKey).toFinset

section Scan

variable {key : Key} {vars : Nat → EnvVar} {left i j : Nat} {t : EnvTable}

theorem kstrcmp_key {a b : Key} : kstrcmp a.1 b.1 = 0 ↔ a = b :=
  (kstrcmp_eq_zero a.2 b.2).trans Subtype.ext_iff.symm

theorem scan_some (h : (scan key vars left i).1 = some j) :
    j < i + left ∧ (vars j).key = key := by
  induction left generalizing i with
  | zero => cases h
  | succ left ih =>
    rw [scan] at h
    split at h
    · next hk =>
      obtain rfl := Option.some.inj h
      exact ⟨by omega, kstrcmp_key.mp hk⟩
    · obtain ⟨hj, hkey⟩ := ih h
      exact ⟨by omega, hkey⟩

theorem scan_none (h : (scan key vars left i).1 = none) (hi : i ≤ j) (hj : j < i + left) :
    (vars j).key ≠ key := by
  induction left generalizing i with
  | zero => omega
  | succ left ih =>
    rw [scan] at h
    split at h
    · cases h
    · next hk =>
      by_cases he : j = i
      · rw [he]
        exact fun hkey => hk (kstrcmp_key.mpr hkey)
      · exact ih h (by omega) (by omega)

theorem scan_used (h : j ∈ (scan key vars left i).2) : j < i + left := by
  induction left generalizing i with
  | zero => cases h
  | succ left ih =>
    rw [scan] at h
    split at h
    · rw [List.mem_singleton.mp h]
      omega
    · rcases List.mem_cons.mp h with rfl | h
      · omega
      · have := ih h
        omega

end Scan

section Calls

variable {key x : Key} {value : Value} {t : EnvTable} {N i : Nat}

def KeysDistinct (t : EnvTable) : Prop :=
  ∀ i < t.envCount, ∀ j < t.envCount, (t.vars i).key = (t.vars j).key → i = j

def looked (t : EnvTable) (used : List Nat) : EnvTable := { t with used := used ++ t.used }

theorem find_cases (key : Key) (t : EnvTable) :
    ∃ used, (∀ j ∈ used, j < t.envCount) ∧
      ((∃ i < t.envCount, (t.vars i).key = key ∧ find key t = (some i, looked t used)) ∨
        (∀ i < t.envCount, (t.vars i).key ≠ key) ∧ find key t = (none, looked t used)) := by
  refine ⟨(scan key t.vars t.envCount 0).2, fun j hj => by simpa using scan_used hj, ?_⟩
  cases h : (scan key t.vars t.envCount 0).1 with
  | some i =>
    obtain ⟨hi, hkey⟩ := scan_some h
    exact .inl ⟨i, by simpa using hi, hkey, by rw [find, ← h]; rfl⟩
  | none =>
    exact .inr ⟨fun i hi => scan_none h (Nat.zero_le i) (by simpa using hi),
      by rw [find, ← h]; rfl⟩

-- The slots in use as a table of N slots.
def table (N : Nat) (t : EnvTable) : Table N Key Value := fun i =>
  if i < t.envCount then some ((t.vars i).key, (t.vars i).value) else none

theorem table_some {i : Fin N} : table N t i = some (key, value) ↔
    i < t.envCount ∧ (t.vars i).key = key ∧ (t.vars i).value = value := by
  unfold table
  split
  · next h => simp [h]
  · next h => simp [h]

theorem table_distinct (N : Nat) (h : KeysDistinct t) : Distinct (table N t) := by
  intro i j k v w hi hj
  rw [table_some] at hi hj
  exact Fin.ext (h i hi.1 j hj.1 (hi.2.1.trans hj.2.1.symm))

theorem table_absent (h : ∀ i < t.envCount, (t.vars i).key ≠ key) :
    lookup (table N t) key = none :=
  lookup_none.mpr fun i _ hi => h i (table_some.mp hi).1 (table_some.mp hi).2.1

theorem envGet_eq (hd : KeysDistinct t) (hN : t.envCount ≤ N) :
    (envGet key t).1 = (lookup (table N t) key).join := by
  obtain ⟨used, -, ⟨i, hi, hkey, hf⟩ | ⟨hno, hf⟩⟩ := find_cases key t
  · have hslot : table N t ⟨i, hi.trans_le hN⟩ = some (key, (t.vars i).value) :=
      table_some.mpr ⟨hi, hkey, rfl⟩
    rw [envGet, hf, (lookup_some (table_distinct N hd)).mpr ⟨_, hslot⟩]
    rfl
  · rw [envGet, hf, table_absent hno]
    rfl

-- Where a call stores a value: in the slot of the key or behind the last slot in use.
structure Puts (key : Key) (value : Value) (t t' : EnvTable) (i : Nat) : Prop where
  vars : t'.vars = Function.update t.vars i { key := key, value := value }
  place : i < t.envCount ∧ (t.vars i).key = key ∧ t'.envCount = t.envCount ∨
    i = t.envCount ∧ (∀ j < t.envCount, (t.vars j).key ≠ key) ∧ t'.envCount = t.envCount + 1

theorem Puts.lt_iff {t' : EnvTable} (h : Puts key value t t' i) (j : Nat) :
    j < t'.envCount ↔ j = i ∨ j < t.envCount := by
  rcases h.place with ⟨hi, -, hc⟩ | ⟨rfl, -, hc⟩
  · omega
  · omega

theorem Puts.key_at {t' : EnvTable} (h : Puts key value t t' i) (j : Nat) :
    (t'.vars j).key = if j = i then key else (t.vars j).key := by
  rw [h.vars]
  split
  · next hj => rw [hj, Function.update_self]
  · next hj => rw [Function.update_of_ne hj]

theorem Puts.table_eq {t' : EnvTable} (h : Puts key value t t' i) (hi : i < t'.envCount) :
    table t'.envCount t' =
      Function.update (table t'.envCount t) ⟨i, hi⟩ (some (key, value)) := by
  funext j
  by_cases hj : j = ⟨i, hi⟩
  · rw [hj, Function.update_self]
    exact table_some.mpr ⟨hi, by rw [h.vars, Function.update_self], by
      rw [h.vars, Function.update_self]⟩
  · have hne : j.1 ≠ i := fun he => hj (Fin.ext he)
    have hlt := (h.lt_iff j.1).trans (or_iff_right hne)
    rw [Function.update_of_ne hj]
    unfold table
    rw [h.vars, Function.update_of_ne hne]
    simp only [hlt]

theorem Puts.bound {t' : EnvTable} (h : Puts key value t t' i) :
    i < t'.envCount ∧ t.envCount ≤ t'.envCount := by
  rcases h.place with ⟨hi, -, hc⟩ | ⟨rfl, -, hc⟩
  · exact ⟨hc ▸ hi, hc.ge⟩
  · omega

-- No other slot has the key.
theorem Puts.alone {t' : EnvTable} (h : Puts key value t t' i) (hd : KeysDistinct t) {j : Nat}
    (hj : j < t.envCount) (hkey : (t.vars j).key = key) : j = i := by
  rcases h.place with ⟨hi, hk, -⟩ | ⟨-, hno, -⟩
  · exact hd j hj i hi (hkey.trans hk.symm)
  · exact absurd hkey (hno j hj)

theorem Puts.get {t' : EnvTable} (h : Puts key value t t' i) (hd : KeysDistinct t)
    (hd' : KeysDistinct t') (x : Key) :
    (envGet x t').1 = if x = key then value else (envGet x t).1 := by
  obtain ⟨hi, hle⟩ := h.bound
  have htable := table_distinct t'.envCount hd
  have hother : ∀ j ≠ (⟨i, hi⟩ : Fin t'.envCount), ∀ w,
      table t'.envCount t j ≠ some (key, w) := by
    intro j hj w hw
    obtain ⟨hlt, hkey, -⟩ := table_some.mp hw
    exact hj (Fin.ext (h.alone hd hlt hkey))
  rw [envGet_eq hd' le_rfl, h.table_eq hi]
  split
  · next hx =>
    rw [hx, lookup_put_self htable hother]
    rfl
  · next hx =>
    rw [lookup_put_other htable hother hx, envGet_eq hd hle, if_neg]
    intro hfst
    obtain ⟨⟨k, w⟩, hw, rfl⟩ := Option.map_eq_some_iff.mp hfst
    obtain ⟨hlt, hkey, -⟩ := table_some.mp hw
    rcases h.place with ⟨-, hk, -⟩ | ⟨rfl, -, -⟩
    · exact hx (hkey.symm.trans hk)
    · exact absurd hlt (Nat.lt_irrefl _)

theorem Puts.distinct {t' : EnvTable} (h : Puts key value t t' i) (hd : KeysDistinct t) :
    KeysDistinct t' := by
  intro a ha b hb hab
  rw [h.lt_iff] at ha hb
  rw [h.key_at, h.key_at] at hab
  by_cases hai : a = i
  · by_cases hbi : b = i
    · rw [hai, hbi]
    · rw [if_pos hai, if_neg hbi] at hab
      exact absurd (h.alone hd (hb.resolve_left hbi) hab.symm) hbi
  · by_cases hbi : b = i
    · rw [if_neg hai, if_pos hbi] at hab
      exact absurd (h.alone hd (ha.resolve_left hai) hab) hai
    · rw [if_neg hai, if_neg hbi] at hab
      exact hd a (ha.resolve_left hai) b (hb.resolve_left hbi) hab

theorem Puts.keys {t' : EnvTable} (h : Puts key value t t' i) (x : Key) :
    (∃ j < t'.envCount, (t'.vars j).key = x) ↔ x = key ∨ ∃ j < t.envCount, (t.vars j).key = x := by
  constructor
  · rintro ⟨j, hj, hx⟩
    rw [h.key_at] at hx
    split at hx
    · exact .inl hx.symm
    · next hji => exact .inr ⟨j, ((h.lt_iff j).mp hj).resolve_left hji, hx⟩
  · rintro (rfl | ⟨j, hj, hx⟩)
    · exact ⟨i, h.bound.1, by rw [h.key_at, if_pos rfl]⟩
    · refine ⟨j, (h.lt_iff j).mpr (.inr hj), ?_⟩
      rw [h.key_at]
      split
      · next hji =>
        rcases h.place with ⟨-, hk, -⟩ | ⟨rfl, -, -⟩
        · rw [← hx, hji, hk]
        · omega
      · exact hx

theorem envGet_congr {t' : EnvTable} (hv : t'.vars = t.vars) (hc : t'.envCount = t.envCount) :
    (envGet x t').1 = (envGet x t).1 := by
  unfold envGet find
  rw [hv, hc]
  rcases scan x t.vars t.envCount 0 with ⟨found, used⟩
  cases found with
  | some i => rfl
  | none => rfl

theorem setValue_puts (used : List Nat) (hi : i < t.envCount) (hkey : (t.vars i).key = key) :
    Puts key value t (setValue (looked t used) i value) i := by
  subst hkey
  exact ⟨rfl, .inl ⟨hi, rfl, rfl⟩⟩

theorem envGet_absent (h : ∀ i < t.envCount, (t.vars i).key ≠ key) : (envGet key t).1 = none := by
  obtain ⟨used, -, ⟨i, hi, hkey, -⟩ | ⟨-, hf⟩⟩ := find_cases key t
  · exact absurd hkey (h i hi)
  · rw [envGet, hf]

-- Exactly the slots in use have been accessed.
def UsedBelow (t : EnvTable) : Prop := ∀ j, j ∈ t.used ↔ j < t.envCount

theorem looked_used {used : List Nat} (hu : UsedBelow t) (h : ∀ j ∈ used, j < t.envCount) :
    UsedBelow (looked t used) := by
  intro j
  rw [looked, List.mem_append, hu j]
  exact or_iff_right_of_imp (h j)

theorem envSet_puts (key : Key) (value : Value) (hu : UsedBelow t) :
    (∃ i, Puts key value t (envSet key value t) i) ∧ UsedBelow (envSet key value t) := by
  obtain ⟨used, hused, ⟨i, hi, hkey, hf⟩ | ⟨hno, hf⟩⟩ := find_cases key t
  · rw [envSet, hf]
    exact ⟨⟨i, setValue_puts used hi hkey⟩, looked_used hu hused⟩
  · rw [envSet, hf]
    refine ⟨⟨t.envCount, rfl, .inr ⟨rfl, hno, rfl⟩⟩, fun j => ?_⟩
    change j ∈ t.envCount :: (looked t used).used ↔ j < t.envCount + 1
    rw [List.mem_cons, looked_used hu hused j, Nat.lt_succ_iff_lt_or_eq, or_comm]
    rfl

theorem envUnset_puts (key : Key) (hu : UsedBelow t) : UsedBelow (envUnset key t) ∧
    ((∃ i < t.envCount, (t.vars i).key = key ∧ Puts key none t (envUnset key t) i) ∨
      (∀ i < t.envCount, (t.vars i).key ≠ key) ∧ ∃ used, envUnset key t = looked t used) := by
  obtain ⟨used, hused, ⟨i, hi, hkey, hf⟩ | ⟨hno, hf⟩⟩ := find_cases key t
  · rw [envUnset, hf]
    exact ⟨looked_used hu hused, .inl ⟨i, hi, hkey, setValue_puts used hi hkey⟩⟩
  · rw [envUnset, hf]
    exact ⟨looked_used hu hused, .inr ⟨hno, used, rfl⟩⟩

theorem envGet_looked (key : Key) (hu : UsedBelow t) :
    ∃ used, (envGet key t).2 = looked t used ∧ UsedBelow (looked t used) := by
  obtain ⟨used, hused, ⟨i, -, -, hf⟩ | ⟨-, hf⟩⟩ := find_cases key t
  · exact ⟨used, by rw [envGet, hf], looked_used hu hused⟩
  · exact ⟨used, by rw [envGet, hf], looked_used hu hused⟩

end Calls

section Runs

structure Inv (t : EnvTable) (calls : List Call) : Prop where
  distinct : KeysDistinct t
  used : UsedBelow t
  keys : ∀ x, (∃ i < t.envCount, (t.vars i).key = x) ↔ x ∈ setKeys calls
  latest : ∀ x, (envGet x t).1 = latest calls.reverse x

variable {t : EnvTable} {calls : List Call} {vars : Nat → EnvVar}

theorem setKeys_snoc (calls : List Call) (c : Call) (x : Key) :
    x ∈ setKeys (calls ++ [c]) ↔ c.setKey = some x ∨ x ∈ setKeys calls := by
  simp only [setKeys, List.filterMap_append, List.toFinset_append, Finset.mem_union,
    List.mem_toFinset, List.mem_filterMap, List.mem_singleton, exists_eq_left]
  exact or_comm

theorem Inv.looked (h : Inv t calls) {used : List Nat} (hu : UsedBelow (EnvVars.looked t used)) :
    Inv (EnvVars.looked t used) calls :=
  ⟨h.distinct, hu, h.keys, fun x => (@envGet_congr x t (EnvVars.looked t used) rfl rfl).trans
    (h.latest x)⟩

theorem Inv.step (h : Inv t calls) (c : Call) : Inv (step t c) (calls ++ [c]) := by
  have hlatest (x : Key) : EnvVars.latest (calls ++ [c]).reverse x =
      EnvVars.latest (c :: calls.reverse) x := by rw [List.reverse_append]; rfl
  cases c with
  | get key =>
    obtain ⟨used, he, hu⟩ := envGet_looked key h.used
    have hl := h.looked hu
    rw [EnvVars.step, he]
    refine ⟨hl.distinct, hu, fun x => ?_, fun x => ?_⟩
    · rw [hl.keys, setKeys_snoc]
      simp [Call.setKey]
    · rw [hl.latest, hlatest, EnvVars.latest]
  | set key value =>
    obtain ⟨⟨i, hp⟩, hu⟩ := envSet_puts key value h.used
    have hd := hp.distinct h.distinct
    refine ⟨hd, hu, fun x => ?_, fun x => ?_⟩
    · rw [EnvVars.step, hp.keys, h.keys, setKeys_snoc]
      simp [Call.setKey, eq_comm]
    · rw [EnvVars.step, hp.get h.distinct hd, h.latest, hlatest, EnvVars.latest]
  | unset key =>
    obtain ⟨hu, ⟨i, hi, hkey, hp⟩ | ⟨hno, used, he⟩⟩ := envUnset_puts key h.used
    · have hd := hp.distinct h.distinct
      refine ⟨hd, hu, fun x => ?_, fun x => ?_⟩
      · have hin : key ∈ setKeys calls := (h.keys key).mp ⟨i, hi, hkey⟩
        have hold : x = key ∨ x ∈ setKeys calls ↔ x ∈ setKeys calls :=
          or_iff_right_of_imp fun hx => hx ▸ hin
        rw [EnvVars.step, hp.keys, h.keys, hold, setKeys_snoc]
        simp [Call.setKey]
      · rw [EnvVars.step, hp.get h.distinct hd, h.latest, hlatest, EnvVars.latest]
    · rw [he] at hu
      have hl := h.looked hu
      rw [EnvVars.step, he]
      refine ⟨hl.distinct, hu, fun x => ?_, fun x => ?_⟩
      · rw [hl.keys, setKeys_snoc]
        simp [Call.setKey]
      · rw [hl.latest, hlatest, EnvVars.latest]
        split
        · next hx => rw [hx, ← h.latest, envGet_absent hno]
        · rfl

theorem run_inv (vars : Nat → EnvVar) (calls : List Call) : Inv (run vars calls) calls := by
  induction calls using List.reverseRecOn with
  | nil =>
    refine ⟨fun i hi => ?_, fun j => ?_, fun x => ?_, fun x => rfl⟩
    · exact absurd hi (Nat.not_lt_zero i)
    · exact iff_of_false List.not_mem_nil (Nat.not_lt_zero j)
    · exact iff_of_false (fun ⟨i, hi, _⟩ => Nat.not_lt_zero i hi) (Finset.notMem_empty x)
  | append_singleton calls c ih =>
    rw [run, Fold.snoc]
    exact ih.step c

-- There is one slot for each key that has been set.
theorem Inv.count (h : Inv t calls) : t.envCount = (setKeys calls).card := by
  have himage : setKeys calls = (Finset.range t.envCount).image fun i => (t.vars i).key := by
    ext x
    rw [← h.keys]
    simp
  rw [himage, Finset.card_image_of_injOn, Finset.card_range]
  intro i hi j hj he
  exact h.distinct i (by simpa using hi) j (by simpa using hj) he

theorem Inv.law_iff (h : Inv t calls) : EnvLaw t calls ↔ (setKeys calls).card ≤ envVarMax := by
  rw [← h.count]
  constructor
  · intro hlaw
    by_contra hlt
    have := hlaw.bounded envVarMax ((h.used _).mpr (Nat.lt_of_not_le hlt))
    exact Nat.lt_irrefl _ this
  · exact fun hle => ⟨fun i hi => ((h.used i).mp hi).trans_le hle, h.distinct, h.latest⟩

theorem env_law_iff (vars : Nat → EnvVar) (calls : List Call) :
    (∀ pre, pre <+: calls → EnvLaw (run vars pre) pre) ↔ (setKeys calls).card ≤ envVarMax := by
  constructor
  · intro h
    exact (run_inv vars calls).law_iff.mp (h calls List.prefix_rfl)
  · intro h pre hpre
    have hsub : setKeys pre ⊆ setKeys calls := by
      obtain ⟨rest, rfl⟩ := hpre
      intro x hx
      rw [setKeys, List.filterMap_append, List.toFinset_append]
      exact Finset.mem_union_left _ hx
    exact (run_inv vars pre).law_iff.mpr ((Finset.card_le_card hsub).trans h)

-- The i-th key is the letter a, i + 1 times.
def keyOf (i : Nat) : Key :=
  ⟨List.replicate (i + 1) 97, fun c hc => by rw [List.eq_of_mem_replicate hc]; decide⟩

def thirtyThree : List Call := (List.range 33).map fun i => .set (keyOf i) none

theorem env_table_overrun :
    ¬∀ pre, pre <+: thirtyThree → EnvLaw (run (fun _ => ⟨keyOf 0, none⟩) pre) pre := by
  intro h
  have hinv := run_inv (fun _ => ⟨keyOf 0, none⟩) thirtyThree
  have hcount : (run (fun _ => ⟨keyOf 0, none⟩) thirtyThree).envCount = 33 := by
    rw [hinv.count]
    decide +kernel
  have hused := (hinv.used 32).mpr (by
    rw [hcount]
    decide)
  exact Nat.lt_irrefl 32 ((h thirtyThree List.prefix_rfl).bounded 32 hused)

end Runs

end EnvVars
