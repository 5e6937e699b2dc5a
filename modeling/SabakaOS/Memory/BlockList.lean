import Mathlib.Tactic.Ring
import SabakaOS.Memory.Heap

namespace Heap

open Word ByteMemory

section Headers

variable {m : Memory} {b c v : Nat}

theorem header_eq (m : Memory) (hb : b + 20 ≤ 2 ^ 32) : header m b =
    { size := readLE m 4 b
      free := m (b + 4) != 0
      next := readLE m 4 (b + 8)
      prev := readLE m 4 (b + 12)
      magic := readLE m 4 (b + 16) } := by
  rw [header, u32_of_lt (by omega), u32_of_lt (by omega), u32_of_lt (by omega),
    u32_of_lt (by omega), u32_of_lt (by omega)]

theorem header_congr {m' : Memory} (hc : c + 20 ≤ 2 ^ 32)
    (h : ∀ k, c ≤ k → k < c + 20 → m' k = m k) : header m' c = header m c := by
  rw [header_eq m' hc, header_eq m hc, h (c + 4) (by omega) (by omega),
    readLE_congr (fun k h1 h2 => h k (by omega) (by omega)),
    readLE_congr (fun k h1 h2 => h k (by omega) (by omega)),
    readLE_congr (fun k h1 h2 => h k (by omega) (by omega)),
    readLE_congr (fun k h1 h2 => h k (by omega) (by omega))]

theorem header_setSize (hb : b + 20 ≤ 2 ^ 32) (hv : v < 2 ^ 32) :
    header (setSize m b v) b = { header m b with size := v } := by
  rw [header_eq _ hb, header_eq _ hb, setSize, u32_of_lt (by omega), read_write_same,
    Nat.mod_eq_of_lt (by omega), writeLE_of_not_mem _ _ _ _ (by omega),
    read_write_disjoint _ _ (by omega), read_write_disjoint _ _ (by omega),
    read_write_disjoint _ _ (by omega)]

theorem header_setNext (hb : b + 20 ≤ 2 ^ 32) (hv : v < 2 ^ 32) :
    header (setNext m b v) b = { header m b with next := v } := by
  rw [header_eq _ hb, header_eq _ hb, setNext, u32_of_lt (by omega), read_write_same,
    Nat.mod_eq_of_lt (by omega), writeLE_of_not_mem _ _ _ _ (by omega),
    read_write_disjoint _ _ (by omega), read_write_disjoint _ _ (by omega),
    read_write_disjoint _ _ (by omega)]

theorem header_setPrev (hb : b + 20 ≤ 2 ^ 32) (hv : v < 2 ^ 32) :
    header (setPrev m b v) b = { header m b with prev := v } := by
  rw [header_eq _ hb, header_eq _ hb, setPrev, u32_of_lt (by omega), read_write_same,
    Nat.mod_eq_of_lt (by omega), writeLE_of_not_mem _ _ _ _ (by omega),
    read_write_disjoint _ _ (by omega), read_write_disjoint _ _ (by omega),
    read_write_disjoint _ _ (by omega)]

theorem header_setMagic (hb : b + 20 ≤ 2 ^ 32) (hv : v < 2 ^ 32) :
    header (setMagic m b v) b = { header m b with magic := v } := by
  rw [header_eq _ hb, header_eq _ hb, setMagic, u32_of_lt (by omega), read_write_same,
    Nat.mod_eq_of_lt (by omega), writeLE_of_not_mem _ _ _ _ (by omega),
    read_write_disjoint _ _ (by omega), read_write_disjoint _ _ (by omega),
    read_write_disjoint _ _ (by omega)]

theorem header_setFree (hb : b + 20 ≤ 2 ^ 32) (f : Bool) :
    header (setFree m b f) b = { header m b with free := f } := by
  rw [header_eq _ hb, header_eq _ hb, setFree, u32_of_lt (by omega), Function.update_self,
    read_update_disjoint _ _ (by omega), read_update_disjoint _ _ (by omega),
    read_update_disjoint _ _ (by omega), read_update_disjoint _ _ (by omega)]
  cases f with
  | false => rfl
  | true => rfl

def Apart (b c : Nat) : Prop := b + 20 ≤ c ∨ c + 20 ≤ b

theorem setSize_apart (hb : b + 20 ≤ 2 ^ 32) (hc : c + 20 ≤ 2 ^ 32) (h : Apart b c) :
    header (setSize m b v) c = header m c := by
  refine header_congr hc (fun k h1 h2 => ?_)
  rw [setSize, u32_of_lt (by omega), writeLE_of_not_mem _ _ _ _ (by unfold Apart at h; omega)]

theorem setNext_apart (hb : b + 20 ≤ 2 ^ 32) (hc : c + 20 ≤ 2 ^ 32) (h : Apart b c) :
    header (setNext m b v) c = header m c := by
  refine header_congr hc (fun k h1 h2 => ?_)
  rw [setNext, u32_of_lt (by omega), writeLE_of_not_mem _ _ _ _ (by unfold Apart at h; omega)]

theorem setPrev_apart (hb : b + 20 ≤ 2 ^ 32) (hc : c + 20 ≤ 2 ^ 32) (h : Apart b c) :
    header (setPrev m b v) c = header m c := by
  refine header_congr hc (fun k h1 h2 => ?_)
  rw [setPrev, u32_of_lt (by omega), writeLE_of_not_mem _ _ _ _ (by unfold Apart at h; omega)]

theorem setMagic_apart (hb : b + 20 ≤ 2 ^ 32) (hc : c + 20 ≤ 2 ^ 32) (h : Apart b c) :
    header (setMagic m b v) c = header m c := by
  refine header_congr hc (fun k h1 h2 => ?_)
  rw [setMagic, u32_of_lt (by omega), writeLE_of_not_mem _ _ _ _ (by unfold Apart at h; omega)]

theorem setFree_apart (hb : b + 20 ≤ 2 ^ 32) (hc : c + 20 ≤ 2 ^ 32) (h : Apart b c) (f : Bool) :
    header (setFree m b f) c = header m c := by
  refine header_congr hc (fun k h1 h2 => ?_)
  rw [setFree, u32_of_lt (by omega), Function.update_of_ne (by unfold Apart at h; omega)]

theorem header_writeHeader {h : Header} (hb : b + 20 ≤ 2 ^ 32) (hs : h.size < 2 ^ 32)
    (hn : h.next < 2 ^ 32) (hp : h.prev < 2 ^ 32) (hm : h.magic < 2 ^ 32) :
    header (writeHeader m b h) b = h := by
  rw [writeHeader, header_setMagic hb hm, header_setPrev hb hp, header_setNext hb hn,
    header_setFree hb, header_setSize hb hs]

theorem writeHeader_apart {h : Header} (hb : b + 20 ≤ 2 ^ 32) (hc : c + 20 ≤ 2 ^ 32)
    (hd : Apart b c) : header (writeHeader m b h) c = header m c := by
  rw [writeHeader, setMagic_apart hb hc hd, setPrev_apart hb hc hd, setNext_apart hb hc hd,
    setFree_apart hb hc hd, setSize_apart hb hc hd]

end Headers

structure Block where
  addr : Nat
  size : Nat
  free : Bool

def Tiles : Nat → List Block → Nat → Prop
  | a, [], e => a = e
  | a, b :: l, e => b.addr = a ∧ Tiles (a + sizeofBlock + b.size) l e

def headAddr (n : Nat) : List Block → Nat
  | [] => n
  | b :: _ => b.addr

def lastAddr (p : Nat) : List Block → Nat
  | [] => p
  | b :: l => lastAddr b.addr l

def Linked (m : Memory) : Nat → List Block → Nat → Prop
  | _, [], _ => True
  | p, b :: l, n =>
    header m b.addr =
        { size := b.size, free := b.free, next := headAddr n l, prev := p, magic := heapMagic } ∧
      Linked m b.addr l n

def Spread (l : List Block) : Prop := l.IsChain (fun x y => ¬(x.free = true ∧ y.free = true))

def usedSize (l : List Block) : Nat := (l.map (fun b => if b.free then 0 else b.size)).sum

def freeSize (l : List Block) : Nat := (l.map (fun b => if b.free then b.size else 0)).sum

section Lists

variable {a e p n : Nat} {b : Block} {l l1 l2 : List Block} {m m' : Memory}

theorem tiles_append : Tiles a (l1 ++ l2) e ↔ ∃ d, Tiles a l1 d ∧ Tiles d l2 e := by
  induction l1 generalizing a with
  | nil => simp [Tiles]
  | cons b l ih => simp [Tiles, ih, and_assoc]

theorem Tiles.le (h : Tiles a l e) : a ≤ e := by
  induction l generalizing a with
  | nil => exact h.le
  | cons b l ih =>
    have := ih h.2
    omega

theorem Tiles.bounds (h : Tiles a l e) : ∀ b ∈ l, a ≤ b.addr ∧ b.addr + 20 + b.size ≤ e := by
  induction l generalizing a with
  | nil => exact fun _ hb => absurd hb (by simp)
  | cons c l ih =>
    intro b hb
    obtain ⟨hc, hl⟩ := h
    rw [sizeofBlock] at hl
    rcases List.mem_cons.mp hb with rfl | hb
    · exact ⟨hc.ge, by rw [hc]; exact hl.le⟩
    · have := ih hl b hb
      omega

theorem freeSize_cons :
    freeSize (b :: l) = (if b.free then b.size else 0) + freeSize l := by
  simp [freeSize]

theorem usedSize_cons :
    usedSize (b :: l) = (if b.free then 0 else b.size) + usedSize l := by
  simp [usedSize]

theorem Tiles.total (h : Tiles a l e) :
    e = a + (freeSize l + usedSize l + sizeofBlock * l.length) := by
  induction l generalizing a with
  | nil => exact h.symm
  | cons b l ih =>
    rw [ih h.2, freeSize_cons, usedSize_cons, List.length_cons, Nat.mul_succ]
    cases b.free with
    | false =>
      simp only [Bool.false_eq_true, if_false]
      omega
    | true =>
      simp only [if_true]
      omega

theorem headAddr_append : headAddr n (l1 ++ l2) = headAddr (headAddr n l2) l1 := by
  cases l1 with
  | nil => rfl
  | cons b l => rfl

theorem linked_append :
    Linked m p (l1 ++ l2) n ↔ Linked m p l1 (headAddr n l2) ∧ Linked m (lastAddr p l1) l2 n := by
  induction l1 generalizing p with
  | nil => simp [Linked, lastAddr]
  | cons b l ih => simp only [List.cons_append, Linked, headAddr_append, ih, lastAddr, and_assoc]

theorem Linked.congr (h : Linked m p l n) (hc : ∀ b ∈ l, header m' b.addr = header m b.addr) :
    Linked m' p l n := by
  induction l generalizing p with
  | nil => trivial
  | cons b l ih =>
    exact ⟨(hc b (by simp)).trans h.1, ih h.2 (fun c hm => hc c (by simp [hm]))⟩

-- A list met after its predecessor moved from p to p'.
theorem Linked.reprev {p' : Nat} (h : Linked m p l n)
    (hh : ∀ b ∈ l.head?, header m' b.addr = { header m b.addr with prev := p' })
    (hc : ∀ b ∈ l.tail, header m' b.addr = header m b.addr) : Linked m' p' l n := by
  cases l with
  | nil => trivial
  | cons b l =>
    refine ⟨?_, h.2.congr hc⟩
    rw [hh b rfl, h.1]

end Lists

end Heap
