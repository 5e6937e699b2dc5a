import SabakaOS.Library.Fold
import SabakaOS.Library.Word

namespace Rtl

open Word

def rtlIntRok : Nat := 0x0001

def rtlIntRxovw : Nat := 0x0010

def rtlIntFovw : Nat := 0x0040

def rtlRxBufSize : Nat := 32 * 1024 + 16 + 1500

-- The four bytes in front of a packet in the ring.
structure RxHeader where
  h0 : UInt8
  h1 : UInt8
  h2 : UInt8
  h3 : UInt8

namespace RxHeader

def rxStatus (h : RxHeader) : Nat := h.h0.toNat ||| (h.h1.toNat <<< 8)

def rxLen (h : RxHeader) : Nat := h.h2.toNat ||| (h.h3.toNat <<< 8)

end RxHeader

-- rxCb says whether a callback is set and rxBufTail is what was last written to RTL_REG_RXBUFTAIL.
-- touched records the start and the length of every range of s_rx_buf that is read or handed on.
structure Card where
  present : Bool
  rxCb : Bool
  rxPtr : Nat
  rxBufTail : Nat
  touched : List (Nat × Nat)

def powerOn : Card where
  present := false
  rxCb := false
  rxPtr := 0
  rxBufTail := 0
  touched := []

def rxRestart (c : Card) : Card := { c with rxPtr := 0, rxBufTail := 0xFFF0 }

-- ok says whether the card was found and every buffer obtained.
def rtl8139Init (ok : Bool) (c : Card) : Card :=
  if ok then { rxRestart c with present := true } else { c with present := false }

def rtl8139SetRxCallback (cb : Bool) (c : Card) : Card := { c with rxCb := cb }

def capr (ptr : Nat) : Nat := if ptr ≥ 16 then u16 (ptr - 16) else u16 (32 * 1024 - 16 + ptr)

def readHeader (c : Card) : Card := { c with touched := (c.rxPtr, 4) :: c.touched }

def deliver (c : Card) (h : RxHeader) : Card :=
  if h.rxStatus &&& 0x0001 ≠ 0 ∧ c.rxCb then
    { c with touched := (c.rxPtr + 4, u16 (h.rxLen - 4)) :: c.touched }
  else c

def advance (c : Card) (h : RxHeader) : Card :=
  let ptr := (u32 (c.rxPtr + h.rxLen + 4 + 3) &&& 0xFFFFFFFC) % (32 * 1024)
  { c with rxPtr := ptr, rxBufTail := capr ptr }

-- The loop over the packets: one header for each time the card says that the ring is not empty.
def rxLoop : List RxHeader → Card → Card
  | [], c => c
  | h :: hs, c =>
    let c := readHeader c
    if h.rxLen < 4 ∨ h.rxLen > 1518 + 4 then rxRestart c
    else rxLoop hs (advance (deliver c h) h)

def rtl8139IrqHandler (status : Nat) (hs : List RxHeader) (c : Card) : Card :=
  if ¬c.present then c
  else if status &&& (rtlIntRxovw ||| rtlIntFovw) ≠ 0 then rxRestart c
  else if status &&& rtlIntRok ≠ 0 then rxLoop hs c
  else c

inductive Event where
  | init (ok : Bool)
  | setRxCallback (cb : Bool)
  | irq (status : Nat) (hs : List RxHeader)

def step (c : Card) : Event → Card
  | .init ok => rtl8139Init ok c
  | .setRxCallback cb => rtl8139SetRxCallback cb c
  | .irq status hs => rtl8139IrqHandler status hs c

def run (evs : List Event) : Card := evs.foldl step powerOn

structure Aligned (c : Card) : Prop where
  four : c.rxPtr % 4 = 0
  below : c.rxPtr < 32 * 1024

def Inside (c : Card) : Prop := ∀ r ∈ c.touched, r.1 + r.2 ≤ rtlRxBufSize

-- The packet that begins in the last four bytes of the ring must not be one of the two longest.
def PacketFits (c : Card) (h : RxHeader) : Prop :=
  c.rxPtr = 32764 → h.rxStatus &&& 0x0001 ≠ 0 → c.rxCb = true → h.rxLen ≠ 1521 ∧ h.rxLen ≠ 1522

def LoopFits : List RxHeader → Card → Prop
  | [], _ => True
  | h :: hs, c => PacketFits c h ∧
    (4 ≤ h.rxLen ∧ h.rxLen ≤ 1522 → LoopFits hs (advance (deliver (readHeader c) h) h))

def Fits (c : Card) : Event → Prop
  | .irq status hs =>
    c.present = true → status &&& (rtlIntRxovw ||| rtlIntFovw) = 0 → status &&& rtlIntRok ≠ 0 →
      LoopFits hs c
  | _ => True

section Loop

variable {c d : Card} {h : RxHeader} {hs : List RxHeader}

theorem Aligned.le (hc : Aligned c) : c.rxPtr ≤ 32764 := by
  obtain ⟨hfour, hbelow⟩ := hc
  omega

theorem aligned_restart (c : Card) : Aligned (rxRestart c) := ⟨rfl, show 0 < 32768 by decide⟩

theorem advance_rxPtr (c : Card) (h : RxHeader) :
    (advance c h).rxPtr = u32 (c.rxPtr + h.rxLen + 4 + 3) / 4 * 4 % 32768 := by
  unfold advance
  dsimp only
  rw [show 0xFFFFFFFC = (2 ^ 30 - 1) * 2 ^ 2 by decide, and_highBits 30 2 (u32_lt _)]
  rfl

theorem advance_aligned (c : Card) (h : RxHeader) : Aligned (advance c h) := by
  constructor
  · rw [advance_rxPtr]
    omega
  · rw [advance_rxPtr]
    exact Nat.mod_lt _ (by decide)

theorem rxLoop_aligned (hc : Aligned c) (hs : List RxHeader) : Aligned (rxLoop hs c) := by
  induction hs generalizing c with
  | nil => exact hc
  | cons h hs ih =>
    unfold rxLoop
    dsimp only
    split
    · exact aligned_restart _
    · exact ih (advance_aligned _ h)

theorem Inside.of_subset (h : c.touched ⊆ d.touched) (hd : Inside d) : Inside c :=
  fun r hr => hd r (h hr)

theorem deliver_touched (c : Card) (h : RxHeader) : c.touched ⊆ (deliver c h).touched := by
  unfold deliver
  split
  · exact List.subset_cons_self ..
  · exact List.Subset.refl _

-- What has been touched stays on record.
theorem rxLoop_touched (hs : List RxHeader) (c : Card) : c.touched ⊆ (rxLoop hs c).touched := by
  induction hs generalizing c with
  | nil => exact List.Subset.refl _
  | cons h hs ih =>
    have hread : c.touched ⊆ (readHeader c).touched := List.subset_cons_self ..
    unfold rxLoop
    dsimp only
    split
    · exact hread
    · have hdeliver := List.Subset.trans hread (deliver_touched _ h)
      exact List.Subset.trans hdeliver (ih (advance (deliver (readHeader c) h) h))

theorem inside_readHeader (hc : Aligned c) (hin : Inside c) : Inside (readHeader c) := by
  intro r hr
  rcases List.mem_cons.mp hr with rfl | hr
  · have hle := hc.le
    show c.rxPtr + 4 ≤ 34284
    omega
  · exact hin r hr

theorem inside_deliver_iff (hc : Aligned c) (hin : Inside c) (hlow : 4 ≤ h.rxLen)
    (hhigh : h.rxLen ≤ 1522) : Inside (deliver c h) ↔ PacketFits c h := by
  have hle := hc.le
  have hlen : u16 (h.rxLen - 4) = h.rxLen - 4 := u16_of_lt (by omega)
  unfold deliver PacketFits
  split
  · rename_i hcall
    have hranges : Inside { c with touched := (c.rxPtr + 4, u16 (h.rxLen - 4)) :: c.touched } ↔
        c.rxPtr + h.rxLen ≤ 34284 := by
      rw [hlen]
      constructor
      · intro hall
        have hlast : c.rxPtr + 4 + (h.rxLen - 4) ≤ 34284 := hall _ List.mem_cons_self
        omega
      · intro hend r hr
        rcases List.mem_cons.mp hr with rfl | hr
        · show c.rxPtr + 4 + (h.rxLen - 4) ≤ 34284
          omega
        · exact hin r hr
    -- 32764 is the last place a packet can begin at, and 4 bytes before it is room for both.
    rw [hranges]
    have hfour := hc.four
    constructor
    · intro hend hptr _ _
      omega
    · intro hfits
      by_cases hptr : c.rxPtr = 32764
      · have hnot := hfits hptr hcall.1 hcall.2
        omega
      · omega
  · rename_i hcall
    exact iff_of_true hin fun _ hok hcb => absurd ⟨hok, hcb⟩ hcall

theorem rxLoop_inside_iff (hc : Aligned c) (hin : Inside c) :
    Inside (rxLoop hs c) ↔ LoopFits hs c := by
  induction hs generalizing c with
  | nil => exact iff_of_true hin trivial
  | cons h hs ih =>
    have hread := inside_readHeader hc hin
    have hc' : Aligned (readHeader c) := ⟨hc.four, hc.below⟩
    unfold rxLoop LoopFits
    dsimp only
    split
    · rename_i hbad
      refine iff_of_true hread ⟨fun _ _ _ => ⟨by omega, by omega⟩, fun hlen => by omega⟩
    · rename_i hgood
      have hlen : 4 ≤ h.rxLen ∧ h.rxLen ≤ 1522 := by omega
      have hpacket : Inside (deliver (readHeader c) h) ↔ PacketFits c h :=
        inside_deliver_iff hc' hread hlen.1 hlen.2
      by_cases hfits : PacketFits c h
      · have hrest := ih (advance_aligned (deliver (readHeader c) h) h)
          (hpacket.mpr hfits : Inside (deliver (readHeader c) h))
        rw [hrest]
        exact ⟨fun hloop => ⟨hfits, fun _ => hloop⟩, fun hloop => hloop.2 hlen⟩
      · refine iff_of_false (fun hall => hfits (hpacket.mp ?_)) fun hloop => hfits hloop.1
        exact Inside.of_subset (rxLoop_touched hs (advance (deliver (readHeader c) h) h)) hall

end Loop

section Events

variable {c : Card} {ev : Event}

theorem step_aligned (hc : Aligned c) (ev : Event) : Aligned (step c ev) := by
  cases ev with
  | init ok => cases ok with
    | false => exact ⟨hc.four, hc.below⟩
    | true => exact ⟨rfl, show 0 < 32768 by decide⟩
  | setRxCallback cb => exact ⟨hc.four, hc.below⟩
  | irq status hs =>
    show Aligned (rtl8139IrqHandler status hs c)
    unfold rtl8139IrqHandler
    split_ifs
    · exact aligned_restart c
    · exact rxLoop_aligned hc hs
    · exact hc
    · exact hc

theorem step_inside_iff (hc : Aligned c) (hin : Inside c) : Inside (step c ev) ↔ Fits c ev := by
  cases ev with
  | init ok => cases ok with
    | false => exact iff_of_true hin trivial
    | true => exact iff_of_true hin trivial
  | setRxCallback cb => exact iff_of_true hin trivial
  | irq status hs =>
    show Inside (rtl8139IrqHandler status hs c) ↔ Fits c (.irq status hs)
    unfold rtl8139IrqHandler Fits
    split_ifs with hpresent hover hok
    · exact iff_of_true hin fun _ h => absurd h hover
    · rw [rxLoop_inside_iff hc hin]
      exact ⟨fun h _ _ _ => h, fun h => h hpresent (not_not.mp hover) hok⟩
    · exact iff_of_true hin fun _ _ h => absurd h hok
    · exact iff_of_true hin fun h => absurd h hpresent

end Events

theorem rx_inside_iff (evs : List Event) :
    (∀ pre, pre <+: evs → Aligned (run pre) ∧ Inside (run pre)) ↔
      ∀ pre ev, pre ++ [ev] <+: evs → Fits (run pre) ev := by
  refine Fold.good_iff_fits (fun c => Aligned c ∧ Inside c) evs ?_ ?_ ?_ fun _ h => h
  · exact ⟨⟨rfl, show 0 < 32768 by decide⟩, fun _ h => by cases h⟩
  · intro c ev ⟨hc, hin⟩ hfits
    exact ⟨step_aligned hc ev, (step_inside_iff hc hin).mpr hfits⟩
  · intro c ev ⟨hc, hin⟩ hnot h
    exact hnot ((step_inside_iff hc hin).mp h.2)

def packet (len : Nat) : RxHeader := ⟨1, 0, UInt8.ofNat len, UInt8.ofNat (len / 256)⟩

-- Twenty-one packets of 1517 bytes and one of 753 take s_rx_ptr to 32764.
def longPacketLast : List Event :=
  [.init true, .setRxCallback true,
    .irq 0x0001 (List.replicate 21 (packet 1517) ++ [packet 753, packet 1522])]

theorem rx_beyond : ¬∀ pre, pre <+: longPacketLast → Aligned (run pre) ∧ Inside (run pre) := by
  intro hall
  have hlast : (32768, 1518) ∈ (run longPacketLast).touched := by
    decide +kernel
  have hend := (hall _ List.prefix_rfl).2 _ hlast
  exact absurd hend (by decide)

end Rtl
