import Mathlib.Data.List.Basic
import Mathlib.Logic.Function.Basic
import Mathlib.Tactic.Simps.Basic
import SabakaOS.Library.Loop
import SabakaOS.Library.Word

namespace Uhci

open Word

def uhciTdCount : Nat := 32

def stsUsbint : Nat := 1 <<< 0

def tdCsActive : Nat := 1 <<< 23

def tdCsStalled : Nat := 1 <<< 22

def tdCsDbufErr : Nat := 1 <<< 21

def tdCsBabble : Nat := 1 <<< 20

def tdCsIoc : Nat := 1 <<< 24

def tdCsSpd : Nat := 1 <<< 29

def tdCsErrShift : Nat := 27

def tdCsActlenMask : Nat := 0x7FF

def tdTokenPidSetup : Nat := 0x2D

def tdTokenPidIn : Nat := 0x69

def tdTokenPidOut : Nat := 0xE1

def tdTokenToggle (t : UInt8) : Nat := t.toNat <<< 19

def tdTokenMaxlen (n : Int) : Nat := u32 (((n - 1) % 4294967296).toNat <<< 21)

def tdTokenDevaddr (a : UInt8) : Nat := a.toNat <<< 8

def tdTokenEndp (e : UInt8) : Nat := e.toNat <<< 15

-- The links between the descriptors and the addresses of the buffers are left out.
structure Td where
  ctrlSts : Nat
  token : Nat

structure IntPipe where
  active : Bool
  dirIn : Bool
  devAddr : UInt8
  endpoint : UInt8
  maxPacket : UInt8
  toggle : UInt8
  td : Nat
  cb : Bool

structure SetupPacket where
  bmRequestType : UInt8
  bRequest : UInt8
  wValue : UInt16
  wIndex : UInt16
  wLength : UInt16

-- calls records the pipes whose callback is called, with the length that is passed.
structure Host where
  tdPool : Nat → Td
  pipes : Nat → IntPipe
  pipeCount : Nat
  setupBuf : SetupPacket
  calls : List (Nat × UInt8)

def noTd : Td := ⟨0, 0⟩

def noPipe : IntPipe := ⟨false, false, 0, 0, 0, 0, 0, false⟩

def uhciInit : Host where
  tdPool := fun _ => noTd
  pipes := fun _ => noPipe
  pipeCount := 0
  setupBuf := ⟨0, 0, 0, 0, 0⟩
  calls := []

namespace Host

@[simps]
def setTd (u : Host) (i : Nat) (td : Td) : Host :=
  { u with tdPool := Function.update u.tdPool i td }

@[simps]
def setPipe (u : Host) (i : Nat) (p : IntPipe) : Host :=
  { u with pipes := Function.update u.pipes i p }

end Host

-- data says whether the request comes with a buffer.
structure Control where
  addr : UInt8
  setup : SetupPacket
  data : Bool

namespace Control

def dataIn (r : Control) : Bool := r.setup.bmRequestType &&& 0x80 != 0

def setupToken (r : Control) : Nat :=
  tdTokenPidSetup ||| tdTokenDevaddr r.addr ||| tdTokenEndp 0 ||| tdTokenToggle 0 |||
    tdTokenMaxlen 7

def dataToken (r : Control) : Nat :=
  (if r.dataIn then tdTokenPidIn else tdTokenPidOut) ||| tdTokenDevaddr r.addr ||| tdTokenEndp 0 |||
    tdTokenToggle 1 ||| tdTokenMaxlen (r.setup.wLength.toNat - 1)

def statusToken (r : Control) : Nat :=
  (if r.dataIn then tdTokenPidOut else tdTokenPidIn) ||| tdTokenDevaddr r.addr ||| tdTokenEndp 0 |||
    tdTokenToggle 1 ||| tdTokenMaxlen 0x7FF

end Control

def setupTd : Nat := uhciTdCount - 3

def dataTd : Nat := uhciTdCount - 2

def statusTd : Nat := uhciTdCount - 1

def controlSts : Nat := tdCsActive ||| (3 <<< tdCsErrShift)

-- The three descriptors as the controller finds them.
def submit (r : Control) (u : Host) : Host :=
  let u := { u with setupBuf := r.setup }
  let u := u.setTd setupTd ⟨controlSts, r.setupToken⟩
  let u := if r.setup.wLength ≠ 0 ∧ r.data then u.setTd dataTd ⟨controlSts, r.dataToken⟩ else u
  u.setTd statusTd ⟨tdCsActive ||| tdCsIoc ||| (3 <<< tdCsErrShift), r.statusToken⟩

def setCtrlSts (i sts : Nat) (u : Host) : Host := u.setTd i { u.tdPool i with ctrlSts := sts }

def abandon (u : Host) : Host :=
  setCtrlSts statusTd 0 (setCtrlSts dataTd 0 (setCtrlSts setupTd 0 u))

-- left is what the controller leaves in the status words of the three, at the latest after 500 ms.
def uhciControl (r : Control) (left : Nat × Nat × Nat) (u : Host) : Bool × Host :=
  let u := setCtrlSts setupTd left.1 (submit r u)
  let u := setCtrlSts dataTd left.2.1 u
  let u := setCtrlSts statusTd left.2.2 u
  if (u.tdPool statusTd).ctrlSts &&& tdCsActive ≠ 0 then (false, abandon u)
  else if (u.tdPool statusTd).ctrlSts &&& (tdCsStalled ||| tdCsDbufErr ||| tdCsBabble) ≠ 0 then
    (false, abandon u)
  else (true, u)

def pipeToken (p : IntPipe) : Nat :=
  (if p.dirIn then tdTokenPidIn else tdTokenPidOut) ||| tdTokenDevaddr p.devAddr |||
    tdTokenEndp p.endpoint ||| tdTokenToggle p.toggle ||| tdTokenMaxlen (p.maxPacket.toNat - 1)

def intSts : Nat := tdCsActive ||| tdCsIoc ||| tdCsSpd ||| (3 <<< tdCsErrShift)

def uhciRegisterInterrupt (addr endpoint : UInt8) (dirIn : Bool) (maxPacket : UInt8) (cb : Bool)
    (u : Host) : UInt8 × Host :=
  if u.pipeCount ≥ uhciTdCount - 3 then (0, u)
  else
    let idx := u.pipeCount
    let p : IntPipe := {
      active := true
      dirIn := dirIn
      devAddr := addr
      endpoint := endpoint
      maxPacket := maxPacket
      toggle := 0
      td := idx
      cb := cb }
    let u := { u with pipeCount := idx + 1 }.setPipe idx p
    (UInt8.ofNat (idx + 1), u.setTd idx ⟨intSts, pipeToken p⟩)

-- The number of bytes that a length field stands for.
def actualLength (field : Nat) : Nat := (field + 1) &&& tdCsActlenMask

def pollPipe (i : Nat) (u : Host) : Host :=
  let p := u.pipes i
  if ¬p.active then u
  else
    let td := u.tdPool p.td
    if td.ctrlSts &&& tdCsActive ≠ 0 then u
    else
      let actual := actualLength td.ctrlSts
      let whole := td.ctrlSts &&& (tdCsStalled ||| tdCsDbufErr ||| tdCsBabble) = 0
      let u :=
        if whole ∧ actual > 0 ∧ p.cb then { u with calls := (i, UInt8.ofNat actual) :: u.calls }
        else u
      let p := { p with toggle := p.toggle ^^^ 1 }
      (u.setPipe i p).setTd p.td ⟨intSts, pipeToken p⟩

def uhciIrqHandler (sts : Nat) (u : Host) : Host :=
  if sts = 0 then u
  else if sts &&& stsUsbint ≠ 0 then Loop.upto u.pipeCount pollPipe u
  else u

-- retire is the controller writing to the status word of a descriptor.
inductive Event where
  | control (r : Control) (left : Nat × Nat × Nat)
  | registerInterrupt (addr endpoint : UInt8) (dirIn : Bool) (maxPacket : UInt8) (cb : Bool)
  | irq (sts : Nat)
  | retire (i sts : Nat)

def step (u : Host) : Event → Host
  | .control r left => (uhciControl r left u).2
  | .registerInterrupt addr endpoint dirIn maxPacket cb =>
    (uhciRegisterInterrupt addr endpoint dirIn maxPacket cb u).2
  | .irq sts => uhciIrqHandler sts u
  | .retire i sts => setCtrlSts i sts u

def run (evs : List Event) : Host := evs.foldl step uhciInit

-- What the maximum length field of a token stands for.
def tokenLength (token : Nat) : Nat := actualLength (token >>> 21)

theorem tdTokenMaxlen_eq (n : Int) :
    tdTokenMaxlen n = (((n - 1) % 4294967296).toNat % 2048) <<< 21 := by
  rw [tdTokenMaxlen, Nat.shiftLeft_eq, Nat.shiftLeft_eq, u32]
  exact Nat.mul_mod_mul_right (2 ^ 21) _ 2048

theorem actualLength_eq (field : Nat) : actualLength field = (field + 1) % 2048 :=
  Nat.and_two_pow_sub_one_eq_mod _ 11

-- The macro takes one away from its argument, so the argument is what the field stands for.
theorem tokenLength_maxlen {low : Nat} (h : low < 2 ^ 21) (n : Int) :
    tokenLength (low ||| tdTokenMaxlen n) = (n % 2048).toNat := by
  rw [tokenLength, tdTokenMaxlen_eq, Nat.shiftRight_or_distrib, Nat.shiftLeft_shiftRight,
    Nat.shiftRight_eq_zero low 21 h, Nat.zero_or, actualLength_eq]
  omega

theorem low_lt {pid : Nat} (addr : UInt8) {endpoint toggle : UInt8} (hpid : pid < 2 ^ 8)
    (hendp : endpoint < 64) (htoggle : toggle < 2) :
    pid ||| tdTokenDevaddr addr ||| tdTokenEndp endpoint ||| tdTokenToggle toggle < 2 ^ 21 := by
  have hendp := UInt8.lt_iff_toNat_lt.mp hendp
  have htoggle := UInt8.lt_iff_toNat_lt.mp htoggle
  have haddr := addr.toNat_lt
  unfold tdTokenDevaddr tdTokenEndp tdTokenToggle
  rw [Nat.shiftLeft_eq, Nat.shiftLeft_eq, Nat.shiftLeft_eq]
  have hendp : endpoint.toNat < 64 := hendp
  have htoggle : toggle.toNat < 2 := htoggle
  refine Nat.or_lt_two_pow (Nat.or_lt_two_pow (Nat.or_lt_two_pow ?_ ?_) ?_) ?_
  all_goals omega

theorem setup_length (r : Control) : tokenLength r.setupToken = 7 :=
  tokenLength_maxlen (low_lt r.addr (by decide) (by decide) (by decide)) 7

theorem data_length (r : Control) (hpos : 1 ≤ r.setup.wLength.toNat)
    (hmax : r.setup.wLength.toNat ≤ 2048) :
    tokenLength r.dataToken = r.setup.wLength.toNat - 1 := by
  have hpid : (if r.dataIn then tdTokenPidIn else tdTokenPidOut) < 2 ^ 8 := by
    split <;> decide
  rw [Control.dataToken, tokenLength_maxlen (low_lt r.addr hpid (by decide) (by decide))]
  omega

theorem status_length (r : Control) : tokenLength r.statusToken = 2047 := by
  have hpid : (if r.dataIn then tdTokenPidOut else tdTokenPidIn) < 2 ^ 8 := by
    split <;> decide
  exact tokenLength_maxlen (low_lt r.addr hpid (by decide) (by decide)) 0x7FF

theorem pipe_length {p : IntPipe} (hendp : p.endpoint < 64) (htoggle : p.toggle < 2)
    (hmax : 1 ≤ p.maxPacket) : tokenLength (pipeToken p) = p.maxPacket.toNat - 1 := by
  have hpid : (if p.dirIn then tdTokenPidIn else tdTokenPidOut) < 2 ^ 8 := by
    split <;> decide
  have hlow := UInt8.le_iff_toNat_le.mp hmax
  have hhigh := p.maxPacket.toNat_lt
  rw [pipeToken, tokenLength_maxlen (low_lt p.devAddr hpid hendp htoggle)]
  have hone : (1 : UInt8).toNat = 1 := rfl
  omega

-- The descriptor of a pipe holds the token that the pipe's fields make.
structure Armed (i : Nat) (p : IntPipe) (td : Td) : Prop where
  own : p.td = i
  toggle : p.toggle < 2
  token : td.token = pipeToken p

structure Queued (u : Host) : Prop where
  room : u.pipeCount ≤ setupTd
  armed : ∀ i < u.pipeCount, Armed i (u.pipes i) (u.tdPool i)

section Queues

variable {u : Host}

theorem Queued.setTd_above (h : Queued u) {i : Nat} (hi : setupTd ≤ i) (td : Td) :
    Queued (u.setTd i td) := by
  refine ⟨h.room, fun j hj => ?_⟩
  have hne : j ≠ i := (Nat.lt_of_lt_of_le hj (h.room.trans hi)).ne
  rw [Host.setTd_tdPool, Function.update_of_ne hne]
  exact h.armed j hj

theorem Queued.setCtrlSts (h : Queued u) (i sts : Nat) : Queued (setCtrlSts i sts u) := by
  refine ⟨h.room, fun j hj => ?_⟩
  unfold Uhci.setCtrlSts
  rw [Host.setTd_tdPool, Function.update_apply]
  split
  · rename_i heq
    obtain ⟨hown, htoggle, htoken⟩ := h.armed j hj
    exact ⟨hown, htoggle, heq ▸ htoken⟩
  · exact h.armed j hj

theorem Queued.submit (h : Queued u) (r : Control) : Queued (submit r u) := by
  have hbuf : Queued { u with setupBuf := r.setup } := ⟨h.room, h.armed⟩
  have hsetup := hbuf.setTd_above le_rfl ⟨controlSts, r.setupToken⟩
  unfold Uhci.submit
  dsimp only
  refine Queued.setTd_above ?_ (by decide) _
  split
  · exact hsetup.setTd_above (by decide) _
  · exact hsetup

theorem Queued.control (h : Queued u) (r : Control) (left : Nat × Nat × Nat) :
    Queued (uhciControl r left u).2 := by
  have hleft := (((h.submit r).setCtrlSts setupTd left.1).setCtrlSts dataTd left.2.1).setCtrlSts
    statusTd left.2.2
  have habandon := ((hleft.setCtrlSts setupTd 0).setCtrlSts dataTd 0).setCtrlSts statusTd 0
  unfold uhciControl
  dsimp only
  split_ifs
  · exact habandon
  · exact habandon
  · exact hleft

-- What registering a pipe and arming it again have in common.
theorem Queued.arm (h : Queued u) {v : Host} {p : IntPipe} {i sts : Nat}
    (hroom : v.pipeCount ≤ setupTd) (hcount : ∀ j < v.pipeCount, j ≠ i → j < u.pipeCount)
    (hpipes : v.pipes = Function.update u.pipes i p)
    (hpool : v.tdPool = Function.update u.tdPool i ⟨sts, pipeToken p⟩)
    (hown : p.td = i) (htoggle : p.toggle < 2) : Queued v := by
  refine ⟨hroom, fun j hj => ?_⟩
  rw [hpipes, hpool]
  by_cases hji : j = i
  · rw [hji, Function.update_self, Function.update_self]
    exact ⟨hown, htoggle, rfl⟩
  · rw [Function.update_of_ne hji, Function.update_of_ne hji]
    exact h.armed j (hcount j hj hji)

theorem Queued.registerInterrupt (h : Queued u) (addr endpoint : UInt8) (dirIn : Bool)
    (maxPacket : UInt8) (cb : Bool) :
    Queued (uhciRegisterInterrupt addr endpoint dirIn maxPacket cb u).2 := by
  unfold uhciRegisterInterrupt
  split
  · exact h
  · rename_i hroom
    have hlt : u.pipeCount < setupTd := Nat.lt_of_not_le hroom
    refine h.arm (i := u.pipeCount) hlt (fun j hj hji => ?_) rfl rfl rfl
      (show (0 : UInt8) < 2 by decide)
    exact Nat.lt_of_le_of_ne (Nat.le_of_lt_succ hj) hji

theorem toggle_lt {t : UInt8} (h : t < 2) : t ^^^ 1 < 2 := by
  have hlt : t.toNat < 2 := UInt8.lt_iff_toNat_lt.mp h
  have ht : t = 0 ∨ t = 1 := by
    rcases Nat.lt_succ_iff_lt_or_eq.mp hlt with h0 | h1
    · exact .inl (UInt8.toNat.inj (Nat.lt_one_iff.mp h0))
    · exact .inr (UInt8.toNat.inj h1)
  rcases ht with rfl | rfl
  · decide
  · decide

theorem Queued.pollPipe (h : Queued u) {i : Nat} (hi : i < u.pipeCount) :
    Queued (pollPipe i u) ∧ (pollPipe i u).pipeCount = u.pipeCount := by
  obtain ⟨hown, htoggle, -⟩ := h.armed i hi
  have hflip := toggle_lt htoggle
  unfold Uhci.pollPipe
  dsimp only
  rw [hown]
  split
  · exact ⟨h, rfl⟩
  split
  · exact ⟨h, rfl⟩
  split
  · exact ⟨h.arm h.room (fun j hj _ => hj) rfl rfl rfl hflip, rfl⟩
  · exact ⟨h.arm h.room (fun j hj _ => hj) rfl rfl rfl hflip, rfl⟩

theorem Queued.irqHandler (h : Queued u) (sts : Nat) : Queued (uhciIrqHandler sts u) := by
  have hpoll : Queued (Loop.upto u.pipeCount Uhci.pollPipe u) ∧
      (Loop.upto u.pipeCount Uhci.pollPipe u).pipeCount = u.pipeCount := by
    refine Loop.upto_inv (fun _ v => Queued v ∧ v.pipeCount = u.pipeCount) ⟨h, rfl⟩ ?_
    intro i v hi ⟨hv, hcount⟩
    obtain ⟨hnext, hsame⟩ := hv.pollPipe (hcount.symm ▸ hi)
    exact ⟨hnext, hsame.trans hcount⟩
  unfold uhciIrqHandler
  split_ifs
  · exact h
  · exact hpoll.1
  · exact h

theorem Queued.step (h : Queued u) (ev : Event) : Queued (step u ev) := by
  cases ev with
  | control r left => exact h.control r left
  | registerInterrupt addr endpoint dirIn maxPacket cb =>
    exact h.registerInterrupt addr endpoint dirIn maxPacket cb
  | irq sts => exact h.irqHandler sts
  | retire i sts => exact h.setCtrlSts i sts

theorem run_queued (evs : List Event) : Queued (run evs) :=
  List.foldlRecOn evs step ⟨Nat.zero_le _, fun i hi => absurd hi (Nat.not_lt_zero i)⟩
    fun _ h ev _ => h.step ev

theorem submit_setup (r : Control) (u : Host) :
    ((submit r u).tdPool setupTd).token = r.setupToken := by
  unfold submit
  dsimp only
  rw [Host.setTd_tdPool, Function.update_of_ne (by decide)]
  split
  · rw [Host.setTd_tdPool, Function.update_of_ne (by decide), Host.setTd_tdPool,
      Function.update_self]
  · rw [Host.setTd_tdPool, Function.update_self]

theorem submit_data {r : Control} (u : Host) (hlen : r.setup.wLength ≠ 0) (hdata : r.data = true) :
    ((submit r u).tdPool dataTd).token = r.dataToken := by
  unfold submit
  dsimp only
  rw [if_pos ⟨hlen, hdata⟩, Host.setTd_tdPool, Function.update_of_ne (by decide), Host.setTd_tdPool,
    Function.update_self]

theorem submit_status (r : Control) (u : Host) :
    ((submit r u).tdPool statusTd).token = r.statusToken := by
  unfold submit
  dsimp only
  rw [Host.setTd_tdPool, Function.update_self]

end Queues

-- A pipe with a packet size that its buffer has room for. An endpoint has a number of four bits,
-- which enumerate_device takes from bEndpointAddress; below 64 it leaves the length field alone.
structure Usable (p : IntPipe) : Prop where
  endpoint : p.endpoint < 64
  low : 1 ≤ p.maxPacket
  high : p.maxPacket ≤ 64

def tdLength (u : Host) (i : Nat) : Nat := tokenLength (u.tdPool i).token

-- The lengths the descriptors should have while the controller works on r.
structure Lengths (r : Control) (u : Host) : Prop where
  setup : tdLength u setupTd = 8
  data : tdLength u dataTd = r.setup.wLength.toNat
  status : tdLength u statusTd = 0
  pipes : ∀ i < u.pipeCount, Usable (u.pipes i) →
    tdLength u (u.pipes i).td = (u.pipes i).maxPacket.toNat

-- No descriptor has the length it should have: the callers take one away that the macro takes too.
theorem lengths_never (evs : List Event) {r : Control} (hdata : r.data = true)
    (hpos : 1 ≤ r.setup.wLength.toNat) (hmax : r.setup.wLength.toNat ≤ 1280) :
    let u := submit r (run evs)
    tdLength u setupTd ≠ 8 ∧ tdLength u dataTd ≠ r.setup.wLength.toNat ∧ tdLength u statusTd ≠ 0 ∧
      ∀ i < u.pipeCount, Usable (u.pipes i) →
        tdLength u (u.pipes i).td ≠ (u.pipes i).maxPacket.toNat := by
  intro u
  have hlen : r.setup.wLength ≠ 0 := by
    intro h
    rw [h] at hpos
    exact absurd hpos (by decide)
  have hsetup : tdLength u setupTd = 7 := by
    rw [tdLength, submit_setup, setup_length]
  have hdatum : tdLength u dataTd = r.setup.wLength.toNat - 1 := by
    rw [tdLength, submit_data _ hlen hdata, data_length r hpos (by omega)]
  have hstatus : tdLength u statusTd = 2047 := by
    rw [tdLength, submit_status, status_length]
  refine ⟨by omega, by omega, by omega, fun i hi husable => ?_⟩
  obtain ⟨hown, htoggle, htoken⟩ := ((run_queued evs).submit r).armed i hi
  have hpipe : tdLength u (u.pipes i).td = (u.pipes i).maxPacket.toNat - 1 := by
    rw [hown, tdLength, htoken, pipe_length husable.endpoint htoggle husable.low]
  have hlow : 1 ≤ (u.pipes i).maxPacket.toNat := UInt8.le_iff_toNat_le.mp husable.low
  omega

-- The first request of enumerate_device.
def getDescriptor : Control := ⟨0, ⟨0x80, 6, 0x0100, 0, 8⟩, true⟩

theorem lengths_never_getDescriptor :
    let u := submit getDescriptor (run [.registerInterrupt 1 1 true 8 true])
    tdLength u setupTd ≠ 8 ∧ tdLength u dataTd ≠ 8 ∧ tdLength u statusTd ≠ 0 ∧
      ∀ i < u.pipeCount, Usable (u.pipes i) →
        tdLength u (u.pipes i).td ≠ (u.pipes i).maxPacket.toNat :=
  lengths_never [.registerInterrupt 1 1 true 8 true] rfl (by decide) (by decide)

theorem lengths_short :
    ¬Lengths getDescriptor (submit getDescriptor (run [.registerInterrupt 1 1 true 8 true])) := by
  intro h
  have hshort : tdLength (submit getDescriptor (run [.registerInterrupt 1 1 true 8 true])) setupTd =
      7 := by
    decide
  exact absurd (hshort.symm.trans h.setup) (by decide)

end Uhci
