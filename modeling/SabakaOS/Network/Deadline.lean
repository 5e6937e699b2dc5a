import Mathlib.Logic.Function.Iterate
import SabakaOS.Network.Tcp

namespace Pit

open Word

structure Clock where
  pitTickCount : Nat
  pitFrequency : Nat

def pitInit (c : Clock) (frequency : Nat) : Clock := { c with pitFrequency := frequency }

def pitTick (c : Clock) : Clock := { c with pitTickCount := u32 (c.pitTickCount + 1) }

def pitUptimeMs (c : Clock) : Nat := u32 (c.pitTickCount * 1000) / c.pitFrequency

def deadlineAfter (c : Clock) (timeout : Nat) : Nat := u32 (pitUptimeMs c + timeout)

-- The condition of the wait loops, pit_uptime_ms() < deadline.
def waits (deadline : Nat) (c : Clock) : Bool := pitUptimeMs c < deadline

-- The test of the timers, now >= deadline.
def due (deadline : Nat) (c : Clock) : Bool := deadline ≤ pitUptimeMs c

def dnsTimeoutMs : Nat := 3000

def cacheTtlSec (ttlSec : Nat) : Nat :=
  let ttlSec := if ttlSec < 30 then 30 else ttlSec
  if 300 < ttlSec then 300 else ttlSec

def nextTo (retxCount : Nat) : Nat :=
  let nextTo := u32 (Tcp.tcpRetxTimeoutMs * 2 ^ retxCount)
  if 32000 < nextTo then 32000 else nextTo

-- Everything in the kernel that adds a timeout to pit_uptime_ms() and compares later.
inductive Timer where
  | tcpConnect (timeoutMs : Nat)
  | tcpSend
  | tcpRecvWait (timeoutMs : Nat)
  | tcpClose
  | retransmit (retxCount : Fin 7)
  | timewait
  | dnsResolve
  | dnsCache (ttlSec : Nat)
  | udplRecvWait (timeoutMs : Nat)

def Timer.timeout : Timer → Nat
  | .tcpConnect timeoutMs => timeoutMs
  | .tcpSend => Tcp.tcpRetxTimeoutMs * 3
  | .tcpRecvWait timeoutMs => timeoutMs
  | .tcpClose => 4000
  | .retransmit retxCount => nextTo retxCount
  | .timewait => Tcp.tcpTimewaitMs
  | .dnsResolve => dnsTimeoutMs
  | .dnsCache ttlSec => u32 (cacheTtlSec ttlSec * 1000)
  | .udplRecvWait timeoutMs => timeoutMs

-- Whether the caller takes its deadline, set at clock c, as reached at clock now.
def Timer.reached (w : Timer) (c now : Clock) : Bool :=
  let deadline := deadlineAfter c w.timeout
  match w with
  | .tcpConnect _ => !waits deadline now
  | .tcpSend => !waits deadline now
  | .tcpRecvWait _ => !waits deadline now
  | .tcpClose => !waits deadline now
  | .retransmit _ => deadline != 0 && due deadline now
  | .timewait => due deadline now
  | .dnsResolve => !waits deadline now
  | .dnsCache _ => due deadline now
  | .udplRecvWait _ => !waits deadline now

section Ticks

variable {c : Clock} {t timeout k : Nat}

def at1000 (t : Nat) : Clock := pitInit ⟨t, 0⟩ 1000

theorem pitTick_iterate (t k : Nat) (ht : t < 4294967296) :
    pitTick^[k] (at1000 t) = at1000 (u32 (t + k)) := by
  induction k with
  | zero => rw [Function.iterate_zero_apply, Nat.add_zero, u32_of_lt ht]
  | succ k ih =>
    rw [Function.iterate_succ_apply', ih]
    have hu : u32 (u32 (t + k) + 1) = u32 (t + (k + 1)) := by
      unfold u32
      omega
    exact congrArg at1000 hu

theorem pitUptimeMs_at (t : Nat) : pitUptimeMs (at1000 t) = u32 (t * 1000) / 1000 := rfl

theorem uptime_later (t k : Nat) :
    pitUptimeMs (at1000 (u32 (t + k))) = u32 (u32 (t * 1000) + 1000 * k) / 1000 := by
  rw [pitUptimeMs_at]
  unfold u32
  omega

-- The sum of an uptime and a timeout never wraps: an uptime is below 2^32 / 1000.
theorem deadlineAfter_at (t : Nat) (hT : timeout ≤ 300000) :
    deadlineAfter (at1000 t) timeout = u32 (t * 1000) / 1000 + timeout := by
  rw [deadlineAfter, pitUptimeMs_at]
  have := u32_lt (t * 1000)
  exact u32_of_lt (by omega)

theorem due_eq_not_waits (d : Nat) (c : Clock) : due d c = !waits d c := by
  rw [due, waits, ← decide_not]
  exact decide_eq_decide.mpr Nat.not_lt.symm

theorem nextTo_pos (n : Fin 7) : 0 < nextTo n := by
  decide +revert

theorem reached_eq (w : Timer) (t : Nat) (hT : w.timeout ≤ 60000) (now : Clock) :
    w.reached (at1000 t) now =
      decide (u32 (t * 1000) / 1000 + w.timeout ≤ pitUptimeMs now) := by
  have hd : deadlineAfter (at1000 t) w.timeout = u32 (t * 1000) / 1000 + w.timeout :=
    deadlineAfter_at t (by omega)
  cases w with
  | retransmit n =>
    have hpos := nextTo_pos n
    have hne : u32 (t * 1000) / 1000 + nextTo n ≠ 0 := by omega
    rw [Timer.reached, hd, Timer.timeout, due, bne_iff_ne.mpr hne, Bool.true_and]
  | timewait => rw [Timer.reached, hd, due]
  | dnsCache n => rw [Timer.reached, hd, due]
  | _ => rw [Timer.reached, hd, ← due_eq_not_waits, due]

def clockOf (t : Tcp.TcpStack) : Clock := ⟨t.pitTickCount, t.pitFrequency⟩

theorem tickSock_timewait (t : Tcp.TcpStack) (s : Tcp.TcpSocket) (hu : s.used = true)
    (hs : s.state = .timeWait) (hd : s.timewaitDeadline = deadlineAfter c Tcp.tcpTimewaitMs) :
    Tcp.tickSock t (Tcp.pitUptimeMs t) s =
      (if Timer.timewait.reached c (clockOf t) then Tcp.freeSock s else s, t) := by
  simp only [Tcp.tickSock, hu, Bool.not_true, Bool.false_eq_true, if_false, hs, if_true, hd,
    Timer.reached, due, decide_eq_true_eq]
  rfl

theorem tickSock_retransmit (t : Tcp.TcpStack) (s : Tcp.TcpSocket) (n : Fin 7)
    (hu : s.used = true) (hs : s.state ≠ .timeWait)
    (hd : s.retxDeadline = deadlineAfter c (nextTo n)) :
    Tcp.tickSock t (Tcp.pitUptimeMs t) s =
      if (Timer.retransmit n).reached c (clockOf t) then
        if Tcp.seqGt s.sndNxt s.sndUna then Tcp.doRetransmit t s
        else ({ s with retxDeadline := 0 }, t)
      else (s, t) := by
  simp only [Tcp.tickSock, hu, Bool.not_true, Bool.false_eq_true, if_false, hs, hd,
    Timer.reached, due, Bool.and_eq_true, bne_iff_ne, decide_eq_true_eq]
  rfl

end Ticks

-- The uptime must not wrap before twice the timeout has passed.
theorem deadline_exact (w : Timer) (t : Nat) (ht : t < 2 ^ 32) (hT : w.timeout ≤ 60000) :
    (∀ k ≤ 2 * w.timeout,
      (w.reached (at1000 t) (pitTick^[k] (at1000 t)) = true ↔ w.timeout ≤ k)) ↔
      u32 (t * 1000) + 2000 * w.timeout < 2 ^ 32 := by
  have hr := u32_lt (t * 1000)
  have key : ∀ k, w.reached (at1000 t) (pitTick^[k] (at1000 t)) = true ↔
      u32 (t * 1000) / 1000 + w.timeout ≤ u32 (u32 (t * 1000) + 1000 * k) / 1000 := fun k => by
    rw [pitTick_iterate t k ht, reached_eq w t hT, uptime_later, decide_eq_true_iff]
  constructor
  · intro h
    by_contra hwrap
    have h2 := (key _).mp ((h (2 * w.timeout) le_rfl).mpr (by omega))
    have hu : u32 (u32 (t * 1000) + 1000 * (2 * w.timeout)) =
        u32 (t * 1000) + 2000 * w.timeout - 4294967296 := by
      rw [u32]
      omega
    omega
  · intro h k hk
    rw [key, u32_of_lt (show u32 (t * 1000) + 1000 * k < 4294967296 by omega)]
    omega

theorem deadline_exact_connect :
    (∀ k ≤ 2 * 5000, ((Timer.tcpConnect 5000).reached (at1000 0)
      (pitTick^[k] (at1000 0)) = true ↔ 5000 ≤ k)) ↔ u32 (0 * 1000) + 2000 * 5000 < 2 ^ 32 :=
  deadline_exact (.tcpConnect 5000) 0 (by decide) (by decide)

-- 4294 seconds after boot, tcp_close's four seconds are still not over when eight have passed.
theorem deadline_exact_fails :
    ¬ ∀ (w : Timer) (t : Nat), t < 2 ^ 32 → w.timeout ≤ 60000 → ∀ k ≤ 2 * w.timeout,
      (w.reached (at1000 t) (pitTick^[k] (at1000 t)) = true ↔ w.timeout ≤ k) := by
  intro h
  have hk := (h .tcpClose 4294000 (by decide) (by decide) 4000 (by decide)).mpr le_rfl
  rw [pitTick_iterate 4294000 4000 (by decide)] at hk
  exact absurd hk (by decide)

end Pit
